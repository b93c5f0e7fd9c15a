import ParserTables.Command.Run

/-!
The program: it runs a command on the files of the system.
-/

namespace ParserTables

def FileError.ofIO : IO.Error → FileError
  | .noFileOrDirectory .. => .missing
  | .inappropriateType _ code _ => if code = 21 then .isDirectory else .notDirectory
  | .invalidArgument .. => .invalidName
  | _ => .missing

partial def readAll (stream : IO.FS.Stream) (acc : ByteArray) : IO ByteArray := do
  let chunk ← stream.read 65536
  if chunk.isEmpty then return acc else readAll stream (acc ++ chunk)

def systemHost : Host IO where
  input := do
    return (← readAll (← IO.getStdin) .empty).toList
  read path := do
    try return .ok (← IO.FS.readBinFile path).toList
    catch e => return .error (.ofIO e)
  isDirectory path := do
    try
      let _ ← IO.FS.readBinFile path
      return .ok false
    catch e =>
      match FileError.ofIO e with
      | .isDirectory => return .ok true
      | e => return .error e
  write path content := do
    try
      IO.FS.writeBinFile path ⟨content.toArray⟩
      return .ok ()
    catch e => return .error (.ofIO e)

end ParserTables

def main (arguments : List String) : IO UInt32 := do
  match ← ParserTables.Command.run ParserTables.systemHost arguments with
  | .ok outcome =>
    (← IO.getStdout).write ⟨outcome.output.toArray⟩
    return if outcome.failed then 1 else 0
  | .error b =>
    IO.eprintln (b.message?.getD "")
    return 2
