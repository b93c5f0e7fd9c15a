import ParserTables.Text.Space
import ParserTables.Grammar.Declaration
import ParserTables.Grammar.Reader
import ParserTables.Symbol
import ParserTables.Item
import ParserTables.Report
import ParserTables.Tree
import ParserTables.Numbering.Basic
import ParserTables.Automaton.Basic
import ParserTables.Automaton.Description
import ParserTables.Table.Flatten
import ParserTables.Lexer.Scan
import ParserTables.Lexer.Spec
import ParserTables.Parser.Run
import ParserTables.Parser.Forest
import ParserTables.Parser.Message
import ParserTables.Parser.Options
import ParserTables.Compiled
import ParserTables.Compiled.Format
import ParserTables.Session
import ParserTables.Console
import ParserTables.Workspace
import ParserTables.Command.Arguments
import ParserTables.Command.Run
import ParserTables.Main
import ParserTables.Proofs.Symbols
import ParserTables.Proofs.Naming
import ParserTables.Proofs.Declaring
import ParserTables.Proofs.Numbering
import ParserTables.Proofs.Passes
import ParserTables.Proofs.Validity
import ParserTables.Proofs.Safety
import ParserTables.Proofs.Derivation
import ParserTables.Proofs.Closure
import ParserTables.Proofs.State
import ParserTables.Proofs.Lookup
import ParserTables.Proofs.Table
import ParserTables.Proofs.Generation
import ParserTables.Proofs.Exploration
import ParserTables.Proofs.Flattening
import ParserTables.Proofs.Step
import ParserTables.Proofs.Execution
import ParserTables.Proofs.Trees
import ParserTables.Proofs.Soundness
import ParserTables.Proofs.ViablePrefix
import ParserTables.Proofs.Follow
import ParserTables.Proofs.Adequacy
import ParserTables.Proofs.Completeness
import ParserTables.Proofs.Strictness
import ParserTables.Proofs.Operators
import ParserTables.Proofs.OperatorStates
import ParserTables.Proofs.OperatorTrees
import ParserTables.Proofs.OperatorParsing
import ParserTables.Proofs.Termination
import ParserTables.Proofs.Skeleton
import ParserTables.Proofs.Structure
import ParserTables.Proofs.Bounds
import ParserTables.Automaton.Gather
import ParserTables.Proofs.Gathering
import ParserTables.Proofs.Resolution
import ParserTables.Proofs.Followers
import ParserTables.Proofs.Recovery
import ParserTables.Proofs.Conflicts
import ParserTables.Proofs.Layout
import ParserTables.Proofs.Registration
import ParserTables.Proofs.Terminals
import ParserTables.Proofs.Kinds
import ParserTables.Proofs.Lexemes
import ParserTables.Proofs.Positions
import ParserTables.Proofs.Rendering
import ParserTables.Proofs.SpecificationName
import ParserTables.Proofs.Walking
import ParserTables.Proofs.Contexts
import ParserTables.Proofs.Worklist
import ParserTables.Proofs.Ending
