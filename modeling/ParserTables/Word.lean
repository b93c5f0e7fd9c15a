/-!
Signed words of 64 bits, as which the numbers of tables are kept.
-/

namespace ParserTables

namespace Word

def limit : Nat := 0x8000000000000000

def wrap (n : Int) : Int := Int.bmod n 0x10000000000000000

theorem wrap_of_small (n : Int) (low : -(limit : Int) ≤ n) (high : n < limit) : wrap n = n := by
  unfold limit at low high
  unfold wrap
  apply Int.bmod_eq_of_le <;> omega

end Word

end ParserTables
