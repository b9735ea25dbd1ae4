/-!
# Binary expansions

The number of bits of a natural number, its bits, and the number that bits stand for.  Bits are
listed most significant first, so that a computation that folds over `bits n` can be described by the
numbers that the initial segments stand for.
-/

namespace SigScript.Binary

/-- The number of bits of `n`; zero has none. -/
def bitLength (n : Nat) : Nat := if n = 0 then 0 else n.log2 + 1

/-- The bits of `n`, most significant first; zero has none. -/
def bits (n : Nat) : List Bool := (List.range (bitLength n)).reverse.map n.testBit

/-- The number that a list of bits stands for, most significant first. -/
def ofBits (bs : List Bool) : Nat := bs.foldl (fun n b => 2 * n + b.toNat) 0

end SigScript.Binary
