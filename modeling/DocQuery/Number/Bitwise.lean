/-!
# DocQuery.Number.Bitwise — bitwise operations on unbounded integers

An integer is read as an infinite row of bits in two's complement: a negative number has ones from
some place on.  A pair of signs leaves one of three natural-number operations to do, since the
complement of `n` is `-n - 1`, the constructor `Int.negSucc`.
-/

namespace DocQuery.Bitwise

/-- Bits of `m` that are not bits of `n`. -/
def without (m n : Nat) : Nat := m - (m &&& n)

/-- Every bit set in both. -/
def both : Int → Int → Int
  | .ofNat m, .ofNat n => .ofNat (m &&& n)
  | .ofNat m, .negSucc n => .ofNat (without m n)
  | .negSucc m, .ofNat n => .ofNat (without n m)
  | .negSucc m, .negSucc n => .negSucc (m ||| n)

/-- Every bit set in one of the two. -/
def either : Int → Int → Int
  | .ofNat m, .ofNat n => .ofNat (m ||| n)
  | .ofNat m, .negSucc n => .negSucc (without n m)
  | .negSucc m, .ofNat n => .negSucc (without m n)
  | .negSucc m, .negSucc n => .negSucc (m &&& n)

/-- Every bit turned over. -/
def complement (a : Int) : Int := -a - 1

end DocQuery.Bitwise
