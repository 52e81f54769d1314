/-!
# DocQuery.Number.Integer — decimal texts of integers
-/

namespace DocQuery.Integer

/-- The decimal digits of an integer, with a sign if it is negative. -/
def chars (n : Int) : List Char :=
  if n < 0 then '-' :: Nat.toDigits 10 n.natAbs else Nat.toDigits 10 n.natAbs

def text (n : Int) : String := String.ofList (chars n)

end DocQuery.Integer
