/-!
# DocQuery.Number.Decimal — binary64 numbers under their shortest decimal names

A binary64 number is held by its name: the shortest decimal numeral that rounds back to it.  Two
finite numbers are then equal exactly when their names are, zero apart.  `Binary64.text` lays a
name out and `Binary64.ofText?` reads it back; `Decimal.integer?` recovers the exact integer that
a name stands for.
-/

namespace DocQuery

/-- A decimal numeral `± significand · 10 ^ exponent` without trailing zeros. -/
structure Decimal where
  negative : Bool
  significand : Nat
  exponent : Int
  normal : significand % 10 ≠ 0 ∨ (significand = 0 ∧ exponent = 0)
deriving DecidableEq

namespace Decimal

/-- Moves trailing zeros of the significand into the exponent; `fuel` bounds their number. -/
def strip : Nat → Nat → Int → Nat × Int
  | 0, s, e => (s, e)
  | fuel + 1, s, e => if s % 10 = 0 ∧ s ≠ 0 then strip fuel (s / 10) (e + 1) else (s, e)

/-- The numeral `± s · 10 ^ e` in its normal form. -/
def ofScaled (negative : Bool) (s : Nat) (e : Int) : Decimal :=
  let r := strip s s e
  if h : r.1 % 10 ≠ 0 then ⟨negative, r.1, r.2, .inl h⟩ else ⟨negative, 0, 0, .inr ⟨rfl, rfl⟩⟩

/-- The digits of the significand, most significant first. -/
def digits (d : Decimal) : List Char := Nat.toDigits 10 d.significand

/-- The power of ten of the leading digit. -/
def magnitude (d : Decimal) : Int := d.exponent + d.digits.length - 1

/-- Rounds to 53 significant bits, a half going to the even neighbour. -/
def toBits53 (n : Nat) : Nat :=
  if n < Nat.pow 2 53 then n else
  let shift := n.log2 - 52
  let q := n >>> shift
  let rest := n - (q <<< shift)
  let half := Nat.pow 2 (shift - 1)
  let up := if rest > half ∨ (rest = half ∧ q % 2 = 1) then 1 else 0
  (q + up) <<< shift

/--
The integer a binary64 number named `d` is equal to, if it is one.  A shortest name with a
negative exponent never stands for an integer; above `2 ^ 53` the name is only near its number.
-/
def integer? (d : Decimal) : Option Int :=
  if d.exponent < 0 then none else
  let m : Int := toBits53 (d.significand * Nat.pow 10 d.exponent.toNat)
  some (if d.negative then -m else m)

/-- Numerals are written positionally from `10 ^ -4` up to, and without, `10 ^ 16`. -/
def isPositional (d : Decimal) : Bool := -4 ≤ d.magnitude && d.magnitude < 16

/-- A natural number in at least two digits. -/
def twoDigits (n : Nat) : List Char :=
  if n < 10 then '0' :: Nat.toDigits 10 n else Nat.toDigits 10 n

/-- Digits with the point `place` digits from the left, at least one digit on either side. -/
def positional (ds : List Char) (place : Int) : List Char :=
  if place ≤ 0 then '0' :: '.' :: (List.replicate (-place).toNat '0' ++ ds)
  else if ds.length ≤ place.toNat then
    ds ++ List.replicate (place.toNat - ds.length) '0' ++ ['.', '0']
  else ds.take place.toNat ++ '.' :: ds.drop place.toNat

/-- One digit before the point, the point only if digits follow, and a signed exponent. -/
def scientific (ds : List Char) (power : Int) : List Char :=
  let mantissa := match ds with
    | d :: e :: rest => d :: '.' :: e :: rest
    | short => short
  mantissa ++ 'e' :: (if power < 0 then '-' else '+') :: twoDigits power.natAbs

/-- The text of a numeral, sign included. -/
def chars (d : Decimal) : List Char :=
  (if d.negative then ['-'] else []) ++
    if d.isPositional then positional d.digits (d.magnitude + 1)
    else scientific d.digits d.magnitude

end Decimal

/-- A binary64 number. -/
inductive Binary64
  | finite (name : Decimal)
  | infinite (negative : Bool)
  | nan
deriving DecidableEq

namespace Binary64

def text : Binary64 → String
  | .finite d => String.ofList d.chars
  | .infinite false => "inf"
  | .infinite true => "-inf"
  | .nan => "nan"

/-- Zero of either sign. -/
def isZero : Binary64 → Bool
  | .finite d => d.significand == 0
  | _ => false

def integer? : Binary64 → Option Int
  | .finite d => d.integer?
  | _ => none

/-! ### Reading -/

/-- The value of a run of decimal digits. -/
def natOfDigits? (cs : List Char) : Option Nat :=
  if cs.isEmpty || !cs.all Char.isDigit then none
  else some (cs.foldl (fun n c => 10 * n + (c.toNat - 48)) 0)

/-- A decimal exponent, with or without a sign. -/
def exponentOfChars? : List Char → Option Int
  | '-' :: cs => (natOfDigits? cs).map fun n => -(n : Int)
  | '+' :: cs => (natOfDigits? cs).map Int.ofNat
  | cs => (natOfDigits? cs).map Int.ofNat

/-- An unsigned numeral: digits, an optional fraction and an optional exponent. -/
def magnitudeOfChars? (negative : Bool) (cs : List Char) : Option Decimal := do
  let mantissa := cs.takeWhile (· != 'e')
  let power ← match cs.dropWhile (· != 'e') with
    | [] => some 0
    | _ :: rest => exponentOfChars? rest
  let whole := mantissa.takeWhile (· != '.')
  let fraction := (mantissa.dropWhile (· != '.')).drop 1
  let n ← natOfDigits? (whole ++ fraction)
  some (Decimal.ofScaled negative n (power - fraction.length))

def ofText? (s : String) : Option Binary64 :=
  match s with
  | "inf" => some (.infinite false)
  | "-inf" => some (.infinite true)
  | "nan" => some .nan
  | _ => match s.toList with
    | '-' :: cs => (magnitudeOfChars? true cs).map .finite
    | cs => (magnitudeOfChars? false cs).map .finite

end Binary64

end DocQuery
