import DocQuery.Text.Printable

/-!
# DocQuery.Text.Quoted — quoted forms of texts and byte strings

A quoted form stands between single quotes, or between double quotes if the content has a single
quote and no double one.  The backslash, the enclosing quote, newline, return and tab are escaped
by a backslash; other characters that cannot be shown are written by their code in hexadecimal.
-/

namespace DocQuery.Text

/-- A hexadecimal digit in lower case. -/
def hexDigit (n : Nat) : Char := Nat.digitChar (n % 16)

/-- The `width` lowest hexadecimal digits of `n`, most significant first. -/
def hexDigits : Nat → Nat → List Char
  | 0, _ => []
  | width + 1, n => hexDigits width (n / 16) ++ [hexDigit n]

@[simp] theorem length_hexDigits (width n : Nat) : (hexDigits width n).length = width := by
  induction width generalizing n with
  | zero => rfl
  | succ w ih => simp [hexDigits, ih]

def singleQuote : Char := Char.ofNat 39

def doubleQuote : Char := Char.ofNat 34

def backslash : Char := Char.ofNat 92

/-- The enclosing quote for a content. -/
def enclosing (cs : List Char) : Char :=
  if cs.contains singleQuote && !cs.contains doubleQuote then doubleQuote else singleQuote

/-- The escapes that texts and byte strings share. -/
def shortEscape? (quote c : Char) : Option (List Char) :=
  if c == backslash || c == quote then some [backslash, c]
  else if c == '\n' then some [backslash, 'n']
  else if c == '\r' then some [backslash, 'r']
  else if c == '\t' then some [backslash, 't']
  else none

/-- A character that is not printable, by its code in two, four or eight digits. -/
def codeEscape (c : Char) : List Char :=
  let n := c.toNat
  if n < 0x100 then backslash :: 'x' :: hexDigits 2 n
  else if n < 0x10000 then backslash :: 'u' :: hexDigits 4 n
  else backslash :: 'U' :: hexDigits 8 n

def quoteChar (quote c : Char) : List Char :=
  (shortEscape? quote c).getD (if isPrintable c then [c] else codeEscape c)

/-- The quoted form of a text. -/
def quoted (s : String) : String :=
  let cs := s.toList
  let quote := enclosing cs
  String.ofList (quote :: (cs.flatMap (quoteChar quote) ++ [quote]))

/-- A byte of a quoted byte string; bytes outside printable ASCII are written by code. -/
def quoteByte (escaped : Char) (b : UInt8) : List Char :=
  let c := Char.ofNat b.toNat
  (shortEscape? escaped c).getD
    (if 32 ≤ b.toNat && b.toNat < 127 then [c] else backslash :: 'x' :: hexDigits 2 b.toNat)

/-- The enclosing quote for bytes, each read as a character. -/
def enclosingBytes (bs : List UInt8) : Char := enclosing (bs.map fun b => Char.ofNat b.toNat)

/-- Bytes between quotes, marked by a leading `b`, with one kind of quote escaped. -/
def bytesBetween (quote escaped : Char) (bs : List UInt8) : String :=
  String.ofList ('b' :: quote :: (bs.flatMap (quoteByte escaped) ++ [quote]))

/-- The quoted form of a byte string. -/
def quotedBytes (bs : List UInt8) : String :=
  bytesBetween (enclosingBytes bs) (enclosingBytes bs) bs

/-- The quoted form of a byte array: a single quote is escaped whatever stands around it. -/
def quotedByteArray (bs : List UInt8) : String := bytesBetween (enclosingBytes bs) singleQuote bs

end DocQuery.Text
