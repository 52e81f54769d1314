import DocQuery.Fingerprint.Normal
import DocQuery.Text.Quoted

/-!
# DocQuery.Fingerprint.Json — canonical JSON texts

`Json.ofValue` puts the text of a value in place of every value that JSON has no form for, and
`Json.sorted` sorts the members of every object by key.  `Json.chars` writes a form without blanks
and in ASCII alone.
-/

namespace DocQuery

inductive Json
  | null
  | bool (b : Bool)
  | int (n : Int)
  | float (x : Binary64)
  | str (s : String)
  | arr (items : List Json)
  | obj (members : List (String × Json))

namespace Json

/-! ### From values -/

def ofScalar : Scalar → Json
  | .null => .null
  | .bool b => .bool b
  | .int n => .int n
  | .float x => .float x
  | s => .str s.text

mutual

/-- The form of a value, members in the order of its keys. -/
def ofValue : Value → Json
  | .scalar s => ofScalar s
  | .list xs | .tuple xs => .arr (ofItems xs)
  | .doc es => .obj (ofEntries es)
  | v => .str v.shown

def ofItems : List Value → List Json
  | [] => []
  | x :: xs => ofValue x :: ofItems xs

def ofEntries : List (Value × Value) → List (String × Json)
  | [] => []
  | (k, v) :: es => (k.text, ofValue v) :: ofEntries es

end

/-! ### Sorted members -/

/-- Puts a member where it belongs among members sorted by key. -/
def insertMember (k : String) (v : Json) : List (String × Json) → List (String × Json)
  | [] => [(k, v)]
  | m :: ms => if k ≤ m.1 then (k, v) :: m :: ms else m :: insertMember k v ms

theorem insertMember_perm (k : String) (v : Json) (ms : List (String × Json)) :
    (insertMember k v ms).Perm ((k, v) :: ms) := by
  induction ms with
  | nil => exact .refl _
  | cons m ms ih =>
    unfold insertMember
    split
    · exact .refl _
    · exact (ih.cons m).trans (.swap _ _ _)

mutual

/-- The same form with the members of every object sorted by key. -/
def sorted : Json → Json
  | .arr xs => .arr (sortedItems xs)
  | .obj ms => .obj (sortedMembers ms)
  | j => j

def sortedItems : List Json → List Json
  | [] => []
  | x :: xs => sorted x :: sortedItems xs

def sortedMembers : List (String × Json) → List (String × Json)
  | [] => []
  | (k, v) :: ms => insertMember k (sorted v) (sortedMembers ms)

end

/-! ### Texts -/

/-- A UTF-16 code unit by its number in four hexadecimal digits. -/
def unitEscape (n : Nat) : List Char := Text.backslash :: 'u' :: Text.hexDigits 4 n

/-- A code point by one code unit, or by two beyond the basic plane. -/
def codeEscape (n : Nat) : List Char :=
  if n < 0x10000 then unitEscape n
  else
    let m := n - 0x10000
    unitEscape (0xd800 + m / 0x400) ++ unitEscape (0xdc00 + m % 0x400)

/-- A character of a string: printable ASCII stands for itself, quote and backslash apart. -/
def escape (c : Char) : List Char :=
  if c == Text.doubleQuote || c == Text.backslash then [Text.backslash, c]
  else if c == '\n' then [Text.backslash, 'n']
  else if c == '\r' then [Text.backslash, 'r']
  else if c == '\t' then [Text.backslash, 't']
  else if c.toNat == 8 then [Text.backslash, 'b']
  else if c.toNat == 12 then [Text.backslash, 'f']
  else if 32 ≤ c.toNat && c.toNat < 127 then [c]
  else codeEscape c.toNat

def stringChars (s : String) : List Char :=
  Text.doubleQuote :: (s.toList.flatMap escape ++ [Text.doubleQuote])

def floatChars : Binary64 → List Char
  | .finite d => d.chars
  | .infinite false => "Infinity".toList
  | .infinite true => "-Infinity".toList
  | .nan => "NaN".toList

mutual

def chars : Json → List Char
  | null => "null".toList
  | bool true => "true".toList
  | bool false => "false".toList
  | int n => Integer.chars n
  | float x => floatChars x
  | str s => stringChars s
  | arr [] => ['[', ']']
  | arr (x :: xs) => '[' :: (chars x ++ itemsTail xs)
  | obj [] => ['\x7b', '\x7d']
  | obj ((k, v) :: ms) => '\x7b' :: (stringChars k ++ ':' :: (chars v ++ membersTail ms))

/-- What follows an item of an array. -/
def itemsTail : List Json → List Char
  | [] => [']']
  | x :: xs => ',' :: (chars x ++ itemsTail xs)

/-- What follows a member of an object. -/
def membersTail : List (String × Json) → List Char
  | [] => ['\x7d']
  | (k, v) :: ms => ',' :: (stringChars k ++ ':' :: (chars v ++ membersTail ms))

end

def text (j : Json) : String := String.ofList j.chars

end Json

end DocQuery
