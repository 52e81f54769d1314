import DocQuery.Document

/-!
# DocQuery.Fingerprint.Normal — the form in which documents are fingerprinted

Moments become their ISO texts, object identifiers their digits, tuples lists, and keys their
texts.  Documents under the key `$sort` become lists of pairs, since the order of their keys has a
meaning.
-/

namespace DocQuery

/-- An entry of a sort document: its key as text, and its value. -/
def pairValue (key : String) (v : Value) : Value := .list [.str key, v]

mutual

/-- The normal form of a value. -/
def Value.normal : Value → Value
  | .scalar (.moment m) => .str m.isoText
  | .scalar (.objectId hex) => .str hex
  | .doc es => .doc (Document.ofPairs (normalEntries es))
  | .list xs => .list (normalItems xs)
  | .tuple xs => .list (normalItems xs)
  | v => v

/-- The normal forms of items. -/
def normalItems : List Value → List Value
  | [] => []
  | x :: xs => x.normal :: normalItems xs

/-- The normal forms of entries; a sort document is taken apart. -/
def normalEntries : List (Value × Value) → List (Value × Value)
  | [] => []
  | (k, .doc fs) :: es =>
    (.str k.text,
      if k == .str Key.sort then .list (sortPairs fs)
      else .doc (Document.ofPairs (normalEntries fs))) :: normalEntries es
  | (k, v) :: es => (.str k.text, v.normal) :: normalEntries es

/-- The entries of a sort document as pairs, in order. -/
def sortPairs : List (Value × Value) → List Value
  | [] => []
  | (k, v) :: es => pairValue k.text v.normal :: sortPairs es

end

end DocQuery
