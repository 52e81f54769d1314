import DocQuery.Value.Display

/-!
# DocQuery.Log — what happens on the way and is worth a line in the log
-/

namespace DocQuery

inductive Event
  /-- A pipeline was compiled to so many stages. -/
  | compiled (stages : Nat)
  /-- A match stage was asked for without a filter, and left out. -/
  | matchSkipped
  /-- The payload of a key gave way to another, since not both were documents. -/
  | replaced (key : Value)

/-- The line of the log. -/
def Event.message : Event → String
  | compiled n => "Compiled pipeline with " ++ Integer.text n ++ " stages"
  | matchSkipped => "Skipping $match stage for empty filter"
  | replaced key => "Update key '" ++ key.text ++ "' replaced wholesale (non-mapping payload)"

end DocQuery
