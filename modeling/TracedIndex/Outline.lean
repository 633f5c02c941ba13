import TracedIndex.Tree

/-!
# Outlines

An **outline** is what a person is shown of a value: a bare text, a value under a name, or a record
of named fields. It is written on one line, or over several with every part on a line of its own,
four spaces deeper than what it belongs to.

* `oneLine` and `lines` write an outline;
* `Tree.outline` is the outline of a tree: its order, root, length and height.
-/

namespace TracedIndex

/-- A value as a person is shown it. -/
inductive Outline where
  | bare (text : String)
  | named (name : String) (value : Outline)
  | record (name : String) (fields : List (String × Outline))

namespace Outline

mutual

def oneLine : Outline → String
  | .bare text => text
  | .named name value => name ++ "(" ++ oneLine value ++ ")"
  | .record name fields => name ++ " \x7b " ++ ", ".intercalate (oneLineFields fields) ++ " \x7d"

/-- The fields of a record, each on one line. -/
def oneLineFields : List (String × Outline) → List String
  | [] => []
  | (name, value) :: fields => (name ++ ": " ++ oneLine value) :: oneLineFields fields

end

def indent (line : String) : String := "    " ++ line

/-- A name put in front of the first line. -/
def lead (name : String) : List String → List String
  | [] => [name]
  | line :: lines => (name ++ line) :: lines

/-- A comma put behind the last line. -/
def close (lines : List String) : List String :=
  match lines.reverse with
  | [] => []
  | last :: rest => ((last ++ ",") :: rest).reverse

mutual

def lines : Outline → List String
  | .bare text => [text]
  | .named name value => [name ++ "("] ++ (close (lines value)).map indent ++ [")"]
  | .record name fields => [name ++ " \x7b"] ++ (linesOfFields fields).map indent ++ ["\x7d"]

def linesOfFields : List (String × Outline) → List String
  | [] => []
  | (name, value) :: fields => close (lead (name ++ ": ") (lines value)) ++ linesOfFields fields

end

def severalLines (x : Outline) : String := "\n".intercalate x.lines

end Outline

def Tree.outline {K : Type} {o : Order} (t : Tree K o) : Except Fault Outline := do
  pure (.record "GenericTree" [
    ("order", .bare (toString o.size)),
    ("root", .named "NodeId" (.bare (toString t.root.index))),
    ("len", .bare (toString t.len)),
    ("height", .bare (toString (← t.height)))])

end TracedIndex
