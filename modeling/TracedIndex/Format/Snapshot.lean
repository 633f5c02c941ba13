import TracedIndex.Format.Key
import TracedIndex.Snapshot

/-!
# Snapshots in JSON

A snapshot is a record of its order, height, length and root node. A node is an object that tells
its **kind**: a leaf with its number, keys and next leaf, or an internal node with its number, keys
and children. When read, fields may come in any order, the kind too. Other fields do not matter, and
neither do the children of a leaf or the next leaf of an internal node; a missing next leaf is none.

The root is read completely before it is looked at as a node, so its whole text has to be JSON, with
the limit on nested arrays and objects. In an array a node may give its kind first and its fields
behind it, in order; below the root a kind may also be given by number.

* `Snapshot.write`, `Snapshot.parse`: the text of a snapshot;
* `Subtree.toValue`, `Subtree.ofValue?`: a node as a value, and the node that a value stands for.
-/

namespace TracedIndex

open Json

variable {K : Type} [KeyFormat K]

namespace Subtree

/-! ## Writing -/

mutual

def toValue : Subtree K → Value
  | .leaf id keys next =>
    .object [("kind", .ofText "leaf"), ("id", id.toValue), ("keys", keysValue keys),
      ("next", next.elim (.scalar .null) NodeId.toValue)]
  | .branch id keys children =>
    .object [("kind", .ofText "internal"), ("id", id.toValue), ("keys", keysValue keys),
      ("children", .array (toValues children))]

def toValues : List (Subtree K) → List Value
  | [] => []
  | s :: ss => toValue s :: toValues ss

end

/-! ## Kinds and fields -/

inductive Kind where
  | leaf
  | internal
deriving DecidableEq

namespace Kind

def ofName? (name : String) : Option Kind :=
  if name = "leaf" then some leaf else if name = "internal" then some internal else none

/-- The kind that a value stands for: its name, or its number. -/
def ofValue? : Value → Option Kind
  | .scalar (.string name) => ofName? name
  | .scalar (.number (.whole n)) =>
    if n = 0 then some leaf else if n = 1 then some internal else none
  | _ => none

def read : Reader Kind := readAs fun s => s.toText?.bind ofName?

end Kind

/-- The value of a field that must not come twice; nothing if it does not come at all. -/
def field? (name : String) (members : List (String × Value)) : Option (Option Value) :=
  match members.filter fun m => m.1 == name with
  | [] => some none
  | [m] => some (some m.2)
  | _ :: _ :: _ => none

/-- The value of a field that must come once. -/
def requiredField? (name : String) (members : List (String × Value)) : Option Value :=
  (field? name members).join

/-- The number of a node. -/
def idOf? : Value → Option NodeId
  | .scalar s => NodeId.ofScalar? s
  | _ => none

/-- The number of a node, or none. -/
def nextOf? : Value → Option (Option NodeId)
  | .scalar .null => some none
  | v => (idOf? v).map some

def keysOf? (v : Value) : Option (List K) := do
  (← v.elements?).mapM KeyFormat.ofValue?

/-- What a node holds besides its kind: by name, or in order. -/
inductive Fields where
  | named (members : List (String × Value))
  | inOrder (values : List Value)

/-- The node of a given kind with given fields; `child?` tells its children. -/
def ofFields? (child? : Value → Option (Subtree K)) : Kind → Fields → Option (Subtree K)
  | .leaf, .named ms => do
    let id ← idOf? (← requiredField? "id" ms)
    let keys ← keysOf? (← requiredField? "keys" ms)
    let next ← (← field? "next" ms).elim (some none) nextOf?
    pure (.leaf id keys next)
  | .internal, .named ms => do
    let id ← idOf? (← requiredField? "id" ms)
    let keys ← keysOf? (← requiredField? "keys" ms)
    let children ← (← requiredField? "children" ms).elements?
    pure (.branch id keys (← children.mapM child?))
  | .leaf, .inOrder [id, keys, next] => do
    pure (.leaf (← idOf? id) (← keysOf? keys) (← nextOf? next))
  | .internal, .inOrder [id, keys, children] => do
    pure (.branch (← idOf? id) (← keysOf? keys) (← (← children.elements?).mapM child?))
  | _, .inOrder _ => none

/-! ## Nodes as values -/

/-- The node that a value stands for, if it has at most `levels` levels. -/
def ofValueWithin? (levels : Nat) (v : Value) : Option (Subtree K) :=
  match levels, v with
  | levels + 1, .object ms => do
    let kind ← Kind.ofValue? (← requiredField? "kind" ms)
    ofFields? (ofValueWithin? levels) kind (.named (ms.filter fun m => m.1 != "kind"))
  | levels + 1, .array (kind :: vs) => do
    ofFields? (ofValueWithin? levels) (← Kind.ofValue? kind) (.inOrder vs)
  | _, _ => none

/-- The node that a value stands for. Every level of nodes takes an array or object. -/
def ofValue? (v : Value) : Option (Subtree K) := ofValueWithin? v.depth v

/-! ## The root -/

/-- The kind and the other members read so far, the last one first. -/
structure Partial where
  kind : Option Kind
  members : List (String × Value)

def readMember (depth : Nat) (name : String) (p : Partial) : Reader Partial := fun fuel text =>
  if name = "kind" then do
    let (kind, rest) ← readOnce p.kind Kind.read fuel text
    pure ({ p with kind := some kind }, rest)
  else do
    let (ms, rest) ← Value.readMember (Value.read depth) name p.members fuel text
    pure ({ p with members := ms }, rest)

def ofPartial? (p : Partial) : Option (Subtree K) := do
  ofFields? ofValue? (← p.kind) (.named p.members.reverse)

/-- Reads the values of an array that are left behind the first. -/
def readOthers (depth : Nat) : Reader (List Value) := fun fuel text =>
  match skipSpace text with
  | [] => .error .truncated
  | c :: rest =>
    if c = ']' then .ok ([], rest)
    else if c = ',' then readElements (Value.read depth) fuel fuel rest
    else .error .malformed

/-- Reads a root node whose values nest at most `depth` arrays and objects. -/
def read (depth : Nat) : Reader (Subtree K) := fun fuel text =>
  match skipSpace text with
  | '\x7b' :: rest =>
    (readObject Quoted.read (readMember depth) ⟨none, []⟩).filterMap ofPartial? fuel rest
  | '[' :: rest => do
    let (kind, rest) ← nextElement true Kind.read fuel rest
    (readOthers depth).filterMap (fun vs => ofFields? ofValue? kind (.inOrder vs)) fuel rest
  | text => readOther fuel text

end Subtree

namespace Snapshot

/-! ## Snapshots -/

def toValue (s : Snapshot K) : Value :=
  .object [("order", .ofNat s.order), ("height", .ofNat s.height), ("len", .ofNat s.len),
    ("root", s.root.toValue)]

def write (s : Snapshot K) : String := .ofList s.toValue.write

/-- The number of arrays and objects that may be nested in each other. -/
def maxDepth : Nat := 127

/-- Reads the root of a snapshot: two objects, its own and that of the snapshot, are around its
values. -/
def readRoot : Reader (Subtree K) := Subtree.read (maxDepth - 2)

def readNat : Reader Nat := readAs Scalar.toNat?

/-- The fields read so far. -/
structure Partial (K : Type) where
  order : Option Nat
  height : Option Nat
  len : Option Nat
  root : Option (Subtree K)

def readField (name : String) (p : Partial K) : Reader (Partial K) := fun fuel text =>
  if name = "order" then do
    let (n, rest) ← readOnce p.order readNat fuel text
    pure ({ p with order := some n }, rest)
  else if name = "height" then do
    let (n, rest) ← readOnce p.height readNat fuel text
    pure ({ p with height := some n }, rest)
  else if name = "len" then do
    let (n, rest) ← readOnce p.len readNat fuel text
    pure ({ p with len := some n }, rest)
  else if name = "root" then do
    let (root, rest) ← readOnce p.root readRoot fuel text
    pure ({ p with root := some root }, rest)
  else readOver p fuel text

def ofPartial? (p : Partial K) : Option (Snapshot K) := do
  pure ⟨← p.order, ← p.height, ← p.len, ← p.root⟩

def readInOrder : Reader (Snapshot K) := fun fuel text => do
  let (order, text) ← nextElement true readNat fuel text
  let (height, text) ← nextElement false readNat fuel text
  let (len, text) ← nextElement false readNat fuel text
  let (root, text) ← nextElement false readRoot fuel text
  pure (⟨order, height, len, root⟩, text)

def read : Reader (Snapshot K) :=
  readRecord ⟨none, none, none, none⟩ readField ofPartial? readInOrder

def parse (text : String) : Except Defect (Snapshot K) := Reader.parse read text

end Snapshot

end TracedIndex
