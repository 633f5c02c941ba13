import TracedIndex.Format.Outcome
import TracedIndex.Format.Snapshot
import TracedIndex.IndexData
import TracedIndex.Tree.Insert

/-!
# The explorer

An **explorer** holds one tree of numeric keys. Raw numbers come in, and every call that would need
a key of a NaN fails and changes nothing.

* `bulkLoad` builds a new tree of a list of numbers, once all of them are known to have keys;
  `loadIndex` does so with a list of some index data; `insert` adds one number;
* `search`, `rangeScan`, `snapshot` query the tree;
* `Error.message` is what a person is told of a failure.
-/

namespace TracedIndex

open Json

/-! ## Failures -/

/-- Why a call failed. -/
inductive Error where
  /-- A NaN has no key. -/
  | invalidKey
  /-- No list has this name. -/
  | unknownIndex (name : String)
  /-- A text is defective. -/
  | json (d : Defect)
  /-- The links of the tree are broken. -/
  | fault (f : Fault)
deriving DecidableEq

namespace Error

/-- What a person is told of a failure, where the failure itself decides it. -/
def message? : Error → Option String
  | invalidKey => some "index keys must be comparable numbers, got NaN"
  | unknownIndex name => some ("no index data for `" ++ name ++ "`")
  | json _ => none
  | fault _ => none

end Error

namespace Key

def ofBinary64 (x : Binary64) : Except Error Key :=
  match ofBinary64? x with
  | some k => .ok k
  | none => .error .invalidKey

end Key

def IndexData.keys (d : IndexData) (name : String) : Except Error (List Binary64) :=
  match d.keys? name with
  | some xs => .ok xs
  | none => .error (.unknownIndex name)

/-! ## Explorers -/

structure Explorer (o : Order) where
  tree : Tree Key o

namespace Explorer

variable {o : Order}

def empty : Explorer o := ⟨.empty⟩

/-- The explorer of the tree that arises from inserting numbers in the given order. -/
def bulkLoad (_ : Explorer o) (xs : List Binary64) : Except Error (Explorer o) := do
  let keys ← xs.mapM Key.ofBinary64
  pure ⟨← (Tree.ofKeys keys).mapError .fault⟩

/-- The explorer of the list of a given name. -/
def loadIndex (e : Explorer o) (d : IndexData) (name : String) : Except Error (Explorer o) := do
  e.bulkLoad (← d.keys name)

def insert (e : Explorer o) (x : Binary64) : Except Error (Explorer o) := do
  let k ← Key.ofBinary64 x
  pure ⟨← (e.tree.insert k).mapError .fault⟩

def search (e : Explorer o) (x : Binary64) : Except Error Search := do
  let k ← Key.ofBinary64 x
  (e.tree.search k).mapError .fault

/-- The keys above one number and up to another. -/
def rangeScan (e : Explorer o) (above upTo : Binary64) : Except Error (ScanResult Key) := do
  let above ← Key.ofBinary64 above
  let upTo ← Key.ofBinary64 upTo
  (e.tree.scanList above upTo).mapError .fault

def snapshot (e : Explorer o) : Except Error (Snapshot Key) := e.tree.snapshot.mapError .fault

def len (e : Explorer o) : Nat := e.tree.len

def isEmpty (e : Explorer o) : Bool := e.tree.isEmpty

/-- Whether the text of the snapshot, read back, gives the snapshot again. -/
def snapshotReadsBack (e : Explorer o) : Except Error Bool := do
  let s ← e.snapshot
  let t : Snapshot Key ← (Snapshot.parse s.write).mapError .json
  pure (t == s)

end Explorer

end TracedIndex
