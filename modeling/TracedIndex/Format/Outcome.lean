import TracedIndex.Format.Key
import TracedIndex.Tree.Scan
import TracedIndex.Tree.Search

/-!
# Outcomes of queries in JSON

The outcome of a query is a record of two fields: the path, and whether the key was found or which
keys were scanned.

* `Search.write`, `Search.parse`: the outcome of a point search;
* `ScanResult.write`, `ScanResult.parse`: the outcome of a range scan.
-/

namespace TracedIndex

open Json

/-! ## Point searches -/

namespace Search

def toValue (s : Search) : Value :=
  .object [("found", .scalar (.bool s.found)), ("path", idsValue s.path)]

def write (s : Search) : String := .ofList s.toValue.write

/-- The fields read so far. -/
structure Partial where
  found : Option Bool
  path : Option (List NodeId)

def readField (name : String) (p : Partial) : Reader Partial := fun fuel text =>
  if name = "found" then do
    let (b, rest) ← readOnce p.found (readAs Scalar.toBool?) fuel text
    pure ({ p with found := some b }, rest)
  else if name = "path" then do
    let (ids, rest) ← readOnce p.path readIds fuel text
    pure ({ p with path := some ids }, rest)
  else readOver p fuel text

def ofPartial? (p : Partial) : Option Search := do
  pure ⟨← p.found, ← p.path⟩

def readInOrder : Reader Search := fun fuel text => do
  let (found, text) ← nextElement true (readAs Scalar.toBool?) fuel text
  let (path, text) ← nextElement false readIds fuel text
  pure (⟨found, path⟩, text)

def read : Reader Search := readRecord ⟨none, none⟩ readField ofPartial? readInOrder

def parse (text : String) : Except Defect Search := Reader.parse read text

end Search

/-! ## Range scans -/

namespace ScanResult

variable {K : Type} [KeyFormat K]

def toValue (r : ScanResult K) : Value :=
  .object [("keys", keysValue r.keys), ("path", idsValue r.path)]

def write (r : ScanResult K) : String := .ofList r.toValue.write

/-- The fields read so far. -/
structure Partial (K : Type) where
  keys : Option (List K)
  path : Option (List NodeId)

def readField (name : String) (p : Partial K) : Reader (Partial K) := fun fuel text =>
  if name = "keys" then do
    let (keys, rest) ← readOnce p.keys readKeys fuel text
    pure ({ p with keys := some keys }, rest)
  else if name = "path" then do
    let (ids, rest) ← readOnce p.path readIds fuel text
    pure ({ p with path := some ids }, rest)
  else readOver p fuel text

def ofPartial? (p : Partial K) : Option (ScanResult K) := do
  pure ⟨← p.keys, ← p.path⟩

def readInOrder : Reader (ScanResult K) := fun fuel text => do
  let (keys, text) ← nextElement true readKeys fuel text
  let (path, text) ← nextElement false readIds fuel text
  pure (⟨keys, path⟩, text)

def read : Reader (ScanResult K) := readRecord ⟨none, none⟩ readField ofPartial? readInOrder

def parse (text : String) : Except Defect (ScanResult K) := Reader.parse read text

end ScanResult

end TracedIndex
