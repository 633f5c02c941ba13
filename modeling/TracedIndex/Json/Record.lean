import TracedIndex.Json.Value

/-!
# Records

A **record** is an object of known fields, which are written in a fixed order and read in any. A
field that comes twice is a mismatch as soon as its name is read, one that is missing at the closing
brace; the values of other fields are read over. A record may also be an array of the values of its
fields in order; one with too few of them is a mismatch.

* `readRecord` reads a record, `readOnce` a field of it, `readOver` a field that does not matter.
-/

namespace TracedIndex.Json

variable {α β σ : Type}

/-- Reads a field, from behind its name, unless it was read before. -/
def readOnce (old : Option α) (r : Reader β) : Reader β := fun fuel text =>
  if old.isSome then .error .mismatched else r.afterColon fuel text

/-- Reads over a field of no interest. -/
def readOver (s : σ) : Reader σ := fun fuel text => do
  let (_, rest) ← skipValue.afterColon fuel text
  pure (s, rest)

/-- Reads a record: an object by its fields, which are collected starting from `start` and have to
be complete in the end, or an array in order. -/
def readRecord (start : σ) (field : String → σ → Reader σ) (finish : σ → Option α)
    (inOrder : Reader α) : Reader α := fun fuel text =>
  match skipSpace text with
  | '\x7b' :: rest => (readObject Quoted.read field start).filterMap finish fuel rest
  | '[' :: rest => do
    let (x, rest) ← inOrder fuel rest
    pure (x, ← endArray rest)
  | text => readOther fuel text

end TracedIndex.Json
