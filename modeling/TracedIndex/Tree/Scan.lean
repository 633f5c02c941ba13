import TracedIndex.Tree

/-!
# Scans

A scan reads keys along the chain of leaves. Where it stands is a **cursor**: a leaf and a position
in it, or nowhere once the scan is over. What it does at a key is a **verdict**: take the key, skip
it, or stop for good.

* `Cursor.next` is the next key that is taken, `Cursor.nextTimes` gives several, and `Cursor.rest`
  all that are left;
* `Tree.iterate` and `Tree.toList` take every key;
* `Tree.scan` starts in the leaf that its exclusive lower bound belongs to, skips the keys up to
  that bound and stops behind its inclusive upper bound; `Scan.next`, `Scan.rest` and
  `Tree.scanList` read it.
-/

namespace TracedIndex

variable {K : Type}

/-! ## Cursors -/

/-- What to do at a key. -/
inductive Verdict where
  | take
  | skip
  | stop
deriving DecidableEq

/-- Where a scan stands: over, or in front of a position of a leaf. -/
inductive Cursor where
  | over
  | within (leaf : NodeId) (pos : Nat)
deriving DecidableEq

/-- How the reading of one leaf ends: with a key taken and the position behind it, with a stop, or
with the end of the leaf. -/
inductive Reading (K : Type) where
  | taken (key : K) (pos : Nat)
  | stopped
  | finished

namespace Reading

/-- Reads keys, the first of which is at position `pos`, until one is not skipped. -/
def ofKeys (judge : K → Verdict) (pos : Nat) : List K → Reading K
  | [] => .finished
  | k :: ks =>
    match judge k with
    | .take => .taken k (pos + 1)
    | .skip => ofKeys judge (pos + 1) ks
    | .stop => .stopped

end Reading

namespace Cursor

/-- The next key taken, if there is one, and the cursor behind it; visits at most `fuel` leaves. -/
def nextWithin (a : Arena K) (judge : K → Verdict) (fuel : Nat) (c : Cursor) :
    Except Fault (Option K × Cursor) :=
  match c, fuel with
  | .over, _ => .ok (none, .over)
  | .within _ _, 0 => .error .circular
  | .within id pos, fuel + 1 => do
    let l ← a.leaf id
    match Reading.ofKeys judge pos (l.keys.drop pos) with
    | .taken k pos => pure (some k, .within id pos)
    | .stopped => pure (none, .over)
    | .finished =>
      match l.next with
      | none => pure (none, .over)
      | some next => nextWithin a judge fuel (.within next 0)

/-- The next key taken, if there is one, and the cursor behind it. -/
def next (a : Arena K) (judge : K → Verdict) (c : Cursor) : Except Fault (Option K × Cursor) :=
  c.nextWithin a judge a.size

/-- What `times` calls of `next` give, one after another, and the cursor behind them. -/
def nextTimes (a : Arena K) (judge : K → Verdict) (times : Nat) (c : Cursor) :
    Except Fault (List (Option K) × Cursor) :=
  match times with
  | 0 => .ok ([], c)
  | times + 1 => do
    let (k, c) ← c.next a judge
    let (ks, c) ← nextTimes a judge times c
    pure (k :: ks, c)

/-- The keys that `next` gives until it gives none, at most `fuel` of them, and the cursor behind
them. -/
def restWithin (a : Arena K) (judge : K → Verdict) (fuel : Nat) (c : Cursor) :
    Except Fault (List K × Cursor) :=
  match fuel with
  | 0 => .error .circular
  | fuel + 1 => do
    match ← c.next a judge with
    | (none, c) => pure ([], c)
    | (some k, c) =>
      let (ks, c) ← restWithin a judge fuel c
      pure (k :: ks, c)

/-- All keys that are left, and the cursor behind them. A scan without end would take some key
twice, so the number of keys in the arena bounds every other one. -/
def rest (a : Arena K) (judge : K → Verdict) (c : Cursor) : Except Fault (List K × Cursor) :=
  c.restWithin a judge ((a.nodes.toList.flatMap Node.keys).length + 1)

end Cursor

/-! ## All keys -/

def Verdict.always (_ : K) : Verdict := .take

namespace Tree

variable {o : Order}

/-- The cursor in front of the first key. -/
def iterate (t : Tree K o) : Except Fault Cursor := do
  pure (.within (← t.firstLeaf).stop 0)

/-- The keys of the tree in the order of its leaves. -/
def toList (t : Tree K o) : Except Fault (List K) := do
  pure (← (← t.iterate).rest t.arena .always).1

end Tree

/-! ## Ranges -/

/-- A scan of the keys above one bound and up to another: the nodes visited on the way to its first
leaf, and where it stands. -/
structure Scan (K : Type) where
  above : K
  upTo : K
  path : List NodeId
  cursor : Cursor

variable [Ord K]

/-- A key beyond the upper bound stops a scan, and one that is not above the lower bound is
skipped. -/
def Verdict.ofBounds (above upTo : K) (k : K) : Verdict :=
  if (compare k upTo).isGT then .stop else if (compare k above).isGT then .take else .skip

namespace Scan

def judge (s : Scan K) : K → Verdict := .ofBounds s.above s.upTo

/-- The next key of the scan, if there is one, and the scan behind it. -/
def next (a : Arena K) (s : Scan K) : Except Fault (Option K × Scan K) := do
  let (k, c) ← s.cursor.next a s.judge
  pure (k, { s with cursor := c })

/-- What several calls of `next` give, and the scan behind them. -/
def nextTimes (a : Arena K) (times : Nat) (s : Scan K) :
    Except Fault (List (Option K) × Scan K) := do
  let (ks, c) ← s.cursor.nextTimes a s.judge times
  pure (ks, { s with cursor := c })

/-- All keys that are left, and the scan behind them. -/
def rest (a : Arena K) (s : Scan K) : Except Fault (List K × Scan K) := do
  let (ks, c) ← s.cursor.rest a s.judge
  pure (ks, { s with cursor := c })

end Scan

/-- The outcome of a range scan: the keys in order, and the nodes visited on the way to the first
leaf. -/
structure ScanResult (K : Type) where
  keys : List K
  path : List NodeId
deriving DecidableEq

namespace Tree

variable {o : Order}

/-- The scan of the keys above `above` and up to `upTo`. It visits nothing if the bounds are the
wrong way round. -/
def scan (t : Tree K o) (above upTo : K) : Except Fault (Scan K) := do
  if (compare above upTo).isGT then
    pure ⟨above, upTo, [], .over⟩
  else
    let w ← t.findLeaf above
    pure ⟨above, upTo, w.path, .within w.stop 0⟩

def scanList (t : Tree K o) (above upTo : K) : Except Fault (ScanResult K) := do
  let s ← t.scan above upTo
  let (ks, s) ← s.rest t.arena
  pure ⟨ks, s.path⟩

end Tree

end TracedIndex
