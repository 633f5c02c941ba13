import TracedIndex.Explorer
import TracedIndex.Tree.Session

/-!
# Histories of an explorer

An explorer is called again and again. A **call** works on the explorer in place: it gives a reply or
fails, and the next call finds the explorer as this one left it, also where it failed half way. A fault
is not a failure of a call; it ends the whole **history**.

* `Question`, `Call` and `Reply`: what an explorer can be called for, and what comes back;
* `Explorer.ask` answers a question, `Explorer.call` makes a call, `Explorer.run` a history of them;
* `Call.failure?`: the failure that the arguments of a call lead to;
* `stored`: the numbers that are stored behind a history.
-/

namespace TracedIndex

/-- A question to an explorer. -/
inductive Question where
  /-- The length, and whether there are no keys. -/
  | size
  | search (x : Binary64)
  | rangeScan (above upTo : Binary64)
  | snapshot
  /-- A question to the tree of the explorer. -/
  | tree (q : Query Key)

/-- What an explorer is called for. -/
inductive Call where
  | bulkLoad (xs : List Binary64)
  | loadIndex (d : IndexData) (name : String)
  | insert (x : Binary64)
  | ask (q : Question)

inductive Reply where
  /-- The reply to a load. -/
  | loaded
  /-- The root after an insertion. -/
  | root (id : NodeId)
  | size (len : Nat) (isEmpty : Bool)
  | search (r : Search)
  | rangeScan (r : ScanResult Key)
  | snapshot (s : Snapshot Key)
  | tree (a : Answer Key)

namespace Explorer

variable {o : Order}

def ask (e : Explorer o) : Question → Except Error Reply
  | .size => pure (.size e.len e.isEmpty)
  | .search x => do pure (.search (← e.search x))
  | .rangeScan above upTo => do pure (.rangeScan (← e.rangeScan above upTo))
  | .snapshot => do pure (.snapshot (← e.snapshot))
  | .tree q => do pure (.tree (← (e.tree.ask q).mapError .fault))

/-! ## Calls in place -/

/-- A part of a call on an explorer in place: it may change the explorer, fail, or end in a fault. -/
abbrev Action (o : Order) := ExceptT Error (StateT (Explorer o) (Except Fault))

namespace Action

/-- Goes on with a value, if there is one. -/
def attempt {α : Type} : Except Error α → Action o α
  | .ok x => pure x
  | .error (.fault f) => throwThe Fault f
  | .error x => throw x

/-- Puts a new tree in the place of the old one, once all numbers are known to have keys. -/
def load (xs : List Binary64) : Action o Unit := do
  let keys ← attempt (xs.mapM Key.ofBinary64)
  let t ← attempt ((Tree.ofKeys keys).mapError .fault)
  set (⟨t⟩ : Explorer o)

def ofCall : Call → Action o Reply
  | .bulkLoad xs => do
    load xs
    pure .loaded
  | .loadIndex d name => do
    load (← attempt (d.keys name))
    pure .loaded
  | .insert x => do
    let k ← attempt (Key.ofBinary64 x)
    let (root, t) ← attempt (((← get).tree.insertRoot k).mapError .fault)
    set (⟨t⟩ : Explorer o)
    pure (.root root)
  | .ask q => do attempt ((← get).ask q)

end Action

/-- What comes of a call, and the explorer behind it. -/
def call (e : Explorer o) (c : Call) : Except Fault (Except Error Reply × Explorer o) :=
  (Action.ofCall c).run.run e

/-- What comes of the calls of a history, and the explorer behind them. -/
def run (e : Explorer o) : List Call → Except Fault (List (Except Error Reply) × Explorer o)
  | [] => .ok ([], e)
  | c :: cs => do
    let (r, e) ← e.call c
    let (rs, e) ← e.run cs
    pure (r :: rs, e)

end Explorer

/-! ## What a history stores -/

namespace Call

/-- The failure of a call that needs the keys of `xs`. -/
def failureOf (xs : List Binary64) : Option Error :=
  if xs.any Binary64.isNaN then some .invalidKey else none

/-- The failure that the arguments of a call lead to. -/
def failure? : Call → Option Error
  | bulkLoad xs => failureOf xs
  | loadIndex d name =>
    match d.keys? name with
    | none => some (.unknownIndex name)
    | some xs => failureOf xs
  | insert x => failureOf [x]
  | ask (.search x) => failureOf [x]
  | ask (.rangeScan above upTo) => failureOf [above, upTo]
  | ask _ => none

/-- The numbers that a call which does not fail leaves stored, where `xs` are those before it. -/
def behind (xs : List Binary64) : Call → List Binary64
  | bulkLoad ys => ys
  | loadIndex d name => (d.keys? name).getD []
  | insert x => xs ++ [x]
  | ask _ => xs

/-- The numbers that a call leaves stored; one that fails leaves those before it. -/
def store (xs : List Binary64) (c : Call) : List Binary64 :=
  if c.failure?.isSome then xs else c.behind xs

def isAsk : Call → Bool
  | ask _ => true
  | _ => false

end Call

/-- The numbers stored behind a history: those of the last load that did not fail, and behind them those
of the later insertions that did not fail. -/
def stored (calls : List Call) : List Binary64 := calls.foldl Call.store []

end TracedIndex
