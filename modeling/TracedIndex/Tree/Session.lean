import TracedIndex.Snapshot
import TracedIndex.Tree.Insert
import TracedIndex.Tree.Scan
import TracedIndex.Tree.Search

/-!
# Sessions

A **session** is a list of requests that a tree answers one after another. An insertion changes the
tree for the requests behind it, a query never does. The first fault ends the session.

* `Query`, `Request` and `Answer`: what can be asked, and what comes back;
* `Tree.ask` answers a query, `Tree.answer` a request, `Tree.answers` a session.
-/

namespace TracedIndex

/-- A question to a tree. -/
inductive Query (K : Type) where
  /-- The root, the length, the height and the number of nodes. -/
  | measures
  | search (key : K)
  | contains (key : K)
  /-- Some calls of `next` on an iteration. -/
  | iterate (times : Nat)
  | list
  /-- Some calls of `next` on a range scan. -/
  | scan (above upTo : K) (times : Nat)
  | scanList (above upTo : K)
  | snapshot

/-- What a tree is asked to do. -/
inductive Request (K : Type) where
  | insert (key : K)
  | ask (q : Query K)

inductive Answer (K : Type) where
  /-- The root after an insertion. -/
  | root (id : NodeId)
  | measures (root : NodeId) (len height nodeCount : Nat)
  | search (r : Search)
  | contains (found : Bool)
  | iterate (keys : List (Option K))
  | list (keys : List K)
  | scan (keys : List (Option K)) (path : List NodeId)
  | scanList (r : ScanResult K)
  | snapshot (s : Snapshot K)

namespace Tree

variable {K : Type} [Ord K] {o : Order}

def ask (t : Tree K o) : Query K → Except Fault (Answer K)
  | .measures => do pure (.measures t.root t.len (← t.height) t.nodeCount)
  | .search key => do pure (.search (← t.search key))
  | .contains key => do pure (.contains (← t.contains key))
  | .iterate times => do
    let (ks, _) ← (← t.iterate).nextTimes t.arena .always times
    pure (.iterate ks)
  | .list => do pure (.list (← t.toList))
  | .scan above upTo times => do
    let (ks, s) ← (← t.scan above upTo).nextTimes t.arena times
    pure (.scan ks s.path)
  | .scanList above upTo => do pure (.scanList (← t.scanList above upTo))
  | .snapshot => do pure (.snapshot (← t.snapshot))

/-- The answer to a request, and the tree behind it. -/
def answer (t : Tree K o) : Request K → Except Fault (Answer K × Tree K o)
  | .insert key => do
    let (root, t) ← t.insertRoot key
    pure (.root root, t)
  | .ask q => do pure (← t.ask q, t)

/-- The answers to the requests of a session. -/
def answers (t : Tree K o) : List (Request K) → Except Fault (List (Answer K))
  | [] => .ok []
  | r :: rs => do
    let (a, t) ← t.answer r
    pure (a :: (← t.answers rs))

end Tree

end TracedIndex
