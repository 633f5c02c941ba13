import TracedIndex.Tree

/-!
# The laws of a tree

`Tree.check` goes over a whole tree and finds the first **violation** of the laws that insertion
keeps:

* the root is the only node without a parent, and every node is below it;
* a root that is a leaf, and every other node, holds fewer keys than the order;
* keys ascend in every node, and those below a child lie between the separators around it;
* a branch has a separator and one more child than separators, and its children name it as parent;
* all leaves are on one level, and their chain runs through them from left to right;
* every node is visited once, and the length is the number of keys in the leaves.
-/

namespace TracedIndex

/-- The law that a tree breaks. -/
inductive Violation where
  | fault (f : Fault)
  /-- The root is not the one node without a parent. -/
  | roots
  /-- The node is not below the root. -/
  | detached (id : NodeId)
  /-- The root is a leaf, and the length is not below the order. -/
  | fullRoot
  /-- The node holds as many keys as the order, or more. -/
  | overfull (id : NodeId)
  /-- The keys of the node do not ascend. -/
  | unsorted (id : NodeId)
  /-- A key of the node is outside the separators around it. -/
  | outOfBounds (id : NodeId)
  /-- The leaf is not on the last level. -/
  | unbalanced (id : NodeId)
  /-- The branch is on the last level. -/
  | tooDeep (id : NodeId)
  | noSeparator (id : NodeId)
  /-- The branch does not have one more child than separators. -/
  | childCount (id : NodeId)
  /-- The node does not name the branch that lists it as its parent. -/
  | staleParent (id : NodeId)
  /-- The visited nodes are not as many as there are. -/
  | nodeCount
  /-- The keys in the leaves are not as many as the length says. -/
  | keyCount
  /-- The chain of the leaves is not their list from left to right. -/
  | leafChain
deriving DecidableEq

/-- What a visit of a subtree counts: its leaves from left to right, their keys, and its nodes. -/
structure Census where
  leaves : List NodeId
  keys : Nat
  nodes : Nat
deriving DecidableEq

namespace Census

instance : Append Census where
  append c d := ⟨c.leaves ++ d.leaves, c.keys + d.keys, c.nodes + d.nodes⟩

def empty : Census := ⟨[], 0, 0⟩

end Census

variable {K : Type} [Ord K]

/-- Neighbours in the list are in order. -/
def ascending : List K → Bool
  | [] => true
  | [_] => true
  | x :: y :: ks => (compare x y).isLE && ascending (y :: ks)

/-- The key is between the bounds, as far as there are any. -/
def within (lower upper : Option K) (k : K) : Bool :=
  lower.all (fun l => (compare l k).isLE) && upper.all (fun u => (compare k u).isLE)

namespace Arena

/-- Fails with `v` unless the law holds. -/
def require (law : Bool) (v : Violation) : Except Violation Unit :=
  if law then .ok () else .error v

/-- A lookup whose fault is a violation. -/
def lookup {α : Type} (x : Except Fault α) : Except Violation α := x.mapError .fault

/-- Visits the children of the branch `parent`, the first of which has `lower` for its lower bound,
and whose other bounds are the separators and `upper`. -/
def visitChildren (a : Arena K) (visit : NodeId → Option K → Option K → Except Violation Census)
    (parent : NodeId) (upper : Option K) : List NodeId → Option K → List K → Except Violation Census
  | [], _, _ => .ok .empty
  | child :: children, lower, separators => do
    require ((← lookup (a.node child)).parent == some parent) (.staleParent child)
    let c ← visit child lower (separators.head?.or upper)
    let d ← visitChildren a visit parent upper children separators.head? separators.tail
    pure (c ++ d)

/-- The node `id`, unless it breaks a law by its own keys. -/
def inspect (a : Arena K) (o : Order) (id : NodeId) (lower upper : Option K) :
    Except Violation (Node K) := do
  let n ← lookup (a.node id)
  require (n.keys.length < o.size) (.overfull id)
  require (ascending n.keys) (.unsorted id)
  require (n.keys.all (within lower upper)) (.outOfBounds id)
  pure n

/-- Visits the subtree of `id`, which has `depth` levels below its own and keys between the
bounds. -/
def visit (a : Arena K) (o : Order) (depth : Nat) (id : NodeId) (lower upper : Option K) :
    Except Violation Census :=
  match depth with
  | 0 => do
    match ← a.inspect o id lower upper with
    | .leaf l => pure ⟨[id], l.keys.length, 1⟩
    | .branch _ => throw (.tooDeep id)
  | depth + 1 => do
    match ← a.inspect o id lower upper with
    | .leaf _ => throw (.unbalanced id)
    | .branch b =>
      require (!b.keys.isEmpty) (.noSeparator id)
      require (b.children.length == b.keys.length + 1) (.childCount id)
      let c ← visitChildren a (visit a o depth) id upper b.children lower b.keys
      pure { c with nodes := c.nodes + 1 }

def ids (a : Arena K) : List NodeId := (List.range a.size).filterMap NodeId.ofNat?

end Arena

namespace Tree

variable {o : Order}

open Arena (require lookup)

/-- Goes over the whole tree and gives the first law that it breaks. -/
def check (t : Tree K o) : Except Violation Unit := do
  let roots ← t.arena.ids.filterM fun id => return (← lookup (t.arena.node id)).parent.isNone
  require (roots == [t.root]) .roots
  t.arena.ids.forM fun id => do
    require ((← lookup (t.arena.rootOf id)) == t.root) (.detached id)
  require (!(← lookup (t.arena.node t.root)).isLeaf || t.len < o.size) .fullRoot
  let height ← lookup t.height
  let c ← t.arena.visit o (height - 1) t.root none none
  require (c.nodes == t.nodeCount) .nodeCount
  require (c.keys == t.len) .keyCount
  let chain ← match c.leaves with
    | [] => pure []
    | first :: _ => pure (← lookup (t.arena.chain c.leaves.length first)).path
  require (chain == c.leaves) .leafChain

end Tree

end TracedIndex
