import TracedIndex.Snapshot.Subtree
import TracedIndex.Tree

/-!
# Snapshots

A **snapshot** is a copy of a whole tree for a renderer: its order, height and length, and its nodes
nested as they hang below each other. The nodes keep their numbers, so that the path of a query can
be shown on it.

* `Tree.snapshot` copies the nodes below the root.
-/

namespace TracedIndex

structure Snapshot (K : Type) where
  order : Nat
  height : Nat
  len : Nat
  root : Subtree K

variable {K : Type}

namespace Snapshot

instance [BEq K] : BEq (Snapshot K) where
  beq s t := s.order == t.order && s.height == t.height && s.len == t.len && s.root == t.root

instance [BEq K] [LawfulBEq K] : LawfulBEq (Snapshot K) where
  eq_of_beq {s t} h := by
    obtain ⟨_, _, _, _⟩ := s
    simp only [BEq.beq, Bool.and_eq_true, decide_eq_true_eq] at h
    simp_all [Subtree.eq_of_beq h.2]
  rfl {s} := by simp [BEq.beq, Subtree.beq_self]

def map {L : Type} (f : K → L) (s : Snapshot K) : Snapshot L :=
  { s with root := s.root.map f }

/-- The numbers in the head of the snapshot are those of a machine word. -/
def Sized (s : Snapshot K) : Prop :=
  s.order < UInt64.size ∧ s.height < UInt64.size ∧ s.len < UInt64.size

instance (s : Snapshot K) : Decidable s.Sized := by unfold Sized; infer_instance

end Snapshot

namespace Arena

/-- The copy of the node `id` and of what is below it, over at most `fuel` levels. -/
def copy (a : Arena K) (fuel : Nat) (id : NodeId) : Except Fault (Subtree K) :=
  match fuel with
  | 0 => .error .circular
  | fuel + 1 => do
    match ← a.node id with
    | .leaf l => pure (.leaf id l.keys l.next)
    | .branch b => pure (.branch id b.keys (← b.children.mapM (a.copy fuel)))

end Arena

namespace Tree

variable {o : Order}

def snapshot (t : Tree K o) : Except Fault (Snapshot K) := do
  pure ⟨o.size, ← t.height, t.len, ← t.arena.copy t.arena.size t.root⟩

end Tree

end TracedIndex
