import Mathlib.Data.List.Induction
import TracedIndex.Proofs.Subtree.Lists

/-!
# Trails

A **frame** is a branch with a hole in the place of one child. A **trail** is a list of frames, each
in the hole of the next one: what is left of a tree when a subtree is taken out of it.

* `Frame.fill` puts a subtree into the hole, `plug` into the hole of a trail;
* `ids_plug`, `leavesIn_plug`: the lists of a plugged trail are those of its parts;
* `Frame.Follows`: the hole is where a descent goes on that picks the position of a child by the
  separators.
-/

namespace TracedIndex

variable {K : Type}

/-- A branch with a hole among its children, between those of `before` and those of `after`. -/
structure Frame (K : Type) where
  id : NodeId
  keys : List K
  before : List (Subtree K)
  after : List (Subtree K)

namespace Frame

/-- The branch with `s` in the hole. -/
def fill (f : Frame K) (s : Subtree K) : Subtree K :=
  .branch f.id f.keys (f.before ++ s :: f.after)

/-- The position of the hole. -/
def slot (f : Frame K) : Nat := f.before.length

/-- The numbers of the nodes around the hole. -/
def ids (f : Frame K) : List NodeId :=
  f.id :: (f.before.flatMap Subtree.ids ++ f.after.flatMap Subtree.ids)

/-- The leaves before the hole. -/
def leavesBefore (f : Frame K) : List (Subtree K) := f.before.flatMap Subtree.leavesIn

/-- The leaves behind the hole. -/
def leavesAfter (f : Frame K) : List (Subtree K) := f.after.flatMap Subtree.leavesIn

/-- The hole is at the position that `pick` chooses by the separators. -/
def Follows (pick : List K → Nat) (f : Frame K) : Prop := f.slot = pick f.keys

theorem ids_fill (f : Frame K) (s : Subtree K) : (f.fill s).ids.Perm (s.ids ++ f.ids) := by
  simp only [fill, ids, Subtree.ids_branch, List.flatMap_append, List.flatMap_cons]
  refine (List.Perm.cons _ ?_).trans List.perm_middle.symm
  rw [← List.append_assoc, ← List.append_assoc]
  exact List.perm_append_comm.append_right _

theorem leavesIn_fill (f : Frame K) (s : Subtree K) :
    (f.fill s).leavesIn = f.leavesBefore ++ s.leavesIn ++ f.leavesAfter := by
  simp only [fill, leavesBefore, leavesAfter, Subtree.leavesIn_branch, List.flatMap_append,
    List.flatMap_cons, List.append_assoc]

theorem keysIn_fill (f : Frame K) (s : Subtree K) :
    (f.fill s).keysIn =
      f.before.flatMap Subtree.keysIn ++ s.keysIn ++ f.after.flatMap Subtree.keysIn := by
  simp only [fill, Subtree.keysIn_branch, List.flatMap_append, List.flatMap_cons, List.append_assoc]

end Frame

/-- A list of frames, each in the hole of the next one. -/
abbrev Trail (K : Type) := List (Frame K)

namespace Trail

/-- The tree with `s` in the hole. -/
def plug (fs : Trail K) (s : Subtree K) : Subtree K := fs.foldl (fun s f => f.fill s) s

/-- The number of the branch whose child is missing, if there is one. -/
def parent? (fs : Trail K) : Option NodeId := fs.head?.map Frame.id

/-- The numbers of the nodes around the hole. -/
def ids (fs : Trail K) : List NodeId := fs.flatMap Frame.ids

/-- The leaves before the hole. -/
def leavesBefore (fs : Trail K) : List (Subtree K) := fs.reverse.flatMap Frame.leavesBefore

/-- The leaves behind the hole. -/
def leavesAfter (fs : Trail K) : List (Subtree K) := fs.flatMap Frame.leavesAfter

@[simp]
theorem plug_nil (s : Subtree K) : plug [] s = s := rfl

@[simp]
theorem plug_cons (f : Frame K) (fs : Trail K) (s : Subtree K) :
    plug (f :: fs) s = plug fs (f.fill s) := rfl

theorem plug_concat (fs : Trail K) (f : Frame K) (s : Subtree K) :
    plug (fs ++ [f]) s = f.fill (plug fs s) := by
  simp [plug]

theorem plug_append (fs gs : Trail K) (s : Subtree K) : plug (fs ++ gs) s = plug gs (plug fs s) :=
  List.foldl_append

/-- The number at the root of a plugged trail does not depend on what else is in the hole. -/
theorem id_plug_eq (fs : Trail K) {s t : Subtree K} (h : s.id = t.id) :
    (plug fs s).id = (plug fs t).id := by
  cases fs using List.reverseRecOn with
  | nil => exact h
  | append_singleton fs f => rw [plug_concat, plug_concat]; rfl

@[simp]
theorem ids_nil : ids ([] : Trail K) = [] := rfl

@[simp]
theorem ids_cons (f : Frame K) (fs : Trail K) : ids (f :: fs) = f.ids ++ ids fs := rfl

theorem ids_plug (fs : Trail K) (s : Subtree K) : (plug fs s).ids.Perm (s.ids ++ ids fs) := by
  induction fs generalizing s with
  | nil => simp
  | cons f fs ih =>
    rw [plug_cons, ids_cons, ← List.append_assoc]
    exact (ih _).trans ((f.ids_fill s).append_right _)

theorem keysIn_sublist (fs : Trail K) (s : Subtree K) : s.keysIn.Sublist (plug fs s).keysIn := by
  induction fs generalizing s with
  | nil => exact List.Sublist.refl _
  | cons f fs ih =>
    refine List.Sublist.trans ?_ (ih (f.fill s))
    rw [Frame.keysIn_fill, List.append_assoc]
    exact (List.sublist_append_left _ _).trans (List.sublist_append_right _ _)

@[simp]
theorem leavesBefore_cons (f : Frame K) (fs : Trail K) :
    leavesBefore (f :: fs) = leavesBefore fs ++ f.leavesBefore := by
  rw [leavesBefore, List.reverse_cons, List.flatMap_append, List.flatMap_singleton, leavesBefore]

theorem leavesBefore_concat (fs : Trail K) (f : Frame K) :
    leavesBefore (fs ++ [f]) = f.leavesBefore ++ leavesBefore fs := by
  rw [leavesBefore, List.reverse_concat, List.flatMap_cons, leavesBefore]

@[simp]
theorem leavesAfter_cons (f : Frame K) (fs : Trail K) :
    leavesAfter (f :: fs) = f.leavesAfter ++ leavesAfter fs := rfl

theorem leavesIn_plug (fs : Trail K) (s : Subtree K) :
    (plug fs s).leavesIn = leavesBefore fs ++ s.leavesIn ++ leavesAfter fs := by
  induction fs generalizing s with
  | nil => simp [leavesBefore, leavesAfter]
  | cons f fs ih =>
    rw [plug_cons, ih, Frame.leavesIn_fill, leavesBefore_cons, leavesAfter_cons]
    simp only [List.append_assoc]

theorem leavesIn_plug_leaf (fs : Trail K) (id : NodeId) (keys : List K) (next : Option NodeId) :
    (plug fs (.leaf id keys next)).leavesIn =
      leavesBefore fs ++ .leaf id keys next :: leavesAfter fs := by
  rw [leavesIn_plug, Subtree.leavesIn_leaf, List.append_assoc, List.singleton_append]

/-- No leaf is before a hole among the first children. -/
theorem leavesBefore_of_follows_zero {fs : Trail K} (hfs : ∀ f ∈ fs, f.Follows fun _ => 0) :
    leavesBefore fs = [] := by
  refine List.flatMap_eq_nil_iff.mpr fun f hf => ?_
  have hbefore : f.before = [] := List.length_eq_zero_iff.mp (hfs f (List.mem_reverse.mp hf))
  rw [Frame.leavesBefore, hbefore, List.flatMap_nil]

theorem length_le_length_ids (fs : Trail K) : fs.length ≤ (ids fs).length := by
  induction fs with
  | nil => simp
  | cons f fs ih =>
    rw [ids_cons, List.length_append, List.length_cons, Frame.ids, List.length_cons]
    omega

end Trail

namespace Subtree

/-! ## Descents -/

theorem exists_trail_of_mem_ids {s : Subtree K} {id : NodeId} (h : id ∈ s.ids) :
    ∃ (fs : Trail K) (t : Subtree K), fs.plug t = s ∧ t.id = id := by
  induction s using induction with
  | leaf n keys next => exact ⟨[], _, rfl, (by simpa using h : id = n).symm⟩
  | branch n keys children ih =>
    rw [ids_branch, List.mem_cons, List.mem_flatMap] at h
    rcases h with rfl | ⟨c, hc, hid⟩
    · exact ⟨[], _, rfl, rfl⟩
    · obtain ⟨before, after, rfl⟩ := List.append_of_mem hc
      obtain ⟨fs, t, rfl, ht⟩ := ih c hc hid
      exact ⟨fs ++ [⟨n, keys, before, after⟩], t, Trail.plug_concat _ _ _, ht⟩

end Subtree

end TracedIndex
