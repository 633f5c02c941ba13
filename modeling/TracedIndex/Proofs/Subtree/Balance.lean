import Mathlib.Data.List.Induction
import TracedIndex.Proofs.Subtree.Trail

/-!
# Balanced subtrees

A subtree is **balanced** if all its leaves are on one level and every branch has one child more than
separators. No more is needed for a walk: a descent that picks children by the separators finds each
child that it picks, and comes to a leaf after as many steps as the subtree is deep.

* `Balanced.exists_trail`: a descent ends in a leaf, `d` levels down;
* `Balanced.of_plug`: what is in the hole of a trail is less deep by the length of the trail;
* `Balanced.leavesIn_ne_nil`: there is a leaf;
* `Balanced.levels_eq`: how many levels there are.
-/

namespace TracedIndex.Subtree

variable {K : Type}

/-- A subtree with all its leaves `d` levels below its root, and a child on each side of every
separator. -/
inductive Balanced : Nat → Subtree K → Prop
  | leaf {id : NodeId} {keys : List K} {next : Option NodeId} : Balanced 0 (.leaf id keys next)
  | branch {d : Nat} {id : NodeId} {keys : List K} {children : List (Subtree K)}
    (length_eq : children.length = keys.length + 1) (balanced : ∀ c ∈ children, Balanced d c) :
    Balanced (d + 1) (.branch id keys children)

namespace Balanced

variable {d : Nat} {s : Subtree K}

/-- A descent that picks one of the children ends in a leaf on the last level. -/
theorem exists_trail (h : s.Balanced d) {pick : List K → Nat}
    (hpick : ∀ keys, pick keys ≤ keys.length) :
    ∃ (fs : Trail K) (id : NodeId) (keys : List K) (next : Option NodeId),
      fs.plug (.leaf id keys next) = s ∧ fs.length = d ∧ ∀ f ∈ fs, f.Follows pick := by
  induction h with
  | leaf => exact ⟨[], _, _, _, rfl, rfl, by simp⟩
  | @branch d id keys children hlen _ ih =>
    have hlt : pick keys < children.length := by have := hpick keys; omega
    obtain ⟨fs, n, ks, next, hplug, hd, hfs⟩ := ih children[pick keys] (List.getElem_mem hlt)
    refine ⟨fs ++ [⟨id, keys, children.take (pick keys), children.drop (pick keys + 1)⟩], n, ks, next,
      ?_, by simp [hd], fun f hf => ?_⟩
    · rw [Trail.plug_concat, hplug, Frame.fill, ← List.drop_eq_getElem_cons hlt,
        List.take_append_drop]
    · rcases List.mem_append.mp hf with hf | hf
      · exact hfs f hf
      · obtain rfl := List.mem_singleton.mp hf
        simp only [Frame.Follows, Frame.slot, List.length_take]
        omega

theorem of_plug {fs : Trail K} (h : (fs.plug s).Balanced d) :
    ∃ e, d = e + fs.length ∧ s.Balanced e := by
  induction fs generalizing s with
  | nil => exact ⟨d, rfl, h⟩
  | cons f fs ih =>
    obtain ⟨e, he, hfill⟩ := ih h
    cases hfill with
    | @branch e _ _ _ _ hbal =>
      exact ⟨e, by rw [he, List.length_cons]; omega, hbal s (by simp)⟩

theorem leavesIn_ne_nil (h : s.Balanced d) : s.leavesIn ≠ [] := by
  obtain ⟨fs, id, keys, next, rfl, -, -⟩ := h.exists_trail fun _ => Nat.zero_le _
  rw [Trail.leavesIn_plug, leavesIn_leaf]
  simp

theorem levelsList_eq {ss : List (Subtree K)} (hne : ss ≠ []) (h : ∀ c ∈ ss, c.levels = d) :
    levelsList ss = d := by
  induction ss with
  | nil => exact absurd rfl hne
  | cons c ss ih =>
    obtain ⟨hc, hss⟩ := List.forall_mem_cons.mp h
    cases ss with
    | nil => rw [levelsList, levelsList, hc, Nat.max_zero]
    | cons c' ss => rw [levelsList, ih (List.cons_ne_nil c' ss) hss, hc, Nat.max_self]

theorem levels_eq (h : s.Balanced d) : s.levels = d + 1 := by
  induction h with
  | leaf => rw [levels]
  | branch hlen _ ih => rw [levels, levelsList_eq (List.ne_nil_of_length_eq_add_one hlen) ih]

end Balanced

end TracedIndex.Subtree
