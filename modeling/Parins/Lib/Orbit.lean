/-
Walks along a partial function to a point where it is undefined. Such a walk is
the only one from its start, so it meets no point twice; it has met the whole
domain exactly when it has as many steps as the domain has points.
-/
import Mathlib.Data.List.Perm.Subperm

namespace Parins.Lib

inductive Walk {α : Type} (f : α → Option α) : α → List α → α → Prop
  | stop (x : α) : Walk f x [] x
  | step {x y z : α} {l : List α} (h : f x = some y) (rest : Walk f y l z) : Walk f x (x :: l) z

namespace Walk

variable {α : Type} {f : α → Option α} {x y z : α} {l l' : List α}

theorem defined (h : Walk f x l z) (hy : y ∈ l) : (f y).isSome = true := by
  induction h with
  | stop => cases hy
  | step hf _ ih =>
    rcases List.mem_cons.mp hy with rfl | hy
    · simp [hf]
    · exact ih hy

theorem unique {z'} (h : Walk f x l z) (h' : Walk f x l' z') (hz : f z = none) (hz' : f z' = none) :
    l = l' ∧ z = z' := by
  induction h generalizing l' with
  | stop x =>
    cases h' with
    | stop => exact ⟨rfl, rfl⟩
    | step hf _ =>
      rw [hz] at hf
      cases hf
  | step hf _ ih =>
    cases h' with
    | stop =>
      rw [hz'] at hf
      cases hf
    | step hf' rest =>
      cases hf.symm.trans hf'
      obtain ⟨rfl, rfl⟩ := ih rest hz
      exact ⟨rfl, rfl⟩

theorem suffix (h : Walk f x l z) (hy : y ∈ l) : ∃ l2, Walk f y l2 z ∧ l2.length ≤ l.length := by
  induction h with
  | stop => cases hy
  | @step x x1 z l hf rest ih =>
    rcases List.mem_cons.mp hy with rfl | hy
    · exact ⟨y :: l, .step hf rest, Nat.le_refl _⟩
    · obtain ⟨l2, h2, hle⟩ := ih hy
      exact ⟨l2, h2, Nat.le_succ_of_le hle⟩

/-- **A walk to a dead end meets no point twice.** -/
theorem nodup (h : Walk f x l z) (hz : f z = none) : l.Nodup := by
  induction h with
  | stop => exact List.nodup_nil
  | @step x x1 z l hf rest ih =>
    refine List.nodup_cons.mpr ⟨fun hx => ?_, ih hz⟩
    -- the rest would lead back to its own start
    obtain ⟨l2, h2, hle⟩ := rest.suffix hx
    have heq : l2 = x :: l := (h2.unique (.step hf rest) hz hz).1
    rw [heq, List.length_cons] at hle
    omega

/-- **The walk has met the whole domain** exactly when it is as long. -/
theorem covers_iff {keys : List α} (h : Walk f x l z) (hz : f z = none) (hkeys : keys.Nodup)
    (hdomain : ∀ y, (f y).isSome = true ↔ y ∈ keys) : (∀ y ∈ keys, y ∈ l) ↔ l.length = keys.length := by
  have hsub : l ⊆ keys := fun y hy => (hdomain y).mp (h.defined hy)
  have hperm : l.Subperm keys := List.subperm_of_subset (h.nodup hz) hsub
  constructor
  · intro hall
    exact Nat.le_antisymm hperm.length_le (List.subperm_of_subset hkeys hall).length_le
  · intro hlen y hy
    exact (hperm.perm_of_length_le (Nat.le_of_eq hlen.symm)).mem_iff.mpr hy

end Walk

end Parins.Lib
