/-
Smooth weighted round-robin. Each turn every score grows by its weight, a
greatest one is selected and pays the sum of all weights. Scores always sum to
zero, none falls to minus that sum, and after as many turns as the weights sum
to, each index has been selected exactly as often as its weight says.
-/
import Mathlib.Algebra.BigOperators.Group.Finset.Basic
import Mathlib.Algebra.BigOperators.Ring.Finset
import Mathlib.Algebra.Order.BigOperators.Group.Finset
import Mathlib.Data.Fintype.BigOperators
import Mathlib.Tactic.Linarith
import Mathlib.Tactic.Ring

namespace Parins.Lib

variable {ι : Type} [Fintype ι] [DecidableEq ι] {w s s' : ι → ℤ} {i : ι} {picked : List ι}

/-- One turn: `i` is selected, and `s'` are the scores after it. -/
structure Turn (w s : ι → ℤ) (i : ι) (s' : ι → ℤ) : Prop where
  greatest : ∀ j, s j + w j ≤ s i + w i
  after : ∀ j, s' j = s j + w j - if j = i then ∑ k, w k else 0

/-- The scores after the turns that selected these, in this order. -/
inductive Turns (w : ι → ℤ) : List ι → (ι → ℤ) → Prop where
  | start : Turns w [] fun _ => 0
  | next {picked : List ι} {s s' : ι → ℤ} {i : ι} : Turns w picked s → Turn w s i s' → Turns w (picked ++ [i]) s'

theorem Turn.sum (h : Turn w s i s') : ∑ j, s' j = ∑ j, s j := by
  simp only [h.after, Finset.sum_sub_distrib, Finset.sum_add_distrib, Finset.sum_ite_eq', Finset.mem_univ, if_true]
  ring

theorem Turns.sum (h : Turns w picked s) : ∑ j, s j = 0 := by
  induction h with
  | start => simp
  | next _ hturn ih => rw [hturn.sum, ih]

/-- A score is what its weight has brought in, less what its selections have cost. -/
theorem Turns.score (h : Turns w picked s) (j) : s j = picked.length * w j - (∑ k, w k) * picked.count j := by
  induction h with
  | start => simp
  | @next picked s s' i _ hturn ih =>
    rw [hturn.after, ih, List.length_append, List.length_singleton, List.count_append]
    by_cases hj : j = i
    · subst hj
      simp
      ring
    · rw [if_neg hj, List.count_singleton, if_neg (by simpa using fun h => hj h.symm)]
      push_cast
      ring

/-- The selected score is positive before it pays: the scores then sum to the sum of all weights. -/
theorem Turn.positive (h : Turn w s i s') (hsum : ∑ j, s j = 0) (hw : 0 < ∑ j, w j) : 0 < s i + w i := by
  by_contra hle
  have hall : ∑ j, (s j + w j) ≤ 0 := Finset.sum_nonpos fun j _ => (h.greatest j).trans (not_lt.mp hle)
  rw [Finset.sum_add_distrib, hsum] at hall
  omega

theorem Turns.above (hw : 0 < ∑ j, w j) (hpos : ∀ j, 0 ≤ w j) (h : Turns w picked s) (j) : -(∑ k, w k) < s j := by
  induction h with
  | start => exact neg_neg_of_pos hw
  | @next picked s s' i hturns hturn ih =>
    rw [hturn.after]
    split
    · next hj =>
      subst hj
      have := hturn.positive hturns.sum hw
      omega
    · have := hpos j
      omega

theorem Turns.atMost (hw : 0 < ∑ j, w j) (hpos : ∀ j, 0 ≤ w j) (h : Turns w picked s) (j) :
    s j ≤ Fintype.card ι * ∑ k, w k := by
  have hsum := h.sum
  rw [← Finset.add_sum_erase _ _ (Finset.mem_univ j)] at hsum
  have hrest : -((Finset.univ.erase j).card * ∑ k, w k) ≤ ∑ k ∈ Finset.univ.erase j, s k := by
    rw [← mul_neg, ← nsmul_eq_mul]
    exact Finset.card_nsmul_le_sum _ _ _ fun k _ => (h.above hw hpos k).le
  have hcard : ((Finset.univ.erase j).card : ℤ) * ∑ k, w k ≤ Fintype.card ι * ∑ k, w k :=
    mul_le_mul_of_nonneg_right (by exact_mod_cast Finset.card_le_univ _) hw.le
  omega

/-- **Exact shares.** After `k` times the sum of the weights each index has had `k` times its
weight: none can have had more, and together they have had that many. -/
theorem Turns.shares (hw : 0 < ∑ j, w j) (hpos : ∀ j, 0 ≤ w j) (h : Turns w picked s) {k}
    (hlength : (picked.length : ℤ) = k * ∑ j, w j) (j) : (picked.count j : ℤ) = k * w j ∧ s j = 0 := by
  have hle : ∀ j, (picked.count j : ℤ) ≤ k * w j := by
    intro j
    have habove := h.above hw hpos j
    rw [h.score j, hlength] at habove
    have hlt : (∑ i, w i) * picked.count j < (∑ i, w i) * (k * w j + 1) := by linarith
    have := (mul_lt_mul_iff_right₀ hw).mp hlt
    omega
  have htotal : ∑ j, (picked.count j : ℤ) = ∑ j, k * w j := by
    rw [← Finset.mul_sum, ← hlength, ← Nat.cast_sum]
    have hcounts := Multiset.sum_count_eq_card (s := Finset.univ) (m := (picked : Multiset ι)) fun _ _ => Finset.mem_univ _
    simpa using congrArg (Nat.cast (R := ℤ)) hcounts
  have hcount := (Finset.sum_eq_sum_iff_of_le fun j _ => hle j).mp htotal j (Finset.mem_univ j)
  refine ⟨hcount, ?_⟩
  rw [h.score j, hlength, hcount]
  ring

end Parins.Lib
