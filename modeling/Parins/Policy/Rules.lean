/-
What the filter means, label by label. A rule is a list of labels (root side
first), a group and a source slot; a name is matched by the suffix rules whose
labels begin its own and by the exact rules whose labels are its own.

A slot that covers another makes it redundant below it (`covers`). Along the
labels of a name the covering slot is inherited until a rule that it does not
cover takes over: `effective` is the slot in charge at a name, and `keptSuffix`
and `keptExact` are the rules that are not covered where they stand. This is
the meaning of the pruning pass, stated without keys, order or stacks.
-/
import Mathlib.Data.List.Induction
import Parins.Policy.Canonical
import Parins.Lib.Framing

namespace Parins.Policy

open Lib List Option

structure Rule where
  labels : List Label
  group : Group
  slot : Nat
deriving DecidableEq

/-- The lowest slot with a rule of this group at exactly these labels. -/
def first (rules : List Rule) (g : Group) (ks : List Label) : Option Nat :=
  ((rules.filter fun r => r.group = g ∧ r.labels = ks).map (·.slot)).min?

theorem first_some {rules g ks s} (h : first rules g ks = some s) :
    ⟨ks, g, s⟩ ∈ rules ∧ ∀ t, ⟨ks, g, t⟩ ∈ rules → s ≤ t := by
  have hmin := List.min?_eq_some_iff.mp h
  refine ⟨?_, fun t ht => hmin.2 t ?_⟩
  · obtain ⟨r, hr, hs⟩ := mem_map.mp hmin.1
    simp only [mem_filter, decide_eq_true_eq] at hr
    obtain ⟨hmem, rfl, rfl⟩ := hr
    exact hs ▸ hmem
  · exact mem_map.mpr ⟨⟨ks, g, t⟩, by simp [ht], rfl⟩

theorem first_none {rules g ks} (h : first rules g ks = none) (t) : ⟨ks, g, t⟩ ∉ rules := by
  intro ht
  rw [first, List.min?_eq_none_iff, map_eq_nil_iff, filter_eq_nil_iff] at h
  exact h _ ht (by simp)

theorem first_of_min {rules g ks s} (h : ⟨ks, g, s⟩ ∈ rules)
    (hmin : ∀ t, ⟨ks, g, t⟩ ∈ rules → s ≤ t) : first rules g ks = some s := by
  cases hf : first rules g ks with
  | none => exact absurd h (first_none hf s)
  | some t =>
    obtain ⟨ht, hle⟩ := first_some hf
    rw [Nat.le_antisymm (hle s h) (hmin t ht)]

/-! ## Inheritance along labels -/

section Inherit

variable (covers : Nat → Nat → Bool) (rule : List Label → Option Nat)

/-- The slot in charge once the rule of a name, if any, has been considered. -/
def settle (cur : Option Nat) : Option Nat → Option Nat
  | none => cur
  | some s => if cur.any (covers · s) then cur else some s

/-- The slot in charge after the labels `ks`, read from `pre` on. -/
def effectiveFrom (pre : List Label) (cur : Option Nat) : List Label → Option Nat
  | [] => cur
  | k :: ks => effectiveFrom (pre ++ [k]) (settle covers cur (rule (pre ++ [k]))) ks

def effective (ks : List Label) : Option Nat := effectiveFrom covers rule [] none ks

/-- The suffix rule at a name, unless the slot in charge above covers it. -/
def keptSuffix (ks : List Label) : Option Nat :=
  (rule ks).filter fun s => ks ≠ [] ∧ !(effective covers rule ks.dropLast).any (covers · s)

/-- The exact rule at a name, unless the slot in charge there covers it. -/
def keptExact (exact : List Label → Option Nat) (ks : List Label) : Option Nat :=
  (exact ks).filter fun s => !(effective covers rule ks).any (covers · s)

variable {covers rule}

theorem effectiveFrom_append (pre ks k cur) : effectiveFrom covers rule pre cur (ks ++ [k]) =
      settle covers (effectiveFrom covers rule pre cur ks) (rule (pre ++ ks ++ [k])) := by
  induction ks generalizing pre cur with
  | nil => simp [effectiveFrom]
  | cons x ks ih =>
    simp only [cons_append, effectiveFrom, ih]
    simp

theorem effective_append (ks k) :
    effective covers rule (ks ++ [k]) = settle covers (effective covers rule ks) (rule (ks ++ [k])) := by
  simp [effective, effectiveFrom_append]

theorem keptSuffix_append (ks k) : keptSuffix covers rule (ks ++ [k]) =
      (rule (ks ++ [k])).filter fun s => !(effective covers rule ks).any (covers · s) := by
  simp [keptSuffix]

theorem keptSuffix_of_rule {ks : List Label} {s} (hne : ks ≠ []) (h : rule ks = some s) :
    keptSuffix covers rule ks =
      if (effective covers rule ks.dropLast).any (covers · s) then none else some s := by
  by_cases hc : (effective covers rule ks.dropLast).any (covers · s) = true
  · simp [keptSuffix, h, filter_some, hc]
  · simp [keptSuffix, h, filter_some, hc, hne]

/-- A name changes hands exactly where a suffix rule is kept. -/
theorem effective_append_kept (ks k) : effective covers rule (ks ++ [k]) =
      (keptSuffix covers rule (ks ++ [k])).or (effective covers rule ks) := by
  rw [effective_append, keptSuffix_append]
  cases h : rule (ks ++ [k]) with
  | none => simp [settle]
  | some s =>
    by_cases hc : (effective covers rule ks).any (covers · s) = true
    · simp [settle, filter_some, hc]
    · simp [settle, filter_some, hc]

/-- **The slot in charge is that of the longest kept suffix rule.** -/
theorem effective_some {ks s} (h : effective covers rule ks = some s) :
    ∃ p, p <+: ks ∧ keptSuffix covers rule p = some s ∧
      ∀ p', p' <+: ks → (keptSuffix covers rule p').isSome = true → p' <+: p := by
  induction ks using List.reverseRecOn with
  | nil => simp [effective, effectiveFrom] at h
  | append_singleton ks k ih =>
    rw [effective_append_kept] at h
    cases hk : keptSuffix covers rule (ks ++ [k]) with
    | some t =>
      rw [hk, some_or, Option.some.injEq] at h
      exact ⟨ks ++ [k], prefix_rfl, h ▸ hk, fun p' hp' _ => hp'⟩
    | none =>
      rw [hk, none_or] at h
      obtain ⟨p, hp, hps, hmax⟩ := ih h
      refine ⟨p, hp.trans (prefix_append ks [k]), hps, fun p' hp' hs => ?_⟩
      rcases prefix_concat_iff.mp hp' with rfl | hp'
      · simp [hk] at hs
      · exact hmax p' hp' hs

theorem effective_none {ks} (h : effective covers rule ks = none) :
    ∀ p, p <+: ks → keptSuffix covers rule p = none := by
  induction ks using List.reverseRecOn with
  | nil =>
    intro p hp
    rw [prefix_nil.mp hp]
    simp [keptSuffix]
  | append_singleton ks k ih =>
    rw [effective_append_kept, or_eq_none_iff] at h
    intro p hp
    rcases prefix_concat_iff.mp hp with rfl | hp
    · exact h.1
    · exact ih h.2 p hp

theorem settle_isSome {cur r : Option Nat} (h : cur.isSome = true ∨ r.isSome = true) :
    (settle covers cur r).isSome = true := by
  cases r with
  | none => simpa [settle] using h
  | some s =>
    simp only [settle]
    split
    · next hc =>
      obtain ⟨c, hc, -⟩ := (any_eq_true _ _).mp hc
      simp [hc]
    · rfl

theorem effective_isSome {ks p} (hp : p <+: ks) (hne : p ≠ []) (h : (rule p).isSome = true) :
    (effective covers rule ks).isSome = true := by
  induction ks using List.reverseRecOn with
  | nil => exact absurd (prefix_nil.mp hp) hne
  | append_singleton ks k ih =>
    rw [effective_append]
    rcases prefix_concat_iff.mp hp with rfl | hp
    · exact settle_isSome (.inr h)
    · exact settle_isSome (.inl (ih hp))

end Inherit

end Parins.Policy
