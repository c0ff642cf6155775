/-
A map with a use order, as a list of key-value pairs with the most recently used
first. Every operation is characterised by what it does to the pairs up to
order; only the two ends of the list say anything about recency.
-/
import Mathlib.Data.List.Perm.Basic
import Mathlib.Data.List.Nodup

namespace Parins.Lib
open List

/-- Pairs with distinct keys, most recently used first. -/
structure Recency (κ ν : Type) where
  items : List (κ × ν)
  distinct : (items.map Prod.fst).Nodup

namespace Recency

variable {κ ν : Type} [DecidableEq κ]

def empty : Recency κ ν := ⟨[], nodup_nil⟩

def others (r : Recency κ ν) (k : κ) : List (κ × ν) := r.items.filter fun p => p.1 ≠ k

theorem others_nodup (r : Recency κ ν) (k) : ((r.others k).map Prod.fst).Nodup :=
  r.distinct.sublist (filter_sublist.map Prod.fst)

theorem not_mem_others (r : Recency κ ν) (k) : k ∉ (r.others k).map Prod.fst := by
  simp [others]

def peek (r : Recency κ ν) (k : κ) : Option ν := (r.items.find? fun p => p.1 = k).map Prod.snd

def put (r : Recency κ ν) (k : κ) (v : ν) : Recency κ ν :=
  ⟨(k, v) :: r.others k, nodup_cons.mpr ⟨r.not_mem_others k, r.others_nodup k⟩⟩

def pop (r : Recency κ ν) (k : κ) : Recency κ ν := ⟨r.others k, r.others_nodup k⟩

def promote (r : Recency κ ν) (k : κ) : Recency κ ν :=
  match r.peek k with
  | some v => r.put k v
  | none => r

def demote (r : Recency κ ν) (k : κ) : Recency κ ν :=
  match r.peek k with
  | some v => ⟨r.others k ++ [(k, v)], by
      rw [map_append, map_singleton, nodup_append]
      refine ⟨r.others_nodup k, nodup_singleton k, fun a ha b hb => ?_⟩
      rw [show b = k from mem_singleton.mp hb]
      exact fun h => r.not_mem_others k (h ▸ ha)⟩
  | none => r

def peekLru (r : Recency κ ν) : Option (κ × ν) := r.items.getLast?

/-- Forgets the least recently used pairs until at most `n` are left. -/
def truncate (r : Recency κ ν) (n : Nat) : Recency κ ν :=
  ⟨r.items.take n, r.distinct.sublist ((take_sublist _ _).map Prod.fst)⟩

variable {r : Recency κ ν} {k k' : κ} {v v' : ν}

omit [DecidableEq κ] in
theorem value_unique (h : (k, v) ∈ r.items) (h' : (k, v') ∈ r.items) : v = v' :=
  (Prod.mk.inj (inj_on_of_nodup_map r.distinct h h' rfl)).2

theorem mem_of_peek (h : r.peek k = some v) : (k, v) ∈ r.items := by
  obtain ⟨p, hp, rfl⟩ := Option.map_eq_some_iff.mp h
  have hk : p.1 = k := by simpa using List.find?_some hp
  exact hk ▸ mem_of_find?_eq_some hp

theorem peek_eq_some_iff : r.peek k = some v ↔ (k, v) ∈ r.items := by
  refine ⟨mem_of_peek, fun h => ?_⟩
  cases hf : r.peek k with
  | none =>
    have := List.find?_eq_none.mp (Option.map_eq_none_iff.mp hf) _ h
    simp at this
  | some w => rw [value_unique (mem_of_peek hf) h]

theorem peek_eq_none_iff : r.peek k = none ↔ ∀ v, (k, v) ∉ r.items := by
  constructor
  · intro h v hv
    rw [peek_eq_some_iff.mpr hv] at h
    cases h
  · intro h
    cases hf : r.peek k with
    | none => rfl
    | some v => exact absurd (peek_eq_some_iff.mp hf) (h v)

variable {p : κ × ν}

@[simp] theorem mem_pop : p ∈ (r.pop k).items ↔ p ∈ r.items ∧ p.1 ≠ k := by
  simp [pop, others]

@[simp] theorem mem_put : p ∈ (r.put k v).items ↔ p = (k, v) ∨ (p ∈ r.items ∧ p.1 ≠ k) := by
  simp [put, others]

theorem perm_pop (h : (k, v) ∈ r.items) : r.items.Perm ((k, v) :: (r.pop k).items) := by
  have hn : (k, v) ∉ (r.pop k).items := by simp
  refine (perm_ext_iff_of_nodup (List.Nodup.of_map _ r.distinct)
    (nodup_cons.mpr ⟨hn, List.Nodup.of_map _ (r.pop k).distinct⟩)).mpr fun p => ?_
  rw [mem_cons, mem_pop]
  constructor
  · intro hp
    by_cases hk : p.1 = k
    · exact .inl (Prod.ext hk (value_unique (hk ▸ hp) h))
    · exact .inr ⟨hp, hk⟩
  · rintro (rfl | ⟨hp, _⟩)
    · exact h
    · exact hp

theorem pop_of_absent (h : r.peek k = none) : (r.pop k).items = r.items := by
  refine filter_eq_self.mpr fun p hp => decide_eq_true fun hk => ?_
  exact peek_eq_none_iff.mp h p.2 (hk ▸ hp)

theorem put_of_absent (h : r.peek k = none) : (r.put k v).items = (k, v) :: r.items :=
  congrArg _ (pop_of_absent h)

theorem promote_perm (r : Recency κ ν) (k) : (r.promote k).items.Perm r.items := by
  unfold promote
  split
  · next v hv => exact (perm_pop (peek_eq_some_iff.mp hv)).symm
  · exact .refl _

theorem demote_perm (r : Recency κ ν) (k) : (r.demote k).items.Perm r.items := by
  unfold demote
  split
  · next v hv =>
    exact (perm_append_singleton _ _).trans (perm_pop (peek_eq_some_iff.mp hv)).symm
  · exact .refl _

omit [DecidableEq κ] in
theorem mem_of_peekLru (h : r.peekLru = some p) : p ∈ r.items := mem_of_getLast? h

omit [DecidableEq κ] in
theorem mem_of_mem_truncate {n} (h : p ∈ (r.truncate n).items) : p ∈ r.items :=
  mem_of_mem_take h

theorem mem_foldl_pop (ks : List κ) : p ∈ (ks.foldl pop r).items ↔ p ∈ r.items ∧ p.1 ∉ ks := by
  induction ks generalizing r with
  | nil => simp
  | cons k ks ih => rw [foldl_cons, ih, mem_pop, mem_cons, not_or, and_assoc]

theorem mem_promote : p ∈ (r.promote k).items ↔ p ∈ r.items := (promote_perm r k).mem_iff

end Recency

end Parins.Lib
