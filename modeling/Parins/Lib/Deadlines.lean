/-
Bounded tables of deadlines. A key that is entered waits for a fixed time; when
the table is full it gives up an entry with the earliest deadline. What such a
table still knows of the entries ever made: each of them is held, is over, or
was displaced by as many entries of its time or later as the table can hold.
-/
import Mathlib.Data.List.AList
import Mathlib.Data.List.Perm.Subperm
import Mathlib.Data.List.Count
import Mathlib.Order.Basic
import Mathlib.Order.Nat
import Parins.Lib.Sweep

namespace Parins.Lib
open List

variable {α : Type} [DecidableEq α] {table table' : AList fun _ : α => Nat} {log : List (α × Nat)}
  {wait capacity now after deadline t : Nat} {k oldest : α}

omit [DecidableEq α] in
def unexpired (now : Nat) (table : AList fun _ : α => Nat) : AList fun _ : α => Nat :=
  ⟨table.entries.filter fun e => decide (now < e.2), table.nodupKeys.sublist filter_sublist⟩

def Earliest (table : AList fun _ : α => Nat) (k : α) : Prop :=
  ∃ e ∈ table.entries, e.1 = k ∧ ∀ e' ∈ table.entries, e.2 ≤ e'.2

instance (table : AList fun _ : α => Nat) (k : α) : Decidable (Earliest table k) :=
  inferInstanceAs (Decidable (∃ e ∈ table.entries, _))

/-- A full table gives up `oldest`; nothing when that is not one of its earliest entries. -/
def displace (capacity : Nat) (oldest : α) (table : AList fun _ : α => Nat) : Option (AList fun _ : α => Nat) :=
  if capacity ≤ table.entries.length ∧ table.entries ≠ [] then
    if Earliest table oldest then some (table.erase oldest) else none
  else some table

/-- A new deadline, for which a full table makes room. -/
def enter (capacity : Nat) (oldest k : α) (deadline : Nat) (table : AList fun _ : α => Nat) :
    Option (AList fun _ : α => Nat) :=
  (displace capacity oldest table).map fun table => table.insert k deadline

/-! ## What an operation does -/

omit [DecidableEq α] in
theorem length_keys (table : AList fun _ : α => Nat) : table.keys.length = table.entries.length := length_map _

theorem lookup_iff_mem : table.lookup k = some deadline ↔ ⟨k, deadline⟩ ∈ table.entries := AList.mem_lookup_iff

theorem lookup_unexpired :
    (unexpired now table).lookup k = some deadline ↔ table.lookup k = some deadline ∧ now < deadline := by
  rw [lookup_iff_mem, lookup_iff_mem, unexpired, mem_filter, decide_eq_true_eq]

omit [DecidableEq α] in
theorem length_unexpired (now) (table : AList fun _ : α => Nat) :
    (unexpired now table).keys.length ≤ table.keys.length := by
  rw [length_keys, length_keys]
  exact length_filter_le _ _

theorem enter_cases (h : enter capacity oldest k deadline table = some table') :
    (table' = table.insert k deadline ∧ (table.keys.length < capacity ∨ table.keys = [])) ∨
      (table' = (table.erase oldest).insert k deadline ∧ capacity ≤ table.keys.length ∧ Earliest table oldest) := by
  unfold enter displace at h
  rw [← length_keys] at h
  split at h
  · next hfull =>
    split at h
    · next hearliest => exact .inr ⟨(Option.some.inj h).symm, hfull.1, hearliest⟩
    · cases h
  · next hroom =>
    refine .inl ⟨(Option.some.inj h).symm, ?_⟩
    by_cases hnil : table.entries = []
    · exact .inr (by rw [AList.keys, hnil]; rfl)
    · exact .inl (Nat.lt_of_not_le fun hle => hroom ⟨hle, hnil⟩)

theorem length_insert_le (table : AList fun _ : α => Nat) (k deadline) :
    (table.insert k deadline).keys.length ≤ table.keys.length + 1 := by
  rw [AList.keys_insert, length_cons]
  exact Nat.succ_le_succ length_erase_le

omit [DecidableEq α] in
theorem Earliest.mem_keys (h : Earliest table k) : k ∈ table.keys := by
  obtain ⟨e, he, rfl, _⟩ := h
  exact mem_map_of_mem he

theorem Earliest.le {deadline'} (h : Earliest table oldest) (hold : table.lookup oldest = some deadline)
    (hk : table.lookup k = some deadline') : deadline ≤ deadline' := by
  obtain ⟨⟨_, u⟩, he, rfl, hmin⟩ := h
  have : u = deadline := Option.some.inj ((lookup_iff_mem.mpr he).symm.trans hold)
  exact this ▸ hmin _ (lookup_iff_mem.mp hk)

theorem length_enter (hcapacity : 0 < capacity) (hsize : table.keys.length ≤ capacity)
    (h : enter capacity oldest k deadline table = some table') : table'.keys.length ≤ capacity := by
  obtain ⟨rfl, hroom⟩ | ⟨rfl, _, hearliest⟩ := enter_cases h
  · refine (length_insert_le table k deadline).trans ?_
    rcases hroom with hlt | hnil
    · exact hlt
    · rw [hnil]
      exact hcapacity
  · have hless : (table.erase oldest).keys.length = table.keys.length - 1 := by
      rw [AList.keys_erase, length_erase_of_mem hearliest.mem_keys]
    have hpos : 0 < table.keys.length := length_pos_of_mem hearliest.mem_keys
    have := length_insert_le (table.erase oldest) k deadline
    omega

/-! ## What the table knows -/

def sinceCount (t : Nat) (log : List (α × Nat)) : Nat := log.countP fun p => decide (t ≤ p.2)

/-- What a table of this capacity knows at `now` of the entries ever made, each with its time. -/
structure Remembers (wait capacity now : Nat) (table : AList fun _ : α => Nat) (log : List (α × Nat)) : Prop where
  made : ∀ k deadline, table.lookup k = some deadline → ∃ t, (k, t) ∈ log ∧ deadline = t + wait
  past : ∀ p ∈ log, p.2 ≤ now
  held : ∀ p ∈ log, (∃ deadline, table.lookup p.1 = some deadline ∧ p.2 + wait ≤ deadline) ∨ p.2 + wait ≤ now ∨
    capacity < sinceCount p.2 log

omit [DecidableEq α] in
theorem sinceCount_snoc (t log) (p : α × Nat) :
    sinceCount t (log ++ [p]) = sinceCount t log + if t ≤ p.2 then 1 else 0 := by
  simp only [sinceCount, countP_append, countP_singleton, decide_eq_true_eq]

theorem Remembers.nil (wait capacity now) : Remembers wait capacity now (∅ : AList fun _ : α => Nat) [] :=
  ⟨fun k _ h => by simp at h, nofun, nofun⟩

section
variable (h : Remembers wait capacity now table log)
include h

theorem Remembers.later (hle : now ≤ after) :
    Remembers wait capacity after table log :=
  ⟨h.made, fun p hp => (h.past p hp).trans hle, fun p hp => (h.held p hp).imp_right (Or.imp_left hle.trans')⟩

theorem Remembers.unexpired :
    Remembers wait capacity now (unexpired now table) log := by
  refine ⟨fun k u hk => h.made k u (lookup_unexpired.mp hk).1, h.past, fun p hp => ?_⟩
  rcases h.held p hp with ⟨u, hu, hle⟩ | hdone
  · by_cases hlater : now < u
    · exact .inl ⟨u, lookup_unexpired.mpr ⟨hu, hlater⟩, hle⟩
    · exact .inr (.inl (hle.trans (Nat.le_of_not_lt hlater)))
  · exact .inr hdone

/-- A table whose deadlines all lie at `t + wait` or later was filled since `t`. -/
theorem Remembers.length_le
    (hall : ∀ k deadline, table.lookup k = some deadline → t + wait ≤ deadline) :
    table.keys.length ≤ sinceCount t log := by
  have hsubset : table.keys ⊆ (log.filter fun p => decide (t ≤ p.2)).map Prod.fst := by
    intro k hk
    obtain ⟨u, hu⟩ := mem_keys_iff.mp hk
    obtain ⟨t', hlogged, rfl⟩ := h.made k u hu
    have := hall k _ hu
    exact mem_map.mpr ⟨(k, t'), mem_filter.mpr ⟨hlogged, by simp; omega⟩, rfl⟩
  have := (subperm_of_subset table.keys_nodup hsubset).length_le
  rwa [length_map, ← countP_eq_length_filter] at this

/-- **A new entry** displaces another only as the last of `capacity` later ones. -/
theorem Remembers.enter (hs : enter capacity oldest k (now + wait) table = some table') :
    Remembers wait capacity now table' (log ++ [(k, now)]) := by
  -- what is left of the table is what it held, but for the displaced entry
  have hlookup : ∀ k' u, table'.lookup k' = some u → k' = k ∧ u = now + wait ∨ table.lookup k' = some u := by
    intro k' u hu
    by_cases hk : k' = k
    · subst hk
      obtain ⟨rfl, _⟩ | ⟨rfl, _⟩ := enter_cases hs <;>
      · rw [AList.lookup_insert] at hu
        exact .inl ⟨rfl, (Option.some.inj hu).symm⟩
    · obtain ⟨rfl, _⟩ | ⟨rfl, _⟩ := enter_cases hs
      · rw [AList.lookup_insert_ne hk] at hu
        exact .inr hu
      · rw [AList.lookup_insert_ne hk] at hu
        by_cases hold : k' = oldest
        · subst hold
          simp at hu
        · rw [AList.lookup_erase_ne hold] at hu
          exact .inr hu
  have hself : table'.lookup k = some (now + wait) := by
    obtain ⟨rfl, _⟩ | ⟨rfl, _⟩ := enter_cases hs <;> exact AList.lookup_insert _
  refine ⟨fun k' u hu => ?_, fun p hp => ?_, fun p hp => ?_⟩
  · rcases hlookup k' u hu with ⟨rfl, rfl⟩ | hu
    · exact ⟨now, by simp, rfl⟩
    · obtain ⟨t, hmem, rfl⟩ := h.made k' u hu
      exact ⟨t, mem_append_left _ hmem, rfl⟩
  · rcases mem_append.mp hp with hp | hp
    · exact h.past p hp
    · rw [mem_singleton.mp hp]
  · rcases mem_append.mp hp with hp | hp
    · have hpast := h.past p hp
      rw [sinceCount_snoc, if_pos hpast]
      rcases h.held p hp with ⟨u, hu, hle⟩ | hover | hcount
      · by_cases hk : p.1 = k
        · exact .inl ⟨now + wait, hk ▸ hself, by omega⟩
        · obtain ⟨rfl, _⟩ | ⟨rfl, hfull, hearliest⟩ := enter_cases hs
          · exact .inl ⟨u, by rw [AList.lookup_insert_ne hk, hu], hle⟩
          · by_cases hold : p.1 = oldest
            · -- every other entry is at least as late as the displaced one
              have hcount := h.length_le (t := p.2) fun k' u' hu' => hle.trans (hearliest.le (hold ▸ hu) hu')
              exact .inr (.inr (by omega))
            · exact .inl ⟨u, by rw [AList.lookup_insert_ne hk, AList.lookup_erase_ne hold, hu], hle⟩
      · exact .inr (.inl hover)
      · exact .inr (.inr (by omega))
    · rw [mem_singleton.mp hp]
      exact .inl ⟨now + wait, hself, Nat.le_refl _⟩

theorem Remembers.absent (hk : table.lookup k = none) (hmem : (k, t) ∈ log) :
    t + wait ≤ now ∨ capacity < sinceCount t log := by
  refine (h.held (k, t) hmem).resolve_left fun ⟨u, hu, _⟩ => ?_
  rw [hk] at hu
  cases hu

end

end Parins.Lib
