/-
A table with a queue that lists its keys, each once, so that a bounded part of
it can be swept at a time: the head leaves the table and the queue, or gets a
new value and goes to the back.
-/
import Mathlib.Data.List.AList

namespace Parins.Lib

variable {α β : Type} [DecidableEq α] {table : AList fun _ : α => β} {queue : List α} {k : α} {v : β}

theorem mem_keys_iff : k ∈ table.keys ↔ ∃ v, table.lookup k = some v := by
  rw [← AList.mem_keys, ← AList.lookup_isSome, Option.isSome_iff_exists]

theorem keys_insert_held (h : table.lookup k = some v) (v') : (table.insert k v').keys.Perm table.keys := by
  rw [AList.keys_insert]
  exact (List.perm_cons_erase (mem_keys_iff.mpr ⟨v, h⟩)).symm

theorem keys_insert_new (h : table.lookup k = none) (v) : (table.insert k v).keys = k :: table.keys := by
  have hnot : k ∉ table.keys := by
    rw [← AList.mem_keys]
    exact AList.lookup_eq_none.mp h
  rw [AList.keys_insert, List.erase_of_not_mem hnot]

/-- The queue lists the table. -/
def Swept (table : AList fun _ : α => β) (queue : List α) : Prop := queue.Perm table.keys

theorem Swept.mem (h : Swept table queue) : k ∈ queue ↔ ∃ v, table.lookup k = some v :=
  (List.Perm.mem_iff h).trans mem_keys_iff

theorem Swept.erase (h : Swept table (k :: queue)) : Swept (table.erase k) queue := by
  unfold Swept
  rw [AList.keys_erase]
  exact (List.cons_perm_iff_perm_erase.mp h).2

theorem Swept.rotate (h : Swept table (k :: queue)) (v) : Swept (table.insert k v) (queue ++ [k]) := by
  obtain ⟨_, hheld⟩ := h.mem.mp List.mem_cons_self
  exact (List.perm_append_singleton k queue).trans (List.Perm.trans h (keys_insert_held hheld v).symm)

theorem Swept.update (h : Swept table queue) (hheld : table.lookup k = some v) (v') :
    Swept (table.insert k v') queue :=
  List.Perm.trans h (keys_insert_held hheld v').symm

theorem Swept.add (h : Swept table queue) (hnew : table.lookup k = none) (v) :
    Swept (table.insert k v) (queue ++ [k]) := by
  unfold Swept
  rw [keys_insert_new hnew]
  exact (List.perm_append_singleton k queue).trans (List.Perm.cons k h)

end Parins.Lib
