/-
Length-prefixed words: every word is written as its length byte and then its
bytes. For words of fewer than 256 bytes the encoding respects prefixes in both
directions (`frame_prefix_iff`), so a byte prefix that is itself an encoding
never ends inside a word.
-/
import Mathlib.Algebra.Ring.Nat
import Mathlib.Data.List.Basic

namespace Parins.Lib
open List

/-- The words one after another, each behind its length byte. -/
def frame : List (List UInt8) → List UInt8
  | [] => []
  | w :: ws => UInt8.ofNat w.length :: (w ++ frame ws)

@[simp] theorem frame_nil : frame [] = [] := rfl

theorem frame_cons (w : List UInt8) (ws) : frame (w :: ws) = UInt8.ofNat w.length :: (w ++ frame ws) := rfl

theorem frame_append (vs ws) : frame (vs ++ ws) = frame vs ++ frame ws := by
  induction vs with
  | nil => rfl
  | cons v vs ih => simp [frame_cons, ih]

theorem length_frame (ws : List (List UInt8)) : (frame ws).length = (ws.map fun w => 1 + w.length).sum := by
  induction ws with
  | nil => rfl
  | cons w ws ih => simp [frame_cons, ih]; omega

/-- Words short enough for one length byte. -/
def Short (ws : List (List UInt8)) : Prop := ∀ w ∈ ws, w.length < 256

variable {w : List UInt8}

theorem length_lt_frame : ∀ {ws}, w ∈ ws → w.length < (frame ws).length
  | [], h => by simp at h
  | v :: ws, h => by
    simp only [frame_cons, length_cons, length_append]
    rcases mem_cons.mp h with rfl | h
    · omega
    · have := length_lt_frame h
      omega

variable {ws : List (List UInt8)}

theorem Short.of_length (h : (frame ws).length ≤ 256) : Short ws :=
  fun _ hw => Nat.lt_of_lt_of_le (length_lt_frame hw) h

theorem Short.tail (h : Short (w :: ws)) : Short ws :=
  fun v hv => h v (mem_cons_of_mem _ hv)

theorem ofNat_length_inj {v : List UInt8} (hv : v.length < 256) (hw : w.length < 256)
    (h : UInt8.ofNat v.length = UInt8.ofNat w.length) : v.length = w.length := by
  have := congrArg UInt8.toNat h
  simpa [Nat.mod_eq_of_lt hv, Nat.mod_eq_of_lt hw] using this

/-- **An encoding is a prefix exactly when its words are.** -/
theorem frame_prefix_iff : ∀ {vs ws}, Short vs → Short ws → (frame vs <+: frame ws ↔ vs <+: ws)
  | [], _, _, _ => by simp
  | v :: vs, [], _, _ => by simp [frame_cons]
  | v :: vs, w :: ws, hv, hw => by
    constructor
    · intro h
      simp only [frame_cons, cons_prefix_cons] at h
      obtain ⟨hlen, hp⟩ := h
      have hlen := ofNat_length_inj (hv v (by simp)) (hw w (by simp)) hlen
      have hvw : v = w := by
        have h1 : v <+: w ++ frame ws := (prefix_append v _).trans hp
        exact (prefix_of_prefix_length_le h1 (prefix_append w _) (Nat.le_of_eq hlen)).eq_of_length hlen
      subst hvw
      rw [prefix_append_right_inj] at hp
      exact cons_prefix_cons.mpr ⟨rfl, (frame_prefix_iff hv.tail hw.tail).mp hp⟩
    · intro h
      obtain ⟨rfl, hp⟩ := cons_prefix_cons.mp h
      simpa [frame_cons] using (frame_prefix_iff hv.tail hw.tail).mpr hp

theorem frame_injective {vs} (hv : Short vs) (hw : Short ws) (h : frame vs = frame ws) : vs = ws := by
  have h1 : vs <+: ws := (frame_prefix_iff hv hw).mp (h ▸ prefix_rfl)
  have h2 : ws <+: vs := (frame_prefix_iff hw hv).mp (h ▸ prefix_rfl)
  exact h1.eq_of_length (Nat.le_antisymm h1.length_le h2.length_le)

end Parins.Lib
