/-
Token buckets: credit that grows with time up to a cap. Refilling is idempotent
in the sense that matters for shared tables: a bucket that was refilled on the
way is, at any later time, the bucket that was not.
-/
import Mathlib.Order.Basic
import Mathlib.Order.Lattice

namespace Parins.Lib

structure Bucket where
  credit : Nat
  updated : Nat
deriving DecidableEq

namespace Bucket

variable {rate cap : Nat} {b : Bucket} {t t' : Nat}

/-- The bucket at `now`; its clock never goes back. -/
def refill (rate cap : Nat) (b : Bucket) (now : Nat) : Bucket :=
  if b.updated < now then ⟨min (b.credit + (now - b.updated) * rate) cap, now⟩ else b

/-- What can be spent at `now`. -/
def level (rate cap : Nat) (b : Bucket) (now : Nat) : Nat := (b.refill rate cap now).credit

theorem refill_of_le (h : t ≤ b.updated) : b.refill rate cap t = b := if_neg (by omega)

theorem refill_of_lt (h : b.updated < t) :
    b.refill rate cap t = ⟨min (b.credit + (t - b.updated) * rate) cap, t⟩ := if_pos h

theorem updated_refill (b : Bucket) (t) : (b.refill rate cap t).updated = max b.updated t := by
  rcases Nat.lt_or_ge b.updated t with h | h
  · rw [refill_of_lt h, max_eq_right h.le]
  · rw [refill_of_le h, max_eq_left h]

theorem credit_refill_le (h : b.credit ≤ cap) : (b.refill rate cap t).credit ≤ cap := by
  unfold refill
  split
  · exact min_le_right _ _
  · exact h

theorem refill_refill (b : Bucket) (t t') :
    (b.refill rate cap t).refill rate cap t' = b.refill rate cap (max t t') := by
  rcases Nat.lt_or_ge b.updated t with h | h
  · rw [refill_of_lt h]
    rcases Nat.lt_or_ge t t' with h' | h'
    · rw [refill_of_lt h', max_eq_right h'.le, refill_of_lt (h.trans h')]
      have hsplit : (t' - b.updated) * rate = (t - b.updated) * rate + (t' - t) * rate := by
        rw [← Nat.add_mul]
        congr 1
        omega
      simp only [Bucket.mk.injEq, and_true, hsplit]
      omega
    · rw [refill_of_le h', max_eq_left h', refill_of_lt h]
  · rw [refill_of_le h]
    rcases Nat.lt_or_ge b.updated t' with h' | h'
    · rw [max_eq_right (h.trans h'.le)]
    · rw [refill_of_le h', refill_of_le (max_le h h')]

theorem refill_max_updated (b : Bucket) (t) : b.refill rate cap (max t b.updated) = b.refill rate cap t := by
  rcases Nat.lt_or_ge b.updated t with h | h
  · rw [max_eq_left h.le]
  · rw [max_eq_right h, refill_of_le h, refill_of_le (le_refl _)]

theorem refill_full (h : b.credit = cap) : b.refill rate cap t = ⟨cap, max b.updated t⟩ := by
  rcases Nat.lt_or_ge b.updated t with hlt | hge
  · rw [refill_of_lt hlt, h, max_eq_right hlt.le, min_eq_right (Nat.le_add_right _ _)]
  · rw [refill_of_le hge, max_eq_left hge, ← h]

theorem level_refill (h : t ≤ t') : (b.refill rate cap t).level rate cap t' = b.level rate cap t' := by
  unfold level
  rw [refill_refill, max_eq_right h]

theorem level_le (h : t ≤ t') : b.level rate cap t' ≤ b.level rate cap t + (t' - t) * rate := by
  rw [← level_refill h]
  unfold level
  generalize hb : b.refill rate cap t = b'
  have hup : t ≤ b'.updated := by
    rw [← hb, updated_refill]
    exact le_max_right _ _
  rcases Nat.lt_or_ge b'.updated t' with h' | h'
  · rw [refill_of_lt h']
    have : (t' - b'.updated) * rate ≤ (t' - t) * rate := Nat.mul_le_mul_right _ (by omega)
    dsimp only
    omega
  · rw [refill_of_le h']
    omega

end Bucket

end Parins.Lib
