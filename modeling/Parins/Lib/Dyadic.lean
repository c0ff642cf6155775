/-
Aligned blocks of `2 ^ k` numbers: two numbers lie in one block when they agree
above their low `k` bits. Blocks are nested or disjoint, which is what makes
address networks a laminar family.
-/
import Mathlib.Algebra.Order.Ring.Nat

namespace Parins.Lib

/-- `a` and `b` lie in one aligned block of `2 ^ k` numbers. -/
def SameBlock (k a b : Nat) : Prop := a / 2 ^ k = b / 2 ^ k

instance (k a b : Nat) : Decidable (SameBlock k a b) := inferInstanceAs (Decidable (_ = _))

/-- The first number of the block of `a`: its low `k` bits cleared. -/
def blockStart (k a : Nat) : Nat := a / 2 ^ k * 2 ^ k

variable {k m a b c : Nat}

theorem SameBlock.refl (k a) : SameBlock k a a := rfl

theorem SameBlock.symm (h : SameBlock k a b) : SameBlock k b a := Eq.symm h

theorem SameBlock.trans (h1 : SameBlock k a b) (h2 : SameBlock k b c) : SameBlock k a c := Eq.trans h1 h2

theorem SameBlock.mono (h : SameBlock k a b) (hle : k ≤ m) : SameBlock m a b := by
  obtain ⟨d, rfl⟩ := Nat.exists_eq_add_of_le hle
  unfold SameBlock at h ⊢
  rw [Nat.pow_add, ← Nat.div_div_eq_div_mul, ← Nat.div_div_eq_div_mul, h]

theorem blockStart_le (k a) : blockStart k a ≤ a := Nat.div_mul_le_self a (2 ^ k)

theorem sameBlock_blockStart (k a) : SameBlock k (blockStart k a) a := by
  unfold SameBlock blockStart
  exact Nat.mul_div_cancel _ (Nat.two_pow_pos k)

theorem blockStart_eq_iff : blockStart k a = blockStart k b ↔ SameBlock k a b := by
  constructor
  · intro h
    exact (sameBlock_blockStart k a).symm.trans (h ▸ sameBlock_blockStart k b)
  · intro h
    unfold blockStart
    rw [show a / 2 ^ k = b / 2 ^ k from h]

end Parins.Lib
