/-
Computations that return, fail or panic. A failure is a value the program
handles; a panic is one it does not. `Safe x P` says that `x` does not panic,
and that what it returns satisfies `P`: the triples of a small program logic,
with one rule for each way computations are put together.
-/
import Mathlib.Algebra.Ring.Nat
import Mathlib.Data.List.Basic

namespace Parins.Lib

/-- How a computation ends without a value. -/
inductive Fault (ε : Type) where
  | error (e : ε)
  | panic
deriving DecidableEq

section Outcome

variable {ε α β : Type} {f : α → Except ε β}

theorem bind_eq_ok {x y} : (x >>= f) = .ok y ↔ ∃ a, x = .ok a ∧ f a = .ok y := by
  cases x with
  | error e => exact ⟨fun h => (by cases h), fun ⟨a, h, _⟩ => (by cases h)⟩
  | ok a => exact ⟨fun h => ⟨a, rfl, h⟩, fun ⟨a', h, h'⟩ => by cases h; exact h'⟩

theorem map_eq_ok {f : α → β} {x : Except ε α} {y} : x.map f = .ok y ↔ ∃ a, x = .ok a ∧ f a = y := by
  cases x <;> simp [Except.map]

theorem mapM_eq_some {f : α → Option β} {l : List α} {l' : List β} (h : l.mapM f = some l') :
    l'.length = l.length ∧ (∀ a ∈ l, ∃ b, f a = some b) ∧ ∀ b, b ∈ l' ↔ ∃ a ∈ l, f a = some b := by
  induction l generalizing l' with
  | nil => cases h; simp
  | cons a l ih =>
    rw [List.mapM_cons] at h
    obtain ⟨b, hb, h⟩ := Option.bind_eq_some_iff.mp h
    obtain ⟨rest, hrest, h⟩ := Option.bind_eq_some_iff.mp h
    cases h
    obtain ⟨hlength, hall, hmem⟩ := ih hrest
    exact ⟨by simp [hlength], List.forall_mem_cons.mpr ⟨⟨b, hb⟩, hall⟩, fun x => by simp [hb, hmem, eq_comm]⟩

theorem mapM_eq_ok {l : List α} {l' : List β} (h : l.mapM f = .ok l') :
    l'.length = l.length ∧ ∀ b ∈ l', ∃ a ∈ l, f a = .ok b := by
  induction l generalizing l' with
  | nil =>
    cases h
    exact ⟨rfl, nofun⟩
  | cons a l ih =>
    rw [List.mapM_cons] at h
    obtain ⟨b, hb, h⟩ := bind_eq_ok.mp h
    obtain ⟨rest, hrest, h⟩ := bind_eq_ok.mp h
    cases h
    obtain ⟨hlength, hmem⟩ := ih hrest
    refine ⟨by simp [hlength], fun x hx => ?_⟩
    rcases List.mem_cons.mp hx with rfl | hx
    · exact ⟨a, List.mem_cons_self, hb⟩
    · obtain ⟨y, hy, hyx⟩ := hmem x hx
      exact ⟨y, List.mem_cons_of_mem _ hy, hyx⟩

theorem mapM_ok_mono {g : α → Except ε β} (h : ∀ a b, f a = .ok b → g a = .ok b) {l : List α} {bs}
    (hl : l.mapM f = .ok bs) : l.mapM g = .ok bs := by
  induction l generalizing bs with
  | nil => exact hl
  | cons a l ih =>
    rw [List.mapM_cons] at hl ⊢
    obtain ⟨b, hb, hl⟩ := bind_eq_ok.mp hl
    obtain ⟨rest, hrest, hl⟩ := bind_eq_ok.mp hl
    rw [h a b hb, ih hrest]
    exact hl

theorem exists_ok {x : Except ε α} (h : x.isOk = true) : ∃ a, x = .ok a := by
  cases x with
  | error e => cases h
  | ok a => exact ⟨a, rfl⟩

theorem exists_ok_of_map {x : Except ε α} {f} {b : β} (h : x.toOption.map f = some b) :
    ∃ a, x = .ok a ∧ f a = b := by
  cases x with
  | error e => cases h
  | ok a => exact ⟨a, rfl, Option.some.inj h⟩

theorem exists_unit {p : Unit → Prop} : (∃ u, p u) ↔ p () := ⟨fun ⟨(), h⟩ => h, fun h => ⟨(), h⟩⟩

/-- `x` does not panic, and what it returns satisfies `P`. -/
def Safe (x : Except (Fault ε) α) (P : α → Prop) : Prop :=
  match x with
  | .ok a => P a
  | .error (.error _) => True
  | .error .panic => False

variable {x : Except (Fault ε) α} {P Q : α → Prop}

theorem Safe.bind {f} {R : β → Prop} (h : Safe x P) (hf : ∀ a, P a → Safe (f a) R) : Safe (x >>= f) R := by
  match x, h with
  | .ok a, h => exact hf a h
  | .error (.error _), _ => trivial

theorem Safe.mono (h : Safe x P) (hpq : ∀ a, P a → Q a) : Safe x Q := by
  match x, h with
  | .ok a, h => exact hpq a h
  | .error (.error _), _ => trivial

theorem Safe.of_ok {a} (h : Safe x P) (hx : x = .ok a) : P a := by
  subst hx
  exact h

theorem Safe.cases (h : Safe x P) : (∃ e, x = .error (.error e)) ∨ ∃ a, x = .ok a ∧ P a := by
  match x, h with
  | .ok a, h => exact .inr ⟨a, rfl, h⟩
  | .error (.error e), _ => exact .inl ⟨e, rfl⟩

end Outcome

/-! ## Indexing -/

section Index

variable {ε α : Type}

/-- `xs[i]`. -/
def item (xs : List α) (i : Nat) : Except (Fault ε) α :=
  match xs[i]? with
  | some x => .ok x
  | none => .error .panic

/-- `xs[i] = f(xs[i])`. -/
def update (xs : List α) (i : Nat) (f : α → α) : Except (Fault ε) (List α) :=
  match xs[i]? with
  | some x => .ok (xs.set i (f x))
  | none => .error .panic

/-- `&xs[start..start + len]`. -/
def slice (xs : List α) (start len : Nat) : Except (Fault ε) (List α) :=
  if start + len ≤ xs.length then .ok ((xs.drop start).take len) else .error .panic

variable {xs : List α} {i : Nat} {x : α}

theorem item_of_get (h : xs[i]? = some x) : item (ε := ε) xs i = .ok x := by
  simp [item, h]

theorem slice_of_le {start len} (h : start + len ≤ xs.length) :
    slice (ε := ε) xs start len = .ok ((xs.drop start).take len) := if_pos h

theorem update_safe {f} (h : xs[i]? = some x) : Safe (ε := ε) (update xs i f) fun ys => ys = xs.set i (f x) := by
  simp [update, h, Safe]

end Index

end Parins.Lib
