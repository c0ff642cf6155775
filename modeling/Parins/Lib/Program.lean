/-
Programs over typed commands, and what every run of one may do to the state the
commands act on. A program that is cut off between two commands has still only
made the steps it was allowed: safety speaks of each step and not of the end.
-/
import Mathlib.Logic.Relation

namespace Parins.Lib
open Relation (ReflTransGen)

/-- A program over commands `C`, each answered in its own type. -/
inductive Program (C : Type) (R : C → Type) (α : Type)
  | pure (value : α)
  | ask (command : C) (next : R command → Program C R α)

namespace Program

variable {C : Type} {R : C → Type} {S α β : Type}

def bind (p : Program C R α) (f : α → Program C R β) : Program C R β :=
  match p with
  | .pure a => f a
  | .ask c next => .ask c fun r => (next r).bind f

/-- Whatever steps in `rely` come before each command, the command makes a step in `guar`, and the
program returns in `Q`. -/
def Bears (effect : (c : C) → S → R c → S → Prop) (rely : S → S → Prop) (guar : C → S → S → Prop) (Q : α → S → Prop) :
    Program C R α → S → Prop
  | .pure a, s => Q a s
  | .ask c next, s => ∀ s1, ReflTransGen rely s s1 → ∀ r s', effect c s1 r s' →
      guar c s1 s' ∧ (next r).Bears effect rely guar Q s'

/-- Every command that the program reaches from `s` takes a step in `G`, and it returns in `Q`: nothing
comes between its commands. -/
def Safe (effect : (c : C) → S → R c → S → Prop) (G : S → S → Prop) (Q : α → S → Prop) (p : Program C R α) (s : S) :
    Prop :=
  p.Bears effect (fun _ _ => False) (fun _ => G) Q s

/-- Some answers make the program return `a` in `s'`. -/
def Returns (effect : (c : C) → S → R c → S → Prop) : Program C R α → S → α → S → Prop
  | .pure b, s, a, s' => a = b ∧ s' = s
  | .ask c next, s, a, s' => ∃ r s1, effect c s r s1 ∧ (next r).Returns effect s1 a s'

variable {effect : (c : C) → S → R c → S → Prop} {rely : S → S → Prop} {guar : C → S → S → Prop} {Q Q' : α → S → Prop}
  {p : Program C R α} {s s' : S}

theorem Bears.returns (h : p.Bears effect rely guar Q s) {a} (hr : p.Returns effect s a s') : Q a s' := by
  induction p generalizing s with
  | pure b =>
    obtain ⟨rfl, rfl⟩ := hr
    exact h
  | ask c next ih =>
    obtain ⟨r, s1, he, hr⟩ := hr
    exact ih r (h s .refl r s1 he).2 hr

/-- The run in which every command is answered by `perform`; none if one has to wait. -/
def run (perform : (c : C) → S → Option (R c × S)) : Program C R α → S → Option (α × S)
  | .pure a, s => some (a, s)
  | .ask c next, s => (perform c s).bind fun out => (next out.1).run perform out.2

theorem returns_of_run {perform}
    (h : ∀ c s r s', perform c s = some (r, s') → effect c s r s') {a} (hr : p.run perform s = some (a, s')) :
    p.Returns effect s a s' := by
  induction p generalizing s with
  | pure b =>
    cases hr
    exact ⟨rfl, rfl⟩
  | ask c next ih =>
    obtain ⟨⟨r, s1⟩, hperform, hr⟩ := Option.bind_eq_some_iff.mp hr
    exact ⟨r, s1, h c s r s1 hperform, ih r hr⟩

theorem Bears.mono (h : p.Bears effect rely guar Q s) (hQ : ∀ a s, Q a s → Q' a s) : p.Bears effect rely guar Q' s := by
  induction p generalizing s with
  | pure a => exact hQ a s h
  | ask c next ih =>
    intro s1 hrely r s' he
    obtain ⟨hguar, hnext⟩ := h s1 hrely r s' he
    exact ⟨hguar, ih r hnext⟩

theorem Bears.bind {f} {Q' : β → S → Prop} (h : p.Bears effect rely guar Q s)
    (hf : ∀ a s, Q a s → (f a).Bears effect rely guar Q' s) : (p.bind f).Bears effect rely guar Q' s := by
  induction p generalizing s with
  | pure a => exact hf a s h
  | ask c next ih =>
    intro s1 hrely r s' he
    obtain ⟨hguar, hnext⟩ := h s1 hrely r s' he
    exact ⟨hguar, ih r hnext⟩

theorem safe_ask {G : S → S → Prop} {c} {next : R c → Program C R α}
    (h : ∀ r s', effect c s r s' → G s s' ∧ (next r).Safe effect G Q s') : (ask c next).Safe effect G Q s := by
  intro s1 hnothing
  obtain rfl | ⟨_, _, hstep⟩ := hnothing.cases_tail
  · exact h
  · exact hstep.elim

end Program

/-- A program with a memory and errors; an error leaves the memory as it was when it was raised.
Every command answers with a value in `A` or fails. -/
def Exec (C : Type) (A : C → Type) (M E α : Type) : Type :=
  M → Program C (fun c => Except E (A c)) (Except E α × M)

namespace Exec

variable {C : Type} {A : C → Type} {M N E S α β : Type}

def pure (a : α) : Exec C A M E α := fun m => .pure (.ok a, m)

def bind (p : Exec C A M E α) (f : α → Exec C A M E β) : Exec C A M E β := fun m =>
  (p m).bind fun
    | (.ok a, m) => f a m
    | (.error e, m) => .pure (.error e, m)

instance : Monad (Exec C A M E) where
  pure := pure
  bind := bind

def call (c : C) : Exec C A M E (A c) := fun m => .ask c fun r => .pure (r, m)

def ofExcept (x : Except E α) : Exec C A M E α := fun m => .pure (x, m)

def fail (e : E) : Exec C A M E α := ofExcept (.error e)

/-- The result of `p`, its errors as values. -/
def attempt (p : Exec C A M E α) : Exec C A M E (Except E α) := fun m =>
  (p m).bind fun out => .pure (.ok out.1, out.2)

def memory : Exec C A M E M := fun m => .pure (.ok m, m)

def modify (f : M → M) : Exec C A M E Unit := fun m => .pure (.ok (), f m)

/-- Run `p` on a memory of its own. -/
def within (n : N) (p : Exec C A N E α) : Exec C A M E α := fun m =>
  (p n).bind fun out => .pure (out.1, m)

/-- `Bears` for a program with a memory and errors. -/
def Sustains (effect : (c : C) → S → Except E (A c) → S → Prop) (rely : S → S → Prop) (guar : C → S → S → Prop)
    (p : Exec C A M E α) (Q : Except E α → M → S → Prop) (m : M) (s : S) : Prop :=
  (p m).Bears effect rely guar (fun out s => Q out.1 out.2 s) s

/-- Every step that `p` makes from `m` and `s` is in `G`, and it ends in `Q`. -/
def Ensures (effect : (c : C) → S → Except E (A c) → S → Prop) (G : S → S → Prop) (p : Exec C A M E α)
    (Q : Except E α → M → S → Prop) (m : M) (s : S) : Prop :=
  p.Sustains effect (fun _ _ => False) (fun _ => G) Q m s

variable {effect : (c : C) → S → Except E (A c) → S → Prop} {rely : S → S → Prop} {guar : C → S → S → Prop}
  {p : Exec C A M E α} {f : α → Exec C A M E β} {Q Q1 : Except E α → M → S → Prop} {Q' : Except E β → M → S → Prop}
  {m : M} {s : S}

theorem Sustains.mono (h : p.Sustains effect rely guar Q m s) (hQ : ∀ out m s, Q out m s → Q1 out m s) :
    p.Sustains effect rely guar Q1 m s :=
  Program.Bears.mono h fun out s => hQ out.1 out.2 s

theorem Sustains.safe (h : p.Sustains effect rely guar Q m s) : p.Sustains effect rely guar (fun _ _ _ => True) m s :=
  h.mono fun _ _ _ _ => trivial

/-- The rule of composition: what follows a result, and what an error leaves. -/
theorem Sustains.bind (h : p.Sustains effect rely guar Q m s)
    (hok : ∀ a m s, Q (.ok a) m s → (f a).Sustains effect rely guar Q' m s)
    (herr : ∀ e m s, Q (.error e) m s → Q' (.error e) m s) : (p >>= f).Sustains effect rely guar Q' m s := by
  refine Program.Bears.bind h ?_
  intro out s' hQ
  match out with
  | (.ok a, m') => exact hok a m' s' hQ
  | (.error e, m') => exact herr e m' s' hQ

theorem sustains_fail {e} (h : Q (.error e) m s) : (fail e : Exec C A M E α).Sustains effect rely guar Q m s := h

theorem sustains_attempt {f} (h : p.Sustains effect rely guar Q m s)
    (hf : ∀ out m s, Q out m s → (f out).Sustains effect rely guar Q' m s) :
    (attempt p >>= f).Sustains effect rely guar Q' m s := by
  refine Sustains.bind (Q := fun out m s => ∃ r, out = .ok r ∧ Q r m s)
    (Program.Bears.bind h fun out _ hQ => ⟨out.1, rfl, hQ⟩) ?_ ?_
  · rintro a m s ⟨r, heq, hQ⟩
    cases heq
    exact hf a m s hQ
  · rintro _ m s ⟨r, heq, _⟩
    cases heq

theorem sustains_ofExcept {x} (hok : ∀ a, x = .ok a → (f a).Sustains effect rely guar Q' m s)
    (herr : ∀ e, x = .error e → Q' (.error e) m s) : (ofExcept x >>= f).Sustains effect rely guar Q' m s := by
  cases x with
  | ok a => exact hok a rfl
  | error e => exact herr e rfl

theorem sustains_memory {f} (h : (f m).Sustains effect rely guar Q' m s) :
    (memory >>= f).Sustains effect rely guar Q' m s := h

theorem sustains_modify {g f} (h : (f ()).Sustains effect rely guar Q' (g m) s) :
    (modify g >>= f).Sustains effect rely guar Q' m s := h

theorem sustains_within {n} {p : Exec C A N E α} {Q : Except E α → M → S → Prop}
    (h : p.Sustains effect rely guar (fun out _ s => Q out m s) n s) : (within n p).Sustains effect rely guar Q m s :=
  Program.Bears.bind h fun _ _ hQ => hQ

end Exec

end Parins.Lib
