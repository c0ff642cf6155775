/-
Threads that share a state. Each runs a program of its own, and between two of
its commands the others may have made any steps that it can rely on. A pool in
which every thread relies on no more than the others guarantee keeps all the
guarantees, in whatever order the commands come.
-/
import Mathlib.Logic.Function.Basic
import Parins.Lib.Program

namespace Parins.Lib
open Relation (ReflTransGen)

namespace Program

variable {C : Type} {R : C → Type} {S α : Type}

/-- Whatever the answers are, every command that is answered is in `K` and what is returned is in `Q`. -/
def Every (K : C → Prop) (Q : α → Prop) (p : Program C R α) : Prop :=
  p.Bears (S := Unit) (fun _ _ _ _ => True) (fun _ _ => False) (fun c _ _ => K c) (fun a _ => Q a) ()

variable {effect : (c : C) → S → R c → S → Prop} {rely : S → S → Prop} {guar : C → S → S → Prop}
  {p : Program C R α} {s s' : S} {K : C → Prop} {I : S → Prop}

/-- The steps of others do not disturb a program whose result matters to nobody. -/
theorem Bears.after (h : p.Bears effect rely guar (fun _ _ => True) s) (hs : ReflTransGen rely s s') :
    p.Bears effect rely guar (fun _ _ => True) s' := by
  cases p with
  | pure a => trivial
  | ask c next => exact fun s1 hrely => h s1 (hs.trans hrely)

theorem stable_trans (hI : ∀ s s', I s → rely s s' → I s') (h : I s) (hs : ReflTransGen rely s s') : I s' := by
  induction hs with
  | refl => exact h
  | tail _ hstep ih => exact hI _ _ ih hstep

/-- An assertion that others keep, and that every command of the program keeps, holds at the end. -/
theorem Every.bears {P} (hI : ∀ s s', I s → rely s s' → I s')
    (hK : ∀ c, K c → ∀ s r s', I s → effect c s r s' → guar c s s' ∧ I s') (h : p.Every K P) (hs : I s) :
    p.Bears effect rely guar (fun a s => P a ∧ I s) s := by
  induction p generalizing s with
  | pure a => exact ⟨h, hs⟩
  | ask c next ih =>
    intro s1 hrely r s' he
    obtain ⟨hc, hnext⟩ := h () .refl r () trivial
    obtain ⟨hguar, hs'⟩ := hK c hc s1 r s' (stable_trans hI hs hrely) he
    exact ⟨hguar, ih r hnext hs'⟩

end Program

/-- `Every` for a program with a memory and errors. -/
def Exec.Yields {C M E α : Type} {A : C → Type} (K : C → Prop) (p : Exec C A M E α) (Q : Except E α → M → Prop) (m : M) :
    Prop :=
  p.Sustains (S := Unit) (fun _ _ _ _ => True) (fun _ _ => False) (fun c _ _ => K c) (fun out m _ => Q out m) m ()

/-! ### Pools -/

structure Pool (T C : Type) (R : C → Type) (S : Type) where
  state : S
  threads : T → Program C R Unit

namespace Pool

variable {T C : Type} {R : C → Type} {S : Type} [DecidableEq T]

inductive Step (effect : T → (c : C) → S → R c → S → Prop) (pool : Pool T C R S) (t : T) (c : C) (r : R c) :
    Pool T C R S → Prop
  | mk {next : R c → Program C R Unit} {s' : S} (asks : pool.threads t = .ask c next)
      (does : effect t c pool.state r s') : Step effect pool t c r ⟨s', Function.update pool.threads t (next r)⟩

/-- Every thread bears the others. -/
def Sound (effect : T → (c : C) → S → R c → S → Prop) (rely : T → S → S → Prop) (guar : T → C → S → S → Prop)
    (pool : Pool T C R S) : Prop :=
  ∀ t, (pool.threads t).Bears (effect t) (rely t) (guar t) (fun _ _ => True) pool.state

variable {effect : T → (c : C) → S → R c → S → Prop} {rely : T → S → S → Prop} {guar : T → C → S → S → Prop}
  {pool pool' : Pool T C R S} {t : T} {c : C} {r : R c}

theorem Sound.step (hrely : ∀ t u c s s', u ≠ t → guar t c s s' → rely u s s') (h : pool.Sound effect rely guar)
    (hstep : pool.Step effect t c r pool') : guar t c pool.state pool'.state ∧ pool'.Sound effect rely guar := by
  obtain ⟨asks, does⟩ := hstep
  have ht := h t
  rw [asks] at ht
  obtain ⟨hguar, hnext⟩ := ht pool.state .refl r _ does
  refine ⟨hguar, fun u => ?_⟩
  by_cases hu : u = t
  · subst hu
    simpa using hnext
  · simp only [Function.update_of_ne hu]
    exact (h u).after (.single (hrely t u c _ _ hu hguar))

theorem Step.does (h : pool.Step effect t c r pool') : effect t c pool.state r pool'.state := by
  obtain ⟨_, hdoes⟩ := h
  exact hdoes

structure Event (T C : Type) (R : C → Type) (S : Type) where
  thread : T
  command : C
  answer : R command
  before : S
  after : S

inductive Trace (effect : T → (c : C) → S → R c → S → Prop) (start : Pool T C R S) :
    List (Event T C R S) → Pool T C R S → Prop
  | nil : Trace effect start [] start
  | snoc {events : List (Event T C R S)} {pool pool' : Pool T C R S} {t : T} {c : C} {r : R c}
      (run : Trace effect start events pool) (step : pool.Step effect t c r pool') :
      Trace effect start (events ++ [⟨t, c, r, pool.state, pool'.state⟩]) pool'

variable {start : Pool T C R S} {events : List (Event T C R S)}

theorem Trace.sound (hrely : ∀ t u c s s', u ≠ t → guar t c s s' → rely u s s') (h : start.Sound effect rely guar)
    (htrace : Trace effect start events pool) :
    pool.Sound effect rely guar ∧ ∀ e ∈ events, guar e.thread e.command e.before e.after := by
  induction htrace with
  | nil => exact ⟨h, nofun⟩
  | snoc run step ih =>
    obtain ⟨hguar, hsound⟩ := ih.1.step hrely step
    refine ⟨hsound, fun e he => ?_⟩
    obtain he | he := List.mem_append.mp he
    · exact ih.2 e he
    · obtain rfl := List.mem_singleton.mp he
      exact hguar

theorem Trace.split (htrace : Trace effect start events pool) {i} {e : Event T C R S} (he : events[i]? = some e) :
    ∃ before, Trace effect start (events.take i) before ∧ before.state = e.before := by
  induction htrace with
  | nil => simp at he
  | @snoc events pool _ t c r run step ih =>
    obtain hlt | heq | hgt := Nat.lt_trichotomy i events.length
    · rw [List.getElem?_append_left hlt] at he
      rw [List.take_append_of_le_length (Nat.le_of_lt hlt)]
      exact ih he
    · subst heq
      rw [List.getElem?_concat_length, Option.some.injEq] at he
      subst he
      rw [List.take_left]
      exact ⟨pool, run, rfl⟩
    · rw [List.getElem?_eq_none (by simp; omega)] at he
      cases he

section Play
variable {X : Type} (perform : T → X → (c : C) → S → Option (R c × S))

/-- The next command of one thread, as `perform` answers it; none if the thread is done or has to wait. -/
def advance (pool : Pool T C R S) (t : T) (x : X) : Option (Event T C R S × Pool T C R S) :=
  match pool.threads t with
  | .pure _ => none
  | .ask c next =>
    (perform t x c pool.state).map fun out =>
      (⟨t, c, out.1, pool.state, out.2⟩, ⟨out.2, Function.update pool.threads t (next out.1)⟩)

/-- The run of a schedule, after what has been run. -/
def play (run : List (Event T C R S) × Pool T C R S) : List (T × X) → Option (List (Event T C R S) × Pool T C R S)
  | [] => some run
  | (t, x) :: schedule => (advance perform run.2 t x).bind fun out => play (run.1 ++ [out.1], out.2) schedule

variable {perform}

theorem Trace.play {run run' : List (Event T C R S) × Pool T C R S} {schedule}
    (heffect : ∀ t x c s r s', perform t x c s = some (r, s') → effect t c s r s') (h : Trace effect start run.1 run.2)
    (hplay : Pool.play perform run schedule = some run') : Trace effect start run'.1 run'.2 := by
  induction schedule generalizing run with
  | nil =>
    cases hplay
    exact h
  | cons turn schedule ih =>
    obtain ⟨⟨e, pool⟩, hadvance, hplay⟩ := Option.bind_eq_some_iff.mp hplay
    refine ih ?_ hplay
    unfold advance at hadvance
    split at hadvance
    · cases hadvance
    · rename_i c next hasks
      obtain ⟨⟨r, s'⟩, hperform, heq⟩ := Option.map_eq_some_iff.mp hadvance
      cases heq
      exact h.snoc ⟨hasks, heffect _ _ _ _ _ _ hperform⟩

end Play

end Pool

end Parins.Lib
