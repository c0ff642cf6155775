/-
When a response with aliases proves a negative answer: `cname_negative_ttl`
accepts exactly the responses whose aliases are one chain from the question to a
name without alias, with one SOA for that name.
-/
import Mathlib.Data.List.Induction
import Parins.Cache.Retimed
import Parins.Lib.Orbit

namespace Parins.Cache
open Lib List Option

/-- From a name along the aliases: the owners on the way, and where it ends. -/
inductive Follows (answers : List Record) : Name → List Name → Name → Prop
  | stop (name : Name) : Follows answers name [] name
  | hop {name target last : Name} {owners : List Name} {rr : Record} (mem : rr ∈ answers)
      (owner : rr.name.same name = true) (data : rr.data = .cname target) (rest : Follows answers target owners last) :
      Follows answers name (name :: owners) last

/-- The aliases of the answers: all of the class, and one target an owner. -/
structure Aliases (cls : DNSClass) (answers : List Record) : Prop where
  cname : ∀ rr ∈ answers, rr.dnsClass = cls ∧ ∃ target, rr.data = .cname target
  single : ∀ rr1 ∈ answers, ∀ rr2 ∈ answers, rr1.name.same rr2.name = true → ∀ t1 t2,
    rr1.data = .cname t1 → rr2.data = .cname t2 → t1.same t2 = true

/-- The path visits each owner once and ends outside of them. -/
structure Chain (answers : List Record) (name : Name) (owners : List Name) (last : Name) : Prop where
  path : Follows answers name owners last
  once : owners.Pairwise fun a b => a.same b = false
  all : ∀ rr ∈ answers, ∃ owner ∈ owners, owner.same rr.name = true
  ends : ∀ rr ∈ answers, rr.name.same last = false

def soas (authorities : List Record) : List (Record × Soa) :=
  authorities.filterMap fun rr =>
    match rr.data with
    | .soa soa => some (rr, soa)
    | _ => none

/-- The SOA records are of the class, for a zone of the name, and all of one owner with one value. -/
structure OneSoa (cls : DNSClass) (last : Name) (authorities : List Record) : Prop where
  zone : ∀ x ∈ soas authorities, x.1.dnsClass = cls ∧ x.1.name.zoneOf last = true
  one : ∀ x ∈ soas authorities, ∀ y ∈ soas authorities, x.1.name.same y.1.name = true ∧ x.2.same y.2 = true

/-- The least lifetime of the SOA records, if there is one. -/
def leastSoa (authorities : List Record) : Option Nat := ((soas authorities).map fun x => min x.1.ttl x.2.minimum).min?

theorem same_iff_lower {x y : Name} : x.same y = true ↔ x.toLowercase = y.toLowercase := by simp [Name.same]

/-! ### The map of targets -/

theorem getTarget_cons (p : Name × Name) (rest n) :
    getTarget (p :: rest) n = if p.1.same n then some p.2 else getTarget rest n := by
  unfold getTarget
  rw [List.find?_cons]
  cases h : p.1.same n <;> simp

variable {targets : List (Name × Name)}

theorem getTarget_isSome {n : Name} :
    (getTarget targets n).isSome = true ↔ n.toLowercase ∈ targets.map (·.1.toLowercase) := by
  induction targets with
  | nil => simp [getTarget]
  | cons p rest ih =>
    rw [getTarget_cons, map_cons, mem_cons]
    by_cases h : p.1.same n = true
    · simp [h, (same_iff_lower.mp h).symm]
    · rw [if_neg h, ih]
      have hne : ¬n.toLowercase = p.1.toLowercase := fun heq => h (same_iff_lower.mpr heq.symm)
      simp [hne]

theorem insertTarget_previous (targets owner target) :
    (insertTarget targets owner target).2 = getTarget targets owner := by
  induction targets with
  | nil => rfl
  | cons p rest ih =>
    rw [getTarget_cons, insertTarget]
    split
    · rfl
    · exact ih

theorem getTarget_insertTarget (targets) (owner target n : Name) :
    getTarget (insertTarget targets owner target).1 n = if owner.same n then some target else getTarget targets n := by
  induction targets with
  | nil =>
    rw [insertTarget, getTarget_cons]
  | cons p rest ih =>
    rw [insertTarget]
    split
    · next h =>
      have hsame : p.1.same n = owner.same n := by simp only [Name.same, same_iff_lower.mp h]
      rw [getTarget_cons, getTarget_cons, hsame]
      split <;> rfl
    · next h =>
      show getTarget (p :: (insertTarget rest owner target).1) n = _
      rw [getTarget_cons, getTarget_cons, ih]
      by_cases hp : p.1.same n = true
      · have hne : owner.same n = false := by
          rw [Bool.eq_false_iff]
          intro ho
          exact h (same_iff_lower.mpr ((same_iff_lower.mp hp).trans (same_iff_lower.mp ho).symm))
        simp [hp, hne]
      · simp [hp]

theorem keys_insertTarget (targets : List (Name × Name)) (owner target : Name) :
    (insertTarget targets owner target).1.map (·.1.toLowercase) =
      if owner.toLowercase ∈ targets.map (·.1.toLowercase) then targets.map (·.1.toLowercase)
      else targets.map (·.1.toLowercase) ++ [owner.toLowercase] := by
  induction targets with
  | nil => rfl
  | cons p rest ih =>
    rw [insertTarget]
    split
    · next h => simp [same_iff_lower.mp h]
    · next h =>
      have hne : ¬owner.toLowercase = p.1.toLowercase := fun heq => h (same_iff_lower.mpr heq.symm)
      show p.1.toLowercase :: (insertTarget rest owner target).1.map (·.1.toLowercase) = _
      rw [ih, map_cons]
      simp only [mem_cons, hne, false_or]
      split <;> rfl

variable {rr : Record} {cls : DNSClass}

theorem targetStep_ok {targets'} :
    targetStep cls targets rr = .ok targets' ↔ ∃ target, rr.data = .cname target ∧ rr.dnsClass = cls ∧
      (∀ previous, getTarget targets rr.name = some previous → previous.same target = true) ∧
      (insertTarget targets rr.name target).1 = targets' := by
  unfold targetStep
  cases hdata : rr.data with
  | cname target =>
    have hprevious := insertTarget_previous targets rr.name target
    simp only [hprevious, ne_eq, ite_not, RData.cname.injEq, exists_eq_left']
    by_cases hcls : rr.dnsClass = cls
    · cases hget : getTarget targets rr.name with
      | none => simp [hcls]
      | some previous => by_cases hsame : previous.same target = true <;> simp [hcls, hsame]
    · simp [hcls]
  | soa _ => simp
  | other _ _ => simp

/-- What the map of targets tells about the answers read. -/
structure Linked (cls : DNSClass) (answers : List Record) (targets : List (Name × Name)) : Prop where
  cname : ∀ rr ∈ answers, rr.dnsClass = cls ∧ ∃ target, rr.data = .cname target
  known : ∀ n t, getTarget targets n = some t → ∃ rr ∈ answers, rr.name.same n = true ∧ rr.data = .cname t
  held : ∀ rr ∈ answers, ∀ t, rr.data = .cname t → ∃ t', getTarget targets rr.name = some t' ∧ t'.same t = true
  keys : (targets.map (·.1.toLowercase)).Nodup

section Targets
variable {cls : DNSClass} {answers : List Record} {targets targets' : List (Name × Name)} {rr : Record}

theorem Linked.nil (cls) : Linked cls [] [] where
  cname := by simp
  known := by simp [getTarget]
  held := by simp
  keys := nodup_nil

theorem Linked.step (h : Linked cls answers targets) (hstep : targetStep cls targets rr = .ok targets') :
    Linked cls (answers ++ [rr]) targets' := by
  obtain ⟨target, hdata, hcls, hprevious, rfl⟩ := targetStep_ok.mp hstep
  refine ⟨fun r hr => ?_, fun n t hget => ?_, fun r hr t ht => ?_, ?_⟩
  · rcases mem_append.mp hr with hr | hr
    · exact h.cname r hr
    · cases mem_singleton.mp hr
      exact ⟨hcls, target, hdata⟩
  · rw [getTarget_insertTarget] at hget
    split at hget
    · next hsame =>
      cases hget
      exact ⟨rr, by simp, hsame, hdata⟩
    · obtain ⟨r, hr, hrest⟩ := h.known n t hget
      exact ⟨r, mem_append_left _ hr, hrest⟩
  · rw [getTarget_insertTarget]
    rcases mem_append.mp hr with hr | hr
    · obtain ⟨t', hget, hsame⟩ := h.held r hr t ht
      split
      · next howner =>
        -- the new target is the one already there
        rw [← getTarget_lower (same_iff_lower.mp howner)] at hget
        refine ⟨target, rfl, same_iff_lower.mpr ?_⟩
        exact (same_iff_lower.mp (hprevious t' hget)).symm.trans (same_iff_lower.mp hsame)
      · exact ⟨t', hget, hsame⟩
    · cases mem_singleton.mp hr
      cases hdata.symm.trans ht
      exact ⟨target, by simp [Name.same], by simp [Name.same]⟩
  · rw [keys_insertTarget]
    split
    · exact h.keys
    · next hnew => exact List.Nodup.append h.keys (nodup_singleton _) (by simpa using hnew)

variable {rest : List Record}

theorem Linked.fold (h : Linked cls answers targets)
    (hfold : rest.foldlM (targetStep cls) targets = .ok targets') : Linked cls (answers ++ rest) targets' := by
  induction rest generalizing answers targets with
  | nil =>
    cases hfold
    simpa using h
  | cons rr rest ih =>
    rw [foldlM_cons] at hfold
    obtain ⟨next, hstep, hfold⟩ := bind_eq_ok.mp hfold
    rw [append_cons]
    exact ih (h.step hstep) hfold

theorem Linked.single (h : Linked cls answers targets) : Aliases cls answers := by
  refine ⟨h.cname, fun rr1 hr1 rr2 hr2 hsame t1 t2 ht1 ht2 => ?_⟩
  obtain ⟨t, hget, hs1⟩ := h.held rr1 hr1 t1 ht1
  obtain ⟨t', hget', hs2⟩ := h.held rr2 hr2 t2 ht2
  rw [getTarget_lower (same_iff_lower.mp hsame), hget'] at hget
  cases hget
  exact same_iff_lower.mpr ((same_iff_lower.mp hs1).symm.trans (same_iff_lower.mp hs2))

/-- The loop passes over answers that are aliases with one target an owner. -/
theorem Linked.reads (h : Linked cls answers targets) (ha : Aliases cls (answers ++ rest)) :
    ∃ targets', rest.foldlM (targetStep cls) targets = .ok targets' := by
  induction rest generalizing answers targets with
  | nil => exact ⟨targets, rfl⟩
  | cons rr rest ih =>
    have hrr : rr ∈ answers ++ rr :: rest := by simp
    obtain ⟨hcls, target, hdata⟩ := ha.cname rr hrr
    have hstep : targetStep cls targets rr = .ok (insertTarget targets rr.name target).1 := by
      refine targetStep_ok.mpr ⟨target, hdata, hcls, fun previous hget => ?_, rfl⟩
      obtain ⟨r, hr, hsame, hr'⟩ := h.known rr.name previous hget
      exact ha.single r (mem_append_left _ hr) rr hrr hsame previous target hr' hdata
    rw [foldlM_cons, hstep]
    refine ih (h.step hstep) ?_
    rw [← append_cons]
    exact ha

/-- **The map of targets exists** for aliases with one target an owner, and only for those. -/
theorem cnameTargets_linked (h : cnameTargets cls answers = .ok targets) : Linked cls answers targets :=
  (Linked.nil cls).fold h

/-! ### The path -/

/-- The next name in lower case. -/
def nextLower (targets : List (Name × Name)) (x : Name) : Option Name :=
  (targets.find? fun p => p.1.toLowercase == x).map (·.2.toLowercase)

theorem nextLower_lower (targets) (n : Name) :
    nextLower targets n.toLowercase = (getTarget targets n).map Name.toLowercase := by
  unfold nextLower getTarget
  rw [Option.map_map]
  rfl

theorem nextLower_isSome (targets : List (Name × Name)) (x) :
    (nextLower targets x).isSome = true ↔ x ∈ targets.map (·.1.toLowercase) := by
  simp [nextLower]

variable {name last : Name} {owners : List Name}

section
variable (h : Linked cls answers targets)
include h

theorem Linked.follows {n} (hok : followTargets targets n name = .ok last) :
    ∃ owners, owners.length = n ∧ Follows answers name owners last := by
  induction n generalizing name with
  | zero =>
    cases hok
    exact ⟨[], rfl, .stop _⟩
  | succ n ih =>
    rw [followTargets] at hok
    split at hok
    · next next hget =>
      obtain ⟨owners, hlen, hrest⟩ := ih hok
      obtain ⟨rr, hrr, hsame, hdata⟩ := h.known name next hget
      exact ⟨name :: owners, by simp [hlen], .hop hrr hsame hdata hrest⟩
    · cases hok

theorem Linked.get {target : Name} (hrr : rr ∈ answers)
    (hsame : rr.name.same name = true) (hdata : rr.data = .cname target) :
    ∃ t, getTarget targets name = some t ∧ t.toLowercase = target.toLowercase := by
  obtain ⟨t, hget, ht⟩ := h.held rr hrr target hdata
  rw [getTarget_lower (same_iff_lower.mp hsame)] at hget
  exact ⟨t, hget, same_iff_lower.mp ht⟩

theorem Follows.walk (hp : Follows answers name owners last) :
    Walk (nextLower targets) name.toLowercase (owners.map Name.toLowercase) last.toLowercase := by
  induction hp with
  | stop => exact .stop _
  | hop hrr hsame hdata _ ih =>
    obtain ⟨t, hget, ht⟩ := h.get hrr hsame hdata
    refine .step ?_ ih
    rw [nextLower_lower, hget, map_some, ht]

theorem Follows.followTargets (hp : Follows answers name owners last) :
    ∃ last', followTargets targets owners.length name = .ok last' ∧ last'.toLowercase = last.toLowercase := by
  induction hp with
  | stop name => exact ⟨name, rfl, rfl⟩
  | hop hrr hsame hdata _ ih =>
    obtain ⟨last', hok, hlast⟩ := ih
    obtain ⟨t, hget, ht⟩ := h.get hrr hsame hdata
    obtain ⟨last'', hok', hlast'⟩ := followTargets_lower ht hok
    refine ⟨last'', ?_, hlast'.trans hlast⟩
    rw [length_cons, Cache.followTargets, hget]
    exact hok'

theorem Linked.get_none :
    getTarget targets last = none ↔ ∀ rr ∈ answers, rr.name.same last = false := by
  constructor
  · intro hnone rr hrr
    rw [Bool.eq_false_iff]
    intro hsame
    obtain ⟨_, target, hdata⟩ := h.cname rr hrr
    obtain ⟨t, hget, _⟩ := h.get hrr hsame hdata
    rw [hnone] at hget
    cases hget
  · intro hall
    cases hget : getTarget targets last with
    | none => rfl
    | some t =>
      obtain ⟨rr, hrr, hsame, _⟩ := h.known last t hget
      rw [hall rr hrr] at hsame
      cases hsame

theorem Linked.mem_keys {x} :
    x ∈ targets.map (·.1.toLowercase) ↔ ∃ rr ∈ answers, rr.name.toLowercase = x := by
  constructor
  · intro hx
    obtain ⟨p, hp, rfl⟩ := mem_map.mp hx
    obtain ⟨t, ht⟩ := isSome_iff_exists.mp (getTarget_isSome.mpr (mem_map_of_mem hp))
    obtain ⟨rr, hrr, hsame, _⟩ := h.known p.1 t ht
    exact ⟨rr, hrr, same_iff_lower.mp hsame⟩
  · intro ⟨rr, hrr, hx⟩
    obtain ⟨_, target, hdata⟩ := h.cname rr hrr
    obtain ⟨t, hget, _⟩ := h.held rr hrr target hdata
    rw [← hx]
    exact getTarget_isSome.mp (by simp [hget])

/-- **A path to a name without alias is the whole chain** exactly when it has one hop for each owner. -/
theorem Follows.chain_iff (hp : Follows answers name owners last)
    (hend : getTarget targets last = none) : Chain answers name owners last ↔ owners.length = targets.length := by
  have hwalk := Follows.walk h hp
  have hstop : nextLower targets last.toLowercase = none := by rw [nextLower_lower, hend, map_none]
  have hcovers := hwalk.covers_iff hstop h.keys (nextLower_isSome targets)
  rw [length_map, length_map] at hcovers
  rw [← hcovers]
  constructor
  · intro hchain x hx
    obtain ⟨rr, hrr, rfl⟩ := h.mem_keys.mp hx
    obtain ⟨owner, howner, hsame⟩ := hchain.all rr hrr
    rw [← same_iff_lower.mp hsame]
    exact mem_map_of_mem howner
  · intro hall
    refine ⟨hp, ?_, fun rr hrr => ?_, h.get_none.mp hend⟩
    · refine (pairwise_map.mp (hwalk.nodup hstop)).imp fun hne => ?_
      rw [Bool.eq_false_iff]
      exact fun hsame => hne (same_iff_lower.mp hsame)
    · obtain ⟨owner, howner, hlower⟩ := mem_map.mp (hall _ (h.mem_keys.mpr ⟨rr, hrr, rfl⟩))
      exact ⟨owner, howner, same_iff_lower.mpr hlower⟩

end

end Targets

/-! ### The SOA records -/

section Soas
variable {cls : DNSClass} {last last' : Name} {authorities : List Record} {a b : Soa}

theorem Soa.same_symm (h : a.same b = true) : b.same a = true := by
  simp only [Soa.same, Name.same, Bool.and_eq_true, beq_iff_eq] at h ⊢
  grind

theorem Soa.same_trans {c} (h : a.same b = true) (h' : b.same c = true) : a.same c = true := by
  simp only [Soa.same, Name.same, Bool.and_eq_true, beq_iff_eq] at h h' ⊢
  grind

def Agree (x y : Record × Soa) : Prop := x.1.name.same y.1.name = true ∧ x.2.same y.2 = true

variable {x y : Record × Soa}

theorem Agree.symm (h : Agree x y) : Agree y x :=
  ⟨same_iff_lower.mpr (same_iff_lower.mp h.1).symm, Soa.same_symm h.2⟩

theorem Agree.trans {z} (h : Agree x y) (h' : Agree y z) : Agree x z :=
  ⟨same_iff_lower.mpr ((same_iff_lower.mp h.1).trans (same_iff_lower.mp h'.1)), Soa.same_trans h.2 h'.2⟩

theorem soas_append (l) (rr : Record) : soas (l ++ [rr]) = soas l ++ match rr.data with
      | .soa soa => [(rr, soa)]
      | _ => [] := by
  rw [soas, filterMap_append]
  congr 1
  cases h : rr.data <;> simp [h]

/-- What the loop has found after some SOA records: the last one, and the least lifetime. -/
def found (xs : List (Record × Soa)) : Option ((Name × Soa) × Nat) :=
  xs.getLast?.bind fun x => (xs.map fun x => min x.1.ttl x.2.minimum).min?.map fun ttl => ((x.1.name, x.2), ttl)

theorem found_append (xs) (x : Record × Soa) : found (xs ++ [x]) = some ((x.1.name, x.2), match found xs with
      | none => min x.1.ttl x.2.minimum
      | some (_, ttl) => min ttl (min x.1.ttl x.2.minimum)) := by
  cases xs with
  | nil => simp [found]
  | cons y ys =>
    have hlast : (y :: ys).getLast? = some ((y :: ys).getLast (by simp)) := List.getLast?_eq_getLast_of_ne_nil _
    rw [found, found, List.getLast?_concat, hlast]
    simp only [bind_some, cons_append, map_cons, map_append, map_nil, List.min?_cons',
      foldl_append, foldl_cons, foldl_nil, map_some]

theorem found_isNone (xs) : found xs = none ↔ xs = [] := by
  induction xs using List.reverseRecOn with
  | nil => simp [found]
  | append_singleton l x _ => simp [found_append]

variable {xs : List (Record × Soa)}

theorem found_id {id ttl} (h : found xs = some (id, ttl)) : ∃ x ∈ xs.getLast?, id = (x.1.name, x.2) := by
  unfold found at h
  obtain ⟨x, hx, hrest⟩ := bind_eq_some_iff.mp h
  obtain ⟨_, _, heq⟩ := map_eq_some_iff.mp hrest
  exact ⟨x, hx, (Prod.mk.inj heq).1.symm⟩

variable {soa : Soa}

theorem OneSoa.append (hdata : rr.data = .soa soa) (h : OneSoa cls last authorities)
    (hcls : rr.dnsClass = cls) (hzone : rr.name.zoneOf last = true)
    (hagree : ∀ x ∈ (soas authorities).getLast?, Agree x (rr, soa)) : OneSoa cls last (authorities ++ [rr]) := by
  have hall : ∀ x ∈ soas authorities, Agree x (rr, soa) := by
    intro x hx
    cases hlast : (soas authorities).getLast? with
    | none =>
      rw [List.getLast?_eq_none_iff] at hlast
      rw [hlast] at hx
      cases hx
    | some z => exact Agree.trans (h.one x hx z (mem_of_getLast? hlast)) (hagree z hlast)
  have hself : Agree (rr, soa) (rr, soa) := ⟨by simp [Name.same], by simp [Soa.same, Name.same]⟩
  have hmem : ∀ x, x ∈ soas (authorities ++ [rr]) ↔ x ∈ soas authorities ∨ x = (rr, soa) := by
    intro x
    rw [soas_append, hdata, mem_append, mem_singleton]
  refine ⟨fun x hx => ?_, fun x hx y hy => ?_⟩
  · rcases (hmem x).mp hx with hx | rfl
    · exact h.zone x hx
    · exact ⟨hcls, hzone⟩
  · rcases (hmem x).mp hx with hx | rfl <;> rcases (hmem y).mp hy with hy | rfl
    · exact h.one x hx y hy
    · exact hall x hx
    · exact (hall y hy).symm
    · exact hself

theorem OneSoa.of_append (h : OneSoa cls last (authorities ++ [rr])) : OneSoa cls last authorities := by
  have hsub : ∀ x ∈ soas authorities, x ∈ soas (authorities ++ [rr]) := by
    intro x hx
    rw [soas_append]
    exact mem_append_left _ hx
  exact ⟨fun x hx => h.zone x (hsub x hx), fun x hx y hy => h.one x (hsub x hx) y (hsub y hy)⟩

variable {l : List Record}

theorem soaStep_other (h : OneSoa cls last l) (hdata : ∀ soa, rr.data ≠ .soa soa) (prior) :
    soaStep cls last prior rr = .ok prior ∧ soas (l ++ [rr]) = soas l ∧ OneSoa cls last (l ++ [rr]) := by
  have hsoas : soas (l ++ [rr]) = soas l := by
    rw [soas_append]
    split
    · next soa hsoa => exact absurd hsoa (hdata soa)
    · exact append_nil _
  refine ⟨?_, hsoas, by rw [hsoas]; exact h.zone, by rw [hsoas]; exact h.one⟩
  unfold soaStep
  split
  · next soa hsoa => exact absurd hsoa (hdata soa)
  · rfl

variable {out : Option ((Name × Soa) × Nat)}

theorem soaStep_soa (hdata : rr.data = .soa soa) :
    soaStep cls last (found xs) rr = .ok out ↔ (rr.dnsClass = cls ∧ rr.name.zoneOf last = true ∧
      ∀ x ∈ xs.getLast?, Agree x (rr, soa)) ∧ out = found (xs ++ [(rr, soa)]) := by
  rw [found_append]
  unfold soaStep
  rw [hdata]
  simp only
  by_cases hz : rr.dnsClass = cls ∧ rr.name.zoneOf last = true
  · rw [if_neg (by simp [hz])]
    cases hfound : found xs with
    | none =>
      rw [(found_isNone xs).mp hfound]
      simp [hz, eq_comm]
    | some p =>
      obtain ⟨id, old⟩ := p
      obtain ⟨x, hx, rfl⟩ := found_id hfound
      have hagree : (∀ y ∈ xs.getLast?, Agree y (rr, soa)) ↔ (x.1.name.same rr.name && x.2.same soa) = true := by
        rw [mem_def.mp hx]
        simp [Agree]
      rw [hagree]
      by_cases h : (x.1.name.same rr.name && x.2.same soa) = true
      · simp only [h, if_true, hz, true_and, Except.ok.injEq, eq_comm]
      · simp [h]
  · rw [if_pos (by simpa [imp_iff_not_or] using hz)]
    constructor
    · intro h
      cases h
    · intro h
      exact absurd ⟨h.1.1, h.1.2.1⟩ hz

theorem oneSoa_append (hdata : rr.data = .soa soa) (h : OneSoa cls last authorities) :
    OneSoa cls last (authorities ++ [rr]) ↔ rr.dnsClass = cls ∧ rr.name.zoneOf last = true ∧
      ∀ x ∈ (soas authorities).getLast?, Agree x (rr, soa) := by
  constructor
  · intro hone
    have hmem : (rr, soa) ∈ soas (authorities ++ [rr]) := by
      rw [soas_append, hdata]
      simp
    refine ⟨(hone.zone _ hmem).1, (hone.zone _ hmem).2, fun x hx => hone.one x ?_ _ hmem⟩
    rw [soas_append]
    exact mem_append_left _ (mem_of_getLast? hx)
  · intro ⟨hcls, hzone, hagree⟩
    exact h.append hdata hcls hzone hagree

/-- One pass of the loop, on what was found before. -/
theorem soaStep_iff (h : OneSoa cls last l) : soaStep cls last (found (soas l)) rr = .ok out ↔
      OneSoa cls last (l ++ [rr]) ∧ out = found (soas (l ++ [rr])) := by
  by_cases hdata : ∃ soa, rr.data = .soa soa
  · obtain ⟨soa, hdata⟩ := hdata
    have hsoas : soas (l ++ [rr]) = soas l ++ [(rr, soa)] := by rw [soas_append, hdata]
    rw [hsoas, soaStep_soa hdata, oneSoa_append hdata h]
  · obtain ⟨hstep, hsoas, hone⟩ := soaStep_other h (not_exists.mp hdata) (found (soas l))
    rw [hstep, hsoas, Except.ok.injEq]
    constructor
    · intro hout
      exact ⟨hone, hout.symm⟩
    · intro hout
      exact hout.2.symm

/-- The loop over the authority section passes over one SOA, and finds it. -/
theorem soaLifetime_iff :
    soaLifetime cls last authorities = .ok out ↔ OneSoa cls last authorities ∧ out = found (soas authorities) := by
  unfold soaLifetime
  induction authorities using List.reverseRecOn generalizing out with
  | nil =>
    have hnone : OneSoa cls last [] := ⟨by simp [soas], by simp [soas]⟩
    constructor
    · intro h
      cases h
      exact ⟨hnone, rfl⟩
    · intro h
      rw [h.2]
      rfl
  | append_singleton l rr ih =>
    rw [foldlM_append]
    cases hl : l.foldlM (soaStep cls last) none with
    | error e =>
      have hno : ¬OneSoa cls last (l ++ [rr]) := by
        intro hone
        have := ih.mpr ⟨hone.of_append, rfl⟩
        rw [hl] at this
        cases this
      constructor
      · intro h
        cases h
      · intro h
        exact absurd h.1 hno
    | ok mid =>
      obtain ⟨hone, rfl⟩ := ih.mp hl
      rw [← soaStep_iff hone]
      show [rr].foldlM (soaStep cls last) (found (soas l)) = .ok out ↔ _
      rw [foldlM_cons]
      simp only [foldlM_nil, bind_pure]

end Soas

theorem leastSoa_eq (authorities) : (found (soas authorities)).map (·.2) = leastSoa authorities := by
  unfold found leastSoa
  cases soas authorities using List.reverseRecOn with
  | nil => rfl
  | append_singleton l x =>
    rw [List.getLast?_concat, Option.bind_some, Option.map_map]
    exact map_id'

theorem OneSoa.lower {last last' : Name} {authorities}
    (h : last'.toLowercase = last.toLowercase) (hone : OneSoa cls last authorities) : OneSoa cls last' authorities := by
  refine ⟨fun x hx => ?_, hone.one⟩
  have hzone : x.1.name.zoneOf last' = x.1.name.zoneOf last := zoneOf_lower (by rw [h])
  rw [hzone]
  exact hone.zone x hx

/-! ### The whole decision -/

/-- **A response with aliases proves a negative answer** exactly if its answers are one chain of
aliases from the question to a name without alias, and its authority section has one SOA for that
name; the lifetime is the least one of the SOA records. -/
theorem cnameNegativeTtl_iff (name : Name) (cls : DNSClass) (response : Message) (ttl : Nat) :
    cnameNegativeTtl name cls response = .ok ttl ↔
      Aliases cls response.answers ∧ ∃ owners last, Chain response.answers name owners last ∧
        OneSoa cls last response.authorities ∧ leastSoa response.authorities = some ttl := by
  constructor
  · intro h
    obtain ⟨targets, last, id, htargets, hfollow, hend, hsoas⟩ := cnameNegativeTtl_ok h
    have hlinked := cnameTargets_linked htargets
    obtain ⟨owners, hlen, hpath⟩ := hlinked.follows hfollow
    obtain ⟨hone, hfound⟩ := soaLifetime_iff.mp hsoas
    refine ⟨hlinked.single, owners, last, (Follows.chain_iff hlinked hpath (by simpa using hend)).mpr hlen, hone, ?_⟩
    rw [← leastSoa_eq, ← hfound]
    rfl
  · intro ⟨haliases, owners, last, hchain, hone, hleast⟩
    obtain ⟨targets, htargets⟩ : ∃ targets, cnameTargets cls response.answers = .ok targets :=
      (Linked.nil cls).reads haliases
    have hlinked := cnameTargets_linked htargets
    obtain ⟨last', hfollow, hlast⟩ := Follows.followTargets hlinked hchain.path
    have hnone : getTarget targets last = none := hlinked.get_none.mpr hchain.ends
    rw [(Follows.chain_iff hlinked hchain.path hnone).mp hchain] at hfollow
    have hnone' : getTarget targets last' = none := by rw [getTarget_lower hlast, hnone]
    have hsoas := soaLifetime_iff.mpr ⟨hone.lower hlast, rfl⟩
    rw [← leastSoa_eq] at hleast
    obtain ⟨out, hfound, rfl⟩ := map_eq_some_iff.mp hleast
    rw [hfound] at hsoas
    unfold cnameNegativeTtl
    simp [htargets, hfollow, hnone', hsoas, bind, Except.bind]

end Parins.Cache
