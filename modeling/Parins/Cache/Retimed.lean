/-
Aged messages: the same records at lower TTLs. What `prepare_response` decides of
a message beyond its TTLs it decides of an aged one too, and the lifetime it
computes is no less than a bound that every TTL keeps. So a stored message that is
aged by some seconds lives on for exactly the seconds that are left.
-/
import Parins.Cache.Snapshot
import Mathlib.Data.List.Forall2

namespace Parins
open List

/-- The same record with at least `k` seconds less. -/
structure Record.Aged (k : Nat) (a b : Record) : Prop where
  name : b.name = a.name
  dnsClass : b.dnsClass = a.dnsClass
  data : b.data = a.data
  ttl : b.ttl ≤ a.ttl - k

variable {k j : Nat} {a : Record}

theorem Record.Aged.trans {b c : Record} (h1 : a.Aged j b) (h2 : b.Aged k c) : a.Aged (j + k) c := by
  refine ⟨h2.name.trans h1.name, h2.dnsClass.trans h1.dnsClass, h2.data.trans h1.data, ?_⟩
  have := h1.ttl
  have := h2.ttl
  omega

theorem Record.Aged.recordType {b : Record} (h : a.Aged k b) : b.recordType = a.recordType :=
  congrArg RData.recordType h.data

/-- The same message but for its id and EDNS, with every record aged. -/
structure Message.Aged (k : Nat) (m m' : Message) : Prop where
  answers : List.Forall₂ (Record.Aged k) m.answers m'.answers
  authorities : List.Forall₂ (Record.Aged k) m.authorities m'.authorities
  additionals : List.Forall₂ (Record.Aged k) m.additionals m'.additionals
  rest : m' = { m with
    id := m'.id, edns := m'.edns, answers := m'.answers, authorities := m'.authorities, additionals := m'.additionals }

theorem forall₂_aged_trans {a b c} (h1 : List.Forall₂ (Record.Aged j) a b)
    (h2 : List.Forall₂ (Record.Aged k) b c) : List.Forall₂ (Record.Aged (j + k)) a c := by
  induction h1 generalizing c with
  | nil =>
    cases h2
    exact .nil
  | cons h _ ih =>
    cases h2 with
    | cons h' hrest => exact .cons (h.trans h') (ih hrest)

namespace Message.Aged

variable {j k : Nat} {m m' m'' : Message}

theorem trans (h1 : m.Aged j m') (h2 : m'.Aged k m'') : m.Aged (j + k) m'' := by
  refine ⟨forall₂_aged_trans h1.answers h2.answers, forall₂_aged_trans h1.authorities h2.authorities,
    forall₂_aged_trans h1.additionals h2.additionals, ?_⟩
  have hrest := h2.rest
  rw [h1.rest] at hrest
  exact hrest

theorem records (h : m.Aged k m') : List.Forall₂ (Record.Aged k) m.records m'.records :=
  rel_append (rel_append h.answers h.authorities) h.additionals

theorem responseCode (h : m.Aged k m') : m'.responseCode = m.responseCode := by
  rw [h.rest]

end Message.Aged

/-! ### Messages that are written as they are -/

/-- Absolute names, and no type that is read as something else. -/
def RData.Plain : RData → Prop
  | .cname target => target.fqdn = true
  | .soa data => data.mname.fqdn = true ∧ data.rname.fqdn = true
  | .other kind _ => kind ∉ [.CNAME, .SOA, .OPT, .SIG, .TSIG]

def RData.size : RData → Nat
  | .cname target => target.encodedLen + 1
  | .soa data => data.mname.encodedLen + data.rname.encodedLen + 22
  | .other _ bytes => bytes.length

def Message.contents (m : Message) : List (Name × RData) := m.records.map fun rr => (rr.name, rr.data)

/-- The length in wire form, without compression. -/
def Message.size (m : Message) : Nat :=
  12 + (m.queries.map fun q => q.name.encodedLen + 5).sum + (m.contents.map fun p => p.1.encodedLen + 11 + p.2.size).sum

/-- Nothing of the message is lost when it is written: its names are absolute and it is not cut. -/
structure Message.Plain (m : Message) : Prop where
  queries : ∀ q ∈ m.queries, q.name.fqdn = true
  contents : ∀ p ∈ m.contents, p.1.fqdn = true ∧ p.2.Plain
  fits : m.size ≤ Protocol.MAX_MESSAGE

theorem Message.Aged.plain_iff {m m' : Message} (h : m.Aged k m') : m'.Plain ↔ m.Plain := by
  have hcontents : m'.contents = m.contents := by
    have hrecords := h.records
    unfold Message.contents
    generalize m.records = l, m'.records = l' at hrecords
    induction hrecords with
    | nil => rfl
    | cons hr _ ih => rw [map_cons, map_cons, ih, hr.name, hr.data]
  have hqueries : m'.queries = m.queries := by rw [h.rest]
  have hsize : m'.size = m.size := by rw [Message.size, Message.size, hcontents, hqueries]
  constructor
  · intro hp
    exact ⟨hqueries ▸ hp.queries, hcontents ▸ hp.contents, hsize ▸ hp.fits⟩
  · intro hp
    exact ⟨hqueries ▸ hp.queries, hcontents ▸ hp.contents, hsize ▸ hp.fits⟩

namespace Cache
open Net Lib

variable {k b : Nat} {m m' : Message} {q q' : Query} {policy : Policy} {R : Record → Record → Prop}

theorem forall₂_map_of {f} (h : ∀ rr, R rr (f rr)) (l : List Record) : List.Forall₂ R l (l.map f) :=
  forall₂_map_right_iff.mpr (forall₂_same.mpr fun rr _ => h rr)

theorem ageRecords_aged (m : Message) (k) : m.Aged k (ageRecords m k) := by
  have hrr : ∀ rr : Record, rr.Aged k { rr with ttl := rr.ttl - k } := fun rr => ⟨rfl, rfl, rfl, le_rfl⟩
  exact ⟨forall₂_map_of hrr _, forall₂_map_of hrr _, forall₂_map_of hrr _, rfl⟩

variable {rr : Record}

theorem mem_ageRecords (h : rr ∈ (ageRecords m k).records) :
    ∃ rr0 ∈ m.records, rr = { rr0 with ttl := rr0.ttl - k } := by
  rw [ageRecords, Message.records_mapRecords] at h
  obtain ⟨rr0, h0, rfl⟩ := mem_map.mp h
  exact ⟨rr0, h0, rfl⟩

variable {l l' : List Record}

theorem forall₂_mem_right (h : List.Forall₂ R l l') {x} (hx : x ∈ l') : ∃ y ∈ l, R y x := by
  induction h with
  | nil => cases hx
  | cons hr _ ih =>
    rcases mem_cons.mp hx with rfl | hx
    · exact ⟨_, mem_cons_self, hr⟩
    · obtain ⟨y, hy, hyx⟩ := ih hx
      exact ⟨y, mem_cons_of_mem _ hy, hyx⟩

/-! ## Negative answers -/

theorem isNegative_aged (h : m.Aged k m') (hq : q'.queryType = q.queryType) : isNegative q' m' = isNegative q m := by
  have hany : ∀ {l l' : List Record}, List.Forall₂ (Record.Aged k) l l' →
      (l'.any fun rr => rr.recordType == q'.queryType) = l.any fun rr => rr.recordType == q.queryType := by
    intro l l' hl
    induction hl with
    | nil => rfl
    | cons hr _ ih => rw [any_cons, any_cons, ih, hr.recordType, hq]
  rw [isNegative, isNegative, h.responseCode, hany h.answers]

/-- Every SOA that counts towards the negative TTL of a question has a minimum of at least `b`. -/
def SoaFloor (q : Query) (m : Message) (b : Nat) : Prop :=
  ∀ rr ∈ m.authorities, ∀ soa, rr.data = .soa soa →
    (m.answers = [] → rr.dnsClass = q.queryClass ∧ rr.name.zoneOf q.name = true) → b ≤ soa.minimum

theorem SoaFloor.mono {b'} (h : SoaFloor q m b) (hle : b' ≤ b) : SoaFloor q m b' :=
  fun rr hrr soa hsoa hcounts => hle.trans (h rr hrr soa hsoa hcounts)

theorem SoaFloor.aged (h : SoaFloor q m b) (haged : m.Aged k m') : SoaFloor q m' b := by
  intro rr hrr soa hsoa hcounts
  obtain ⟨rr0, hrr0, hr⟩ := forall₂_mem_right haged.authorities hrr
  refine h rr0 hrr0 soa (hr.data ▸ hsoa) fun hempty => ?_
  have hanswers := haged.answers
  rw [hempty] at hanswers
  cases hnil : m'.answers with
  | nil =>
    obtain ⟨hclass, hzone⟩ := hcounts hnil
    exact ⟨hr.dnsClass ▸ hclass, hr.name ▸ hzone⟩
  | cons _ _ =>
    rw [hnil] at hanswers
    cases hanswers

variable {found : Option ((Name × Soa) × Nat)} {terminal : Name} {cls : DNSClass}

theorem soaStep_ok {found'} (h : soaStep cls terminal found rr = .ok found') :
    (found' = found ∧ ∀ soa, rr.data ≠ .soa soa) ∨ ∃ soa lifetime, rr.data = .soa soa ∧
      found' = some ((rr.name, soa), lifetime) ∧
      (found = none ∧ lifetime = min rr.ttl soa.minimum ∨
        ∃ id old, found = some (id, old) ∧ lifetime = min old (min rr.ttl soa.minimum)) := by
  unfold soaStep at h
  split at h
  · next soa hdata =>
    split at h
    · cases h
    · dsimp only at h
      split at h
      · cases h
        exact .inr ⟨soa, _, hdata, rfl, .inl ⟨rfl, rfl⟩⟩
      · next owner data old =>
        split at h
        · cases h
          exact .inr ⟨soa, _, hdata, rfl, .inr ⟨(owner, data), old, rfl, rfl⟩⟩
        · cases h
  · next hdata =>
    cases h
    exact .inl ⟨rfl, fun soa hsoa => hdata soa hsoa⟩

variable {t : Nat} {authorities : List Record} {id : Name × Soa}

theorem soaFold_le (h : authorities.foldlM (soaStep cls terminal) found = .ok (some (id, t))) :
    (∀ rr ∈ authorities, ∀ soa, rr.data = .soa soa → t ≤ soa.minimum) ∧ ∀ id' t', found = some (id', t') → t ≤ t' := by
  induction authorities generalizing found with
  | nil =>
    cases h
    refine ⟨by simp, fun id' t' heq => ?_⟩
    cases heq
    exact le_rfl
  | cons rr rest ih =>
    rw [foldlM_cons] at h
    obtain ⟨found1, hstep, h⟩ := bind_eq_ok.mp h
    obtain ⟨hrest, hfound⟩ := ih h
    rcases soaStep_ok hstep with ⟨rfl, hnone⟩ | ⟨soa, lifetime, hdata, rfl, hlifetime⟩
    · exact ⟨forall_mem_cons.mpr ⟨fun soa hsoa => absurd hsoa (hnone soa), hrest⟩, hfound⟩
    · have ht := hfound _ _ rfl
      refine ⟨forall_mem_cons.mpr ⟨fun soa' hsoa => ?_, hrest⟩, fun id' t' heq => ?_⟩
      · cases hdata.symm.trans hsoa
        rcases hlifetime with ⟨_, rfl⟩ | ⟨_, _, _, rfl⟩ <;> omega
      · rcases hlifetime with ⟨hnone, _⟩ | ⟨_, _, hsome, rfl⟩
        · cases hnone.symm.trans heq
        · cases hsome.symm.trans heq
          omega

theorem le_soaFold (h : authorities.foldlM (soaStep cls terminal) found = .ok (some (id, t)))
    (hall : ∀ rr ∈ authorities, ∀ soa, rr.data = .soa soa → b ≤ min rr.ttl soa.minimum)
    (hfound : ∀ id' t', found = some (id', t') → b ≤ t') : b ≤ t := by
  induction authorities generalizing found with
  | nil =>
    cases h
    exact hfound _ _ rfl
  | cons rr rest ih =>
    rw [foldlM_cons] at h
    obtain ⟨found1, hstep, h⟩ := bind_eq_ok.mp h
    obtain ⟨hrr, hrest⟩ := forall_mem_cons.mp hall
    refine ih h hrest fun id' t' heq => ?_
    rcases soaStep_ok hstep with ⟨rfl, _⟩ | ⟨soa, lifetime, hdata, rfl, hlifetime⟩
    · exact hfound id' t' heq
    · have hrr := hrr soa hdata
      cases heq
      rcases hlifetime with ⟨_, rfl⟩ | ⟨id0, old, hsome, rfl⟩
      · exact hrr
      · have := hfound id0 old hsome
        omega

theorem cnameNegativeTtl_ok {name} (h : cnameNegativeTtl name cls m = .ok t) :
    ∃ targets terminal id, cnameTargets cls m.answers = .ok targets ∧
      followTargets targets targets.length name = .ok terminal ∧ (getTarget targets terminal).isSome = false ∧
      soaLifetime cls terminal m.authorities = .ok (some (id, t)) := by
  obtain ⟨targets, htargets, h⟩ := bind_eq_ok.mp h
  obtain ⟨terminal, hterminal, h⟩ := bind_eq_ok.mp h
  split at h
  · cases h
  next hend =>
  obtain ⟨found, hsoa, h⟩ := bind_eq_ok.mp h
  match found, h with
  | some (id, _), rfl => exact ⟨targets, terminal, id, htargets, hterminal, Bool.not_eq_true _ ▸ hend, hsoa⟩

/-- The TTL a SOA record contributes to a direct negative answer. -/
def soaTtl (q : Query) (rr : Record) : Option Nat :=
  match rr.data with
  | .soa soa =>
    if rr.dnsClass = q.queryClass ∧ rr.name.zoneOf q.name then some (min rr.ttl soa.minimum) else none
  | _ => none

theorem soaTtl_some :
    soaTtl q rr = some t ↔ ∃ soa, rr.data = .soa soa ∧ rr.dnsClass = q.queryClass ∧ rr.name.zoneOf q.name = true ∧
      t = min rr.ttl soa.minimum := by
  unfold soaTtl
  cases hdata : rr.data with
  | soa soa =>
    simp only [Option.ite_none_right_eq_some, Option.some.injEq, RData.soa.injEq, exists_eq_left', and_assoc,
      @eq_comm _ t]
  | cname _ => simp
  | other _ _ => simp

theorem directNegativeTtl_ok :
    directNegativeTtl q m = .ok t ↔ (m.authorities.filterMap (soaTtl q)).min? = some t := by
  unfold directNegativeTtl
  dsimp only
  split
  · next ttl hmin =>
    have hmin : (m.authorities.filterMap (soaTtl q)).min? = some ttl := hmin
    simp [hmin]
  · next hmin =>
    have hmin : (m.authorities.filterMap (soaTtl q)).min? = none := hmin
    simp [hmin]

theorem negativeTtl_floor (h : negativeTtl q m = .ok t) : SoaFloor q m t := by
  intro rr hrr soa hsoa hcounts
  unfold negativeTtl at h
  split at h
  · next hempty =>
    obtain ⟨hclass, hzone⟩ := hcounts (isEmpty_iff.mp hempty)
    have hmin := (List.min?_eq_some_iff.mp (directNegativeTtl_ok.mp h)).2 (min rr.ttl soa.minimum)
      (mem_filterMap.mpr ⟨rr, hrr, soaTtl_some.mpr ⟨soa, hsoa, hclass, hzone, rfl⟩⟩)
    omega
  · split at h
    · cases h
    · obtain ⟨_, terminal, id, _, _, _, hsoas⟩ := cnameNegativeTtl_ok h
      unfold soaLifetime at hsoas
      exact (soaFold_le hsoas).1 rr hrr soa hsoa

theorem le_negativeTtl (h : negativeTtl q m = .ok t) (hfloor : SoaFloor q m b)
    (hall : ∀ rr ∈ m.authorities, b ≤ rr.ttl) : b ≤ t := by
  unfold negativeTtl at h
  split at h
  · next hempty =>
    obtain ⟨rr, hrr, ht⟩ := mem_filterMap.mp (List.min?_eq_some_iff.mp (directNegativeTtl_ok.mp h)).1
    obtain ⟨soa, hsoa, hclass, hzone, rfl⟩ := soaTtl_some.mp ht
    have := hfloor rr hrr soa hsoa fun _ => ⟨hclass, hzone⟩
    have := hall rr hrr
    omega
  · next hanswers =>
    split at h
    · cases h
    · obtain ⟨_, terminal, id, _, _, _, hsoas⟩ := cnameNegativeTtl_ok h
      unfold soaLifetime at hsoas
      refine le_soaFold hsoas (fun rr hrr soa hsoa => ?_) (by simp)
      have := hfloor rr hrr soa hsoa fun hempty => absurd (isEmpty_iff.mpr hempty) hanswers
      have := hall rr hrr
      omega

/-! ## The same decisions after some time -/

variable {n' n : Name}

theorem zoneOf_lower {z : Name} (h : n'.toLowercase.labels = n.toLowercase.labels) : z.zoneOf n' = z.zoneOf n := by
  rw [Name.zoneOf, Name.zoneOf, h]

variable {targets : List (Name × Name)}

theorem getTarget_lower (h : n'.toLowercase = n.toLowercase) : getTarget targets n' = getTarget targets n := by
  simp only [getTarget, Name.same, h]

theorem followTargets_lower {hops : Nat}
    (h : n'.toLowercase = n.toLowercase) (hok : followTargets targets hops n = .ok terminal) :
    ∃ terminal', followTargets targets hops n' = .ok terminal' ∧ terminal'.toLowercase = terminal.toLowercase := by
  cases hops with
  | zero =>
    cases hok
    exact ⟨n', rfl, h⟩
  | succ hops =>
    refine ⟨terminal, ?_, rfl⟩
    rw [followTargets] at hok ⊢
    rw [getTarget_lower h]
    exact hok

/-! ## The stored message -/

/-- What a stored answer keeps of the question it answers: `L` seconds of life, which no TTL and no
cap undercuts. -/
structure Lasting (q : Query) (policy : Policy) (m : Message) (L : Nat) (negative : Bool) : Prop where
  edns : m.edns = none
  plain : rejection m = none
  ttl : ∀ rr ∈ m.records, L ≤ rr.ttl ∧ rr.ttl ≤ policy.maxTtlSecs ∧ rr.ttl ≤ 2 ^ 31 - 1
  unsigned : ∀ rr ∈ m.records, ¬(rr.recordType = .SIG ∨ rr.recordType = .TSIG)
  max : L ≤ policy.maxTtlSecs
  kind : negative = isNegative q m
  cap : negative = true → L ≤ policy.negativeTtlCapSecs ∧ SoaFloor q m L

variable {negative : Bool} {L : Nat}

theorem Lasting.mono {L'} (h : Lasting q policy m L negative) (hle : L' ≤ L) : Lasting q policy m L' negative where
  edns := h.edns
  plain := h.plain
  ttl rr hrr := by
    obtain ⟨hL, hrest⟩ := h.ttl rr hrr
    exact ⟨hle.trans hL, hrest⟩
  unsigned := h.unsigned
  max := hle.trans h.max
  kind := h.kind
  cap hneg := ⟨hle.trans (h.cap hneg).1, (h.cap hneg).2.mono hle⟩

variable {lifetime : Nat}

theorem capRecords_ok (h : capRecords policy negative l lifetime = .ok (l', L)) :
    List.Forall₂ (Record.Aged 0) l l' ∧ L ≤ lifetime ∧
      (∀ rr ∈ l', L ≤ rr.ttl ∧ rr.ttl ≤ policy.maxTtlSecs ∧ rr.ttl ≤ 2 ^ 31 - 1) ∧
      ∀ rr ∈ l', ¬(rr.recordType = .SIG ∨ rr.recordType = .TSIG) := by
  induction l generalizing l' lifetime with
  | nil =>
    cases h
    exact ⟨.nil, le_rfl, by simp, by simp⟩
  | cons rr rest ih =>
    rw [capRecords] at h
    split at h
    · cases h
    next hsig =>
    split at h
    · cases h
    next hhigh =>
    dsimp only at h
    generalize httl : (if negative = true ∧ rr.recordType = .SOA then min (min rr.ttl policy.maxTtlSecs) lifetime
      else min rr.ttl policy.maxTtlSecs) = ttl at h
    have hle : ttl ≤ min rr.ttl policy.maxTtlSecs := by
      rw [← httl]
      split <;> omega
    obtain ⟨⟨rest', L'⟩, hrest, h⟩ := bind_eq_ok.mp h
    cases h
    obtain ⟨hall, hL, hbounds, hunsigned⟩ := ih hrest
    refine ⟨.cons ⟨rfl, rfl, rfl, ?_⟩ hall, by omega, forall_mem_cons.mpr ⟨?_, hbounds⟩,
      forall_mem_cons.mpr ⟨hsig, hunsigned⟩⟩
    · dsimp only
      omega
    · dsimp only
      omega

theorem capRecords_lasts (negative)
    (hall : ∀ rr ∈ l, b ≤ rr.ttl ∧ rr.ttl ≤ 2 ^ 31 - 1 ∧ ¬(rr.recordType = .SIG ∨ rr.recordType = .TSIG))
    (hmax : b ≤ policy.maxTtlSecs) (hlifetime : b ≤ lifetime) :
    ∃ l' L, capRecords policy negative l lifetime = .ok (l', L) ∧ b ≤ L := by
  induction l generalizing lifetime with
  | nil => exact ⟨[], lifetime, rfl, hlifetime⟩
  | cons rr rest ih =>
    obtain ⟨hb, hhigh, hsig⟩ := hall rr mem_cons_self
    rw [capRecords, if_neg hsig, if_neg (by omega)]
    dsimp only
    generalize httl : (if negative = true ∧ rr.recordType = .SOA then min (min rr.ttl policy.maxTtlSecs) lifetime
      else min rr.ttl policy.maxTtlSecs) = ttl
    have hle : b ≤ min lifetime ttl := by
      rw [← httl]
      split <;> omega
    obtain ⟨l', L, hl', hL⟩ := ih (fun x hx => hall x (mem_cons_of_mem rr hx)) hle
    exact ⟨_, L, by rw [hl']; rfl, hL⟩

/-- The question of a key, as a snapshot record asks it. -/
structure SameQuestion (q q' : Query) : Prop where
  name : q'.name.toLowercase.labels = q.name.toLowercase.labels
  queryType : q'.queryType = q.queryType
  queryClass : q'.queryClass = q.queryClass

theorem SoaFloor.asked (h : SoaFloor q m b) (hq : SameQuestion q q') : SoaFloor q' m b := by
  intro rr hrr soa hsoa hcounts
  refine h rr hrr soa hsoa fun hempty => ?_
  obtain ⟨hclass, hzone⟩ := hcounts hempty
  exact ⟨hclass.trans hq.queryClass, zoneOf_lower hq.name ▸ hzone⟩

theorem rejection_aged (h : m.Aged k m') (hedns : m'.edns = none) (hplain : rejection m = none) :
    rejection m' = none := by
  unfold rejection at hplain ⊢
  split at hplain
  · cases hplain
  · split at hplain
    · cases hplain
    next hok =>
    have hsup : supersedingEdns m' = true := by simp [supersedingEdns, Protocol.ednsWithin, hedns]
    rw [if_neg (by simp [hsup]), h.rest]
    exact if_neg hok

theorem prepareResponse_eq (query : SingleQuery) (response) (policy : Policy) :
    prepareResponse query response policy =
      if ¬plainEdns response then .error .unsupportedEdns
      else if isNegative query.question response then
        negativeTtl query.question response >>= fun t =>
          capSections policy true response (min (min policy.maxTtlSecs policy.negativeTtlCapSecs) t)
      else capSections policy false response policy.maxTtlSecs := by
  unfold prepareResponse
  cases isNegative query.question response <;> rfl

variable {start : Nat}

theorem capSections_ok {negative' : Bool} (h : capSections policy negative m start = .ok (m', L, negative')) :
    negative' = negative ∧ m.Aged 0 m' ∧ L ≤ start ∧ m'.edns = none ∧
      (∀ rr ∈ m'.records, L ≤ rr.ttl ∧ rr.ttl ≤ policy.maxTtlSecs ∧ rr.ttl ≤ 2 ^ 31 - 1) ∧
      ∀ rr ∈ m'.records, ¬(rr.recordType = .SIG ∨ rr.recordType = .TSIG) := by
  obtain ⟨⟨answers, L1⟩, hanswers, h⟩ := bind_eq_ok.mp h
  obtain ⟨⟨authorities, L2⟩, hauthorities, h⟩ := bind_eq_ok.mp h
  obtain ⟨⟨additionals, L3⟩, hadditionals, h⟩ := bind_eq_ok.mp h
  dsimp only at h hauthorities hadditionals
  split at h
  · cases h
  cases h
  obtain ⟨ha, hL1, hta, hua⟩ := capRecords_ok hanswers
  obtain ⟨hb, hL2, htb, hub⟩ := capRecords_ok hauthorities
  obtain ⟨hc, hL3, htc, huc⟩ := capRecords_ok hadditionals
  refine ⟨rfl, ⟨ha, hb, hc, rfl⟩, by omega, rfl, ?_, ?_⟩
  · intro rr hrr
    simp only [Message.records, mem_append] at hrr
    rcases hrr with (hrr | hrr) | hrr
    · have := hta rr hrr
      omega
    · have := htb rr hrr
      omega
    · exact htc rr hrr
  · intro rr hrr
    simp only [Message.records, mem_append] at hrr
    rcases hrr with (hrr | hrr) | hrr
    · exact hua rr hrr
    · exact hub rr hrr
    · exact huc rr hrr

theorem capSections_lasts
    (hall : ∀ rr ∈ m.records, b ≤ rr.ttl ∧ rr.ttl ≤ 2 ^ 31 - 1 ∧ ¬(rr.recordType = .SIG ∨ rr.recordType = .TSIG))
    (hmax : b ≤ policy.maxTtlSecs) (hstart : b ≤ start) (hpos : 0 < b) :
    ∃ m' L, capSections policy negative m start = .ok (m', L, negative) ∧ b ≤ L := by
  have hsection : ∀ rr, rr ∈ m.answers ∨ rr ∈ m.authorities ∨ rr ∈ m.additionals → rr ∈ m.records := by
    intro rr hrr
    simpa only [Message.records, mem_append, or_assoc] using hrr
  obtain ⟨answers, L1, h1, hL1⟩ := capRecords_lasts negative
    (fun rr hrr => hall rr (hsection rr (.inl hrr))) hmax hstart
  obtain ⟨authorities, L2, h2, hL2⟩ := capRecords_lasts negative
    (fun rr hrr => hall rr (hsection rr (.inr (.inl hrr)))) hmax hL1
  obtain ⟨additionals, L3, h3, hL3⟩ := capRecords_lasts negative
    (fun rr hrr => hall rr (hsection rr (.inr (.inr hrr)))) hmax hL2
  refine ⟨{ m with answers, authorities, additionals, id := 0, edns := none }, L3, ?_, hL3⟩
  simp only [capSections, bind, Except.bind, h1, h2, h3]
  rw [if_neg (by omega)]

variable {query : SingleQuery}

/-- **What `prepare_response` stores.** -/
theorem prepareResponse_ok {response stored : Message}
    (h : prepareResponse query response policy = .ok (stored, L, negative)) :
    response.Aged 0 stored ∧ negative = isNegative query.question response ∧
      (negative = true → ∃ t, negativeTtl query.question response = .ok t) ∧
      (rejection response = none → SameQuestion query.question q → Lasting q policy stored L negative) := by
  rw [prepareResponse_eq] at h
  split at h
  · cases h
  split at h
  · next hneg =>
    obtain ⟨t, ht, h⟩ := bind_eq_ok.mp h
    obtain ⟨rfl, haged, hL, hedns, httl, hunsigned⟩ := capSections_ok h
    refine ⟨haged, hneg.symm, fun _ => ⟨t, ht⟩, fun hplain hq => ?_⟩
    refine ⟨hedns, rejection_aged haged hedns hplain, httl, hunsigned, by omega, ?_, fun _ => ⟨by omega, ?_⟩⟩
    · rw [isNegative_aged haged hq.queryType, hneg]
    · exact (((negativeTtl_floor ht).mono (by omega)).asked hq).aged haged
  · next hneg =>
    obtain ⟨rfl, haged, hL, hedns, httl, hunsigned⟩ := capSections_ok h
    rw [Bool.not_eq_true] at hneg
    refine ⟨haged, hneg.symm, by simp, fun hplain hq => ?_⟩
    refine ⟨hedns, rejection_aged haged hedns hplain, httl, hunsigned, hL, ?_, by simp⟩
    rw [isNegative_aged haged hq.queryType, hneg]

/-- **A stored message that is aged lives on for what is left.** -/
theorem Lasting.prepare (h : Lasting q policy m L negative) (hq : query.question = q) (hk : k < L)
    (hproof : negative = true → ∃ t, negativeTtl q (ageRecords m k) = .ok t) :
    ∃ stored L', prepareResponse query (ageRecords m k) policy = .ok (stored, L', negative) ∧ L - k ≤ L' ∧
      m.Aged k stored ∧ Lasting q policy stored (L - k) negative := by
  have haged := ageRecords_aged m k
  have hedns : (ageRecords m k).edns = none := h.edns
  have hneg : isNegative query.question (ageRecords m k) = negative := by
    rw [h.kind]
    exact isNegative_aged haged (by rw [hq])
  have hall : ∀ rr ∈ (ageRecords m k).records,
      L - k ≤ rr.ttl ∧ rr.ttl ≤ 2 ^ 31 - 1 ∧ ¬(rr.recordType = .SIG ∨ rr.recordType = .TSIG) := by
    intro rr hrr
    obtain ⟨rr0, hrr0, rfl⟩ := mem_ageRecords hrr
    have := h.ttl rr0 hrr0
    exact ⟨by dsimp only; omega, by dsimp only; omega, h.unsigned rr0 hrr0⟩
  have hmax := h.max
  have hplain : plainEdns (ageRecords m k) = true := by simp [plainEdns, Protocol.ednsWithin, hedns]
  obtain ⟨stored, L', hok, hL'⟩ : ∃ stored L',
      prepareResponse query (ageRecords m k) policy = .ok (stored, L', negative) ∧ L - k ≤ L' := by
    rw [prepareResponse_eq, if_neg (by simp [hplain]), hneg]
    cases negative with
    | false => exact capSections_lasts hall (by omega) (by omega) (by omega)
    | true =>
      obtain ⟨hcap, hfloor⟩ := h.cap rfl
      obtain ⟨t, ht⟩ := hproof rfl
      have hle : L - k ≤ t := by
        refine le_negativeTtl ht ((hfloor.aged haged).mono (Nat.sub_le _ _)) fun rr hrr => (hall rr ?_).1
        simp [Message.records, hrr]
      rw [if_pos rfl, hq, ht]
      exact capSections_lasts hall (by omega) (by omega) (by omega)
  obtain ⟨haged', _, _, hlasting⟩ := prepareResponse_ok (q := q) hok
  refine ⟨stored, L', hok, hL', haged.trans haged', ?_⟩
  refine (hlasting (rejection_aged haged hedns h.plain) ?_).mono hL'
  rw [hq]
  exact ⟨rfl, rfl, rfl⟩

end Cache

end Parins
