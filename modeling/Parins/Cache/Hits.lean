/-
How long an answer is served. A fresh hit comes before every bound that its
response and the policy set, with the TTLs that are left; a stale one only on
request, for a positive answer, until its retention ends.
-/
import Parins.Cache.Lifetimes

namespace Parins.Cache
open Net Lib

variable {P : Platform} {C : Codec} {config : CacheConfig} {c c' : Cache} {e : Entry} {i : Nat} {query asked : SingleQuery}
  {response : Message} {scope : Scope} {origin : Origin} {t u hits : Nat} {hit : Hit}

/-- An SOA record of a negative response that bounds its lifetime: with aliases all of them do,
without only those for a zone of the question. -/
structure Bounding (question : Query) (response : Message) (rr : Record) (soa : Soa) : Prop where
  mem : rr ∈ response.authorities
  data : rr.data = .soa soa
  zone : response.answers = [] → rr.dnsClass = question.queryClass ∧ rr.name.zoneOf question.name = true

/-- A fresh hit at `u` on the answer that was made of a response at `t`. -/
structure FreshWithin (policy : Policy) (question : Query) (response : Message) (t u : Nat) (hit : Hit) : Prop where
  cap : u < t + policy.maxTtlSecs * second
  ttls : ∀ rr ∈ response.records, u < t + rr.ttl * second
  negative : isNegative question response = true → u < t + policy.negativeTtlCapSecs * second ∧
    ∀ rr soa, Bounding question response rr soa → u < t + min rr.ttl soa.minimum * second
  served : List.Forall₂ (fun original served : Record => served.name = original.name ∧
    served.dnsClass = original.dnsClass ∧ served.data = original.data ∧ 1 ≤ served.ttl ∧
    served.ttl ≤ min original.ttl policy.maxTtlSecs - (u - t) / second) response.records hit.message.records

/-- A stale hit at `u` on the answer that was made of a response at `t`, for `lifetime`. -/
structure StaleWithin (config : CacheConfig) (question : Query) (response : Message) (t u lifetime : Nat)
    (allowStale : Bool) (hit : Hit) : Prop where
  allowed : allowStale = true
  positive : isNegative question response = false
  answer : hit.failure = none
  before : u < t + lifetime + config.stale.retentionSecs * second
  ttls : ∀ rr ∈ hit.message.records, rr.ttl = config.stale.replyTtlSecs
  authentic : hit.authentic = false

variable {m : Message} {L : Nat}

/-! ### The entry of a response -/

section
variable (h : e.Made P c asked response scope origin t)
include h

theorem Entry.Made.policy :
    c.policy e.key asked.question.name = policyFor c.config c.rules e.key e.key.name := by
  obtain ⟨hname, _⟩ := Key.of_spec h.key
  rw [hname, policyFor_keyName]
  rfl

theorem Entry.Made.kept :
    e.negative = isNegative asked.question response ∧ (e.negative = true → e.retention = e.lifetime) := by
  obtain ⟨answer, hprepared, he⟩ := h.made
  obtain ⟨stored, L, hprepare, _⟩ := prepare_ok hprepared
  obtain ⟨_, hnegative, _⟩ := prepareResponse_ok (q := asked.question) hprepare
  have hneg : e.negative = answer.negative := by rw [he]; rfl
  refine ⟨hneg.trans hnegative, fun h => ?_⟩
  rw [he]
  simp [Offer.entry, Stored.entry, Offer.stored, ← hneg, h]

/-- The floor of the stored SOA records holds of those in the response. -/
theorem Entry.Made.floor {rr} {soa : Soa} (haged : response.Aged 0 m) (hfloor : SoaFloor e.question m L)
    (hb : Bounding asked.question response rr soa) : L ≤ soa.minimum := by
  obtain ⟨hname, _, hclass, _⟩ := Key.of_spec h.key
  obtain ⟨rr', hrr', hr⟩ := forall₂_mem_right haged.authorities.flip hb.mem
  refine hfloor rr' hrr' soa (hr.data.trans hb.data) fun hempty => ?_
  have hanswers := haged.answers
  rw [hempty] at hanswers
  obtain ⟨hcls, hzone⟩ := hb.zone (List.forall₂_nil_right_iff.mp hanswers)
  have hlabels : e.question.name.toLowercase.labels = asked.question.name.toLowercase.labels := by
    rw [Entry.question, hname]
    exact keyName_labels _
  refine ⟨?_, ?_⟩
  · rw [hr.dnsClass, hcls, Entry.question, hclass]
  · rw [hr.name, zoneOf_lower hlabels, hzone]

/-- **The bounds on a fresh hit.** -/
theorem Entry.Made.fresh (hP : FaithfulWire P.hickory)
    (hplain : response.Plain) (hhit : (e.reply P c.config query hits u).hit = some hit) (hfresh : hit.stale = false) :
    FreshWithin (c.policy e.key asked.question.name) asked.question response t u hit := by
  obtain ⟨m, L, hans, haged, hinserted⟩ := h.answers hP hplain
  obtain ⟨hage, hrecords⟩ := reply_aged hans hhit hfresh
  rw [Entry.age, hinserted] at hage hrecords
  rw [h.policy]
  have hbefore : ∀ {bound : Nat}, L ≤ bound → u < t + bound * second := by
    intro bound hle
    have := Nat.mul_le_mul_right second hle
    omega
  have hpassed : (u - t) / second < L := (Nat.div_lt_iff_lt_mul (by decide : 0 < second)).mpr hage
  have hkind : isNegative asked.question response = e.negative := h.kept.1.symm
  -- a record and what is stored of it
  have hstored := forall₂_and_mem haged.records hans.lasting.ttl
  have httl : ∀ rr ∈ response.records, L ≤ rr.ttl := by
    intro rr hrr
    obtain ⟨rr', _, hr, hL, _⟩ := forall₂_mem_right hstored.flip hrr
    have := hr.ttl
    omega
  refine ⟨hbefore hans.lasting.max, fun rr hrr => hbefore (httl rr hrr), fun hneg => ?_, ?_⟩
  · obtain ⟨hcap, hfloor⟩ := hans.lasting.cap (hkind ▸ hneg)
    refine ⟨hbefore hcap, fun rr soa hb => hbefore ?_⟩
    have hrr : rr ∈ response.records := by simp [Message.records, hb.mem]
    have hmin : L ≤ soa.minimum := h.floor haged hfloor hb
    have := httl rr hrr
    omega
  · rw [hrecords, List.forall₂_map_right_iff]
    refine hstored.imp fun original rr hr => ?_
    obtain ⟨hr, hL, hmax, _⟩ := hr
    have := hr.ttl
    refine ⟨hr.name, hr.dnsClass, hr.data, ?_, ?_⟩ <;> dsimp only <;> omega

/-- **The bounds on a stale hit.** -/
theorem Entry.Made.stale (hP : FaithfulWire P.hickory)
    (hplain : response.Plain) {outgoing allowStale} (husable : e.usable outgoing u allowStale = true)
    (hhit : (e.reply P c.config query hits u).hit = some hit) (hstale : hit.stale = true) :
    StaleWithin c.config asked.question response t u e.lifetime allowStale hit := by
  obtain ⟨m, L, hans, _, hinserted⟩ := h.answers hP hplain
  obtain ⟨hnegative, hkept⟩ := h.kept
  obtain ⟨hfailure, hfresh, hrest⟩ := reply_parts hhit
  obtain ⟨hauthentic, httls⟩ := hrest hstale
  have hold : e.fresh u = false := by
    rw [hfresh] at hstale
    simpa using hstale
  simp only [Entry.usable, hold, Bool.false_or, Bool.and_eq_true, Bool.not_eq_true'] at husable
  obtain ⟨⟨⟨_, hheld⟩, hallowed⟩, _⟩ := husable
  have hretained : ¬e.retention ≤ e.age u := of_decide_eq_false hheld
  have hpast : ¬e.age u < e.lifetime := of_decide_eq_false hold
  refine ⟨hallowed, ?_, hfailure.trans hans.answer, ?_, httls, hauthentic⟩
  · rw [← hnegative, ← Bool.not_eq_true]
    intro hneg
    exact hpast (hkept hneg ▸ Nat.lt_of_not_le hretained)
  · have := hans.retention
    rw [Entry.age, hinserted] at hretained
    omega

end

/-! ### Every hit of a run -/

/-- **How long an answer is served.** Every hit of a cache, after any run, is the reply of an entry.
If it is an answer, some event of the run made it of a response, and for whatever plain response it
was made of, at whatever time: a fresh hit keeps the bounds of that response and of the policy, and a
stale one is a positive answer that is still retained, given on request. No failure is stale. -/
theorem hits_within_bounds (hP : FaithfulWire P.hickory) {hasher : Key → Nat} (hvariants : 0 < config.maxVariants)
    {events : List Event} (hrun : run (step P C) (Cache.new hasher config) events = some c)
    {pinned : Nat → Nat → Bool} {outgoing : Option ClientSubnet} {allowStale observe : Bool} {result : LookupResult}
    (hlookup : c.lookupInner P pinned query outgoing u allowStale observe = some (c', result))
    (hhit : result.hit = some hit) :
    ∃ i e hits, c.Holds i e ∧ Key.of query = some e.key ∧ result = e.reply P config query hits u ∧
      (hit.stale = true → hit.failure = none) ∧
      (hit.failure = none → ∃ ev ∈ events, ∃ asked response scope origin,
        e.Made P (Cache.new hasher config) asked response scope origin ev.now ∧
        ((∃ epoch, ev.op.Offers asked response scope epoch origin) ∨ origin.restoring = true)) ∧
      ∀ asked response scope origin t, e.Made P (Cache.new hasher config) asked response scope origin t → response.Plain →
        (hit.stale = false → FreshWithin (policyFor config (sortRules config.rules) e.key asked.question.name)
          asked.question response t u hit) ∧
        (hit.stale = true → StaleWithin config asked.question response t u e.lifetime allowStale hit) := by
  have hwf0 := new_wf hasher hvariants
  obtain ⟨hwf, hframe⟩ := run_keeps hwf0 hrun
  have hconfig : c.config = config := hframe.config
  obtain ⟨c1, result1, hlookup1, _, _, hfound⟩ := lookupInner_spec P pinned query outgoing u allowStale observe hwf
  cases hlookup.symm.trans hlookup1
  obtain ⟨key, s, e, hits, hkey, hs, he, rfl⟩ := hfound hit hhit
  rw [hconfig] at hhit
  obtain ⟨⟨hres, rfl⟩, husable⟩ := (hwf.shards _ s hs).mem_candidates.mp he
  obtain ⟨hfailure, hfresh, _⟩ := reply_parts hhit
  refine ⟨_, e, hits, ⟨s, hs, hres⟩, hkey, by rw [hconfig], fun hstale => ?_, fun hanswer => ?_,
    fun asked response scope origin t hmade hplain => ⟨fun hf => ?_, fun hstale => ?_⟩⟩
  · rw [hfailure]
    rw [hfresh, Bool.not_eq_true'] at hstale
    simp only [Entry.usable, hstale, Bool.false_or, Bool.and_eq_true, Bool.not_eq_true'] at husable
    obtain ⟨⟨_, hallowed⟩, hnot⟩ := husable
    simpa [hallowed] using hnot
  · rw [hfailure] at hanswer
    exact (run_made hwf0 hrun ⟨s, hs, hres⟩ hanswer).resolve_left (new_holds hasher config _ e)
  · exact hmade.fresh hP hplain hhit hf
  · exact hmade.stale hP hplain husable hhit hstale

/-- The answer with a minute to live, ten seconds before its end and ten seconds after. -/
theorem hits_within_bounds_sample : ∃ c c1 c2 result1 result2 hit1 hit2,
    run (step cyclePlatform cycleCodec) (Cache.new (fun _ => 7) cycleConfig) [cycleEvent] = some c ∧
    c.lookupInner cyclePlatform (fun _ _ => false) sampleQuery none (50 * second) false true = some (c1, result1) ∧
    c.lookupInner cyclePlatform (fun _ _ => false) sampleQuery none (70 * second) true true = some (c2, result2) ∧
    result1.hit = some hit1 ∧ result2.hit = some hit2 ∧ hit1.stale = false ∧ hit2.stale = true ∧
    (∃ policy asked response t, FreshWithin policy asked response t (50 * second) hit1) ∧
    ∃ asked response t lifetime, StaleWithin cycleConfig asked response t (70 * second) lifetime true hit2 := by
  have hshape : ((run (step cyclePlatform cycleCodec) (Cache.new (fun _ => 7) cycleConfig) [cycleEvent]).bind fun c =>
      (c.lookupInner cyclePlatform (fun _ _ => false) sampleQuery none (50 * second) false true).bind fun r1 =>
      (c.lookupInner cyclePlatform (fun _ _ => false) sampleQuery none (70 * second) true true).bind fun r2 =>
        r1.2.hit.bind fun hit1 => r2.2.hit.map fun hit2 =>
          (hit1.stale, hit2.stale, hit1.failure, hit2.failure)) = some (false, true, none, none) := by decide +kernel
  obtain ⟨c, hrun, hshape⟩ := Option.bind_eq_some_iff.mp hshape
  obtain ⟨⟨c1, result1⟩, h1, hshape⟩ := Option.bind_eq_some_iff.mp hshape
  obtain ⟨⟨c2, result2⟩, h2, hshape⟩ := Option.bind_eq_some_iff.mp hshape
  obtain ⟨hit1, hhit1, hshape⟩ := Option.bind_eq_some_iff.mp hshape
  obtain ⟨hit2, hhit2, hshape⟩ := Option.map_eq_some_iff.mp hshape
  simp only [Prod.mk.injEq] at hshape
  obtain ⟨hfresh, hstale, hanswer1, hanswer2⟩ := hshape
  have hvariants : 0 < cycleConfig.maxVariants := by decide
  obtain ⟨i1, e1, hits1, _, _, _, _, hfrom1, hall1⟩ := hits_within_bounds faithful_timedHickory hvariants hrun h1 hhit1
  obtain ⟨i2, e2, hits2, _, _, _, _, hfrom2, hall2⟩ := hits_within_bounds faithful_timedHickory hvariants hrun h2 hhit2
  obtain ⟨ev1, _, asked1, response1, scope1, origin1, hmade1, _⟩ := hfrom1 hanswer1
  obtain ⟨ev2, _, asked2, response2, scope2, origin2, hmade2, _⟩ := hfrom2 hanswer2
  exact ⟨c, c1, c2, result1, result2, hit1, hit2, hrun, h1, h2, hhit1, hhit2, hfresh, hstale,
    ⟨_, _, _, _, (hall1 asked1 response1 scope1 origin1 ev1.now hmade1 (made_plain hmade1)).1 hfresh⟩,
    _, _, _, _, (hall2 asked2 response2 scope2 origin2 ev2.now hmade2 (made_plain hmade2)).2 hstale⟩

end Parins.Cache
