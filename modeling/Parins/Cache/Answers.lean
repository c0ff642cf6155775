/-
Where the answers of a cache come from. Every entry that is not a failure was made
of an offered response, by an event of the run or a line of a restored file; so
what `prepare_response` ensures of it holds of every answer the cache ever holds.
-/
import Parins.Cache.Evidence
import Parins.Cache.Isolation
import Parins.Cache.Rollback
import Parins.Cache.Retimed

namespace Parins.Cache
open Net Lib

variable {P : Platform} {C : Codec} {config : CacheConfig} {c c' c0 : Cache} {e : Entry} {i now : Nat}
variable {query : SingleQuery} {response : Message} {scope : Scope} {origin : Origin}

/-! ## Provenance -/

theorem Frame.made (h : c.Frame c') (hmade : e.Made P c' query response scope origin now) :
    e.Made P c query response scope origin now := by
  refine ⟨hmade.key, h.policy _ _ ▸ hmade.allowed, hmade.plain, h.config ▸ hmade.widened, ?_⟩
  have hm := hmade.made
  simpa only [h.offer, h.config] using hm

def Restorable (P : Platform) (c : Cache) (now i : Nat) (e : Entry) : Prop :=
  c.Holds i e ∨ ∃ query response scope r, e.Made P c query response scope (.restore r) now

variable {call : RestoreCall}

theorem Restores.made {records offline n lines}
    (h : Restores P C call records offline n c lines c') (hwf : c.Wf) (hafter : c'.Holds i e) :
    Restorable P c call.now i e := by
  have hall := h.keeps (I := fun c' => c'.Wf ∧ c.Frame c' ∧ ∀ i e, c'.Holds i e → Restorable P c call.now i e)
    ⟨hwf, .refl c, fun _ _ h => .inl h⟩ fun {c1 c2 pinned query response scope r d} hI hadmit => by
      obtain ⟨hwf1, hframe, hfrom⟩ := hI
      have hadmits := (admits_of hwf1 hadmit).2
      have hmoves := hadmits.moves hwf1
      refine ⟨hmoves.wf hwf1, hframe.trans hmoves.frame, fun i e he => ?_⟩
      by_cases hheld : c1.Holds i e
      · exact hfrom i e hheld
      · exact .inr ⟨query, response, scope, r, hframe.made (admit_made hwf1 hadmit hheld he)⟩
  exact hall.2.2 i e hafter

theorem raiseClocks_holds (c : Cache) (records) : (raiseClocks c records).Holds i e ↔ c.Holds i e := by
  have heach := raiseClocks_each c records
  constructor
  · rintro ⟨s', hs', he⟩
    obtain ⟨s, hs, rfl⟩ := heach.of hs'
    exact ⟨s, hs, he⟩
  · rintro ⟨s, hs, he⟩
    obtain ⟨s', hs', rfl⟩ := heach.shards i s hs
    exact ⟨_, hs', he⟩

variable {bytes : Bytes}

theorem Restoration.made {outcome}
    (h : Restoration P C call bytes c c' outcome) (hwf : c.Wf) (hafter : c'.Holds i e) :
    Restorable P c call.now i e := by
  have hraised : ∀ records, Restorable P (raiseClocks c records) call.now i e → Restorable P c call.now i e := by
    rintro records (hheld | ⟨query, response, scope, r, hmade⟩)
    · exact .inl ((raiseClocks_holds c records).mp hheld)
    · exact .inr ⟨query, response, scope, r, (raiseClocks_each c records).frame.made hmade⟩
  cases h with
  | untouched => exact .inl hafter
  | loaded _ _ hres => exact hraised _ (hres.made (raiseClocks_wf hwf _) hafter)
  | @rolledBack header _ _ c1 _ _ _ _ hres hunload =>
    have hwf0 := raiseClocks_wf hwf header.records
    obtain ⟨c2, h2, _, heach⟩ := unload_spec call.pinnedAtEnd ((raiseClocks c header.records).shards.map Shard.clock)
      (hres.wf hwf0).1
    cases hunload.symm.trans h2
    obtain ⟨s', hs', he⟩ := hafter
    obtain ⟨s, hs, _, hless⟩ := heach.of hs'
    exact hraised _ (hres.made hwf0 ⟨s, hs, (hless.mem_iff.mp he).1⟩)

variable {ev : Event}

/-- **An event** makes answers only of the response it offers, or of the records it restores. -/
theorem step_made (hwf : c.Wf) (h : step P C c ev = some c') (hbefore : ¬c.Holds i e)
    (hafter : c'.Holds i e) (hanswer : e.failure = none) :
    ∃ query response scope origin, e.Made P c query response scope origin ev.now ∧
      ((∃ epoch, ev.op.Offers query response scope epoch origin) ∨ origin.restoring = true) := by
  cases step_cases hwf h with
  | loses _ heach =>
    obtain ⟨s, s', ⟨_, gone, hch, _, _⟩, hnot, he⟩ := heach.added hbefore hafter
    cases hch.added hnot he
  | @admits query response scope epoch origin hoffers _ _ =>
    exact ⟨query, response, scope, origin, Puts.made ⟨hbefore, c', h, hafter⟩ hwf hoffers, .inl ⟨epoch, hoffers⟩⟩
  | fails hfail _ hfails =>
    cases hfails with
    | refused heach =>
      obtain ⟨s, s', hsame, hnot, he⟩ := heach.added hbefore hafter
      cases hsame.alike.change.added hnot he
    | offered _ _ _ heach =>
      obtain ⟨s, s', hr, hnot, he⟩ := heach.added hbefore hafter
      unfold Only at hr
      split at hr
      · obtain ⟨gone, new, hfailed⟩ := hr
        rw [hfailed.entry e (hfailed.change.added hnot he)] at hanswer
        cases hanswer
      · exact absurd (hr ▸ he) hnot
  | cleared _ _ heach =>
    obtain ⟨s, s', hcleared, hnot, he⟩ := heach.added hbefore hafter
    cases hcleared.change.added hnot he
  | restored _ hres =>
    rcases hres.made hwf hafter with hheld | ⟨query, response, scope, r, hmade⟩
    · exact absurd hheld hbefore
    · exact ⟨query, response, scope, .restore r, hmade, .inr rfl⟩

/-- **Every answer of a run** was there at its start, or some event made it. -/
theorem run_made {events} (hwf : c0.Wf) (hrun : run (step P C) c0 events = some c) (hheld : c.Holds i e)
    (hanswer : e.failure = none) :
    c0.Holds i e ∨ ∃ ev ∈ events, ∃ query response scope origin, e.Made P c0 query response scope origin ev.now ∧
      ((∃ epoch, ev.op.Offers query response scope epoch origin) ∨ origin.restoring = true) := by
  refine (run_sustains hwf hrun (I := fun c => c.Holds i e → _) .inl
    fun {c1 ev c2} hev hwf1 hframe hstep hfrom he => ?_).2.2 hheld
  by_cases hold : c1.Holds i e
  · exact hfrom hold
  · obtain ⟨query, response, scope, origin, hmade, hsource⟩ := step_made hwf1 hstep hold he hanswer
    exact .inr ⟨ev, hev, query, response, scope, origin, hframe.made hmade, hsource⟩

/-! ## What every answer is -/

theorem toAsciiLowercase_idem (b) : toAsciiLowercase (toAsciiLowercase b) = toAsciiLowercase b := by
  unfold toAsciiLowercase
  split
  · next h =>
    refine if_neg fun h' => ?_
    have h1 := UInt8.le_iff_toNat_le.mp h.1
    have h2 := UInt8.le_iff_toNat_le.mp h'.2
    have h3 := UInt8.le_iff_toNat_le.mp h.2
    have hadd : (b + 32).toNat = b.toNat + 32 := by
      rw [UInt8.toNat_add]
      have : (90 : UInt8).toNat = 90 := rfl
      have : (32 : UInt8).toNat = 32 := rfl
      omega
    have : (65 : UInt8).toNat = 65 := rfl
    have : (90 : UInt8).toNat = 90 := rfl
    omega
  · rfl

theorem toLowercase_idem (n : Name) : n.toLowercase.toLowercase = n.toLowercase := by
  simp only [Name.toLowercase, List.map_map]
  congr 1
  refine List.map_congr_left fun l _ => ?_
  simp only [Function.comp, List.map_map]
  exact List.map_congr_left fun b _ => toAsciiLowercase_idem b

theorem keyName_labels (n : Name) : (keyName n).toLowercase.labels = n.toLowercase.labels := by
  have h := congrArg Name.labels (toLowercase_idem n)
  exact h

theorem keyName_keyName (n) : keyName (keyName n) = keyName n := by
  have h := keyName_labels n
  simp only [keyName, Name.mk.injEq, and_true]
  exact h

theorem policyFor_keyName (config rules key name) :
    policyFor config rules key (keyName name) = policyFor config rules key name := by
  have hlength : (keyName name).labels.length = name.labels.length := by simp [keyName, Name.toLowercase]
  have hrule : findRule rules key.kind (keyName name) = findRule rules key.kind name := by
    simp only [findRule, zoneOf_lower (keyName_labels name), hlength]
  simp only [policyFor, hrule]

/-- What is taken for granted of `hickory_proto`: it reads back what it wrote of a plain message without
EDNS and of a key's name, and writes no more than a DNS message may hold. -/
structure FaithfulWire (H : Hickory) : Prop where
  message : ∀ m bytes, m.Plain → m.edns = none → rejection m = none → H.toVec m = some bytes → H.read bytes = some (m, [])
  size : ∀ m bytes, H.toVec m = some bytes → bytes.length ≤ Protocol.MAX_MESSAGE
  name : ∀ n bytes, keyName n = n → H.nameBytes n = some bytes → H.nameRead bytes = some n

variable {H : Hickory}

theorem FaithfulWire.decode (hH : FaithfulWire H) {m : Message} (hplain : m.Plain) (hedns : m.edns = none)
    (hcode : rejection m = none) (h : H.toVec m = some bytes) : Protocol.decode H bytes = some m := by
  have hsize := hH.size m bytes h
  rw [Protocol.decode, if_neg (by omega), hH.message m bytes hplain hedns hcode h]
  simp [hedns]

def Entry.question (e : Entry) : Query := ⟨e.key.name, e.key.kind, e.key.dnsClass⟩

/-- The entry holds message `m` for `L` seconds, under the policy of its key. -/
structure Entry.Answers (P : Platform) (config : CacheConfig) (rules : List Rule) (e : Entry) (m : Message) (L : Nat) :
    Prop where
  plain : m.Plain
  decoded : Protocol.decode P.hickory e.wire = some m
  lifetime : e.lifetime = L * second
  lasting : Lasting e.question (policyFor config rules e.key e.key.name) m L e.negative
  retention : e.retention ≤ e.lifetime + config.stale.retentionSecs * second
  answer : e.failure = none
  name : keyName e.key.name = e.key.name
  key : e.key.dnsClass = .IN ∧ (e.key.dnssecOk = true → e.key.edns = true)
  allowed : (policyFor config rules e.key e.key.name).bypass = false

/-- What an entry made of a prepared answer holds. -/
theorem Entry.Answers.made (hH : FaithfulWire P.hickory) {config rules o answer now id stored}
    (he : e = Offer.entry P config o answer now id) (hwire : P.hickory.toVec stored = some answer.wire)
    (hplain : stored.Plain)
    (hlasting : Lasting e.question (policyFor config rules e.key e.key.name) stored answer.lifetime answer.negative)
    (hname : keyName e.key.name = e.key.name)
    (hkey : e.key.dnsClass = .IN ∧ (e.key.dnssecOk = true → e.key.edns = true))
    (hallowed : (policyFor config rules e.key e.key.name).bypass = false) :
    e.Answers P config rules stored answer.lifetime := by
  have hdecoded := hH.decode hplain hlasting.edns hlasting.plain hwire
  subst he
  refine ⟨hplain, hdecoded, rfl, hlasting, ?_, rfl, hname, hkey, hallowed⟩
  simp only [Offer.entry, Stored.entry, Offer.stored]
  split <;> omega

theorem Key.of_spec {key : Key} (h : Key.of query = some key) :
    key.name = keyName query.question.name ∧ key.kind = query.question.queryType ∧
      key.dnsClass = query.question.queryClass ∧ key.dnsClass = .IN ∧ (key.dnssecOk = true → key.edns = true) := by
  unfold Key.of at h
  split at h
  · cases h
  next hclass =>
  cases h
  refine ⟨rfl, rfl, rfl, by simpa using (not_or.mp hclass).1, fun hdo => ?_⟩
  cases hedns : query.message.edns with
  | none => simp [hedns] at hdo
  | some _ => simp

theorem prepare_ok {policy} {answer : Prepared} (h : prepare H query response policy origin = .ok answer) :
    ∃ stored L, prepareResponse query response policy = .ok (stored, L, answer.negative) ∧
      answer.lifetime = (match origin.restore? with | some r => min L r.remaining | none => L) ∧
      0 < answer.lifetime ∧ H.toVec stored = some answer.wire := by
  obtain ⟨⟨stored, L, negative⟩, hprepare, h⟩ := bind_eq_ok.mp h
  cases horigin : origin.restore? with
  | none | some r =>
    simp only [horigin] at h
    split at h
    · cases h
    next hpos =>
    split at h
    · next wire hwire =>
      cases h
      exact ⟨stored, L, hprepare, rfl, Nat.pos_of_ne_zero hpos, hwire⟩
    · cases h

/-- **What `admit` tells the learner** keeps the contract of `Table::observe`. -/
theorem offer_promised (c : Cache) (query response scope origin key) :
    (c.offer P query response scope origin key).told.Promised where
  exact h := by
    simp only [Offer.told, offer, fingerprintOf] at h ⊢
    split at h
    · next hlearns =>
      cases scope with
      | exactSource n => exact ⟨n, rfl⟩
      | _ => simp [isExactSource] at hlearns
    · cases h
  lives lifetime h := by
    obtain ⟨answer, hanswer, rfl⟩ := exists_ok_of_map h
    obtain ⟨_, _, _, _, hpos, _⟩ := prepare_ok hanswer
    exact Nat.mul_pos hpos (by decide)

/-- **What is made of a plain response** holds what `prepare_response` stored, for no longer than it
may. -/
theorem Entry.Made.answers (hP : FaithfulWire P.hickory) (h : e.Made P c query response scope origin now)
    (hplain : response.Plain) :
    ∃ m L, e.Answers P c.config c.rules m L ∧ response.Aged 0 m ∧ e.inserted = now := by
  obtain ⟨answer, hprepared, he⟩ := h.made
  obtain ⟨hname, hkind, hclass, hin, hdo⟩ := Key.of_spec h.key
  obtain ⟨stored, L, hprepare, hlifetime, _, hwire⟩ := prepare_ok hprepared
  have hq : SameQuestion query.question e.question :=
    ⟨by rw [Entry.question, hname]; exact keyName_labels _, hkind, hclass⟩
  obtain ⟨haged, _, _, hlasting⟩ := prepareResponse_ok (q := e.question) hprepare
  have hpolicy : c.policy e.key query.question.name = policyFor c.config c.rules e.key e.key.name := by
    rw [hname, policyFor_keyName]
    rfl
  have hlasting := hlasting h.plain hq
  have hle : answer.lifetime ≤ L := by
    rw [hlifetime]
    split <;> omega
  refine ⟨stored, answer.lifetime, .made hP he hwire (haged.plain_iff.mpr hplain) ?_ ?_ ⟨hin, hdo⟩ ?_, haged, he ▸ rfl⟩
  · rw [← hpolicy]
    exact hlasting.mono hle
  · rw [hname, keyName_keyName]
  · rw [← hpolicy]
    exact h.allowed

end Parins.Cache
