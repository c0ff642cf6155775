/-
Snapshots never extend a lifetime. The history of a server is a chain of caches,
each restored from the snapshot of the one before; an answer keeps, through every
cycle, the time of its first admission and the records it came with. Ages are
rounded up and what is left is rounded down, so no rounding adds to its life.
-/
import Parins.Cache.Written

namespace Parins.Cache
open Net Lib List Option

variable {P : Platform} {C : Codec} {config : CacheConfig} {c c' : Cache} {e : Entry} {i : Nat}

/-! ## Histories -/

/-- When an answer was first admitted, for how long, and the response it was made of. -/
structure Birth where
  time : Nat
  lifetime : Nat
  response : Message

/-- The event admits the entry, as an answer of its own and not from a snapshot. -/
structure Born (P : Platform) (C : Codec) (c : Cache) (ev : Event) (i : Nat) (e : Entry) (b : Birth) : Prop where
  puts : Puts P C c ev i e
  offers : ∃ query scope epoch origin, ev.op.Offers query b.response scope epoch origin ∧ origin.restoring = false
  time : b.time = ev.now
  lifetime : b.lifetime = e.lifetime

/-- The entry was restored from the line that this handle was written to. -/
def RestoredFrom (P : Platform) (C : Codec) (call : RestoreCall) (bytes : Bytes) (w : Written) (c : Cache) (i : Nat)
    (e : Entry) (h : Handle) : Prop :=
  ∃ header offline k s, checkHeader C call bytes = .ok (header, offline) ∧ c.shards[i]? = some s ∧ e ∈ s.entries ∧
    e.FromLine P C bytes header k (s.cells e.id) ∧ w.saved[k]? = some h

/-- Every response that the event makes an entry of is plain. -/
def Event.Plain (P : Platform) (C : Codec) (c : Cache) (ev : Event) : Prop :=
  ∀ i e, Puts P C c ev i e → ∀ query response scope origin, e.Made P c query response scope origin ev.now → response.Plain

/-- A cache after any events with plain responses and any number of snapshots restored into new caches
with the same configuration, with the births of its entries. `Instant`s are real times; between a save
and the restore of its file the wall clock advances at least as much. -/
inductive Life (P : Platform) (C : Codec) (config : CacheConfig) : Cache → (Nat → Entry → Birth → Prop) → Prop where
  | start (hasher : Key → Nat) : Life P C config (Cache.new hasher config) fun _ _ _ => False
  | step {c c' : Cache} {births : Nat → Entry → Birth → Prop} {ev : Event} : Life P C config c births →
      ev.Plain P C c → step P C c ev = some c' → Life P C config c' fun i e b => births i e b ∨ Born P C c ev i e b
  | restart {c c' : Cache} {births : Nat → Entry → Birth → Prop} {hasher : Key → Nat} {fingerprint : Text} {savedAt : Int}
      {savedNow maxBytes : Nat} {stops : Stops} {bytes : Bytes} {w : Written} {call : RestoreCall} {cancelled : Bool}
      {outcome : Except SnapshotError SnapshotReport} : Life P C config c births →
      writeCleanSnapshot P C c fingerprint savedAt savedNow maxBytes stops = .ok (bytes, w) →
      restoreCleanSnapshot P C (Cache.new hasher config) call cancelled bytes = some (c', outcome) →
      (call.now : Int) - savedNow ≤ call.nowWall - savedAt →
      Life P C config c' fun i e b => ∃ h, RestoredFrom P C call bytes w c' i e h ∧ births h.shard h.entry b

/-! ## What an answer keeps -/

/-- The entry ends no later than its birth allows, and its records are those of its birth, aged by
at least the time that has passed. -/
structure Pedigree (P : Platform) (config : CacheConfig) (e : Entry) (b : Birth) : Prop where
  ends : e.inserted + e.lifetime ≤ b.time + b.lifetime
  messages : ∃ m L k, e.Answers P config (sortRules config.rules) m L ∧ b.response.Aged k m ∧
    e.inserted ≤ b.time + k * second

variable {m : Message} {rules : List Rule} {L : Nat}

theorem Entry.Answers.unique {rules' m' L'}
    (h : e.Answers P config rules m L) (h' : e.Answers P config rules' m' L') : m' = m :=
  (Option.some.inj (h.decoded.symm.trans h'.decoded)).symm

variable {b : Birth}

theorem Born.pedigree (hP : FaithfulWire P.hickory) {ev} (hwf : c.Wf) (hconfig : c.config = config)
    (hrules : c.rules = sortRules config.rules) (hplain : ev.Plain P C c) (h : Born P C c ev i e b) :
    Pedigree P config e b := by
  obtain ⟨query, scope, epoch, origin, hoffers, _⟩ := h.offers
  have hmade := h.puts.made hwf hoffers
  obtain ⟨m, L, hans, haged, hinserted⟩ := hmade.answers hP (hplain i e h.puts _ _ _ _ hmade)
  rw [hconfig, hrules] at hans
  refine ⟨?_, m, L, 0, hans, haged, ?_⟩
  · rw [hinserted, h.time, h.lifetime]
  · rw [hinserted, h.time]
    omega

variable {savedNow offline : Nat} {bytes : Bytes} {call : RestoreCall} {savedAt : Int}

/-- The real time between save and restore is no more than the offline seconds of a record that
still has some left. -/
theorem offline_covers {header : Header} {savedAtNs remaining}
    (hcheck : checkHeader C call bytes = .ok (header, offline))
    (hsavedAt : timestamp savedAt = .ok savedAtNs) (hheader : header.savedAtNs = savedAtNs)
    (hleft : 0 < remaining - offline) (hremaining : remaining ≤ 2 ^ 31 - 1)
    (hclock : (call.now : Int) - savedNow ≤ call.nowWall - savedAt) : call.now ≤ savedNow + offline * second := by
  obtain ⟨_, nowNs, hnow, hle, rfl⟩ := checkHeader_ok hcheck
  have htimestamp : ∀ {t : Int} {n : Nat}, timestamp t = .ok n → t = n := by
    intro t n h
    unfold timestamp at h
    split at h
    · next hpos =>
      cases h
      omega
    · cases h
  have hwall := htimestamp hnow
  have hsaved := htimestamp hsavedAt
  have hceil : nowNs - savedAtNs ≤ (nowNs - savedAtNs + (second - 1)) / second * second := by
    unfold second
    omega
  rw [hheader] at hleft hle ⊢
  generalize (nowNs - savedAtNs + (second - 1)) / second = offline at hceil hleft ⊢
  rw [Nat.min_eq_left (by omega)]
  omega

theorem Entry.Revives.pedigree {e0 : Entry} {now}
    (h : e0.Revives P config (sortRules config.rules) savedNow offline now e) (hb : Pedigree P config e0 b)
    (hnow : now ≤ savedNow + offline * second) : Pedigree P config e b := by
  obtain ⟨m0, L, m, hans0, hans, hL, hage, haged⟩ := h.messages
  obtain ⟨m1, L1, k, hans1, haged1, hinserted⟩ := hb.messages
  obtain rfl := hans1.unique hans0
  have hends := hb.ends
  have hleft := h.left
  rw [hans0.lifetime] at hends
  simp only [Entry.age, second] at hage hends hinserted hnow
  refine ⟨?_, m, _, k + (elapsedSecs e0 savedNow + offline), hans, haged1.trans haged, ?_⟩
  · rw [h.inserted, hans.lifetime]
    simp only [second]
    omega
  · rw [h.inserted]
    simp only [second]
    omega

structure Life.Inv (P : Platform) (config : CacheConfig) (c : Cache) (births : Nat → Entry → Birth → Prop) : Prop where
  wf : c.Wf
  configured : c.config = config
  rules : c.rules = sortRules config.rules
  answers : ∀ i e, c.Holds i e → e.failure = none → ∃ m L, e.Answers P config (sortRules config.rules) m L
  pedigrees : ∀ i e b, births i e b → Pedigree P config e b

variable {births : Nat → Entry → Birth → Prop}

theorem Life.inv (hC : Faithful P C) (hvalid : config.validate = true)
    (h : Life P C config c births) : Life.Inv P config c births := by
  induction h with
  | start hasher =>
    refine ⟨new_wf hasher (validate_variants hvalid), rfl, rfl, fun i e he => ?_, fun i e b h => h.elim⟩
    exact absurd he (new_holds hasher config i e)
  | @step c c' births ev _ hplain hstep ih =>
    have hstepped := step_cases ih.wf hstep
    have hframe := hstepped.frame ih.wf
    refine ⟨hstepped.wf ih.wf, hframe.config.trans ih.configured, hframe.rules.trans ih.rules,
      fun i e he hanswer => ?_, ?_⟩
    · by_cases hold : c.Holds i e
      · exact ih.answers i e hold hanswer
      · obtain ⟨query, response, scope, origin, hmade, _⟩ := step_made ih.wf hstep hold he hanswer
        obtain ⟨m, L, hans, _⟩ :=
          hmade.answers hC.toFaithfulWire (hplain i e ⟨hold, c', hstep, he⟩ _ _ _ _ hmade)
        rw [ih.configured, ih.rules] at hans
        exact ⟨m, L, hans⟩
    · rintro i e b (hb | hborn)
      · exact ih.pedigrees i e b hb
      · exact hborn.pedigree hC.toFaithfulWire ih.wf ih.configured ih.rules hplain
  | @restart c c' births hasher fingerprint savedAt savedNow maxBytes stops bytes w call cancelled outcome _ hwrite
      hrestore hclock ih =>
    have hwf := new_wf hasher (validate_variants hvalid)
    obtain ⟨c1, outcome1, h1, hres⟩ := restore_spec P C call cancelled bytes hwf
    cases hrestore.symm.trans h1
    obtain ⟨hwf', _, hframe⟩ := hres.wf hwf
    refine ⟨hwf', hframe.config, hframe.rules, fun i e he hanswer => ?_, ?_⟩
    · obtain ⟨s, hs, he⟩ := he
      obtain ⟨_, _, _, _, _, _, _, _, _, hrevives⟩ := restored_revives hC hvalid ih.answers hwrite hrestore hs he
      obtain ⟨_, _, m, _, hans, _⟩ := hrevives.messages
      exact ⟨m, _, hans⟩
    · rintro i e b ⟨h, ⟨header, offline, k, s, hcheck, hs, he, hline, hh⟩, hb⟩
      obtain ⟨savedAtNs, offline', k', h', hsavedAt, hcheck', hline', hh', _, hrevives⟩ :=
        restored_revives hC hvalid ih.answers hwrite hrestore hs he
      cases hcheck.symm.trans hcheck'
      -- The stamp tells the line.
      have hk : k = k' := by
        have hstamp := congrArg Cells.accessed (hline.stamp.symm.trans hline'.stamp)
        have := hline.position
        have := hline'.position
        dsimp only at hstamp
        omega
      subst hk
      cases hh.symm.trans hh'
      refine hrevives.pedigree (ih.pedigrees _ _ b hb) (offline_covers hcheck hsavedAt rfl hrevives.left ?_ hclock)
      obtain ⟨m0, L, m, hans, _, hL, _⟩ := hrevives.messages
      have := hans.lifetime_le hvalid
      omega

/-! ## What a reply serves -/

theorem forall₂_and_mem {R} {p : Record → Prop} {l l' : List Record} (h : List.Forall₂ R l l')
    (hp : ∀ x ∈ l', p x) : List.Forall₂ (fun a b => R a b ∧ p b) l l' := by
  induction h with
  | nil => exact .nil
  | cons hr _ ih => exact .cons ⟨hr, hp _ mem_cons_self⟩ (ih fun x hx => hp x (mem_cons_of_mem _ hx))

variable {query : SingleQuery} {hits t : Nat} {hit : Hit}

/-- The parts of a reply that do not depend on the records. -/
theorem reply_parts (h : (e.reply P config query hits t).hit = some hit) :
    hit.failure = e.failure ∧ hit.stale = !e.fresh t ∧
      (hit.stale = true → hit.authentic = false ∧
        ∀ rr ∈ hit.message.records, rr.ttl = config.stale.replyTtlSecs) := by
  unfold Entry.reply at h
  dsimp only at h
  split at h
  · cases h
  · next message hdecode =>
    obtain rfl := Option.some.inj h
    refine ⟨rfl, rfl, fun hstale => ?_⟩
    have hfresh : e.fresh t = false := by simpa using hstale
    refine ⟨by simp [hfresh], fun rr hrr => ?_⟩
    simp only [hfresh, Bool.not_false, if_true] at hrr
    have hrecords := Message.records_mapRecords (fun rr => { rr with ttl := config.stale.replyTtlSecs }) message
    have hmem : rr ∈ message.records.map fun rr => { rr with ttl := config.stale.replyTtlSecs } := by
      rw [← hrecords]
      exact hrr
    obtain ⟨_, _, rfl⟩ := List.mem_map.mp hmem
    rfl

theorem reply_aged (hans : e.Answers P config rules m L)
    (h : (e.reply P config query hits t).hit = some hit) (hstale : hit.stale = false) : e.age t < L * second ∧
      hit.message.records = m.records.map fun rr => { rr with ttl := rr.ttl - e.age t / second } := by
  have hfresh : e.fresh t = true := by simpa [(reply_parts h).2.1] using hstale
  have hage : e.age t < L * second := by
    rw [← hans.lifetime]
    exact of_decide_eq_true hfresh
  have hpassed := (Nat.div_lt_iff_lt_mul (by decide : 0 < second)).mpr hage
  refine ⟨hage, ?_⟩
  unfold Entry.reply at h
  dsimp only at h
  rw [hans.decoded] at h
  obtain rfl := Option.some.inj h
  have hrecords := Message.records_mapRecords (fun rr => { rr with ttl := rr.ttl - min (e.age t / second) (2 ^ 32 - 1) }) m
  simp only [hfresh, Bool.not_true, Bool.false_eq_true, if_false]
  refine hrecords.trans (map_congr_left fun rr hrr => ?_)
  -- no record allows a lifetime that the elapsed seconds could saturate
  have := hans.lasting.ttl rr hrr
  rw [Nat.min_eq_left (by omega)]

def timedSample (ttl : Nat) : Message :=
  { sampleResponse with id := 0, answers := [⟨⟨[[97]], true⟩, ttl, .IN, .other .A [1, 2, 3, 4]⟩] }

def timedWire (ttl : Nat) : Bytes := sampleWire.take 25 ++ toBeBytes 4 ttl ++ sampleWire.drop 29

def timedHickory : Hickory :=
  { samplePlatform.hickory with
    toVec := fun m =>
      match m.answers with
      | [rr] => if m = timedSample rr.ttl ∧ rr.ttl < 2 ^ 32 then some (timedWire rr.ttl) else none
      | _ => none
    read := fun bytes =>
      let ttl := ofBeBytes ((bytes.drop 25).take 4)
      if bytes = timedWire ttl then some (timedSample ttl, []) else none }

theorem timedHickory_toVec (h : timedHickory.toVec m = some bytes) :
    ∃ ttl < 2 ^ 32, m = timedSample ttl ∧ bytes = timedWire ttl := by
  simp only [timedHickory] at h
  split at h
  · next rr _ =>
    split at h
    · next hm =>
      cases h
      exact ⟨rr.ttl, hm.2, hm.1, rfl⟩
    · cases h
  · cases h

theorem timedSample_plain (ttl) : (timedSample ttl).Plain where
  queries := by simp [timedSample, sampleResponse]
  contents := by simp [Message.contents, Message.records, timedSample, sampleResponse, RData.Plain, RecordType.A,
    RecordType.CNAME, RecordType.SOA, RecordType.OPT, RecordType.SIG, RecordType.TSIG]
  fits := by
    simp [Message.size, Message.contents, Message.records, timedSample, sampleResponse, RData.size, Name.encodedLen,
      Protocol.MAX_MESSAGE]

theorem length_timedWire (ttl) : (timedWire ttl).length = 35 := by
  simp [timedWire, sampleWire]

theorem faithful_timedHickory : FaithfulWire timedHickory where
  message m bytes _ _ _ h := by
    obtain ⟨ttl, hlt, rfl, rfl⟩ := timedHickory_toVec h
    have httl : ofBeBytes (((timedWire ttl).drop 25).take 4) = ttl := by
      have hslice : ((timedWire ttl).drop 25).take 4 = toBeBytes 4 ttl := by
        simp [timedWire, sampleWire, toBeBytes]
      rw [hslice]
      exact ofBeBytes_toBeBytes (by omega)
    simp only [timedHickory, httl, if_true]
  size m bytes h := by
    obtain ⟨ttl, _, _, rfl⟩ := timedHickory_toVec h
    rw [length_timedWire]
    decide
  name n bytes _ h := by
    simp only [timedHickory, samplePlatform] at h ⊢
    split at h
    · next hn =>
      cases h
      rw [hn, if_pos rfl]
    · cases h

def cycleWire : String := "AACAAAABAAEAAAAAAWEAAAEAAcAMAAEAAQAAADIABAECAwQ="

def cycleRecord : SavedRecord := savedSample .noEcs 50 cycleWire

def cycleJson : Bytes := savedJson "no_ecs" "50" cycleWire

def cycleSum : String := "0d7093e355ffd625def444cfbae674551f0ebbadc9b4d60dfa15020d0700afb9"

def cycleHeader : Header := ⟨VERSION, ascii "f", 10 * second, 1, ascii cycleSum⟩

def cycleHeaderJson : Bytes := headerText "10000000000" "1" cycleSum

def cyclePlatform : Platform where
  hickory := timedHickory
  sha256 bytes :=
    if bytes = cycleJson ++ [10] ++ toLeBytes 4 3 ++ toLeBytes 16 (10 * second) ++ toLeBytes 8 1 ++ ascii "f" then
      [13, 112, 147, 227, 85, 255, 214, 37, 222, 244, 68, 207, 186, 230, 116, 85, 31, 14, 187, 173, 201, 180, 214, 13, 250,
        21, 2, 13, 7, 0, 175, 185]
    else [UInt8.ofNat bytes.length]
  overhead := 400

def cycleBase64 : Equiv.Perm Bytes :=
  (Equiv.swap [1, 97, 0] (ascii "AWEA")).trans (Equiv.swap (timedWire 50) cycleRecord.wire)

def plainNet (n : IpNet) : Text :=
  (if n.addr.isIpv4 then 4 else 6) :: (toBeBytes 16 n.addr.bits ++ toBeBytes 1 n.prefixLen)

def readPlainNet : Text → Option IpNet
  | [] => none
  | family :: rest =>
    let bits := ofBeBytes (rest.take 16)
    if h : bits < 2 ^ width (family == 4) then IpNet.new ⟨family == 4, bits, h⟩ (ofBeBytes (rest.drop 16)) else none

/-- The text codecs on the file; nothing else fits into a line or a header. -/
def cycleCodec : Codec where
  base64 := cycleBase64
  base64Decode text := some (cycleBase64.symm text)
  netText := plainNet
  parseNet := readPlainNet
  headerJson h := if h = cycleHeader then cycleHeaderJson else List.replicate HEADER_BYTES 0
  parseHeader bytes := if bytes = headerBlock cycleHeaderJson then some cycleHeader else none
  recordJson r := if r = cycleRecord then cycleJson else List.replicate MAX_RECORD_BYTES 0
  parseRecord bytes := if bytes = cycleJson ++ [10] then some cycleRecord else none

def cycleEvent : Event := { now := 0, op := .insert sampleQuery sampleResponse .noEcs 0 }

def cycleConfig : CacheConfig := { shards := 1, stale := { enabled := true } }

/-- Nothing else is written there. -/
theorem made_plain {query response scope origin now} (h : e.Made cyclePlatform c query response scope origin now) :
    response.Plain := by
  obtain ⟨answer, hprepared, _⟩ := h.made
  obtain ⟨stored, L, hprepare, _, _, hwire⟩ := prepare_ok hprepared
  obtain ⟨ttl, _, rfl, _⟩ := timedHickory_toVec hwire
  exact (prepareResponse_ok (q := e.question) hprepare).1.plain_iff.mp (timedSample_plain ttl)

end Parins.Cache
