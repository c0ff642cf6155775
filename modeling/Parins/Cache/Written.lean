/-
A written snapshot read back. The writer's file is its header block and its lines,
and a reader finds the same lines in it; a record decodes to the key, the scope and
the aged message of the entry it was made of, and is admitted for exactly the
seconds that entry had left.
-/
import Parins.Cache.Answers

namespace Parins.Cache
open Net Lib List

variable {P : Platform} {C : Codec} {config : CacheConfig} {rules : List Rule} {c c' : Cache} {e : Entry}
variable {m : Message} {now : Nat}

/-- What is taken for granted of the codecs of a snapshot: each reads back what it wrote, and the
JSON of a record is one line. -/
structure Faithful (P : Platform) (C : Codec) : Prop extends FaithfulWire P.hickory where
  base64 : ∀ bytes, C.base64Decode (C.base64 bytes) = some bytes
  net : ∀ n, C.parseNet (C.netText n) = some n
  record : ∀ r, (C.recordJson r).length < MAX_RECORD_BYTES →
    C.parseRecord (C.recordJson r ++ [10]) = some r ∧ 10 ∉ C.recordJson r
  header : ∀ h, (C.headerJson h).length < HEADER_BYTES → C.parseHeader (headerBlock (C.headerJson h)) = some h

variable {k : Nat}

theorem forall₂_getElem? {α β : Type} {R} {l : List α} {l' : List β} {a b}
    (h : List.Forall₂ R l l') (ha : l[k]? = some a) (hb : l'[k]? = some b) : R a b := by
  obtain ⟨hk, rfl⟩ := List.getElem?_eq_some_iff.mp ha
  obtain ⟨hk', rfl⟩ := List.getElem?_eq_some_iff.mp hb
  exact (forall₂_iff_get.mp h).2 k hk hk'

/-! ## The lines of a file -/

def IsLine (line : Bytes) : Prop := ∃ body, line = body ++ [10] ∧ 10 ∉ body ∧ line.length ≤ MAX_RECORD_BYTES

variable {line : Bytes}

theorem readUntilNewline_line (h : IsLine line) (rest) :
    readUntilNewline (MAX_RECORD_BYTES + 1) (line ++ rest) = line := by
  obtain ⟨body, rfl, hbody, hlength⟩ := h
  have htake : (body ++ [10] ++ rest).take (MAX_RECORD_BYTES + 1) =
      body ++ 10 :: rest.take (MAX_RECORD_BYTES + 1 - (body ++ [10]).length) := by
    rw [take_append, take_of_length_le (by omega), append_assoc]
    rfl
  have hwhile : (body ++ 10 :: rest.take (MAX_RECORD_BYTES + 1 - (body ++ [10]).length)).takeWhile (· ≠ 10) = body := by
    rw [takeWhile_append_of_pos (by
      intro x hx
      simpa using fun h10 : x = 10 => hbody (h10 ▸ hx))]
    simp
  rw [readUntilNewline, htake]
  simp only [hwhile]
  rw [take_append, take_of_length_le (by omega), Nat.add_sub_cancel_left]
  rfl

variable {lines : List Bytes}

/-- **A reader finds the writer's lines.** -/
theorem fileLines_flatten (h : ∀ line ∈ lines, IsLine line) : fileLines lines.length lines.flatten = lines := by
  induction lines with
  | nil => rfl
  | cons line rest ih =>
    have hline := readUntilNewline_line (h line mem_cons_self) rest.flatten
    rw [length_cons, fileLines, flatten_cons, hline, drop_append, drop_of_length_le le_rfl,
      Nat.sub_self, drop_zero, nil_append, ih fun l hl => h l (mem_cons_of_mem line hl)]

variable {json : Bytes}

theorem length_headerBlock (h : json.length < HEADER_BYTES) : (headerBlock json).length = HEADER_BYTES := by
  simp only [headerBlock, length_append, length_replicate, length_singleton]
  omega

/-! ## What the writer saves -/

/-- A handle and the line it was written as. -/
structure Saves (P : Platform) (C : Codec) (now : Nat) (h : Handle) (line : Bytes) : Prop where
  left : 0 < remainingSecs h.entry now
  record : ∃ record, saveEntry P C h.entry now = .ok record ∧ line = C.recordJson record ++ [10] ∧
    line.length ≤ MAX_RECORD_BYTES

/-- What the writer's loop has done. -/
structure Written.Sound (P : Platform) (C : Codec) (now : Nat) (entries : List Handle) (w : Written) : Prop where
  saves : List.Forall₂ (Saves P C now) w.saved w.lines
  count : w.report.saved = w.lines.length
  limit : w.report.saved ≤ SNAPSHOT_MAX_RECORDS
  saved : w.saved.Sublist entries

variable {w w' : Written} {maxBytes : Nat} {h : Handle} {past : List Handle}

theorem writeEntry_sound
    (hw : w.Sound P C now past) (hok : writeEntry P C now maxBytes w h = .ok w') : w'.Sound P C now (past ++ [h]) := by
  have hskip : Written.Sound P C now (past ++ [h])
      { w with report := { w.report with skipped := w.report.skipped + 1 } } :=
    ⟨hw.saves, hw.count, hw.limit, hw.saved.trans (sublist_append_left past [h])⟩
  unfold writeEntry at hok
  dsimp only at hok
  split at hok
  · cases hok
    exact hskip
  next hgo =>
  obtain ⟨record, hrecord, hok⟩ := bind_eq_ok.mp hok
  split at hok
  · cases hok
    exact hskip
  next hfits =>
  cases hok
  rw [not_or] at hgo hfits
  refine ⟨?_, ?_, ?_, ?_⟩
  · exact rel_append hw.saves (.cons ⟨Nat.pos_of_ne_zero hgo.1, record, hrecord, rfl, by omega⟩ .nil)
  · have hcount := hw.count
    simp only [length_append, length_singleton]
    omega
  · dsimp only
    omega
  · exact hw.saved.append (List.Sublist.refl [h])

variable {stops : Stops}

theorem writeEntries_sound {position rest}
    (hw : w.Sound P C now past) (hok : writeEntries P C now maxBytes stops position rest w = .ok w') :
    w'.Sound P C now (past ++ rest) := by
  induction rest generalizing position w past with
  | nil =>
    cases hok
    rwa [append_nil]
  | cons h rest ih =>
    rw [writeEntries] at hok
    split at hok
    · cases hok
    split at hok
    · cases hok
      exact ⟨hw.saves, hw.count, hw.limit, hw.saved.trans (sublist_append_left past _)⟩
    obtain ⟨w1, h1, hok⟩ := bind_eq_ok.mp hok
    have := ih (writeEntry_sound hw h1) hok
    rwa [append_assoc] at this

def Written.header (P : Platform) (w : Written) (fingerprint : Text) (savedAtNs : Nat) : Header :=
  let header : Header := ⟨VERSION, fingerprint, savedAtNs, w.report.saved, []⟩
  { header with checksum := digest P.sha256 w.lines.flatten header }

variable {bytes : Bytes} {fingerprint : Text} {savedAt : Int}

/-- **A written file** is the header block and the lines of the entries it saved. -/
theorem writeCleanSnapshot_ok (h : writeCleanSnapshot P C c fingerprint savedAt now maxBytes stops = .ok (bytes, w)) :
    ∃ savedAtNs, timestamp savedAt = .ok savedAtNs ∧ w.Sound P C now (handles c) ∧
      (C.headerJson (w.header P fingerprint savedAtNs)).length < HEADER_BYTES ∧
      bytes = headerBlock (C.headerJson (w.header P fingerprint savedAtNs)) ++ w.lines.flatten := by
  obtain ⟨_, _, h⟩ := bind_eq_ok.mp h
  obtain ⟨w', hw, h⟩ := bind_eq_ok.mp h
  obtain ⟨savedAtNs, hsaved, h⟩ := bind_eq_ok.mp h
  obtain ⟨_, hsize, h⟩ := bind_eq_ok.mp h
  obtain ⟨_, _, h⟩ := bind_eq_ok.mp h
  cases h
  refine ⟨savedAtNs, hsaved, ?_, ?_, rfl⟩
  · have hempty : Written.Sound P C now [] {} := ⟨.nil, rfl, Nat.zero_le _, List.Sublist.refl []⟩
    exact writeEntries_sound hempty hw
  · unfold ensureThat at hsize
    split at hsize
    · next hlt => exact of_decide_eq_true hlt
    · cases hsize

theorem mem_handles (hmem : h ∈ handles c) :
    ∃ s, c.shards[h.shard]? = some s ∧ h.entry ∈ s.entries ∧ h.entry.failure = none := by
  simp only [handles, mem_mergeSort, mem_flatMap, Prod.exists, mem_zipIdx_iff_getElem?] at hmem
  obtain ⟨s, i, hs, part, _, hitem⟩ := hmem
  obtain ⟨item, hfiltered, rfl⟩ := mem_map.mp hitem
  obtain ⟨hlru, hfailure⟩ := mem_filter.mp hfiltered
  exact ⟨s, hs, mem_entries_of_lru hlru, Option.isNone_iff_eq_none.mp hfailure⟩

theorem Written.Sound.isLine (hC : Faithful P C) {entries}
    (hw : w.Sound P C now entries) : ∀ line ∈ w.lines, IsLine line := by
  intro line hline
  obtain ⟨k, hk⟩ := mem_iff_getElem?.mp hline
  have hlength := hw.saves.length_eq
  have hlt := (List.getElem?_eq_some_iff.mp hk).1
  obtain ⟨_, record, _, rfl, hsize⟩ := forall₂_getElem? hw.saves (List.getElem?_eq_getElem (by omega)) hk
  refine ⟨C.recordJson record, rfl, (hC.record record ?_).2, hsize⟩
  rw [length_append, length_singleton] at hsize
  omega

/-! ## The header read back -/

variable {call : RestoreCall} {offline : Nat}

theorem ensureThat_bind {b e} {f : Unit → Except SnapshotError α} {a : α} :
    (ensureThat b e >>= f) = .ok a ↔ b = true ∧ f () = .ok a := by
  cases b <;> simp [ensureThat, bind, Except.bind]

theorem orElse_bind {x : Option β} {e} {f : β → Except SnapshotError α} {a : α} :
    (orElse x e >>= f) = .ok a ↔ ∃ b, x = some b ∧ f b = .ok a := by
  cases x <;> simp [orElse, bind, Except.bind]

theorem checkHeader_ok {header : Header} (h : checkHeader C call bytes = .ok (header, offline)) :
    C.parseHeader (bytes.take HEADER_BYTES) = some header ∧
      ∃ nowNs, timestamp call.nowWall = .ok nowNs ∧ header.savedAtNs ≤ nowNs ∧
        offline = min ((nowNs - header.savedAtNs + (second - 1)) / second) (2 ^ 32 - 1) := by
  simp only [checkHeader, ensureThat_bind, orElse_bind, bind_eq_ok (x := timestamp _), Except.ok.injEq, Prod.mk.injEq,
    decide_eq_true_eq] at h
  obtain ⟨_, header', hparse, _, _, _, nowNs, hnow, hclock, rfl, rfl⟩ := h
  exact ⟨hparse, nowNs, hnow, hclock, rfl⟩

theorem written_parts (lines) (h : json.length < HEADER_BYTES) :
    (headerBlock json ++ lines).take HEADER_BYTES = headerBlock json ∧
      (headerBlock json ++ lines).drop HEADER_BYTES = lines := by
  have hlength := length_headerBlock h
  constructor
  · rw [← hlength, take_left]
  · rw [← hlength, drop_left]

/-! ## A record read back -/

/-- The query a key stands for in a snapshot. -/
def Key.query (key : Key) : SingleQuery :=
  SavedKey.query ⟨[], key.kind.code, key.dnsClass.code, key.dnssecOk, key.checkingDisabled, key.recursionDesired,
    key.edns⟩ key.name

theorem Key.of_query {key : Key} (hname : keyName key.name = key.name) (hclass : key.dnsClass = .IN)
    (hdo : key.dnssecOk = true → key.edns = true) : Key.of key.query = some key := by
  obtain ⟨name, kind, dnsClass, dnssecOk, checkingDisabled, recursionDesired, edns⟩ := key
  cases hclass
  have hplain : plainEdns (Key.query ⟨name, kind, .IN, dnssecOk, checkingDisabled, recursionDesired, edns⟩).message =
      true := by
    cases edns <;> simp [Key.query, SavedKey.query, plainEdns, Protocol.ednsWithin]
  rw [Key.of, if_neg (not_or.mpr ⟨fun h => h rfl, fun h => h hplain⟩)]
  simp only [Option.some.injEq, Key.mk.injEq]
  refine ⟨hname, rfl, rfl, ?_, rfl, rfl, ?_⟩
  · cases edns with
    | true => simp [Key.query, SavedKey.query]
    | false =>
      cases dnssecOk with
      | false => simp [Key.query, SavedKey.query]
      | true => cases hdo rfl
  · cases edns <;> simp [Key.query, SavedKey.query]

variable {record : SavedRecord}

theorem saveEntry_ok (hans : Protocol.decode P.hickory e.wire = some m) (h : saveEntry P C e now = .ok record) :
    ∃ nameBytes wire, P.hickory.nameBytes e.key.name = some nameBytes ∧
      P.hickory.toVec (ageRecords m (elapsedSecs e now)) = some wire ∧
      record = ⟨⟨C.base64 nameBytes, e.key.kind.code, e.key.dnsClass.code, e.key.dnssecOk, e.key.checkingDisabled,
        e.key.recursionDesired, e.key.edns⟩, .ofScope C e.scope, remainingSecs e now, C.base64 wire⟩ := by
  obtain ⟨m', hm, h⟩ := orElse_bind.mp h
  cases hans.symm.trans hm
  obtain ⟨nameBytes, hname, h⟩ := orElse_bind.mp h
  obtain ⟨wire, hwire, h⟩ := orElse_bind.mp h
  exact ⟨nameBytes, wire, hname, hwire, (Except.ok.inj h).symm⟩

theorem SavedScope.decode_ofScope (hC : Faithful P C) {scope scope'}
    (h : (SavedScope.ofScope C scope).decode C = .ok scope') : scope' = scope := by
  cases scope with
  | network n | exactSource n =>
    obtain ⟨n', hn, h⟩ := orElse_bind.mp h
    obtain ⟨_, h⟩ := ensureThat_bind.mp h
    cases (hC.net n).symm.trans hn
    exact (Except.ok.inj h).symm
  | noEcs =>
    cases h
    rfl
  | privacy ipv4 => cases ipv4 <;> (cases h; rfl)
  | learned ipv4 => cases ipv4 <;> (cases h; rfl)

variable {L : Nat}

/-- The decoding of a saved record: what is left to check once the codecs have read back what they
wrote. -/
theorem decode_saved (hC : Faithful P C) (hans : e.Answers P config rules m L)
    (h : saveEntry P C e now = .ok record) : record.remainingSecs = remainingSecs e now ∧ record.decode P C = (do
      ensureThat (decide (0 < remainingSecs e now) && decide (remainingSecs e now ≤ 2 ^ 31 - 1)) .remaining
      ensureThat (decide (record.wire.length ≤ (Protocol.MAX_MESSAGE + 2) / 3 * 4)) .wireTooLarge
      ensureThat (answersKey e.key.query (ageRecords m (elapsedSecs e now))) .questionMismatch
      let scope ← (SavedScope.ofScope C e.scope).decode C
      .ok (e.key.query, ageRecords m (elapsedSecs e now), scope)) := by
  obtain ⟨nameBytes, wire, hname, hwire, rfl⟩ := saveEntry_ok hans.decoded h
  refine ⟨rfl, ?_⟩
  have haged := ageRecords_aged m (elapsedSecs e now)
  have hread : Protocol.decode P.hickory wire = some (ageRecords m (elapsedSecs e now)) :=
    hC.decode (haged.plain_iff.mpr hans.plain) hans.lasting.edns
      (rejection_aged haged hans.lasting.edns hans.lasting.plain) hwire
  have hlower : e.key.name.toLowercase = e.key.name := by
    have hkey := hans.name
    have hfqdn : e.key.name.fqdn = true := by
      rw [← hkey]
      rfl
    rw [← hkey, keyName, ← hfqdn]
    exact toLowercase_idem e.key.name
  have hkey := Key.of_query hans.name hans.key.1 hans.key.2
  have hdo : (!e.key.dnssecOk || e.key.edns) = true := by
    cases hd : e.key.dnssecOk with
    | false => rfl
    | true => simp [hans.key.2 hd]
  have hquery : ∀ text, SavedKey.query ⟨text, e.key.kind.code, e.key.dnsClass.code, e.key.dnssecOk,
      e.key.checkingDisabled, e.key.recursionDesired, e.key.edns⟩ e.key.name = e.key.query := fun _ => rfl
  simp only [SavedRecord.decode, hC.base64, hC.name _ _ hans.name hname, hlower, hname, orElse, hdo, hquery, hkey, hread,
    ensureThat, beq_self_eq_true, Option.isSome_some, if_true, bind, Except.bind]

/-! ## A record restored -/

theorem ageRecords_ageRecords (m j k) : ageRecords (ageRecords m j) k = ageRecords m (j + k) := by
  simp only [ageRecords, Message.mapRecords, map_map, Function.comp_def, Nat.sub_sub]

theorem remaining_elapsed (hlifetime : e.lifetime = L * second) (hL : L ≤ 2 ^ 31 - 1)
    (hpos : 0 < remainingSecs e now) :
    remainingSecs e now + elapsedSecs e now = L ∧ e.age now ≤ elapsedSecs e now * second := by
  simp only [remainingSecs, elapsedSecs, hlifetime, second] at hpos ⊢
  omega

theorem policyFor_maxTtl (hvalid : config.validate = true) (key name) :
    (policyFor config (sortRules config.rules) key name).maxTtlSecs ≤ MAX_CACHE_TTL_SECS := by
  simp only [CacheConfig.validate, Bool.and_eq_true, decide_eq_true_eq, all_eq_true] at hvalid
  have hmax : config.maxTtlSecs ≤ MAX_CACHE_TTL_SECS := by omega
  simp only [policyFor]
  cases hfound : findRule (sortRules config.rules) key.kind name with
  | none => exact hmax
  | some r =>
    cases hr : r.config.maxTtlSecs with
    | none => simpa [hr] using hmax
    | some t =>
      have hmem : r ∈ sortRules config.rules := mem_of_find?_eq_some hfound
      simp only [sortRules, mem_mergeSort, mem_map, Prod.exists, mem_zipIdx_iff_getElem?] at hmem
      obtain ⟨rule, index, hrule, rfl⟩ := hmem
      have hvalidated := hvalid.2 rule (mem_of_getElem? hrule)
      simp only [CacheRule.validate, all_cons, Bool.and_eq_true] at hvalidated
      have hr : rule.maxTtlSecs = some t := hr
      rw [hr, Option.all_some, decide_eq_true_eq] at hvalidated
      simpa [hr] using hvalidated.1.2

/-- The entry `e` was restored from a record of `e0`, saved at `savedAt` and `offline` seconds old. -/
structure Entry.Revives (P : Platform) (config : CacheConfig) (rules : List Rule) (savedAt offline now : Nat)
    (e0 e : Entry) : Prop where
  inserted : e.inserted = now
  left : 0 < remainingSecs e0 savedAt - offline
  messages : ∃ m0 L m, e0.Answers P config rules m0 L ∧
    e.Answers P config rules m (remainingSecs e0 savedAt - offline) ∧
    remainingSecs e0 savedAt + elapsedSecs e0 savedAt = L ∧ e0.age savedAt ≤ elapsedSecs e0 savedAt * second ∧
    m0.Aged (elapsedSecs e0 savedAt + offline) m

/-- **A restored record** lives for the seconds it had left, less those it was offline. -/
theorem Loaded.revives (hC : Faithful P C) {records savedAt cells}
    (hloaded : Loaded P C call records offline lines c k e cells)
    (hline : lines[k]? = some line) (hsaves : Saves P C savedAt h line)
    (hans : h.entry.Answers P c.config c.rules m L) (hL : L ≤ 2 ^ 31 - 1) :
    h.entry.Revives P c.config c.rules savedAt offline call.now e := by
  obtain ⟨line', record', query, response, scope, answer, hline', hparse, hdecode, hleft, hkey, hprepared, he⟩ :=
    hloaded.record
  cases hline.symm.trans hline'
  obtain ⟨hpos, record, hsave, rfl, hsize⟩ := hsaves
  rw [length_append, length_singleton] at hsize
  cases hparse.symm.trans (hC.record record (by omega)).1
  obtain ⟨hremaining, hdecoded⟩ := decode_saved hC hans hsave
  rw [hremaining] at hleft
  -- What the record decodes to is the aged message of the entry.
  obtain ⟨rfl, rfl, rfl⟩ : query = h.entry.key.query ∧ response = ageRecords m (elapsedSecs h.entry savedAt) ∧
      scope = h.entry.scope := by
    rw [hdecoded] at hdecode
    simp only [bind_eq_ok] at hdecode
    obtain ⟨_, _, _, _, _, _, scope', hscope, heq⟩ := hdecode
    cases heq
    exact ⟨rfl, rfl, SavedScope.decode_ofScope hC hscope⟩
  have hekey : e.key = h.entry.key :=
    Option.some.inj (hkey.symm.trans (Key.of_query hans.name hans.key.1 hans.key.2))
  rw [hekey] at hprepared he
  obtain ⟨hL', hage⟩ := remaining_elapsed hans.lifetime hL hpos
  have hprepared : prepare P.hickory h.entry.key.query
      (ageRecords (ageRecords m (elapsedSecs h.entry savedAt)) offline)
      (policyFor c.config c.rules h.entry.key h.entry.key.name)
      (.restore ⟨record'.remainingSecs - offline, records - k⟩) = .ok answer := hprepared
  rw [ageRecords_ageRecords] at hprepared
  obtain ⟨stored, L0, hprepare, hlifetime, _, hwire⟩ := prepare_ok hprepared
  -- Preparing it again gives the message that is left of it.
  obtain ⟨_, hneg, hproof, _⟩ := prepareResponse_ok (q := h.entry.question) hprepare
  have hsame : answer.negative = h.entry.negative := by
    rw [hneg, hans.lasting.kind]
    exact isNegative_aged (ageRecords_aged m _) rfl
  have hq : h.entry.key.query.question = h.entry.question := rfl
  obtain ⟨stored', L1, hprepare', hL1, haged, hlasting⟩ := hans.lasting.prepare hq
    (show elapsedSecs h.entry savedAt + offline < L by omega) fun hn => hproof (hsame.trans hn)
  have heq := hprepare.symm.trans hprepare'
  simp only [Except.ok.injEq, Prod.mk.injEq] at heq
  obtain ⟨rfl, rfl, _⟩ := heq
  have hleft' : L - (elapsedSecs h.entry savedAt + offline) = remainingSecs h.entry savedAt - offline := by omega
  rw [hleft'] at hlasting
  have hanswer : answer.lifetime = remainingSecs h.entry savedAt - offline := by
    have hmin : answer.lifetime = min L0 (record'.remainingSecs - offline) := hlifetime
    rw [hmin, hremaining]
    omega
  refine ⟨he ▸ rfl, hleft, m, L, stored, hans, ?_, hL', hage, haged⟩
  rw [← hanswer] at hlasting ⊢
  refine .made hC.toFaithfulWire he hwire (haged.plain_iff.mpr hans.plain) ?_ ?_ ?_ ?_
  · rw [Entry.question, hekey, hsame]
    exact hlasting
  · rw [hekey]
    exact hans.name
  · rw [hekey]
    exact hans.key
  · rw [hekey]
    exact hans.allowed

theorem Entry.Answers.lifetime_le (h : e.Answers P config (sortRules config.rules) m L)
    (hvalid : config.validate = true) : L ≤ 2 ^ 31 - 1 := by
  have hmax := policyFor_maxTtl hvalid e.key e.key.name
  have := h.lasting.max
  unfold MAX_CACHE_TTL_SECS at hmax
  omega

/-- **A written file restored into a new cache.** Every entry there was restored from a saved
one. -/
theorem restored_revives (hC : Faithful P C) (hvalid : config.validate = true)
    (hanswers : ∀ i e, c.Holds i e → e.failure = none → ∃ m L, e.Answers P config (sortRules config.rules) m L)
    {savedNow i : Nat} {hasher cancelled outcome} {s : Shard}
    (hwrite : writeCleanSnapshot P C c fingerprint savedAt savedNow maxBytes stops = .ok (bytes, w))
    (hrestore : restoreCleanSnapshot P C (Cache.new hasher config) call cancelled bytes = some (c', outcome))
    (hs : c'.shards[i]? = some s) (he : e ∈ s.entries) : ∃ savedAtNs offline k h, timestamp savedAt = .ok savedAtNs ∧
      checkHeader C call bytes = .ok (w.header P fingerprint savedAtNs, offline) ∧
      e.FromLine P C bytes (w.header P fingerprint savedAtNs) k (s.cells e.id) ∧ w.saved[k]? = some h ∧
      c.Holds h.shard h.entry ∧ h.entry.Revives P config (sortRules config.rules) savedNow offline call.now e := by
  have hwf := new_wf hasher (validate_variants hvalid)
  obtain ⟨c1, outcome1, h1, hres⟩ := restore_spec P C call cancelled bytes hwf
  cases hrestore.symm.trans h1
  obtain ⟨savedAtNs, hsavedAt, hsound, hjson, rfl⟩ := writeCleanSnapshot_ok hwrite
  obtain ⟨htake, hdrop⟩ := written_parts w.lines.flatten hjson
  have hheader : ∀ header offline, checkHeader C call (headerBlock (C.headerJson (w.header P fingerprint savedAtNs)) ++
      w.lines.flatten) = .ok (header, offline) → header = w.header P fingerprint savedAtNs := by
    intro header offline hcheck
    obtain ⟨hparse, _⟩ := checkHeader_ok hcheck
    rw [htake, hC.header _ hjson] at hparse
    exact (Option.some.inj hparse).symm
  obtain ⟨placed, heach⟩ := hres.fills hwf
  cases hres with
  | untouched => exact absurd ⟨s, hs, he⟩ (new_holds hasher config i e)
  | rolledBack =>
    obtain ⟨s0, hs0, hfills⟩ := heach.of hs
    rcases hfills.entries e he with ⟨hold, _⟩ | ⟨_, ⟨_, hok⟩, _⟩
    · exact absurd ⟨s0, hs0, hold⟩ (new_holds hasher config i e)
    · cases hok
  | @loaded header offline lines _ report hcheck hlines hrestores =>
    obtain rfl := hheader header offline hcheck
    obtain ⟨placed, heach⟩ := hrestores.loaded (raiseClocks_wf hwf _) rfl
    obtain ⟨s0, hs0, hfills⟩ := heach.of hs
    rcases hfills.entries e he with ⟨hold, _⟩ | ⟨_, k, _, _, hloaded⟩
    · exact absurd ((raiseClocks_holds _ _).mp ⟨s0, hs0, hold⟩) (new_holds hasher config i e)
    have hfrom := hloaded.fromLine hlines
    obtain ⟨line, record, query, response, scope, answer, hline, _⟩ := hloaded.record
    have hcount : (w.header P fingerprint savedAtNs).records = w.lines.length := hsound.count
    have hfile : w.lines[k]? = some line := by
      obtain ⟨rest, hrest⟩ := hlines
      rw [hdrop, hcount, fileLines_flatten (hsound.isLine hC)] at hrest
      rw [← hrest, List.getElem?_append_left (List.getElem?_eq_some_iff.mp hline).1, hline]
    have hk := (List.getElem?_eq_some_iff.mp hfile).1
    have hlength := hsound.saves.length_eq
    obtain ⟨h, hh⟩ : ∃ h, w.saved[k]? = some h := ⟨_, List.getElem?_eq_getElem (by omega)⟩
    obtain ⟨s1, hs1, he1, hanswer⟩ := mem_handles (hsound.saved.mem (mem_of_getElem? hh))
    have hheld : c.Holds h.shard h.entry := ⟨s1, hs1, he1⟩
    obtain ⟨m, L, hans⟩ := hanswers h.shard h.entry hheld hanswer
    exact ⟨savedAtNs, offline, k, h, hsavedAt, hcheck, hfrom, hh, hheld,
      hloaded.revives hC hline (forall₂_getElem? hsound.saves hh hfile) hans (hans.lifetime_le hvalid)⟩

end Parins.Cache
