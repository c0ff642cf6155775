/-
What a restore leaves behind. It never takes out an entry that is still within
retention, whatever the file holds and wherever it stops; a failed one takes back
all it admitted. No counter moves, except that a refreshed entry which expired
unseen is counted when the restore prunes it.
-/
import Parins.Cache.Refreshes

namespace Parins.Cache
open Net Lib List

variable {P : Platform} {C : Codec} {config : CacheConfig} {c c' c'' : Cache} {s s' : Shard} {e x : Entry}
variable {l l' l'' : Locked} {maxVariants now i : Nat}

/-! ## Counters -/

theorem publish_quiet {stored : Stored} (hwf : l.shard.Wf maxVariants) (hrefreshed : stored.refreshed = false) (key)
    (charge now : Nat) : l.Quiet (l.publish key stored charge now) := by
  refine ⟨rfl, fun part => evictions_update _ _ _ _ rfl, rfl, congrArg (l.refreshUnused + ·) ?_⟩
  rw [publish_unseen hwf, hrefreshed]
  rfl

variable {d : StoreDecision} {r : Restore} {o : Offer}

theorem admitRestored_quiet {pinned}
    (hwf : l.shard.Wf config.maxVariants) (hmax : 0 < config.maxVariants) (horigin : o.origin = .restore r)
    (h : l.admitAnswer P config pinned o now = some (l', d)) : l.Quiet l' := by
  obtain ⟨l1, h1, hwf1, hless1⟩ := prune_spec pinned hwf o.key now
  have hquiet := removeAll_quiet _ hwf h1
  simp only [Locked.admitAnswer, h1, horigin, Origin.restoring, Origin.restore?, Option.isSome_some, bind, Option.bind,
    if_true] at h
  split at h
  · cases h
    exact hquiet
  next answer hans =>
  split at h
  · next hroom =>
    rw [(supersede_roomy P config pinned o now hwf1 hans hroom hmax).1] at h
    cases h
    refine hquiet.trans (publish_quiet hwf1 ?_ _ _ _)
    simp [Offer.stored, horigin, Origin.isRefresh]
  · cases h
    exact hquiet

structure Quiet (c c' : Cache) : Prop where
  shards : ∀ (i : Nat) (s : Shard), c.shards[i]? = some s → ∃ s' : Shard, c'.shards[i]? = some s' ∧
    s'.counts = s.counts ∧ ∀ part, (s'.partitions part).evictions = (s.partitions part).evictions
  bypasses : c'.bypasses = c.bypasses
  diagnostics : c'.diagnostics = c.diagnostics
  useful : c'.refreshUseful = c.refreshUseful
  unused : c'.refreshUnused + c'.unseen = c.refreshUnused + c.unseen

theorem Quiet.refl (c : Cache) : c.Quiet c := ⟨fun _ s hs => ⟨s, hs, rfl, fun _ => rfl⟩, rfl, rfl, rfl, rfl⟩

theorem Quiet.trans (h1 : c.Quiet c') (h2 : c'.Quiet c'') : c.Quiet c'' := by
  refine ⟨fun i s hs => ?_, h2.bypasses.trans h1.bypasses, h2.diagnostics.trans h1.diagnostics,
    h2.useful.trans h1.useful, h2.unused.trans h1.unused⟩
  obtain ⟨s1, hs1, hc1, he1⟩ := h1.shards i s hs
  obtain ⟨s2, hs2, hc2, he2⟩ := h2.shards i s1 hs1
  exact ⟨s2, hs2, hc2.trans hc1, fun part => (he2 part).trans (he1 part)⟩

theorem unlock_quiet (hs : c.shards[i]? = some s) (h : Locked.Quiet ⟨s, c.refreshUseful, c.refreshUnused⟩ l) :
    c.Quiet (c.unlock i l) := by
  refine ⟨(unlock_each (R := fun s s' => s'.counts = s.counts ∧
    ∀ part, (s'.partitions part).evictions = (s.partitions part).evictions) hs (fun _ => ⟨rfl, fun _ => rfl⟩)
    ⟨h.counts, h.evictions⟩).shards, rfl, rfl, h.useful, ?_⟩
  have hsum := sum_set (f := Shard.unseen) hs l.shard
  have := h.unused
  simp only [unseen, unlock] at hsum this ⊢
  omega

variable {pinned : Nat → Nat → Bool} {query : SingleQuery} {response : Message} {scope : Scope}

theorem admit_quiet (hwf : c.Wf)
    (h : c.admitAnswer P pinned query response scope now c.epoch (.restore r) = some (c', d)) : c.Quiet c' := by
  rcases admitAnswer_cases h with ⟨rfl, _⟩ | ⟨key, _, _, _, h⟩
  · exact .refl _
  obtain ⟨s, l', hs, hadmit, rfl⟩ := withShard_cases h
  simp only [ne_eq, not_true_eq_false, if_false] at hadmit
  exact unlock_quiet hs (admitRestored_quiet (hwf.shards _ _ hs) hwf.variants rfl hadmit)

theorem raiseClocks_quiet (c : Cache) (records) : c.Quiet (raiseClocks c records) := by
  refine ⟨fun i s hs => ⟨{ s with clock := max s.clock records }, ?_, rfl, fun _ => rfl⟩, rfl, rfl, rfl,
    by rw [raiseClocks_unseen]; rfl⟩
  rw [raiseClocks, List.getElem?_map, hs]
  rfl

variable {call : RestoreCall} {lines : List Bytes} {offline records n : Nat}

theorem Restoration.quiet {outcome bytes} (h : Restoration P C call bytes c c' outcome) (hwf : c.Wf) : c.Quiet c' := by
  refine h.path hwf .refl .trans (raiseClocks_quiet c) admit_quiet fun hwf hunload => ?_
  exact unload_path .refl .trans hwf (fun _ hs hwf h => unlock_quiet hs (removeAll_quiet _ hwf h)) hunload

/-! ## Entries and use stamps -/

/-- What a pass over the records did to a shard. -/
structure Shard.Fills (now : Nat) (new : Entry → Cells → Prop) (s s' : Shard) : Prop where
  clock : s.clock ≤ s'.clock
  stays : ∀ x ∈ s.entries, x.expired now = false → x ∈ s'.entries
  entries : ∀ x ∈ s'.entries, x ∈ s.entries ∧ s'.cells x.id = s.cells x.id ∨ s.clock < x.id ∧ new x (s'.cells x.id)

theorem Shard.Fills.refl (now new) (s : Shard) : s.Fills now new s :=
  ⟨le_rfl, fun _ hx _ => hx, fun _ hx => .inl ⟨hx, rfl⟩⟩

variable {new : Entry → Cells → Prop}

theorem Shard.Fills.trans {s''} (h1 : s.Fills now new s') (h2 : s'.Fills now new s'') : s.Fills now new s'' := by
  refine ⟨h1.clock.trans h2.clock, fun x hx he => h2.stays x (h1.stays x hx he) he, fun x hx => ?_⟩
  rcases h2.entries x hx with ⟨hx', hcells⟩ | ⟨hid, hnew⟩
  · rw [hcells]
    exact h1.entries x hx'
  · exact .inr ⟨by have := h1.clock; omega, hnew⟩

theorem Shard.Fills.mono {new'} (h : s.Fills now new s')
    (hnew : ∀ x cells, new x cells → new' x cells) : s.Fills now new' s' :=
  ⟨h.clock, h.stays, fun x hx => (h.entries x hx).imp_right fun ⟨hid, h⟩ => ⟨hid, hnew x _ h⟩⟩

theorem Shard.SameButStats.fills (h : s.SameButStats s') : s.Fills now new s' := by
  have hless := h.less
  exact ⟨hless.clock.ge, fun x hx _ => hless.mem_iff.mpr ⟨hx, rfl⟩,
    fun x hx => .inl ⟨(hless.mem_iff.mp hx).1, hless.cells x hx⟩⟩

/-- A record was offered: what entered, if anything, is the entry of the record with its stamp. -/
theorem Shard.Restored.fills (h : s.Restored P config o now r s') : ∃ new, s.Fills now (fun x cells =>
    new = some x ∧ cells = ⟨false, 0, r.accessed⟩ ∧
      ∃ answer, o.prepared = .ok answer ∧ x = o.entry P config answer now x.id) s' := by
  have hpruned : ∀ x : Entry, x.expired now = false → pruned o.key now x = false := fun x hx => by simp [pruned, hx]
  rcases h.outcome with hless | ⟨answer, hans, _, hmore⟩
  · refine ⟨none, hless.clock.ge, fun x hx hexp => hless.mem_iff.mpr ⟨hx, hpruned x hexp⟩, fun x hx => ?_⟩
    exact .inl ⟨(hless.mem_iff.mp hx).1, hless.cells x hx⟩
  · have hid : s.clock < (o.entry P config answer now (s.clock + 1)).id := Nat.lt_succ_self _
    refine ⟨some (o.entry P config answer now (s.clock + 1)), ?_, fun x hx hexp => ?_, fun x hx => ?_⟩
    · rw [hmore.clock]
      exact hid.le
    · exact hmore.mem_iff.mpr (.inr ⟨hx, hpruned x hexp⟩)
    · by_cases heq : x = o.entry P config answer now (s.clock + 1)
      · subst heq
        exact .inr ⟨hid, rfl, hmore.newCells, answer, hans, rfl⟩
      · exact .inl ⟨((hmore.mem_iff.mp hx).resolve_left heq).1, hmore.cells x hx heq⟩

theorem admit_fills (hwf : c.Wf)
    (h : c.admitAnswer P pinned query response scope now c.epoch (.restore r) = some (c', d)) :
    ∃ placed, c.Each c' fun i => Shard.Fills now fun x cells => placed = some (i, x) ∧ cells = ⟨false, 0, r.accessed⟩ ∧
      Key.of query = some x.key ∧ ∃ answer, (c.offer P query response scope (.restore r) x.key).prepared = .ok answer ∧
        x = (c.offer P query response scope (.restore r) x.key).entry P c.config answer now x.id := by
  cases (admits_of hwf h).2 with
  | refused heach => exact ⟨none, heach.mono fun i s s' _ hsame => hsame.fills⟩
  | answered _ _ horigin _ => cases horigin
  | @restored key r' hkey _ horigin heach =>
    cases horigin
    obtain ⟨s, hs⟩ := hwf.home key
    obtain ⟨s', hs', hr⟩ := heach.shards _ s hs
    rw [Only, if_pos rfl] at hr
    obtain ⟨new, hfills⟩ := hr.fills
    refine ⟨new.map fun e => (c.shardOf key, e), heach.frame, fun i s0 hs0 => ?_⟩
    obtain ⟨s0', hs0', hr0⟩ := heach.shards i s0 hs0
    refine ⟨s0', hs0', ?_⟩
    by_cases hi : i = c.shardOf key
    · subst hi
      cases hs.symm.trans hs0
      cases hs'.symm.trans hs0'
      refine hfills.mono fun x cells hfilled => ?_
      obtain ⟨hnew, hcells, answer, hans, hx⟩ := hfilled
      obtain rfl : x.key = key := congrArg Entry.key hx
      exact ⟨by rw [hnew]; rfl, hcells, hkey, answer, hans, hx⟩
    · rw [Only, if_neg hi] at hr0
      rw [hr0]
      exact .refl ..

theorem Frame.offer (h : c.Frame c') (query response scope origin key) :
    c'.offer P query response scope origin key = c.offer P query response scope origin key := by
  simp only [Cache.offer, h.policy, h.config]

/-- The entry is what the `n`-th line of a file became, and has the stamp of that line. -/
structure Loaded (P : Platform) (C : Codec) (call : RestoreCall) (records offline : Nat) (lines : List Bytes)
    (c : Cache) (n : Nat) (e : Entry) (cells : Cells) : Prop where
  stamp : cells = ⟨false, 0, records - n⟩
  record : ∃ line record query response scope answer, lines[n]? = some line ∧ C.parseRecord line = some record ∧
    record.decode P C = .ok (query, response, scope) ∧ 0 < record.remainingSecs - offline ∧
    Key.of query = some e.key ∧
    (c.offer P query (ageRecords response offline) scope
      (.restore ⟨record.remainingSecs - offline, records - n⟩) e.key).prepared = .ok answer ∧
    e = (c.offer P query (ageRecords response offline) scope
      (.restore ⟨record.remainingSecs - offline, records - n⟩) e.key).entry P c.config answer call.now e.id

theorem Each.trans {R R' Q} (h1 : c.Each c' R)
    (h2 : c'.Each c'' R') (h : ∀ i s s' s'', R i s s' → R' i s' s'' → Q i s s'') : c.Each c'' Q := by
  refine ⟨h1.frame.trans h2.frame, fun i s hs => ?_⟩
  obtain ⟨s', hs', hr⟩ := h1.shards i s hs
  obtain ⟨s'', hs'', hr'⟩ := h2.shards i s' hs'
  exact ⟨s'', hs'', h i s s' s'' hr hr'⟩

/-- **The second pass** adds at most one entry a line. -/
theorem Restores.loaded {all : List Bytes}
    (h : Restores P C call records offline n c lines c') (hwf : c.Wf) (hall : all.drop n = lines) :
    ∃ placed : Nat → Option (Nat × Entry), c.Each c' fun i => Shard.Fills call.now fun x cells =>
      ∃ k, n ≤ k ∧ placed k = some (i, x) ∧ Loaded P C call records offline all c k x cells := by
  induction h with
  | done => exact ⟨fun _ => none, .refl _, fun i s hs => ⟨s, hs, .refl _ _ s⟩⟩
  | @skip n c c' line lines _ _ _ _ _ _ ih =>
    have hrest : all.drop (n + 1) = lines := by rw [← drop_drop, hall, drop_one, tail_cons]
    obtain ⟨placed, heach⟩ := ih hwf hrest
    refine ⟨placed, heach.mono fun i s s' _ hf => hf.mono fun x cells hx => ?_⟩
    obtain ⟨k, hk, hx⟩ := hx
    exact ⟨k, by omega, hx⟩
  | @admitted n c c1 c' line lines record query response scope d hparse hdecode hpos hadmit _ ih =>
    have hrest : all.drop (n + 1) = lines := by rw [← drop_drop, hall, drop_one, tail_cons]
    have hline : all[n]? = some line := by
      have := congrArg (fun l : List Bytes => l[0]?) hall
      simpa using this
    have hwf1 := ((admits_of hwf hadmit).2.moves hwf).wf hwf
    obtain ⟨placed0, hfills⟩ := admit_fills hwf hadmit
    obtain ⟨placed, heach⟩ := ih hwf1 hrest
    refine ⟨fun k => if k = n then placed0 else placed k, Each.trans hfills heach fun i s s1 s' hf0 hf =>
      (hf0.mono fun x cells hx => ?_).trans (hf.mono fun x cells hx => ?_)⟩
    · obtain ⟨hplaced, hcells, hkey, answer, hans, hx⟩ := hx
      exact ⟨n, le_rfl, (if_pos rfl).trans hplaced, hcells, line, record, query, response, scope, answer, hline, hparse,
        hdecode, hpos, hkey, hans, hx⟩
    · obtain ⟨k, hk, hplaced, hloaded⟩ := hx
      refine ⟨k, by omega, (if_neg (by omega)).trans hplaced, hloaded.stamp, ?_⟩
      have hframe := hfills.frame
      have hrecord := hloaded.record
      simpa only [hframe.offer, hframe.config] using hrecord

/-- The clocks are raised to the record count before the pass. -/
theorem raised_fills (new) (h : Shard.Fills now new { s with clock := max s.clock n } s') : s.Fills now new s' := by
  have hclock : max s.clock n ≤ s'.clock := h.clock
  refine ⟨by omega, h.stays, fun x hx => (h.entries x hx).imp_right fun ⟨hid, hnew⟩ => ⟨?_, hnew⟩⟩
  have : max s.clock n < x.id := hid
  omega

/-- What a failed pass admitted is what is above the raised clocks. -/
theorem Shard.Fills.takenBack {gone} (hwf : s.Wf maxVariants)
    (h : s.Fills now new s') (hless : s'.Less s'' gone) (hgone : ∀ x, gone x = decide (s.clock < x.id)) :
    s.Fills now (fun _ _ => False) s'' := by
  refine ⟨hless.clock ▸ h.clock, fun x hx hexp => hless.mem_iff.mpr ⟨h.stays x hx hexp, ?_⟩, fun x hx => ?_⟩
  · have := hwf.clock x hx
    rw [hgone, decide_eq_false_iff_not]
    omega
  · obtain ⟨hx', hstays⟩ := hless.mem_iff.mp hx
    rw [hgone, decide_eq_false_iff_not] at hstays
    rw [hless.cells x hx]
    exact (h.entries x hx').imp_right fun ⟨hid, _⟩ => absurd hid hstays

/-- The entry comes from the `k`-th line of the file, and its stamp tells the position. -/
structure Entry.FromLine (P : Platform) (C : Codec) (bytes : Bytes) (header : Header) (k : Nat) (e : Entry)
    (cells : Cells) : Prop where
  position : k < header.records
  stamp : cells = ⟨false, 0, header.records - k⟩
  record : ∃ line record query response, (fileLines header.records (bytes.drop HEADER_BYTES))[k]? = some line ∧
    C.parseRecord line = some record ∧ record.decode P C = .ok (query, response, e.scope) ∧ Key.of query = some e.key

theorem length_fileLines (n rest) : (fileLines n rest).length = n := by
  induction n generalizing rest with
  | zero => rfl
  | succ n ih => rw [fileLines, length_cons, ih]

theorem Loaded.fromLine {header : Header} {k cells} (h : Loaded P C call header.records offline lines c k e cells)
    (hlines : lines <+: fileLines header.records (bytes.drop HEADER_BYTES)) : e.FromLine P C bytes header k cells := by
  obtain ⟨line, record, query, response, scope, answer, hline, hparse, hdecode, _, hkey, _, he⟩ := h.record
  have hfile : (fileLines header.records (bytes.drop HEADER_BYTES))[k]? = some line := by
    obtain ⟨rest, hrest⟩ := hlines
    rw [← hrest, List.getElem?_append_left (List.getElem?_eq_some_iff.mp hline).1, hline]
  have hk := (List.getElem?_eq_some_iff.mp hfile).1
  rw [length_fileLines] at hk
  have hscope : e.scope = scope := by
    rw [he]
    rfl
  exact ⟨hk, h.stamp, line, record, query, response, hfile, hparse, hscope ▸ hdecode, hkey⟩

/-- A restore that adds entries succeeds, and they are those of some lines of the file. -/
theorem Restoration.fills (h : Restoration P C call bytes c c' outcome) (hwf : c.Wf) :
    ∃ placed : Nat → Option (Nat × Entry), c.Each c' fun i s s' => s.Fills call.now (fun x cells =>
      (∃ report, outcome = .ok report) ∧ ∃ header offline k, checkHeader C call bytes = .ok (header, offline) ∧
        header.records ≤ s'.clock ∧ placed k = some (i, x) ∧ x.FromLine P C bytes header k cells) s' := by
  cases h with
  | untouched => exact ⟨fun _ => none, .refl _, fun i s hs => ⟨s, hs, .refl _ _ s⟩⟩
  | @loaded header offline lines _ report hheader hlines hres =>
    obtain ⟨placed, heach⟩ := hres.loaded (raiseClocks_wf hwf _) rfl
    refine ⟨placed, Each.trans (raiseClocks_each c header.records) heach ?_⟩
    rintro i s _ s' rfl hfills
    refine raised_fills _ (hfills.mono fun x cells ⟨k, _, hplaced, hloaded⟩ => ?_)
    have hclock : max s.clock header.records ≤ s'.clock := hfills.clock
    exact ⟨⟨report, rfl⟩, header, offline, k, hheader, by omega, hplaced, hloaded.fromLine hlines⟩
  | @rolledBack header offline lines c1 _ _ hheader hlines hres hunload =>
    have hwf0 := raiseClocks_wf hwf header.records
    obtain ⟨placed, heach⟩ := hres.loaded hwf0 rfl
    obtain ⟨c2, h2, _, hless⟩ := unload_spec call.pinnedAtEnd ((raiseClocks c header.records).shards.map Shard.clock)
      (hres.wf hwf0).1
    cases hunload.symm.trans h2
    have hback : (raiseClocks c header.records).Each c' fun i s s' => s.Fills call.now (fun _ _ => False) s' := by
      refine ⟨heach.frame.trans hless.frame, fun i s hs => ?_⟩
      obtain ⟨s1, hs1, hfills⟩ := heach.shards i s hs
      obtain ⟨s', hs', _, hless⟩ := hless.shards i s1 hs1
      refine ⟨s', hs', hfills.takenBack (hwf0.shards i s hs) hless fun x => ?_⟩
      rw [above, List.getElem?_map, hs]
      rfl
    refine ⟨placed, Each.trans (raiseClocks_each c header.records) hback ?_⟩
    rintro i s _ s' rfl hfills
    exact raised_fills _ (hfills.mono fun x cells h => h.elim)

/-! ## Later uses -/

variable {ev : Event} {later : List Event}

/-- The deadline passes while the file is authenticated. -/
def LateAuthenticating (C : Codec) (call : RestoreCall) (bytes : Bytes) : Prop :=
  ∃ header offline hashed k, checkHeader C call bytes = .ok (header, offline) ∧
    scanFrom call.authenticating bytes.length (fun (hashed : Bytes) line => some (hashed ++ line, none))
      header.records 0 HEADER_BYTES (bytes.drop HEADER_BYTES) [] = some (hashed, .ok (some k))

theorem LateAuthenticating.untouched {cancelled} (hlate : LateAuthenticating C call bytes)
    (h : restoreCleanSnapshot P C c call cancelled bytes = some (c', outcome)) : c' = c := by
  obtain ⟨header, offline, hashed, k, hheader, hscan⟩ := hlate
  unfold restoreCleanSnapshot at h
  split at h
  · cases h
    rfl
  · simp only [hheader, hscan] at h
    cases h
    rfl

/-- The record of the sample answer with so much of its lifetime left. -/
def savedSample (scope : SavedScope) (secs : Nat) (wire : String) : SavedRecord :=
  ⟨⟨ascii "AWEA", 1, 1, false, false, false, false⟩, scope, secs, ascii wire⟩

def savedJson (scope secs wire : String) : Bytes :=
  ascii "\x7b\"key\":\x7b\"name\":\"AWEA\",\"kind\":1,\"class\":1,\"dnssec_ok\":false,\"checking_disabled\":false,"
    ++ ascii "\"recursion_desired\":false,\"edns\":false\x7d,\"scope\":\x7b\"namespace\":\"" ++ ascii scope
    ++ ascii "\"\x7d,\"remaining_secs\":" ++ ascii secs ++ ascii ",\"wire\":\"" ++ ascii wire ++ ascii "\"\x7d"

def headerText (savedAt records checksum : String) : Bytes :=
  ascii "\x7b\"version\":3,\"fingerprint\":\"f\",\"saved_at_ns\":" ++ ascii savedAt ++ ascii ",\"records\":" ++
    ascii records
    ++ ascii ",\"checksum\":\"" ++ ascii checksum ++ ascii "\"\x7d"

end Parins.Cache
