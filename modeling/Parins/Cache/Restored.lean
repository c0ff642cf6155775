/-
What a restore of a snapshot does to a cache: nothing, or the admission of the
records of some first lines one after the other, taken back when a later one is
damaged.
-/
import Parins.Cache.Ops

namespace Parins.Cache
open Net Lib

variable {P : Platform} {C : Codec} {call : RestoreCall} {records offline n : Nat} {c c' c'' : Cache}

/-- The second pass over some lines, from position `n` on: each record decodes, and those with
time left are offered to the cache. -/
inductive Restores (P : Platform) (C : Codec) (call : RestoreCall) (records offline : Nat) :
    Nat → Cache → List Bytes → Cache → Prop where
  | done {n : Nat} {c : Cache} : Restores P C call records offline n c [] c
  | skip {n : Nat} {c c' : Cache} {line : Bytes} {lines : List Bytes} {record : SavedRecord}
      {decoded : SingleQuery × Message × Scope} :
      C.parseRecord line = some record → record.decode P C = .ok decoded → record.remainingSecs - offline = 0 →
      Restores P C call records offline (n + 1) c lines c' →
      Restores P C call records offline n c (line :: lines) c'
  | admitted {n : Nat} {c c1 c' : Cache} {line : Bytes} {lines : List Bytes} {record : SavedRecord}
      {query : SingleQuery} {response : Message} {scope : Scope} {d : StoreDecision} :
      C.parseRecord line = some record → record.decode P C = .ok (query, response, scope) →
      0 < record.remainingSecs - offline →
      c.admitAnswer P (call.pinned (n + 1)) query (ageRecords response offline) scope call.now c.epoch
        (.restore ⟨record.remainingSecs - offline, records - n⟩) = some (c1, d) →
      Restores P C call records offline (n + 1) c1 lines c' →
      Restores P C call records offline n c (line :: lines) c'

theorem Restores.keeps {I : Cache → Prop} {lines} (h : Restores P C call records offline n c lines c')
    (hI : I c) (hstep : ∀ {c c' : Cache} {pinned query response scope r d}, I c →
      c.admitAnswer P pinned query response scope call.now c.epoch (.restore r) = some (c', d) → I c') : I c' := by
  induction h with
  | done => exact hI
  | skip _ _ _ _ ih => exact ih hI
  | admitted _ _ _ hadmits _ ih => exact ih (hstep hI hadmits)

theorem admits_of {pinned query response scope now epoch origin d} (hwf : c.Wf)
    (h : c.admitAnswer P pinned query response scope now epoch origin = some (c', d)) :
    c'.epoch = c.epoch ∧ c.Admits P c' query response scope now epoch origin := by
  obtain ⟨c1, d1, h1, hepoch, hadmits⟩ := admits_spec P pinned query response scope now epoch origin hwf
  cases h.symm.trans h1
  exact ⟨hepoch, hadmits⟩

theorem Restores.wf {lines : List Bytes} (h : Restores P C call records offline n c lines c') (hwf : c.Wf) :
    c'.Wf ∧ c'.epoch = c.epoch ∧ c.Frame c' := by
  refine h.keeps (I := fun c' => c'.Wf ∧ c'.epoch = c.epoch ∧ c.Frame c') ⟨hwf, rfl, .refl c⟩ fun hI hadmits => ?_
  obtain ⟨hepoch, hadmits⟩ := admits_of hI.1 hadmits
  have hmoves := hadmits.moves hI.1
  exact ⟨hmoves.wf hI.1, hepoch.trans hI.2.1, hI.2.2.trans hmoves.frame⟩

theorem restoreRecord_spec {st : Restoring} (hwf : st.cache.Wf) (line) :
    ∃ st' failed, restoreRecord P C call records offline st line = some (st', failed) ∧
      st'.position = st.position + 1 ∧ st'.cache.Wf ∧
      (failed = none → ∀ lines c', Restores P C call records offline (st.position + 1) st'.cache lines c' →
        Restores P C call records offline st.position st.cache (line :: lines) c') ∧
      (failed ≠ none → st'.cache = st.cache) := by
  unfold restoreRecord
  dsimp only
  split
  · exact ⟨_, _, rfl, rfl, hwf, by simp, fun _ => rfl⟩
  next record hparse =>
  split
  · exact ⟨_, _, rfl, rfl, hwf, by simp, fun _ => rfl⟩
  next query response scope hdecode =>
  split
  · next hzero => exact ⟨_, _, rfl, rfl, hwf, fun _ lines c' h => .skip hparse hdecode hzero h, by simp⟩
  next hpos =>
  obtain ⟨c1, d, hc1, _, hadmits⟩ := admits_spec P (call.pinned (st.position + 1)) query (ageRecords response offline)
    scope call.now st.cache.epoch (.restore ⟨record.remainingSecs - offline, records - st.position⟩) hwf
  simp only [hc1, bind, Option.bind]
  have hwf1 := (hadmits.moves hwf).wf hwf
  split
  · exact ⟨_, _, rfl, rfl, hwf1, fun _ lines c' h => .admitted hparse hdecode (by omega) hc1 h, by simp⟩
  · exact ⟨_, _, rfl, rfl, hwf1, fun _ lines c' h => .admitted hparse hdecode (by omega) hc1 h, by simp⟩

/-- The lines `scan` reads one after the other. -/
def fileLines : Nat → Bytes → List Bytes
  | 0, _ => []
  | n + 1, rest =>
    let line := readUntilNewline (MAX_RECORD_BYTES + 1) rest
    line :: fileLines n (rest.drop line.length)

/-- The second pass has restored some first lines when it ends, wherever it ends. -/
theorem scanRecords_spec (stops length left processed consumed rest) {st : Restoring} (hwf : st.cache.Wf) :
    ∃ st' outcome lines, scanFrom stops length (restoreRecord P C call records offline) left processed consumed rest st
        = some (st', outcome) ∧ lines <+: fileLines left rest ∧
      Restores P C call records offline st.position st.cache lines st'.cache := by
  induction left generalizing processed consumed rest st with
  | zero => exact ⟨st, _, [], rfl, List.nil_prefix, .done⟩
  | succ left ih =>
    unfold scanFrom
    split
    · exact ⟨st, _, [], rfl, List.nil_prefix, .done⟩
    split
    · exact ⟨st, _, [], rfl, List.nil_prefix, .done⟩
    dsimp only
    split
    · exact ⟨st, _, [], rfl, List.nil_prefix, .done⟩
    obtain ⟨st1, failed, h1, hpos, hwf1, hok, hsame⟩ := @restoreRecord_spec P C call records offline st hwf
      (readUntilNewline (MAX_RECORD_BYTES + 1) rest)
    simp only [h1, bind, Option.bind]
    cases failed with
    | some e =>
      refine ⟨st1, _, [], rfl, List.nil_prefix, ?_⟩
      rw [hsame (by simp)]
      exact .done
    | none =>
      obtain ⟨st', outcome, lines, hscan, hfile, hres⟩ := ih (processed + 1) _ _ hwf1
      rw [hpos] at hres
      exact ⟨st', outcome, _ :: lines, hscan, (List.prefix_cons_inj _).mpr hfile, hok rfl lines _ hres⟩

/-! ## Clocks and the rollback -/

theorem raiseClocks_each (c : Cache) (records) :
    c.Each (raiseClocks c records) fun _ s s' => s' = { s with clock := max s.clock records } :=
  ⟨⟨rfl, rfl, rfl, List.length_map _⟩, fun i s hs => ⟨_, by rw [raiseClocks, List.getElem?_map, hs]; rfl, rfl⟩⟩

theorem alike_raised (s : Shard) (records) : s.Alike { s with clock := max s.clock records } :=
  ⟨rfl, fun _ => .refl _, fun _ => rfl, fun _ => rfl, fun _ => rfl, fun _ => rfl, Nat.le_max_left _ _, rfl, rfl⟩

theorem raiseClocks_wf (hwf : c.Wf) (records) : (raiseClocks c records).Wf :=
  (raiseClocks_each c records).wf hwf fun i s _ hs h => h ▸ (alike_raised s records).moves (hwf.shards i s hs)

/-- The entries of shard `i` above its floor. -/
def above (floors : List Nat) (i : Nat) (e : Entry) : Bool := floors[i]?.any fun floor => decide (floor < e.id)

theorem unload_spec (pinned floors) (hwf : c.Wf) :
    ∃ c', unload c pinned floors = some c' ∧ c'.epoch = c.epoch ∧ c.Each c' fun i s s' =>
      s'.Wf c.config.maxVariants ∧ s.Less s' (above floors i) := by
  refine forShards_spec fun i l hl => ?_
  cases hfloor : floors[i]? with
  | none =>
    refine ⟨l, rfl, hwf.shards i l.shard hl, ?_⟩
    exact (Shard.Less.refl _).congr (hwf.shards i l.shard hl) fun e _ => by simp [above, hfloor]
  | some floor =>
    obtain ⟨l', hl', hwf', hless⟩ := removeResident_spec (pinned i) (hwf.shards i l.shard hl)
      fun e => decide (floor < e.id)
    refine ⟨l', hl', hwf', hless.congr (hwf.shards i l.shard hl) fun e _ => ?_⟩
    simp [above, hfloor]

/-! ## Outcomes -/

/-- How a restore can end. -/
inductive Restoration (P : Platform) (C : Codec) (call : RestoreCall) (bytes : Bytes) (c : Cache) :
    Cache → Except SnapshotError SnapshotReport → Prop where
  /-- The file was refused, or its authentication was not finished. -/
  | untouched {outcome : Except SnapshotError SnapshotReport} : Restoration P C call bytes c c outcome
  /-- Records were admitted, until the last or until the deadline. -/
  | loaded {header : Header} {offline : Nat} {lines : List Bytes} {c' : Cache}
      {report : SnapshotReport} : checkHeader C call bytes = .ok (header, offline) →
      lines <+: fileLines header.records (bytes.drop HEADER_BYTES) →
      Restores P C call header.records offline 0 (raiseClocks c header.records) lines c' →
      Restoration P C call bytes c c' (.ok report)
  /-- A record was damaged, and what had been admitted went again. -/
  | rolledBack {header : Header} {offline : Nat} {lines : List Bytes} {c1 c' : Cache}
      {e : SnapshotError} : checkHeader C call bytes = .ok (header, offline) →
      lines <+: fileLines header.records (bytes.drop HEADER_BYTES) →
      Restores P C call header.records offline 0 (raiseClocks c header.records) lines c1 →
      unload c1 call.pinnedAtEnd ((raiseClocks c header.records).shards.map Shard.clock) = some c' →
      Restoration P C call bytes c c' (.error e)

theorem Restoration.wf {bytes outcome}
    (h : Restoration P C call bytes c c' outcome) (hwf : c.Wf) : c'.Wf ∧ c'.epoch = c.epoch ∧ c.Frame c' := by
  have hraised := fun n => (raiseClocks_each c n).frame
  cases h with
  | untouched => exact ⟨hwf, rfl, .refl c⟩
  | loaded _ _ hres =>
    obtain ⟨hwf1, hepoch1, hframe1⟩ := hres.wf (raiseClocks_wf hwf _)
    exact ⟨hwf1, hepoch1, (hraised _).trans hframe1⟩
  | rolledBack _ _ hres hunload =>
    obtain ⟨hwf1, hepoch1, hframe1⟩ := hres.wf (raiseClocks_wf hwf _)
    obtain ⟨c2, h2, hepoch2, heach⟩ := unload_spec _ _ hwf1
    cases hunload.symm.trans h2
    refine ⟨heach.wf hwf1 fun i s s' _ h => ?_, hepoch2.trans hepoch1, ((hraised _).trans hframe1).trans heach.frame⟩
    exact ⟨h.1, _, none, h.2.change, fun _ h => by cases h⟩

/-- What the raised clocks, every admission and taking back do, a restore does. -/
theorem Restoration.path {R : Cache → Cache → Prop} {bytes outcome} (h : Restoration P C call bytes c c' outcome)
    (hwf : c.Wf) (refl : ∀ c, R c c) (trans : ∀ {c c' c''}, R c c' → R c' c'' → R c c'')
    (raised : ∀ n, R c (raiseClocks c n))
    (admitted : ∀ {c c' pinned query response scope now r d}, c.Wf →
      c.admitAnswer P pinned query response scope now c.epoch (.restore r) = some (c', d) → R c c')
    (unloaded : ∀ {c c' pinned floors}, c.Wf → unload c pinned floors = some c' → R c c') : R c c' := by
  have hpass : ∀ {n lines c1 records offline}, Restores P C call records offline 0 (raiseClocks c n) lines c1 →
      c1.Wf ∧ R c c1 := fun hres => by
    refine hres.keeps (I := fun c1 => c1.Wf ∧ R c c1) ⟨raiseClocks_wf hwf _, raised _⟩ fun hI hadmits => ?_
    exact ⟨((admits_of hI.1 hadmits).2.moves hI.1).wf hI.1, trans hI.2 (admitted hI.1 hadmits)⟩
  cases h with
  | untouched => exact refl c
  | loaded _ _ hres => exact (hpass hres).2
  | rolledBack _ _ hres hunload => exact trans (hpass hres).2 (unloaded (hpass hres).1 hunload)

/-- **Restore.** It never fails on a cache in order. -/
theorem restore_spec (P C call cancelled bytes) (hwf : c.Wf) :
    ∃ c' outcome, restoreCleanSnapshot P C c call cancelled bytes = some (c', outcome) ∧
      Restoration P C call bytes c c' outcome := by
  -- The first pass only collects the lines.
  have hhash : ∀ (stops : Stops) (length left processed consumed : Nat) (rest hashed : Bytes), ∃ r,
      scanFrom stops length (fun (hashed : Bytes) line => some (hashed ++ line, none)) left processed consumed rest
        hashed = some r := by
    intro stops length left
    induction left with
    | zero => exact fun _ _ _ _ => ⟨_, rfl⟩
    | succ left ih =>
      intro processed consumed rest hashed
      unfold scanFrom
      split
      · exact ⟨_, rfl⟩
      split
      · exact ⟨_, rfl⟩
      dsimp only
      split
      · exact ⟨_, rfl⟩
      · exact ih _ _ _ _
  unfold restoreCleanSnapshot
  split
  · exact ⟨c, _, rfl, .untouched⟩
  split
  · exact ⟨c, _, rfl, .untouched⟩
  next header offline hheader =>
  dsimp only
  obtain ⟨⟨hashed, first⟩, hfirst⟩ := hhash call.authenticating bytes.length header.records 0 HEADER_BYTES
    (bytes.drop HEADER_BYTES) []
  rw [hfirst]
  cases first with
  | error e => exact ⟨c, _, rfl, .untouched⟩
  | ok late =>
    cases late with
    | some k => exact ⟨c, _, rfl, .untouched⟩
    | none =>
      dsimp only
      split
      · exact ⟨c, _, rfl, .untouched⟩
      have hwf0 := raiseClocks_wf hwf header.records
      obtain ⟨st, outcome, lines, hscan, hfile, hres⟩ := @scanRecords_spec P C call header.records offline call.admitting
        bytes.length header.records 0 HEADER_BYTES (bytes.drop HEADER_BYTES) ⟨raiseClocks c header.records, 0, 0, 0⟩ hwf0
      simp only [restoreRecords, hscan, bind, Option.bind]
      cases outcome with
      | error e =>
        obtain ⟨c2, h2, _, _⟩ := unload_spec call.pinnedAtEnd ((raiseClocks c header.records).shards.map Shard.clock)
          (hres.wf hwf0).1
        simp only [h2]
        exact ⟨c2, _, rfl, .rolledBack hheader hfile hres h2⟩
      | ok late =>
        cases late with
        | none => exact ⟨st.cache, _, rfl, .loaded hheader hfile hres⟩
        | some k => exact ⟨st.cache, _, rfl, .loaded hheader hfile hres⟩

end Parins.Cache
