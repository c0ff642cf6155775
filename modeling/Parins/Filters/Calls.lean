/-
The calls on the store, one specification each: what an error leaves, what a
commit selects, and what a collection removes.
-/
import Parins.Filters.Guarded

namespace Parins.Filters
open Lib Function
open Lib.Exec (memory Sustains sustains_memory sustains_modify sustains_ofExcept sustains_attempt)

variable {lib : Library} {α β : Type} {d d' d1 d2 : Files} {m m' : Store} {c c' : Catalog} {given : List Text}

/-! ### Commits of a selection -/

/-- The candidate becomes the catalog; the revision goes on with the selection. -/
structure Selects (old candidate c : Catalog) : Prop where
  result : candidate.choices = old.choices ∧ c = candidate ∨
    candidate.choices ≠ old.choices ∧ c = { candidate with contentRevision := candidate.contentRevision + 1 }

theorem Catalog.bump_ok (h : c.bump = .ok c') : c' = { c with contentRevision := c.contentRevision + 1 } := by
  unfold bump at h
  split at h <;> cases h
  rfl

variable {candidate : Catalog} {checked : Bool}

theorem Selects.carries {old : Catalog} {pins files} (h : Selects old candidate c)
    (hcarries : candidate.Carries given pins files) : c.Carries given pins files := by
  rcases h.result with ⟨_, rfl⟩ | ⟨_, rfl⟩ <;> exact hcarries

theorem commitSelection_spec (hcarries : candidate.Carries given d.pins d.catalog) :
    Makes lib given (commitSelectionWithCheck lib candidate checked) (Commits lib given (Selects m.catalog candidate) m d)
      m d := by
  refine sustains_memory ?_
  refine sustains_ofExcept (fun c hc => ?_) fun _ _ => .failed (.refl d)
  have hselects : Selects m.catalog candidate c := by
    split at hc
    · rename_i hsame
      cases hc
      exact ⟨.inl ⟨Catalog.sameChoices_iff.mp hsame, rfl⟩⟩
    · rename_i hsame
      exact ⟨.inr ⟨fun heq => hsame (Catalog.sameChoices_iff.mpr heq), Catalog.bump_ok hc⟩⟩
  exact (commitCatalogWithCheck_spec (hselects.carries hcarries)).mono fun _ _ _ h => h.mono fun _ heq => heq ▸ hselects

variable {Q : Except Error β → Store → Files → Prop} {retain : List Text}

/-- The pins that a trim goes by are as many as there will be. -/
theorem trim_spec {f}
    (hok : ∀ c' d' removed, Rests d d' → Trimmed (fun hash => 0 < d'.pins hash) retain c removed c' →
      Makes lib given (f c') Q m d') (herr : ∀ e d', Rests d d' → Q (.error e) m d') :
    Makes lib given (trim retain c >>= f) Q m d := by
  have hspec : Makes lib given (trim retain c) (fun out m' d' => m' = m ∧ Rests d d' ∧
      ∀ c', out = .ok c' → ∃ removed, Trimmed (fun hash => 0 < d'.pins hash) retain c removed c') m d := by
    refine makes_look rfl (fun pins d1 h1 hpins => ?_) fun _ _ h => ⟨rfl, h.toRests, nofun⟩
    obtain ⟨_, hpins⟩ := hpins
    cases hpins
    exact ⟨rfl, h1.toRests, fun c' hc' => Catalog.trimPrepared_ok hc'⟩
  refine hspec.bind (fun c' m' d' h => ?_) fun e m' d' h => ?_
  · obtain ⟨rfl, hrests, htrim⟩ := h
    obtain ⟨removed, htrim⟩ := htrim c' rfl
    exact hok c' d' removed hrests htrim
  · obtain ⟨rfl, hrests, _⟩ := h
    exact herr e d' hrests

/-- A trimmed candidate is committed. -/
structure TrimSelects (old candidate : Catalog) (retain : List Text) (c : Catalog) : Prop where
  trimmed : ∃ pinned removed c1, Trimmed pinned retain candidate removed c1 ∧ Selects old c1 c

theorem commitTrimmed_spec (hd : Trimmed.Distinct candidate)
    (hkeeps : ∀ c0 ∈ d.catalog, ∀ r ∈ c0.records, candidate.Keeps retain r) (hretain : retain ⊆ given) :
    Makes lib given (do let c ← trim retain candidate; commitSelectionWithCheck lib c checked)
      (Commits lib given (TrimSelects m.catalog candidate retain) m d) m d := by
  refine trim_spec (fun c' d1 removed hrests htrim => ?_) fun _ _ h => .failed h
  have hcarries : c'.Carries given d1.pins d1.catalog := htrim.carries hd (hrests.catalog ▸ hkeeps) hretain
  refine (commitSelection_spec hcarries).mono fun out m' d' h => ?_
  exact (h.mono fun c hselects => ⟨_, removed, c', htrim, hselects⟩).after hrests

/-- What a successful batch commit has found and done. -/
structure BatchSelects (old : Catalog) (records : List SourceRecord) (statuses : List (Text × SourceStatus))
    (expectedRevision : Nat) (c : Catalog) : Prop where
  revision : old.contentRevision = expectedRevision
  distinct : (records.map (·.fingerprint)).Nodup
  selects : TrimSelects old (old.replace records statuses) (records.map (·.fingerprint)) c

theorem commitBatch_spec {records statuses expected} (hd : Trimmed.Distinct m.catalog)
    (hagrees : d.catalog = some m.catalog) :
    Makes lib (records.map (·.fingerprint)) (commitBatchWithCheck lib records statuses expected)
      (Commits lib (records.map (·.fingerprint)) (BatchSelects m.catalog records statuses expected) m d) m d := by
  refine makes_certain ?_ fun _ => .failed (.refl d)
  refine sustains_memory ?_
  refine makes_require (fun hrevision => ?_) fun _ => .failed (.refl d)
  refine makes_require (fun _ => ?_) fun _ => .failed (.refl d)
  refine (verifyCandidates_spec records []).bind (fun _ m1 d1 h1 => ?_) fun _ m1 d1 h1 => ?_
  swap
  · rw [h1.1.memory]
    exact .failed h1.1.files
  obtain ⟨⟨rfl, h1⟩, hdistinct⟩ := h1
  obtain ⟨hdistinct, _⟩ := hdistinct rfl
  refine makes_require (fun _ => ?_) fun _ => .failed h1
  refine (commitTrimmed_spec (Catalog.replace_distinct hd hdistinct) (fun c0 hc0 r hr => ?_) (List.Subset.refl _)).mono
    fun _ _ _ h => (h.mono fun c hc => ⟨by simpa using hrevision, hdistinct, hc⟩).after h1
  rw [h1.catalog, hagrees, Option.mem_some] at hc0
  exact Catalog.replace_keeps (hc0 ▸ hr)

theorem setReferences_spec {current previous} (hd : Trimmed.Distinct m.catalog) (hagrees : d.catalog = some m.catalog) :
    Makes lib given (setReferences lib current previous) (Commits lib given
      (TrimSelects m.catalog { m.catalog with current := current, previous := previous } []) m d) m d := by
  refine makes_certain ?_ fun _ => .failed (.refl d)
  refine sustains_ofExcept (fun _ _ => ?_) fun _ _ => .failed (.refl d)
  refine sustains_ofExcept (fun _ _ => ?_) fun _ _ => .failed (.refl d)
  refine sustains_memory (commitTrimmed_spec hd (fun c0 hc0 r hr => ?_) (List.nil_subset _))
  rw [hagrees, Option.mem_some] at hc0
  exact .inl (Catalog.has_of_mem (c := { m.catalog with current := current, previous := previous }) (hc0 ▸ hr))

theorem updateStatus_spec {fingerprint status} (hagrees : d.catalog = some m.catalog) :
    Makes lib given (updateStatus lib fingerprint status) (Commits lib given (· = { m.catalog with
      records := Catalog.setStatus fingerprint status m.catalog.records }) m d) m d := by
  refine makes_certain ?_ fun _ => .failed (.refl d)
  refine sustains_memory ?_
  split
  · refine commitCatalogWithCheck_spec fun c0 hc0 r hr _ => .inl ?_
    rw [hagrees, Option.mem_some] at hc0
    exact Catalog.has_of_pairs (hc0 ▸ hr) (Catalog.setStatus_pairs fingerprint status m.catalog.records)
  · exact Commits.failed (.refl d)

/-! ### Collections -/

structure Sweeps (m : Store) (d : Files) (m' : Store) (d' : Files) : Prop where
  memory : m' = m
  catalog : d'.catalog = d.catalog
  pins : ∀ key, d'.pins key ≤ d.pins key

variable {m1 m2 : Store}

namespace Sweeps

theorem refl (m d) : Sweeps m d m d := ⟨rfl, rfl, fun _ => le_refl _⟩

theorem rests (m) (h : Rests d d') : Sweeps m d m d' := ⟨rfl, h.catalog, h.pins⟩

theorem looks (h : Looks m d m' d') : Sweeps m d m' d' := ⟨h.memory, h.files.catalog, h.files.pins⟩

theorem trans (h1 : Sweeps m d m1 d1) (h2 : Sweeps m1 d1 m2 d2) : Sweeps m d m2 d2 :=
  ⟨h2.memory.trans h1.memory, h2.catalog.trans h1.catalog, fun key => (h2.pins key).trans (h1.pins key)⟩

end Sweeps

variable {name : Text} {dir : Dir}

theorem remove_spec (hobjects : dir = .objects → ∀ hash, d.Needs hash → name ≠ objectName hash)
    (hindexes : dir = .indexes → ∀ digest, 0 < d.pins (indexKey digest) → name ≠ indexName digest) :
    Makes lib given (call (.remove dir name) : Writer Unit) (fun _ m' d' => Sweeps m d m' d') m d := by
  refine Program.safe_ask fun r d' he => ?_
  obtain ⟨x, d1, hdrop, hx⟩ := effect_drops he
  change x.settle d1 (d1.put dir name none) = (r, d') at hx
  have hcontent : ∀ dir' name', (dir' = dir → name' ≠ name) →
      (d1.put dir name none).content dir' name' = d1.content dir' name' := by
    intro dir' name' hne
    unfold Files.put
    by_cases hdir : dir' = dir
    · subst hdir
      simp only [update_self]
      exact update_of_ne (hne rfl) _ _
    · simp only [update_of_ne hdir]
  have hguards : Guards lib given d (d1.put dir name none) := by
    refine ⟨fun hash hneeds hsome => ?_, fun digest hpin hsome => ?_, .inl hdrop.catalog⟩
    · rw [hcontent _ _ fun hdir heq => hobjects hdir.symm hash hneeds heq.symm, hdrop.objects]
      exact hsome
    · rw [hcontent _ _ fun hdir heq => hindexes hdir.symm digest hpin heq.symm, hdrop.indexes]
      exact hsome
  rcases x.settle_cases d1 (d1.put dir name none) with heq | heq <;> rw [hx] at heq <;> cases heq
  · exact ⟨hdrop.guards, .rests m hdrop.toRests⟩
  · exact ⟨hguards, rfl, hdrop.catalog, hdrop.pins⟩

variable {hash : Text}

theorem ownedName_eq {suffix} (h : ownedName suffix name = some hash) : name = hash ++ suffix := by
  unfold ownedName at h
  split at h
  · rename_i hcond
    cases h
    obtain ⟨rest, rfl⟩ := hcond.1
    simp
  · cases h

theorem Sweeps.restful : Restful (Sweeps m d) := fun h hd => h.trans (.rests _ hd)

theorem Sweeps.needs (h : Sweeps m d m' d') (hneeds : d'.Needs hash) : d.Needs hash := by
  rcases hneeds with ⟨c, r, hc, hr⟩ | hpin
  · exact .inl ⟨c, r, h.catalog ▸ hc, hr⟩
  · exact .inr (lt_of_lt_of_le hpin (h.pins hash))

theorem ownedObject_spec {content} :
    Makes lib given (ownedObject lib content hash) (fun _ m' d' => Looks m d m' d') m d := by
  unfold ownedObject
  split
  · exact hashFile_spec.bind (fun _ _ _ h => h) fun _ _ _ h => h
  · exact .refl m d

/-- A file is removed, and the loop goes on. -/
theorem sweeps_remove {owned : Bool} {p : Writer Unit} (h : Sweeps m d m d1)
    (hremove : Makes lib given (call (.remove dir name) : Writer Unit) (fun _ m' d' => Sweeps m d1 m' d') m d1)
    (hnext : ∀ {d'}, Sweeps m d m d' → Makes lib given p (fun _ m' d' => Sweeps m d m' d') m d') :
    Makes lib given (do doWhen owned (call (.remove dir name)); p) (fun _ m' d' => Sweeps m d m' d') m d1 := by
  have hwhen : Makes lib given (doWhen owned (call (.remove dir name))) (fun _ m' d' => Sweeps m d m' d') m d1 :=
    makes_doWhen (fun _ => hremove.mono fun _ _ _ h' => h.trans h') h
  refine hwhen.bind (fun _ m2 d2 h2 => ?_) fun _ _ _ h => h
  obtain rfl := h2.memory
  exact hnext h2

/-- The objects that are kept: what the catalog names, and what was pinned when the collection began. -/
theorem collectObjects_spec (keep entries) (hkeep : ∀ hash, d.Needs hash → keep hash = true) :
    Makes lib given (collectObjects lib keep entries) (fun _ m' d' => Sweeps m d m' d') m d := by
  induction entries generalizing m d with
  | nil => exact .refl m d
  | cons entry rest ih =>
    have hnext : ∀ {d'}, Sweeps m d m d' →
      Makes lib given (collectObjects lib keep rest) (fun _ m' d' => Sweeps m d m' d') m d' :=
      fun h => (ih fun hash hneeds => hkeep hash (h.needs hneeds)).mono fun _ _ _ h' => h.trans h'
    refine sustains_ofExcept (fun name _ => ?_) fun _ _ => .refl m d
    cases hname : ownedName (ascii ".txt") name with
    | none => exact hnext (.refl m d)
    | some hash =>
      simp only
      split
      · exact hnext (.refl m d)
      · rename_i hnot
        refine Sweeps.restful.call rfl (.refl m d) fun content d1 h1 => ?_
        cases content with
        | none => exact hnext h1
        | some content =>
          refine Sweeps.restful.call rfl h1 fun _ d2 h2 => ?_
          refine Sweeps.restful.looks ownedObject_spec h2 fun owned d3 h3 => ?_
          refine sweeps_remove h3 (remove_spec (fun _ hash' hneeds heq => ?_) fun hdir => by cases hdir) hnext
          -- the name is of an object that is not kept
          have hsame : hash = hash' := List.append_cancel_right ((ownedName_eq hname).symm.trans heq)
          exact hnot (hsame ▸ hkeep hash' (h3.needs hneeds))

theorem collectIndexes_spec (pins entries) (hpins : ∀ key, d.pins key ≤ pins key) :
    Makes lib given (collectIndexes pins entries) (fun _ m' d' => Sweeps m d m' d') m d := by
  induction entries generalizing m d with
  | nil => exact .refl m d
  | cons entry rest ih =>
    have hnext : ∀ {d'}, Sweeps m d m d' →
      Makes lib given (collectIndexes pins rest) (fun _ m' d' => Sweeps m d m' d') m d' :=
      fun h => (ih fun key => (h.pins key).trans (hpins key)).mono fun _ _ _ h' => h.trans h'
    refine sustains_ofExcept (fun name _ => ?_) fun _ _ => .refl m d
    cases hname : ownedName (ascii ".bin") name with
    | none => exact hnext (.refl m d)
    | some digest =>
      simp only
      split
      · exact hnext (.refl m d)
      · rename_i hnot
        refine Sweeps.restful.call rfl (.refl m d) fun content d1 h1 => ?_
        cases content with
        | none => exact hnext h1
        | some content =>
          refine Sweeps.restful.call rfl h1 fun _ d2 h2 => ?_
          refine sweeps_remove h2 (remove_spec (fun hdir => by cases hdir) fun _ digest' hpin heq => ?_) hnext
          have hsame : digest = digest' := List.append_cancel_right ((ownedName_eq hname).symm.trans heq)
          exact hnot (hsame ▸ lt_of_lt_of_le hpin ((h2.pins _).trans (hpins _)))

theorem collectOrphans_spec (hagrees : d.catalog = some m.catalog) :
    Makes lib given (collectOrphans lib) (fun _ m' d' => Sweeps m d m' d') m d := by
  refine makes_certain ?_ fun _ => .refl m d
  refine makes_look rfl (fun pins d1 h1 hpins => ?_) fun _ _ h => .rests m h.toRests
  obtain ⟨_, hpins⟩ := hpins
  cases hpins
  refine sustains_memory ?_
  -- from when the pins were read
  refine Sustains.mono (Q := fun _ m' d' => Sweeps m d1 m' d') ?_ fun _ _ _ h => (Sweeps.rests m h1.toRests).trans h
  refine Sweeps.restful.call rfl (.refl m d1) fun names d2 h2 => ?_
  refine (collectObjects_spec _ names fun hash hneeds => ?_).bind (fun _ m3 d3 h3 => ?_) fun _ _ _ h => h2.trans h
  · rw [Bool.or_eq_true]
    rcases h2.needs hneeds with ⟨c, r, hc, hr, hhash⟩ | hpin
    · left
      rw [h1.catalog, hagrees] at hc
      cases hc
      exact List.any_eq_true.mpr ⟨r, hr, by simpa using hhash⟩
    · right
      simpa using hpin
  refine Sweeps.restful.call rfl (h2.trans h3) fun _ d4 h4 => ?_
  refine Sweeps.restful.call rfl h4 fun names d5 h5 => ?_
  refine (collectIndexes_spec _ names h5.pins).bind (fun _ m6 d6 h6 => ?_) fun _ _ _ h => h5.trans h
  exact (call_spec rfl).mono fun _ _ _ h => (h5.trans h6).trans (.looks h)

/-- What a collection leaves of the catalog: all of it, or what was referenced, pinned or fresh. -/
structure Collects (lib : Library) (now : Nat) (pressure : Bool) (m : Store) (d : Files) (m' : Store) (d' : Files) :
    Prop where
  pins : ∀ key, d'.pins key ≤ d.pins key
  result : m'.catalog = m.catalog ∧ d'.catalog = d.catalog ∨
    d'.catalog = some m'.catalog ∧ Valid lib m'.catalog ∧ ∃ pins : Text → Nat, (∀ key, d'.pins key ≤ pins key) ∧
      (m.catalog.kept (fun hash => 0 < pins hash) now pressure).length ≠ m.catalog.records.length ∧
      m'.catalog = { m.catalog with
        records := m.catalog.kept (fun hash => 0 < pins hash) now pressure
        contentRevision := m.catalog.contentRevision + 1 }

variable {now : Nat} {pressure : Bool}

theorem Catalog.kept_mem {pinned} {r : SourceRecord} (hr : r ∈ c.records)
    (h : c.referenced r.fingerprint = true ∨ pinned r.sha256 = true) : r ∈ c.kept pinned now pressure := by
  refine List.mem_filter.mpr ⟨hr, ?_⟩
  rcases h with h | h <;> simp [h]

theorem Collects.agrees (h : Collects lib now pressure m d m' d')
    (hagrees : d.catalog = some m.catalog) : d'.catalog = some m'.catalog := by
  rcases h.result with ⟨hm, hd⟩ | ⟨hd, _⟩
  · rw [hd, hm]
    exact hagrees
  · exact hd

theorem Collects.sweep (h : Collects lib now pressure m d m1 d1)
    (hs : Sweeps m1 d1 m2 d2) : Collects lib now pressure m d m2 d2 := by
  obtain rfl := hs.memory
  refine ⟨fun key => (hs.pins key).trans (h.pins key), ?_⟩
  rcases h.result with ⟨hm, hd⟩ | ⟨hd, hvalid, pins, hpins, hrest⟩
  · exact .inl ⟨hm, hs.catalog.trans hd⟩
  · exact .inr ⟨hs.catalog.trans hd, hvalid, pins, fun key => (hs.pins key).trans (hpins key), hrest⟩

theorem collect_spec (hagrees : d.catalog = some m.catalog) :
    Makes lib given (collect lib now pressure) (fun _ m' d' => Collects lib now pressure m d m' d') m d := by
  have hsame : ∀ {d'}, Rests d d' → Collects lib now pressure m d m d' := fun h => ⟨h.pins, .inl ⟨rfl, h.catalog⟩⟩
  refine makes_certain ?_ fun _ => hsame (.refl d)
  refine makes_look rfl (fun used d1 h1 _ => ?_) fun _ _ h => hsame h.toRests
  refine makes_require (fun _ => ?_) fun _ => hsame h1.toRests
  refine makes_look rfl (fun pins d2 h2 hpins => ?_) fun _ _ h => hsame (h1.toRests.trans h.toRests)
  obtain ⟨_, hpins⟩ := hpins
  cases hpins
  have h2 := h1.toRests.trans h2.toRests
  refine sustains_memory ?_
  have hdrop : Makes lib given (dropRecords lib (m.catalog.kept (fun hash => 0 < d2.pins hash) now pressure))
      (fun _ m' d' => Collects lib now pressure m d m' d') m d2 := by
    refine sustains_memory ?_
    split
    · rename_i hlength
      refine sustains_ofExcept (fun candidate hbump => ?_) fun _ _ => hsame h2
      obtain rfl := Catalog.bump_ok hbump
      refine (commitCatalogWithCheck_spec fun c0 hc0 r hr hheld => ?_).mono fun _ m' d' h => ?_
      · rw [h2.catalog, hagrees, Option.mem_some] at hc0
        have hkept : r ∈ m.catalog.kept (fun hash => 0 < d2.pins hash) now pressure :=
          Catalog.kept_mem (hc0 ▸ hr) (hheld.imp_right decide_eq_true)
        exact .inl (Catalog.has_of_mem hkept)
      refine ⟨fun key => (h.holds.pins key).trans (h2.pins key), ?_⟩
      rcases h.result with ⟨_, hm, hd⟩ | ⟨_, hd, hvalid, hc, _⟩
      · exact .inl ⟨hm, hd.trans h2.catalog⟩
      · exact .inr ⟨hd, hvalid, d2.pins, h.holds.pins, by simpa using hlength, hc⟩
    · exact hsame h2
  refine hdrop.bind (fun outcome m3 d3 h3 => ?_) fun _ _ _ h => h
  cases outcome with
  | committedUncertain => exact h3
  | durable => exact (collectOrphans_spec (h3.agrees hagrees)).mono fun _ _ _ h => h3.sweep h

/-! ### The other calls -/

structure Stays (m : Store) (d : Files) (m' : Store) (d' : Files) : Prop where
  memory : m'.catalog = m.catalog
  catalog : d'.catalog = d.catalog

namespace Stays

theorem refl (m d) : Stays m d m d := ⟨rfl, rfl⟩

theorem rests (m) (h : Rests d d') : Stays m d m d' := ⟨rfl, h.catalog⟩

theorem looks (h : Looks m d m' d') : Stays m d m' d' := ⟨by rw [h.memory], h.files.catalog⟩

theorem sweeps (h : Sweeps m d m' d') : Stays m d m' d' := ⟨by rw [h.memory], h.catalog⟩

theorem trans (h1 : Stays m d m1 d1) (h2 : Stays m1 d1 m2 d2) : Stays m d m2 d2 :=
  ⟨h2.memory.trans h1.memory, h2.catalog.trans h1.catalog⟩

theorem agrees (h : Stays m d m' d') (hagrees : d.catalog = some m.catalog) : d'.catalog = some m'.catalog := by
  rw [h.catalog, h.memory]
  exact hagrees

end Stays

variable {reserveBytes : Nat}

theorem Stays.restful : Restful (Stays m d) := fun h hd => h.trans (.rests _ hd)

theorem hasStagingSpace_spec : Makes lib given (hasStagingSpace reserveBytes) (fun _ m' d' => Looks m d m' d') m d :=
  Looks.restful.call rfl (.refl m d) fun _ _ h => sustains_memory h

theorem beginReserved_spec {max kind} (hagrees : d.catalog = some m.catalog) :
    Makes lib given (beginReserved lib reserveBytes max kind) (fun _ m' d' => Stays m d m' d') m d := by
  refine makes_certain ?_ fun _ => .refl m d
  refine sustains_memory ?_
  refine makes_require (fun _ => ?_) fun _ => .refl m d
  refine makes_require (fun _ => ?_) fun _ => .refl m d
  refine (collectOrphans_spec hagrees).bind (fun _ m1 d1 h1 => ?_) fun _ _ _ h => .sweeps h
  have h1 := Stays.sweeps h1
  refine makes_certain ?_ fun _ => h1
  refine Stays.restful.looks hasStagingSpace_spec h1 fun _ d2 h2 => ?_
  refine makes_require (fun _ => ?_) fun _ => h2
  refine Stays.restful.call rfl h2 fun _ d3 h3 => ?_
  exact Stays.restful.call rfl h3 fun _ d4 h4 => sustains_modify (Stays.trans h4 ⟨rfl, rfl⟩)

variable {stage : Staging}

theorem release_spec : Makes lib given (release stage) (fun out m' d' => out = .ok () ∧ Stays m d m' d') m d := by
  refine (quietly_spec rfl).bind (fun _ m1 d1 h1 => ?_) fun _ _ _ h => by cases h.1
  obtain ⟨_, rfl, h1⟩ := h1
  exact ⟨rfl, rfl, h1.catalog⟩

theorem discard_spec : Makes lib given (discard stage) (fun _ m' d' => Stays m d m' d') m d :=
  makes_require (fun _ => release_spec.mono fun _ _ _ h => h.2) fun _ => .refl m d

theorem makes_moveTo {path target f}
    (hdir : dir = .objects ∨ dir = .indexes) (hok : ∀ d', Stays m d m d' → Makes lib given (f ()) Q m d')
    (herr : ∀ e d', Stays m d m d' → Q (.error e) m d') :
    Makes lib given (call (.moveTo path dir target) >>= f) Q m d := by
  refine Program.safe_ask fun r d' he => ?_
  obtain ⟨x, d1, hdrop, hx⟩ := effect_drops he
  simp only [performNow] at hx
  have hstays : Stays m d m d1 := .rests m hdrop.toRests
  split at hx
  · rename_i content hcontent
    let d2 := (d1.put .staging path none).put dir target (some content)
    have hkeeps : ∀ dir' name, dir' ≠ .staging → (d1.content dir' name).isSome = true →
      (d2.content dir' name).isSome = true := by
      intro dir' name hstaging hsome
      show ((Function.update (d1.put .staging path none).content dir
        (Function.update ((d1.put .staging path none).content dir) target (some content))) dir' name).isSome = true
      have hput : (d1.put .staging path none).content dir' = d1.content dir' := update_of_ne hstaging _ _
      by_cases heq : dir' = dir
      · subst heq
        rw [update_self]
        by_cases hname : name = target
        · rw [hname, update_self]
          rfl
        · rw [update_of_ne hname, hput]
          exact hsome
      · rw [update_of_ne heq, hput]
        exact hsome
    have hguards : Guards lib given d d2 := by
      refine ⟨fun hash _ hsome => ?_, fun digest _ hsome => ?_, .inl hdrop.catalog⟩
      · exact hkeeps _ _ (by decide) (by rw [hdrop.objects]; exact hsome)
      · exact hkeeps _ _ (by decide) (by rw [hdrop.indexes]; exact hsome)
    unfold Outcome.settle at hx
    split at hx <;> cases hx
    · exact ⟨hguards, hok d2 ⟨rfl, hdrop.catalog⟩⟩
    · exact ⟨hdrop.guards, herr _ _ hstays⟩
  · cases hx
    exact ⟨hdrop.guards, herr _ _ hstays⟩

theorem publishObject_spec : Makes lib given (publishObject stage hash) (fun _ m' d' => Stays m d m' d') m d := by
  refine makes_moveTo (.inl rfl) (fun d1 h1 => ?_) fun _ _ h => h
  refine Stays.restful.call rfl h1 fun _ d2 h2 => ?_
  exact (call_spec rfl).mono fun _ _ _ h => h2.trans (.looks h)

theorem installStaged_spec {record} :
    Makes lib given (installStaged lib stage record) (fun _ m' d' => Stays m d m' d') m d := by
  refine makes_certain ?_ fun _ => .refl m d
  refine Stays.restful.call rfl (.refl m d) fun heap d1 h1 => ?_
  refine sustains_ofExcept (fun _ _ => ?_) fun _ _ => h1
  refine makes_require (fun _ => ?_) fun _ => h1
  refine Stays.restful.call rfl h1 fun content d2 h2 => ?_
  refine Stays.restful.looks verifyFile_spec h2 fun _ d3 h3 => ?_
  refine Stays.restful.call rfl h3 fun staged d4 h4 => ?_
  cases staged with
  | none => exact h4
  | some staged =>
    refine Stays.restful.looks verifyFile_spec h4 fun _ d5 h5 => ?_
    refine Stays.restful.call rfl h5 fun _ d6 h6 => ?_
    refine Stays.restful.call rfl h6 fun object d7 h7 => ?_
    cases object with
    | none => exact publishObject_spec.mono fun _ _ _ h => h7.trans h
    | some object =>
      refine sustains_attempt verifyFile_spec fun result m8 d8 h8 => ?_
      have h8 := h7.trans (.looks h8)
      cases result with
      | ok _ => exact h8
      | error _ =>
        refine sustains_memory ?_
        refine makes_require (fun _ => ?_) fun _ => h8
        exact publishObject_spec.mono fun _ _ _ h => h8.trans h

theorem installObject_spec {metadata} :
    Makes lib given (installObject lib stage metadata now) (fun _ m' d' => Stays m d m' d') m d := by
  refine makes_require (fun _ => ?_) fun _ => .refl m d
  refine sustains_attempt installStaged_spec fun result m1 d1 h1 => ?_
  refine release_spec.bind (fun _ m2 d2 h2 => ?_) fun _ _ _ h => by cases h.1
  have h2 := h1.trans h2.2
  exact sustains_ofExcept (fun _ _ => h2) fun _ _ => h2

variable {digest : Text} {maxBytes : Nat}

theorem writeStaged_spec : Makes lib given (writeStaged stage digest maxBytes) (fun _ m' d' => Stays m d m' d') m d := by
  refine Stays.restful.call rfl (.refl m d) fun _ d1 h1 => ?_
  refine Stays.restful.call rfl h1 fun _ d2 h2 => ?_
  refine Stays.restful.call rfl h2 fun _ d3 h3 => ?_
  refine makes_require (fun _ => ?_) fun _ => h3
  refine Stays.restful.call rfl h3 fun _ d4 h4 => ?_
  refine Stays.restful.call rfl h4 fun _ d5 h5 => ?_
  refine makes_moveTo (.inr rfl) (fun d6 h6 => ?_) fun _ _ h => h5.trans h
  have h6 := h5.trans h6
  refine makes_attempt_look rfl fun first d7 h7 => ?_
  have h7 := Stays.restful h6 h7.toRests
  cases first with
  | error _ => exact h7
  | ok _ => exact makes_attempt_look rfl fun _ _ h8 => Stays.restful h7 h8.toRests

theorem writeIndex_spec (hagrees : d.catalog = some m.catalog) :
    Makes lib given (writeIndex lib digest maxBytes) (fun _ m' d' => Stays m d m' d') m d := by
  refine makes_require (fun _ => ?_) fun _ => .refl m d
  refine (beginReserved_spec hagrees).bind (fun stage m1 d1 h1 => ?_) fun _ _ _ h => h
  refine sustains_attempt writeStaged_spec fun result m2 d2 h2 => ?_
  refine release_spec.bind (fun _ m3 d3 h3 => ?_) fun _ _ _ h => by cases h.1
  exact (h1.trans h2).trans h3.2

theorem addPin_spec {key} : Makes lib given (call (.addPin key) : Writer Unit) (fun _ m' d' => Stays m d m' d') m d := by
  refine Program.safe_ask fun r d' he => ?_
  obtain ⟨x, d1, hdrop, hx⟩ := effect_drops he
  have hguards : ∀ {d2 : Files}, d2.content = d1.content → d2.catalog = d1.catalog →
      Guards lib given d d2 ∧ Stays m d m d2 := by
    intro d2 hcontent hcatalog
    refine ⟨⟨fun hash _ hsome => ?_, fun digest _ hsome => ?_, .inl (hcatalog.trans hdrop.catalog)⟩, rfl,
      hcatalog.trans hdrop.catalog⟩
    · rw [hcontent, hdrop.objects]
      exact hsome
    · rw [hcontent, hdrop.indexes]
      exact hsome
  simp only [performNow] at hx
  split at hx <;> cases hx <;> exact hguards rfl rfl

theorem pin_spec {sha256} : Makes lib given (pin lib sha256) (fun _ m' d' => Stays m d m' d') m d := by
  refine makes_require (fun _ => ?_) fun _ => .refl m d
  refine Stays.restful.call rfl (.refl m d) fun content d1 h1 => ?_
  cases content with
  | none => exact h1
  | some content =>
    refine Stays.restful.looks hashFile_spec h1 fun _ d2 h2 => ?_
    refine makes_require (fun _ => ?_) fun _ => h2
    exact addPin_spec.mono fun _ _ _ h => h2.trans h

theorem readIndex_spec : Makes lib given (readIndex digest maxBytes) (fun _ m' d' => Looks m d m' d') m d := by
  refine makes_require (fun _ => ?_) fun _ => .refl m d
  refine makes_require (fun _ => ?_) fun _ => .refl m d
  refine Looks.restful.call rfl (.refl m d) fun _ d1 h1 => ?_
  refine Looks.restful.call rfl h1 fun content d2 h2 => ?_
  cases content with
  | none => exact h2
  | some content =>
    refine Looks.restful.call rfl h2 fun _ d3 h3 => ?_
    refine makes_require (fun _ => ?_) fun _ => h3
    refine Looks.restful.call rfl h3 fun _ d4 h4 => ?_
    exact makes_require (fun _ => h4) fun _ => h4

theorem pinIndex_spec : Makes lib given (pinIndex digest) (fun _ m' d' => Stays m d m' d') m d := by
  refine readIndex_spec.bind (fun content m1 d1 h1 => ?_) fun _ _ _ h => .looks h
  cases content with
  | none => exact .looks h1
  | some _ => exact addPin_spec.mono fun _ _ _ h => (Stays.looks h1).trans h

theorem setQuota_spec {maxDisk} : Makes lib given (setQuota maxDisk) (fun _ m' d' => Stays m d m' d') m d := by
  refine Stays.restful.call rfl (.refl m d) fun _ d1 h1 => ?_
  exact makes_require (fun _ => ⟨h1.memory, h1.catalog⟩) fun _ => h1

theorem readCatalog_spec {M : Type} {n} :
    Makes lib given (readCatalog lib c : Exec Cmd Ans M Error Catalog) (fun out n' d' => n' = n ∧ Rests d d' ∧
      ∀ c', out = .ok c' → c' = c ∧ Valid lib c) n d := by
  refine sustains_ofExcept (fun _ _ => ?_) fun _ _ => ⟨rfl, .refl d, nofun⟩
  refine makes_look rfl (fun _ d1 h1 _ => ?_) fun _ _ h => ⟨rfl, h.toRests, nofun⟩
  refine makes_look rfl (fun heap d2 h2 _ => ?_) fun _ _ h => ⟨rfl, h1.toRests.trans h.toRests, nofun⟩
  have h2 := h1.toRests.trans h2.toRests
  refine sustains_ofExcept (fun _ hvalid => ?_) fun _ _ => ⟨rfl, h2, nofun⟩
  exact ⟨rfl, h2, fun c' hc' => by cases hc'; exact ⟨rfl, heap, hvalid⟩⟩

theorem openCatalog_ok {file} (h : ∃ x, (performNow x .openCatalog d).1 = .ok file) : file = d.catalog := by
  obtain ⟨x, hx⟩ := h
  change x.report d.catalog = .ok file at hx
  unfold Outcome.report at hx
  split at hx <;> cases hx
  rfl

theorem reconcileSync_spec (hagrees : d.catalog = some m.catalog) :
    Makes lib given (reconcileSync lib) (fun _ m' d' => Stays m d m' d') m d := by
  refine makes_look rfl (fun file d1 h1 hfile => ?_) fun _ _ h => .rests m h.toRests
  rw [openCatalog_ok hfile, h1.catalog, hagrees]
  refine readCatalog_spec.bind (fun c' m2 d2 h2 => ?_) fun _ m2 d2 h2 => ?_
  swap
  · rw [h2.1]
    exact .rests m (h1.toRests.trans h2.2.1)
  obtain ⟨rfl, h2, hc'⟩ := h2
  obtain ⟨rfl, _⟩ := hc' c' rfl
  have h2 := h1.toRests.trans h2
  refine makes_look rfl (fun _ d3 h3 _ => ?_) fun _ _ h => .rests m2 (h2.trans h.toRests)
  exact ⟨rfl, (h2.trans h3.toRests).catalog⟩

end Parins.Filters
