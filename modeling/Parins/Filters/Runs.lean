/-
Every run of the store: two moments with one revision have one selection, a batch
selects what it was given, and an error changes nothing.
-/
import Parins.Filters.Calls
import Mathlib.Logic.Relation

namespace Parins.Filters
open Lib List
open Lib.Exec (memory within Sustains sustains_memory sustains_within sustains_ofExcept)
open Relation (ReflTransGen)

variable {lib : Library} {d d' d1 d2 : Files} {m m' : Store} {c c' : Catalog} {s s' : System} {given : List Text}

/-! ### Valid catalogs -/

theorem ensure_ok {cond text} (h : ensure cond text = .ok ()) : cond = true := by
  unfold ensure at h
  split at h
  · assumption
  · cases h

variable {records : List SourceRecord}

theorem validateRecordsFrom_ok {heap : Heap} {seen : List Text}
    (h : validateRecordsFrom lib heap seen records = .ok ()) :
    (records.map (·.fingerprint)).Nodup ∧ ∀ r ∈ records, r.fingerprint ∉ seen := by
  induction records generalizing seen with
  | nil => exact ⟨.nil, nofun⟩
  | cons record rest ih =>
    obtain ⟨_, _, h⟩ := bind_eq_ok.mp h
    obtain ⟨_, hseen, h⟩ := bind_eq_ok.mp h
    obtain ⟨hnodup, hrest⟩ := ih h
    refine ⟨nodup_cons.mpr ⟨fun hmem => ?_, hnodup⟩, fun r hr => ?_⟩
    · obtain ⟨r, hr, heq⟩ := mem_map.mp hmem
      exact hrest r hr (heq ▸ mem_cons_self)
    · rcases mem_cons.mp hr with rfl | hr
      · simpa using ensure_ok hseen
      · exact fun hmem => hrest r hr (mem_cons_of_mem _ hmem)

theorem Valid.facts (h : Valid lib c) : Trimmed.Distinct c ∧ c.unreferenced.length ≤ 16 := by
  obtain ⟨heap, h⟩ := h
  obtain ⟨_, hcounts, h⟩ := bind_eq_ok.mp h
  obtain ⟨_, hrecords, _⟩ := bind_eq_ok.mp h
  have hcounts := ensure_ok hcounts
  simp only [Bool.and_eq_true, decide_eq_true_eq] at hcounts
  exact ⟨(validateRecordsFrom_ok hrecords).1, hcounts.2⟩

/-! ### Opening -/

theorem cleanup_spec {dir kind} (hdir : dir = .staging ∨ dir = .root) (entries) :
    Makes lib given (cleanup dir kind entries) (fun _ m' d' => Looks m d m' d') m d := by
  induction entries generalizing m d with
  | nil => exact .refl m d
  | cons entry rest ih =>
    refine sustains_ofExcept (fun name _ => ?_) fun _ _ => .refl m d
    split
    · refine Looks.restful.call rfl (.refl m d) fun content d1 h1 => ?_
      cases content with
      | none => exact ih.mono fun _ _ _ h => h1.trans h
      | some _ =>
        refine Looks.restful.call (by rcases hdir with rfl | rfl <;> rfl) h1 fun _ d2 h2 => ?_
        exact ih.mono fun _ _ _ h => h2.trans h
    · exact ih

theorem cleanupStaging_spec : Makes lib given cleanupStaging (fun _ m' d' => Looks m d m' d') m d := by
  refine Looks.restful.call rfl (.refl m d) fun _ d1 h1 => ?_
  refine Looks.restful.looks (cleanup_spec (.inl rfl) _) h1 fun _ d2 h2 => ?_
  refine Looks.restful.call rfl h2 fun _ d3 h3 => ?_
  refine Looks.restful.looks (cleanup_spec (.inl rfl) _) h3 fun _ d4 h4 => ?_
  refine Looks.restful.call rfl h4 fun _ d5 h5 => ?_
  exact (cleanup_spec (.inr rfl) _).mono fun _ _ _ h => h5.trans h

structure Agrees (lib : Library) (m : Store) (d : Files) : Prop where
  catalog : d.catalog = some m.catalog
  valid : Valid lib m.catalog

theorem Agrees.restful : Restful (Agrees lib) := fun h hd => ⟨hd.catalog.trans h.catalog, h.valid⟩

variable {isNew : Bool}

theorem firstCommit_spec (h : isNew = false → Agrees lib m d) (hnew : isNew = true → d.catalog = none) :
    Makes lib given (firstCommit lib isNew) (fun out m' d' => ∀ o, out = .ok o → Agrees lib m' d') m d := by
  refine sustains_memory ?_
  cases isNew with
  | false => exact fun _ _ => h rfl
  | true =>
    refine (commitCatalogWithCheck_spec (by simp [Catalog.Carries, hnew])).mono fun out m' d' hc o hout => ?_
    rcases hc.result with ⟨⟨e, he⟩, _⟩ | ⟨_, hd, hvalid, _⟩
    · rw [hout] at he
      cases he
    · exact ⟨hd, hvalid⟩

theorem finishOpen_spec (h : isNew = false → Agrees lib m d) (hnew : isNew = true → d.catalog = none) :
    Makes lib given (finishOpen lib isNew) (fun out m' d' => out = .ok () → Agrees lib m' d') m d := by
  refine sustains_memory ?_
  refine (firstCommit_spec h hnew).bind (fun outcome m1 d1 h1 => ?_) nofun
  have h1 := h1 outcome rfl
  refine Sustains.mono ?_ fun _ _ _ h _ => h
  refine makes_require (fun _ => ?_) fun _ => h1
  refine Agrees.restful.call rfl h1 fun _ d2 h2 => ?_
  refine Agrees.restful.call rfl h2 fun _ d3 h3 => ?_
  refine Agrees.restful.call rfl h3 fun _ d4 h4 => ?_
  refine Agrees.restful.call rfl h4 fun _ d5 h5 => ?_
  refine makes_require (fun _ => ?_) fun _ => h5
  refine Agrees.restful.looks cleanupStaging_spec h5 fun _ d6 h6 => ?_
  refine Agrees.restful.call rfl h6 fun _ d7 h7 => ?_
  exact require_spec.mono fun _ m' d' heq => by rw [heq.1, heq.2]; exact h7

variable {maxDisk : Nat}

theorem openStore_spec :
    Makes lib [] (openStore lib maxDisk) (fun out _ d' => ∀ store, out = .ok store → Agrees lib store d') () d := by
  have hfinish : ∀ {store : Store} {d1 : Files} {isNew : Bool}, (isNew = false → Agrees lib store d1) →
      (isNew = true → d1.catalog = none) →
        Makes lib [] (within store (do finishOpen lib isNew; memory) : Exec Cmd Ans Unit Error Store)
        (fun out _ d' => ∀ store, out = .ok store → Agrees lib store d') () d1 := by
    intro store d1 isNew h hnew
    refine sustains_within ?_
    refine (finishOpen_spec h hnew).bind (fun _ m' d' h' => ?_) nofun
    intro store hstore
    cases hstore
    exact h' rfl
  refine makes_look rfl (fun _ d1 h1 _ => ?_) nofun
  refine makes_look rfl (fun _ d2 h2 _ => ?_) nofun
  refine makes_look rfl (fun file d3 h3 hfile => ?_) nofun
  have hfile := openCatalog_ok hfile
  cases file with
  | none =>
    refine makes_look rfl (fun _ d4 h4 _ => ?_) nofun
    exact hfinish nofun fun _ => h4.catalog.trans hfile.symm
  | some file =>
    refine readCatalog_spec.bind (fun catalog _ d4 h4 => ?_) nofun
    obtain ⟨_, h4, hcatalog⟩ := h4
    obtain ⟨rfl, hvalid⟩ := hcatalog catalog rfl
    exact hfinish (fun _ => ⟨h4.catalog.trans hfile.symm, hvalid⟩) nofun

/-! ### One call -/

/-- The sources that a call gives new records. -/
def Op.gives : Op → List Text
  | .commitBatchWithCheck records _ _ => records.map (·.fingerprint)
  | _ => []

/-- What a call may do to the catalog. -/
def Op.Posts (lib : Library) (op : Op) (m : Store) (d : Files) (out : Except Error Unit) (m' : Store) (d' : Files) :
    Prop :=
  match op with
  | .commitBatchWithCheck records statuses expected =>
    Commits lib op.gives (BatchSelects m.catalog records statuses expected) m d out m' d'
  | .setReferences current previous =>
    Commits lib op.gives (TrimSelects m.catalog { m.catalog with current := current, previous := previous } [])
      m d out m' d'
  | .updateStatus fingerprint status =>
    Commits lib op.gives (· = { m.catalog with records := Catalog.setStatus fingerprint status m.catalog.records }) m d
      out m' d'
  | .collect now pressure => Collects lib now pressure m d m' d'
  | .collectForDownload now _ => ∃ m1 d1, Collects lib now false m d m1 d1 ∧
    (Stays m1 d1 m' d' ∧ (∀ key, d'.pins key ≤ d1.pins key) ∨ Collects lib now true m1 d1 m' d')
  | _ => Stays m d m' d'

theorem Makes.ignore {p : Writer α} {Q}
    (h : Makes lib given p (fun out m' d' => Q (out.map fun _ => ()) m' d') m d) : Makes lib given (ignore p) Q m d :=
  h.bind (fun _ _ _ hQ => hQ) fun _ _ _ hQ => hQ

variable {R : Catalog → Prop}

theorem Commits.map {out : Except Error α} {f : α → β}
    (h : Commits lib given R m d out m' d') : Commits lib given R m d (out.map f) m' d' := by
  refine ⟨h.holds, ?_⟩
  rcases h.result with ⟨⟨e, rfl⟩, hrest⟩ | ⟨⟨a, rfl⟩, hrest⟩
  · exact .inl ⟨⟨e, rfl⟩, hrest⟩
  · exact .inr ⟨⟨f a, rfl⟩, hrest⟩

variable {needsDownload : Bool}

theorem shortOfSpace_spec : Makes lib given (shortOfSpace needsDownload) (fun _ m' d' => Looks m d m' d') m d := by
  unfold shortOfSpace
  split
  · exact hasStagingSpace_spec.bind (fun _ _ _ h => h) fun _ _ _ h => h
  · exact .refl m d

variable {now : Nat}

theorem collectForDownload_spec (hagrees : d.catalog = some m.catalog) :
    Makes lib given (collectForDownload lib now needsDownload)
      ((Op.collectForDownload now needsDownload).Posts lib m d) m d := by
  refine (collect_spec hagrees).bind (fun _ m1 d1 h1 => ?_) fun _ m' d' h =>
    ⟨m', d', h, .inl ⟨.refl m' d', fun _ => le_refl _⟩⟩
  refine shortOfSpace_spec.bind (fun short m2 d2 h2 => ?_) fun _ m' d' h =>
    ⟨m1, d1, h1, .inl ⟨.looks h, h.files.pins⟩⟩
  obtain ⟨rfl, h2⟩ := h2
  have hsweep : Collects lib now false m d m2 d2 := h1.sweep (.rests m2 h2)
  have hsecond : Makes lib given (doWhen short (collect lib now true))
      (fun _ m' d' => (Op.collectForDownload now needsDownload).Posts lib m d (.ok ()) m' d') m2 d2 := by
    refine makes_doWhen (fun _ => ?_) ⟨m2, d2, hsweep, .inl ⟨.refl m2 d2, fun _ => le_refl _⟩⟩
    exact (collect_spec (hsweep.agrees hagrees)).mono fun _ _ _ h => ⟨m2, d2, hsweep, .inr h⟩
  refine hsecond.bind (fun _ m3 d3 h3 => ?_) fun _ _ _ h => h
  exact sustains_memory (require_spec.mono fun _ m' d' h => by rw [h.1, h.2]; exact h3)

theorem Op.program_spec (op : Op) (ha : Agrees lib m d) :
    Makes lib op.gives (op.program lib) (op.Posts lib m d) m d := by
  have hagrees := ha.catalog
  have hd := ha.valid.facts.1
  cases op with
  | beginStaging reserveBytes => exact Makes.ignore (beginReserved_spec hagrees)
  | collectForDownload now needsDownload => exact collectForDownload_spec hagrees
  | installObject stage metadata now => exact Makes.ignore installObject_spec
  | commitBatchWithCheck records statuses expected =>
    exact Makes.ignore ((commitBatch_spec hd hagrees).mono fun _ _ _ h => h.map)
  | setReferences current previous => exact Makes.ignore ((setReferences_spec hd hagrees).mono fun _ _ _ h => h.map)
  | updateStatus fingerprint status => exact Makes.ignore ((updateStatus_spec hagrees).mono fun _ _ _ h => h.map)
  | discard stage => exact discard_spec
  | pin sha256 => exact pin_spec
  | pinIndex digest => exact pinIndex_spec
  | writeIndex digest maxBytes => exact Makes.ignore (writeIndex_spec hagrees)
  | reconcileSync => exact reconcileSync_spec hagrees
  | collect now pressure => exact collect_spec hagrees
  | setQuota maxDisk => exact setQuota_spec

/-! ### Revisions -/

/-- The revision goes on whenever the selection changes. -/
structure Grows (c c' : Catalog) : Prop where
  revision : c.contentRevision ≤ c'.contentRevision
  choices : c'.contentRevision = c.contentRevision → c'.choices = c.choices

theorem Grows.refl (c) : Grows c c := ⟨le_refl _, fun _ => rfl⟩

theorem Grows.trans {c1 c2} (h1 : Grows c c1) (h2 : Grows c1 c2) : Grows c c2 := by
  have hle1 := h1.revision
  have hle2 := h2.revision
  refine ⟨hle1.trans hle2, fun heq => ?_⟩
  rw [h2.choices (by omega), h1.choices (by omega)]

theorem TrimSelects.grows {candidate : Catalog} {retain}
    (h : TrimSelects c candidate retain c') (hrevision : candidate.contentRevision = c.contentRevision) : Grows c c' := by
  obtain ⟨_, removed, c1, htrim, hselects⟩ := h.trimmed
  have hc1 : c1.contentRevision = c.contentRevision := by
    rw [htrim.eq]
    exact hrevision
  rcases hselects.result with ⟨hsame, rfl⟩ | ⟨_, rfl⟩
  · exact ⟨hc1.ge, fun _ => hsame⟩
  · refine ⟨?_, fun heq => ?_⟩
    · show c.contentRevision ≤ c1.contentRevision + 1
      omega
    · change c1.contentRevision + 1 = c.contentRevision at heq
      omega

theorem Commits.grows {out : Except Error α} (h : Commits lib given R m d out m' d')
    (hR : ∀ c', R c' → Grows m.catalog c') : Grows m.catalog m'.catalog := by
  rcases h.result with ⟨_, hm, _⟩ | ⟨_, _, _, hr, _⟩
  · rw [hm]
    exact .refl _
  · exact hR _ hr

variable {pressure : Bool}

theorem Collects.grows (h : Collects lib now pressure m d m' d') : Grows m.catalog m'.catalog := by
  rcases h.result with ⟨hm, _⟩ | ⟨_, _, pins, _, _, hm⟩
  · rw [hm]
    exact .refl _
  · rw [hm]
    refine ⟨?_, fun heq => ?_⟩
    · show m.catalog.contentRevision ≤ m.catalog.contentRevision + 1
      omega
    · change m.catalog.contentRevision + 1 = m.catalog.contentRevision at heq
      omega

theorem Stays.grows (h : Stays m d m' d') : Grows m.catalog m'.catalog := by
  rw [h.memory]
  exact .refl _

variable {out : Except Error Unit} {op : Op}

theorem Op.Posts.grows (h : op.Posts lib m d out m' d') : Grows m.catalog m'.catalog := by
  cases op with
  | commitBatchWithCheck records statuses expected => exact Commits.grows h fun _ hr => hr.selects.grows rfl
  | setReferences current previous => exact Commits.grows h fun _ hr => hr.grows rfl
  | updateStatus fingerprint status =>
    refine Commits.grows h fun c' hr => ?_
    rw [hr]
    exact ⟨le_refl _, fun _ => Catalog.choices_congr (Catalog.setStatus_pairs fingerprint status m.catalog.records)⟩
  | collect now pressure => exact Collects.grows h
  | collectForDownload now needsDownload =>
    obtain ⟨m1, d1, h1, ⟨h2, _⟩ | h2⟩ := h
    · exact h1.grows.trans h2.grows
    · exact h1.grows.trans h2.grows
  | _ => exact Stays.grows h

/-! ### Agreement -/

theorem Stays.keeps (h : Stays m d m' d') (ha : Agrees lib m d) : Agrees lib m' d' :=
  ⟨h.agrees ha.catalog, by rw [h.memory]; exact ha.valid⟩

theorem Commits.keeps {out : Except Error α} (h : Commits lib given R m d out m' d')
    (ha : Agrees lib m d) : Agrees lib m' d' := by
  rcases h.result with ⟨_, hm, hd⟩ | ⟨_, hd, hvalid, _⟩
  · exact Stays.keeps ⟨hm, hd⟩ ha
  · exact ⟨hd, hvalid⟩

theorem Collects.keeps (h : Collects lib now pressure m d m' d') (ha : Agrees lib m d) : Agrees lib m' d' := by
  rcases h.result with ⟨hm, hd⟩ | ⟨hd, hvalid, _⟩
  · exact Stays.keeps ⟨hm, hd⟩ ha
  · exact ⟨hd, hvalid⟩

theorem Op.Posts.keeps (h : op.Posts lib m d out m' d') (ha : Agrees lib m d) : Agrees lib m' d' := by
  cases op with
  | commitBatchWithCheck records statuses expected => exact Commits.keeps h ha
  | setReferences current previous => exact Commits.keeps h ha
  | updateStatus fingerprint status => exact Commits.keeps h ha
  | collect now pressure => exact Collects.keeps h ha
  | collectForDownload now needsDownload =>
    obtain ⟨m1, d1, h1, ⟨h2, _⟩ | h2⟩ := h
    · exact h2.keeps (h1.keeps ha)
    · exact h2.keeps (h1.keeps ha)
  | _ => exact Stays.keeps h ha

namespace System

theorem Opened.agrees (h : s.Opened lib maxDisk) : Agrees lib s.store s.files := by
  obtain ⟨files, hreturns⟩ := h
  exact (Program.Bears.returns openStore_spec hreturns) s.store rfl

theorem posts (ha : Agrees lib s.store s.files) (h : op.Returns lib s out s') :
    op.Posts lib s.store s.files out s'.store s'.files :=
  Program.Bears.returns (op.program_spec ha) h

theorem Step.keeps (h : System.Step lib s s') (ha : Agrees lib s.store s.files) :
    Agrees lib s'.store s'.files ∧ Grows s.store.catalog s'.store.catalog := by
  cases h with
  | call op out returns => exact ⟨(posts ha returns).keeps ha, (posts ha returns).grows⟩
  | dropPin key => exact ⟨⟨ha.catalog, ha.valid⟩, .refl _⟩

theorem run_keeps (h : ReflTransGen (System.Step lib) s s') (ha : Agrees lib s.store s.files) :
    Agrees lib s'.store s'.files ∧ Grows s.store.catalog s'.store.catalog := by
  induction h with
  | refl => exact ⟨ha, .refl _⟩
  | tail _ hstep ih =>
    obtain ⟨ha', hgrows⟩ := hstep.keeps ih.1
    exact ⟨ha', ih.2.trans hgrows⟩

end System

/-! ### Transactions -/

/-- A commit that changed nothing but dropped records without a reference. -/
structure Drops (c c' : Catalog) : Prop where
  dropped : ∃ keep : SourceRecord → Bool, (∀ r ∈ c.records, keep r = false → c.referenced r.fingerprint = false) ∧
    c' = { c with records := c.records.filter keep, contentRevision := c.contentRevision + 1 }

/-- What a successful batch selects. -/
structure BatchChoices (c : Catalog) (records : List SourceRecord) (c' : Catalog) : Prop where
  given : ∀ r ∈ records, c'.choices r.fingerprint = some r.sha256
  others : ∃ trimmed : List Text, (∀ f ∈ trimmed, c.referenced f = false) ∧
    ∀ f, f ∉ records.map (·.fingerprint) → c'.choices f = if f ∈ trimmed then none else c.choices f

theorem choices_of_mem (hd : (records.map (·.fingerprint)).Nodup) {r : SourceRecord}
    (hr : r ∈ records) : ({ c with records := records } : Catalog).choices r.fingerprint = some r.sha256 := by
  unfold Catalog.choices
  cases hfind : records.reverse.find? fun r' => r'.fingerprint == r.fingerprint with
  | none => simpa using List.find?_eq_none.mp hfind r (mem_reverse.mpr hr)
  | some r' =>
    have hfp := List.find?_some hfind
    have hmem := mem_reverse.mp (mem_of_find?_eq_some hfind)
    have heq : r' = r := inj_on_of_nodup_map hd hmem hr (by simpa using hfp)
    show some r'.sha256 = _
    rw [heq]

theorem BatchSelects.batchChoices {statuses expected}
    (h : BatchSelects c records statuses expected c') : BatchChoices c records c' := by
  obtain ⟨_, removed, c1, htrim, hselects⟩ := h.selects.trimmed
  have hc' : c'.choices = c1.choices := by
    rcases hselects.result with ⟨_, rfl⟩ | ⟨_, rfl⟩
    · rfl
    · exact Catalog.choices_congr rfl
  have hremoved : ∀ f ∈ removed.map (·.fingerprint), f ∉ records.map (·.fingerprint) ∧ c.referenced f = false := by
    intro f hf
    obtain ⟨r, hr, rfl⟩ := mem_map.mp hf
    obtain ⟨_, href, _, hretain⟩ := Catalog.removable_mem.mp (htrim.removable r hr)
    exact ⟨hretain, href⟩
  refine ⟨fun r hr => ?_, removed.map (·.fingerprint), fun f hf => (hremoved f hf).2, fun f hf => ?_⟩
  · have hkept : r.fingerprint ∉ removed.map (·.fingerprint) :=
      fun hmem => (hremoved _ hmem).1 (mem_map.mpr ⟨r, hr, rfl⟩)
    rw [hc', htrim.choices, if_neg hkept, Catalog.choices_replace, choices_of_mem h.distinct hr]
    rfl
  · have hnone : ({ c with records := records } : Catalog).choices f = none :=
      Catalog.choices_none.mpr fun r hr heq => hf (mem_map.mpr ⟨r, hr, heq⟩)
    rw [hc', htrim.choices, Catalog.choices_replace, hnone]
    rfl

theorem Collects.drops (h : Collects lib now pressure m d m' d') :
    m'.catalog = m.catalog ∧ d'.catalog = d.catalog ∨ d'.catalog = some m'.catalog ∧ Drops m.catalog m'.catalog := by
  refine h.result.imp_right fun ⟨hd, _, pins, _, _, hm⟩ => ⟨hd, _, fun r _ hnot => ?_, hm⟩
  simp only [Bool.or_eq_false_iff] at hnot
  exact hnot.1.1

variable {e : Error}

theorem Commits.unchanged
    (h : Commits lib given R m d (.error e : Except Error α) m' d') : m'.catalog = m.catalog ∧ d'.catalog = d.catalog := by
  rcases h.result with ⟨_, hrest⟩ | ⟨⟨a, ha⟩, _⟩
  · exact hrest
  · cases ha

/-- An error leaves both catalogs, except that a collection may have committed before it failed. -/
theorem Op.Posts.unchanged (h : op.Posts lib m d (.error e) m' d')
    (hop : ∀ now needs, op ≠ .collectForDownload now needs) : m'.catalog = m.catalog ∧ d'.catalog = d.catalog ∨
      (∃ now pressure, op = .collect now pressure) ∧ d'.catalog = some m'.catalog ∧ Drops m.catalog m'.catalog := by
  cases op with
  | commitBatchWithCheck records statuses expected => exact .inl (Commits.unchanged h)
  | setReferences current previous => exact .inl (Commits.unchanged h)
  | updateStatus fingerprint status => exact .inl (Commits.unchanged h)
  | collect now pressure => exact (Collects.drops h).imp_right fun hdrops => ⟨⟨now, pressure, rfl⟩, hdrops⟩
  | collectForDownload now needs => exact absurd rfl (hop now needs)
  | _ => exact .inl ⟨Stays.memory h, Stays.catalog h⟩

/-- The transactions of every run of an open store. -/
theorem catalog_transactions (lib : Library) (maxDisk : Nat) (s0 s : System) (hopen : s0.Opened lib maxDisk)
    (hrun : ReflTransGen (System.Step lib) s0 s) :
    (∀ s', ReflTransGen (System.Step lib) s s' → s'.store.catalog.contentRevision = s.store.catalog.contentRevision →
      s'.store.catalog.choices = s.store.catalog.choices) ∧
    (∀ records statuses expected s', (Op.commitBatchWithCheck records statuses expected).Returns lib s (.ok ()) s' →
      s.store.catalog.contentRevision = expected ∧
      (∀ s1, ReflTransGen (System.Step lib) s0 s1 → ReflTransGen (System.Step lib) s1 s →
        s1.store.catalog.contentRevision = expected → s.store.catalog.choices = s1.store.catalog.choices) ∧
      BatchChoices s.store.catalog records s'.store.catalog) ∧
    (∀ (op : Op) (e : Error) (s' : System), (∀ now needs, op ≠ .collectForDownload now needs) →
      op.Returns lib s (.error e) s' →
      s'.store.catalog = s.store.catalog ∧ s'.files.catalog = s.files.catalog ∨
      (∃ now pressure, op = .collect now pressure) ∧ s'.files.catalog = some s'.store.catalog ∧
        Drops s.store.catalog s'.store.catalog) ∧
    ∀ (op : Op) (s' : System), op.Returns lib s (.ok ()) s' → s'.files.catalog = some s'.store.catalog := by
  have ha : Agrees lib s.store s.files := (System.run_keeps hrun hopen.agrees).1
  refine ⟨fun s' hrun' heq => (System.run_keeps hrun' ha).2.choices heq, ?_, ?_, ?_⟩
  · intro records statuses expected s' hreturns
    have hposts := System.posts ha hreturns
    rcases Commits.result hposts with ⟨⟨e, he⟩, _⟩ | ⟨_, _, _, hselects, _⟩
    · cases he
    · refine ⟨hselects.revision, fun s1 hfirst hrest heq => ?_, hselects.batchChoices⟩
      have ha1 := (System.run_keeps hfirst hopen.agrees).1
      exact (System.run_keeps hrest ha1).2.choices (hselects.revision.trans heq.symm)
  · intro op e s' hop hreturns
    exact (System.posts ha hreturns).unchanged hop
  · intro op s' hreturns
    exact ((System.posts ha hreturns).keeps ha).catalog

/-! ### A store with three sources -/

def sampleLibrary : Library where
  sha content := List.replicate 64 (content.headD 97)
  canonicalUrl := .ok
  headerValue _ := true
  httpDate _ := true
  jsonLength _ := 300

def sampleRecord (source content : UInt8) : SourceRecord where
  fingerprint := List.replicate 64 source
  sha256 := List.replicate 64 content
  bytes := 10
  rules := 1
  validators := ⟨ascii "https://example.test/list", REPRESENTATION, List.replicate 64 content, none, none⟩
  preparedAt := 100
  status := {}

/-- The configuration references the first source. -/
def sampleCatalog : Catalog where
  contentRevision := 1
  current := [List.replicate 64 97]
  records := [sampleRecord 97 98, sampleRecord 99 99, sampleRecord 100 100]

/-- Every object is there. -/
def sampleFiles : Files where
  catalog := some sampleCatalog
  temporary := none
  content dir name := if dir = .objects then some (List.replicate 10 (name.headD 97)) else none
  pins _ := 0

def sampleSystem : System where
  store := { catalog := sampleCatalog, quota := 1000000 }
  files := sampleFiles

def answerAll (x : Outcome) : Program Cmd (fun c => Except Error (Ans c)) α → Files → α × Files
  | .pure a, d => (a, d)
  | .ask c next, d => answerAll x (next (perform x c d).1) (perform x c d).2

theorem answerAll_returns (x) (p : Program Cmd (fun c => Except Error (Ans c)) α) (d) :
    p.Returns effect d (answerAll x p d).1 (answerAll x p d).2 := by
  induction p generalizing d with
  | pure a => exact ⟨rfl, rfl⟩
  | ask c next ih => exact ⟨_, _, ⟨x, rfl⟩, ih _ _⟩

theorem sampleSystem_opened : sampleSystem.Opened sampleLibrary 1000000 :=
  ⟨sampleFiles, answerAll_returns {} (openStore sampleLibrary 1000000 ()) sampleFiles⟩

/-- The sample after a call that nothing disturbs. -/
def System.after (s : System) (op : Op) : System :=
  let r := answerAll {} (op.program sampleLibrary s.store) s.files
  ⟨r.1.2, r.2⟩

theorem System.after_returns {op : Op} {out} (h : (answerAll {} (op.program sampleLibrary s.store) s.files).1.1 = out) :
    op.Returns sampleLibrary s out (s.after op) :=
  h ▸ answerAll_returns {} (op.program sampleLibrary s.store) s.files

/-- New content for the first source, for a client that saw this revision. -/
def sampleBatch (expected : Nat) : Op := .commitBatchWithCheck [sampleRecord 97 101] [] expected

theorem catalog_transactions_sample :
    sampleSystem.Opened sampleLibrary 1000000 ∧
    (∃ s', (sampleBatch 1).Returns sampleLibrary sampleSystem (.ok ()) s' ∧ s'.store.catalog.contentRevision = 2 ∧
      BatchChoices sampleCatalog [sampleRecord 97 101] s'.store.catalog ∧ s'.files.catalog = some s'.store.catalog) ∧
    ∃ s', (sampleBatch 7).Returns sampleLibrary sampleSystem (.error (ascii "subscription content revision conflict")) s' ∧
      s'.store.catalog = sampleCatalog ∧ s'.files.catalog = some sampleCatalog := by
  have htransactions := catalog_transactions sampleLibrary 1000000 sampleSystem sampleSystem sampleSystem_opened .refl
  have hok : (sampleBatch 1).Returns sampleLibrary sampleSystem (.ok ()) (sampleSystem.after (sampleBatch 1)) :=
    System.after_returns (by decide +kernel)
  have herr : (sampleBatch 7).Returns sampleLibrary sampleSystem (.error (ascii "subscription content revision conflict"))
      (sampleSystem.after (sampleBatch 7)) := System.after_returns (by decide +kernel)
  refine ⟨sampleSystem_opened, ⟨_, hok, by decide +kernel, (htransactions.2.1 _ _ _ _ hok).2.2,
    htransactions.2.2.2 _ _ hok⟩,
    _, herr, ?_⟩
  rcases htransactions.2.2.1 _ _ _ (by simp [sampleBatch]) herr with hsame | ⟨⟨now, pressure, hop⟩, _⟩
  · exact hsame
  · cases hop

end Parins.Filters
