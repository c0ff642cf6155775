/-
Garbage collection in every run of the store takes nothing that is referenced,
selected or pinned, and trims no more than it must, the oldest first.
-/
import Parins.Filters.Runs

namespace Parins.Filters
open Lib List
open Relation (ReflTransGen)

variable {lib : Library} {d d' : Files} {m m' : Store} {c c' : Catalog}

/-! ### Records that are held -/

theorem Commits.has {given R} {out : Except Error α} {r : SourceRecord} (h : Commits lib given R m d out m' d')
    (hagrees : d.catalog = some m.catalog) (hr : r ∈ m.catalog.records)
    (hheld : m'.catalog.referenced r.fingerprint = true ∨ 0 < d'.pins r.sha256) : m'.catalog.Keeps given r := by
  rcases h.result with ⟨_, hm, _⟩ | ⟨_, _, _, _, hcarries⟩
  · rw [hm]
    exact .inl (Catalog.has_of_mem hr)
  · exact hcarries _ hagrees r hr hheld

theorem Collects.has {now pressure} {r : SourceRecord} (h : Collects lib now pressure m d m' d')
    (hr : r ∈ m.catalog.records) (hheld : m'.catalog.referenced r.fingerprint = true ∨ 0 < d'.pins r.sha256) :
    r ∈ m'.catalog.records := by
  rcases h.result with ⟨hm, _⟩ | ⟨_, _, pins, hpins, _, hm⟩
  · rw [hm]
    exact hr
  · rw [hm] at hheld ⊢
    show r ∈ m.catalog.kept (fun hash => 0 < pins hash) now pressure
    refine Catalog.kept_mem hr (hheld.imp_right fun hpin => ?_)
    exact decide_eq_true (lt_of_lt_of_le hpin (hpins r.sha256))

theorem Collects.referenced {now pressure} (h : Collects lib now pressure m d m' d') (f) :
    m'.catalog.referenced f = m.catalog.referenced f := by
  rcases h.result with ⟨hm, _⟩ | ⟨_, _, _, _, _, hm⟩
  · rw [hm]
  · rw [hm]
    rfl

theorem Op.Posts.has {op : Op} {out} {r : SourceRecord} (h : op.Posts lib m d out m' d')
    (hagrees : d.catalog = some m.catalog) (hr : r ∈ m.catalog.records)
    (hheld : m'.catalog.referenced r.fingerprint = true ∨ 0 < d'.pins r.sha256) : m'.catalog.Keeps op.gives r := by
  cases op with
  | commitBatchWithCheck records statuses expected => exact Commits.has h hagrees hr hheld
  | setReferences current previous => exact Commits.has h hagrees hr hheld
  | updateStatus fingerprint status => exact Commits.has h hagrees hr hheld
  | collect now pressure => exact .inl (Catalog.has_of_mem (Collects.has h hr hheld))
  | collectForDownload now needsDownload =>
    obtain ⟨m1, d1, h1, ⟨h2, hpins⟩ | h2⟩ := h
    · refine .inl ?_
      rw [h2.memory] at hheld ⊢
      exact Catalog.has_of_mem (h1.has hr (hheld.imp_right fun hpin => lt_of_lt_of_le hpin (hpins r.sha256)))
    · refine .inl (Catalog.has_of_mem (h2.has (h1.has hr ?_) hheld))
      refine hheld.imp (fun href => ?_) fun hpin => lt_of_lt_of_le hpin (h2.pins r.sha256)
      rw [← h2.referenced]
      exact href
  | _ =>
    rw [Stays.memory h]
    exact .inl (Catalog.has_of_mem hr)

/-- Garbage collection in every run of an open store. -/
theorem collection_safe (lib : Library) (maxDisk : Nat) (s0 s : System) (hopen : s0.Opened lib maxDisk)
    (hrun : ReflTransGen (System.Step lib) s0 s) :
    (∀ op : Op, (op.program lib s.store).Safe effect (Guards lib op.gives) (fun _ _ => True) s.files) ∧
    (∀ (op : Op) (out : Except Error Unit) (s' : System), op.Returns lib s out s' → ∀ r ∈ s.store.catalog.records,
      s'.store.catalog.referenced r.fingerprint = true ∨ 0 < s'.files.pins r.sha256 →
      s'.store.catalog.Keeps op.gives r) ∧
    (∀ c, Valid lib c → (c.records.map (·.fingerprint)).Nodup ∧ c.unreferenced.length ≤ 16) ∧
    ∀ (pinned : Text → Bool) (retain : List Text) (c c' : Catalog), (c.records.map (·.fingerprint)).Nodup →
      c.trimPrepared pinned retain = .ok c' → ∃ removed, Trimmed pinned retain c removed c' ∧
        removed.length = c.unreferenced.length - 16 ∧
        (∀ r ∈ removed, r ∈ c.records ∧ c.referenced r.fingerprint = false ∧ pinned r.sha256 = false ∧
          r.fingerprint ∉ retain) ∧
        ∀ r ∈ c.records, r ∈ c'.records ∨ r ∈ removed := by
  have ha : Agrees lib s.store s.files := (System.run_keeps hrun hopen.agrees).1
  refine ⟨fun op => (op.program_spec ha).mono fun _ _ _ _ => trivial, ?_, fun c hc => hc.facts, ?_⟩
  · intro op out s' hreturns r hr hheld
    exact (System.posts ha hreturns).has ha.catalog hr hheld
  · intro pinned retain c c' hd htrim
    obtain ⟨removed, htrimmed⟩ := Catalog.trimPrepared_ok htrim
    refine ⟨removed, htrimmed, htrimmed.length hd, fun r hr => Catalog.removable_mem.mp (htrimmed.removable r hr), ?_⟩
    intro r hr
    by_cases hgone : r.fingerprint ∈ removed.map (·.fingerprint)
    · obtain ⟨r', hr', heq⟩ := mem_map.mp hgone
      have hmem := (Catalog.removable_mem.mp (htrimmed.removable r' hr')).1
      rw [← Trimmed.distinct_eq hd hmem hr heq]
      exact .inr hr'
    · rw [htrimmed.eq]
      exact .inl (mem_filter.mpr ⟨hr, by simpa using hgone⟩)

/-- The second source's object is pinned; a day later the others that nothing references go. -/
theorem collection_safe_sample :
    sampleSystem.Opened sampleLibrary 1000000 ∧
    ∃ s s', ReflTransGen (System.Step sampleLibrary) sampleSystem s ∧
      (Op.collect 100000 false).Returns sampleLibrary s (.ok ()) s' ∧
      s'.store.catalog.records = [sampleRecord 97 98, sampleRecord 99 99] ∧
      0 < s'.files.pins (sampleRecord 99 99).sha256 ∧ s'.store.catalog.Keeps [] (sampleRecord 99 99) := by
  let s := sampleSystem.after (.pin (sampleRecord 99 99).sha256)
  have hrun : ReflTransGen (System.Step sampleLibrary) sampleSystem s :=
    .single (.call _ (.ok ()) (System.after_returns (by decide +kernel)))
  have hreturns : (Op.collect 100000 false).Returns sampleLibrary s (.ok ()) (s.after (.collect 100000 false)) :=
    System.after_returns (by decide +kernel)
  have hpin : 0 < (s.after (.collect 100000 false)).files.pins (sampleRecord 99 99).sha256 := by decide +kernel
  have hsafe := collection_safe sampleLibrary 1000000 sampleSystem s sampleSystem_opened hrun
  exact ⟨sampleSystem_opened, s, _, hrun, hreturns, by decide +kernel, hpin,
    hsafe.2.1 _ _ _ hreturns _ (by decide +kernel) (.inr hpin)⟩

end Parins.Filters
