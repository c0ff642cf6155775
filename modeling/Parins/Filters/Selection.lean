/-
What the operations on a catalog do to its selection: status changes leave it, a
replacement is exact, and trimming takes the oldest preparations that nothing
holds, one by one and no more than it must. What is referenced or pinned stays.
-/
import Parins.Filters.Catalog

namespace Parins.Filters
open List

variable {c c' : Catalog} {r : SourceRecord} {records : List SourceRecord} {pinned : Text → Bool} {retain : List Text}

/-! ### The selection -/

namespace Catalog

theorem choices_congr (h : c'.records.map (fun r => (r.fingerprint, r.sha256)) =
    c.records.map fun r => (r.fingerprint, r.sha256)) : c'.choices = c.choices := by
  funext fingerprint
  have hfind : ∀ rs : List SourceRecord, (rs.find? fun r => r.fingerprint == fingerprint).map (·.sha256) =
      ((rs.map fun r => (r.fingerprint, r.sha256)).find? fun p => p.1 == fingerprint).map (·.2) := by
    intro rs
    rw [List.find?_map, Option.map_map]
    rfl
  unfold choices
  rw [hfind, hfind, map_reverse, map_reverse, h]

variable {fingerprint : Text}

theorem choices_none : c.choices fingerprint = none ↔ ∀ r ∈ c.records, r.fingerprint ≠ fingerprint := by
  simp [choices]

theorem sameChoices_iff : c.sameChoices c' = true ↔ c.choices = c'.choices := by
  constructor
  · intro h
    funext fingerprint
    by_cases hmem : ∃ r ∈ c.records ++ c'.records, r.fingerprint = fingerprint
    · obtain ⟨r, hr, rfl⟩ := hmem
      simpa using all_eq_true.mp h r hr
    · have hnone : ∀ r ∈ c.records ++ c'.records, r.fingerprint ≠ fingerprint := fun r hr heq => hmem ⟨r, hr, heq⟩
      rw [choices_none.mpr fun r hr => hnone r (mem_append_left _ hr),
        choices_none.mpr fun r hr => hnone r (mem_append_right _ hr)]
  · intro h
    exact all_eq_true.mpr fun r _ => by simp [h]

theorem setStatus_pairs (fingerprint status) (rs : List SourceRecord) :
    (setStatus fingerprint status rs).map (fun r => (r.fingerprint, r.sha256)) =
      rs.map fun r => (r.fingerprint, r.sha256) := by
  induction rs with
  | nil => rfl
  | cons r rest ih =>
    unfold setStatus
    split
    · rfl
    · rw [map_cons, ih, map_cons]

theorem setStatuses_pairs (statuses : List (Text × SourceStatus)) (rs : List SourceRecord) :
    (statuses.foldl (fun rs s => setStatus s.1 s.2 rs) rs).map (fun r => (r.fingerprint, r.sha256)) =
      rs.map fun r => (r.fingerprint, r.sha256) := by
  induction statuses generalizing rs with
  | nil => rfl
  | cons s rest ih => rw [foldl_cons, ih, setStatus_pairs]

theorem choices_append {a b} : ({ c with records := a ++ b } : Catalog).choices fingerprint =
      (({ c with records := b } : Catalog).choices fingerprint).or
        (({ c with records := a } : Catalog).choices fingerprint) := by
  simp only [choices, reverse_append, List.find?_append, Option.map_or]

theorem choices_filter {p : Text → Bool} :
    ({ c with records := c.records.filter fun r => p r.fingerprint } : Catalog).choices fingerprint =
      if p fingerprint then c.choices fingerprint else none := by
  split
  · rename_i hp
    unfold choices
    rw [← filter_reverse, List.find?_filter]
    congr 2
    funext r
    by_cases heq : r.fingerprint = fingerprint
    · simp [heq, hp]
    · simp [heq]
  · rename_i hp
    refine choices_none.mpr fun r hr heq => ?_
    rw [mem_filter, heq] at hr
    exact hp hr.2

theorem choices_replace {statuses : List (Text × SourceStatus)} : (c.replace records statuses).choices fingerprint =
      (({ c with records := records } : Catalog).choices fingerprint).or (c.choices fingerprint) := by
  let kept := c.records.filter fun r => !(records.map (·.fingerprint)).contains r.fingerprint
  have hpairs : (c.replace records statuses).choices = ({ c with records := kept ++ records } : Catalog).choices :=
    choices_congr (setStatuses_pairs statuses (kept ++ records))
  rw [hpairs, choices_append]
  have hkept : ({ c with records := kept } : Catalog).choices fingerprint =
      if (!(records.map (·.fingerprint)).contains fingerprint) = true then c.choices fingerprint else none :=
    choices_filter (p := fun f => !(records.map (·.fingerprint)).contains f)
  rw [hkept]
  split
  · rfl
  · rename_i hgiven
    have hsome : ({ c with records := records } : Catalog).choices fingerprint ≠ none := by
      intro hnone
      refine hgiven ?_
      have := choices_none.mp hnone
      simpa using this
    obtain ⟨hash, hhash⟩ := Option.ne_none_iff_exists'.mp hsome
    rw [hhash]
    rfl

end Catalog

/-! ### Trimming -/

/-- The run of `trim_prepared`: while there are too many preparations, the oldest of those that may
go is removed. -/
inductive Trimmed (pinned : Text → Bool) (retain : List Text) : Catalog → List SourceRecord → Catalog → Prop
  | done {k : Catalog} (fits : k.unreferenced.length ≤ 16) : Trimmed pinned retain k [] k
  | evict {k k' : Catalog} {removed : List SourceRecord} (r : SourceRecord) (many : 16 < k.unreferenced.length)
      (mem : r ∈ k.removable pinned retain) (oldest : ∀ r' ∈ k.removable pinned retain, r.preparedAt ≤ r'.preparedAt)
      (rest : Trimmed pinned retain (k.without r.fingerprint) removed k') : Trimmed pinned retain k (r :: removed) k'

theorem Catalog.trimPrepared_ok (h : c.trimPrepared pinned retain = .ok c') :
    ∃ removed, Trimmed pinned retain c removed c' := by
  induction c using Catalog.trimPrepared.induct pinned retain with
  | case1 c many hnone =>
    rw [trimPrepared, if_pos many] at h
    split at h
    · cases h
    · rename_i r hr
      rw [hnone] at hr
      cases hr
  | case2 c many r hr ih =>
    rw [trimPrepared, if_pos many] at h
    split at h
    · cases h
    · rename_i r' hr'
      rw [hr] at hr'
      cases hr'
      obtain ⟨removed, hrest⟩ := ih h
      exact ⟨r :: removed, .evict r many (evict_mem hr) (fun r' hmem => le_of_mem_argmin hmem hr) hrest⟩
  | case3 c few =>
    rw [trimPrepared, if_neg few] at h
    cases h
    exact ⟨[], .done (by omega)⟩

namespace Trimmed

variable {removed : List SourceRecord}

theorem without_referenced (c : Catalog) (fingerprint f) : (c.without fingerprint).referenced f = c.referenced f := rfl

section
variable (h : Trimmed pinned retain c removed c')
include h

theorem eq :
    c' = { c with records := c.records.filter fun r => !(removed.map (·.fingerprint)).contains r.fingerprint } := by
  induction h with
  | done => simp
  | evict r _ _ _ _ ih =>
    rw [ih]
    simp only [Catalog.without, filter_filter]
    congr 2
    funext r'
    by_cases heq : r'.fingerprint = r.fingerprint
    · simp [heq]
    · simp [heq]

theorem removable : ∀ r ∈ removed, r ∈ c.removable pinned retain := by
  induction h with
  | done => exact nofun
  | evict r _ mem _ _ ih =>
    intro r' hr'
    rcases mem_cons.mp hr' with rfl | hr'
    · exact mem
    · obtain ⟨hmem, hrest⟩ := Catalog.removable_mem.mp (ih r' hr')
      exact Catalog.removable_mem.mpr ⟨(mem_filter.mp hmem).1, hrest⟩

theorem choices (fingerprint : Text) :
    c'.choices fingerprint = if fingerprint ∈ removed.map (·.fingerprint) then none else c.choices fingerprint := by
  rw [h.eq]
  rw [Catalog.choices_filter (p := fun f => !(removed.map (·.fingerprint)).contains f)]
  by_cases hmem : fingerprint ∈ removed.map (·.fingerprint)
  · rw [if_pos hmem, if_neg (by simpa using hmem)]
  · rw [if_neg hmem, if_pos (by simpa using hmem)]

end

abbrev Distinct (c : Catalog) : Prop := (c.records.map (·.fingerprint)).Nodup

theorem distinct_eq (h : Distinct c) {r r' : SourceRecord} (hr : r ∈ c.records) (hr' : r' ∈ c.records)
    (heq : r.fingerprint = r'.fingerprint) : r = r' :=
  inj_on_of_nodup_map h hr hr' heq

theorem without_unreferenced (h : Distinct c) (hr : r ∈ c.unreferenced) :
    (c.without r.fingerprint).unreferenced.length + 1 = c.unreferenced.length := by
  have hnodup : c.unreferenced.Nodup := (List.Nodup.of_map _ h).filter _
  have heq : (c.without r.fingerprint).unreferenced = c.unreferenced.erase r := by
    rw [hnodup.erase_eq_filter]
    show ((c.records.filter _).filter _) = (c.records.filter _).filter _
    rw [filter_filter, filter_filter]
    refine filter_congr fun r' hr' => ?_
    by_cases hsame : r' = r
    · simp [hsame]
    · have hne : (r'.fingerprint != r.fingerprint) = true :=
        bne_iff_ne.mpr fun heq => hsame (distinct_eq h hr' (mem_filter.mp hr).1 heq)
      have hne' : (r' != r) = true := bne_iff_ne.mpr hsame
      rw [without_referenced, hne, hne', Bool.and_true, Bool.true_and]
  rw [heq, length_erase_of_mem hr]
  have hpos : 0 < c.unreferenced.length := length_pos_of_mem hr
  omega

theorem distinct_without (h : Distinct c) (fingerprint) : Distinct (c.without fingerprint) :=
  h.sublist (filter_sublist.map _)

/-- No more go than must. -/
theorem length (h : Trimmed pinned retain c removed c') (hd : Distinct c) :
    removed.length = c.unreferenced.length - 16 := by
  induction h with
  | done fits =>
    have : ([] : List SourceRecord).length = 0 := rfl
    omega
  | evict r many mem _ _ ih =>
    have hr : r ∈ Catalog.unreferenced _ := (mem_filter.mp mem).1
    have hlen := without_unreferenced hd hr
    have hrest := ih (distinct_without hd _)
    rw [length_cons, hrest]
    omega

end Trimmed

/-! ### Records that are held -/

namespace Catalog

def Has (c : Catalog) (r : SourceRecord) : Prop := ∃ r' ∈ c.records, r'.fingerprint = r.fingerprint ∧ r'.sha256 = r.sha256

/-- The record is there, or its source is given and has another one. -/
def Keeps (given : List Text) (c : Catalog) (r : SourceRecord) : Prop :=
  c.Has r ∨ r.fingerprint ∈ given ∧ ∃ r' ∈ c.records, r'.fingerprint = r.fingerprint

/-- `c` may take the place of `old` while there are these pins: what it references or what is pinned is kept. -/
def Carries (given : List Text) (pins : Text → Nat) (old : Option Catalog) (c : Catalog) : Prop :=
  ∀ c0 ∈ old, ∀ r ∈ c0.records, c.referenced r.fingerprint = true ∨ 0 < pins r.sha256 → c.Keeps given r

variable {given : List Text} {pins pins' : Text → Nat} {old : Option Catalog}

theorem Carries.anti (h : c.Carries given pins old) (hpins : ∀ key, pins' key ≤ pins key) : c.Carries given pins' old :=
  fun c0 hc0 r hr hheld => h c0 hc0 r hr (hheld.imp_right fun hpin => lt_of_lt_of_le hpin (hpins r.sha256))

theorem has_of_mem (h : r ∈ c.records) : c.Has r := ⟨r, h, rfl, rfl⟩

theorem has_of_pairs (h : r ∈ records)
    (hpairs : c.records.map (fun r => (r.fingerprint, r.sha256)) = records.map fun r => (r.fingerprint, r.sha256)) :
    c.Has r := by
  have hmem : (r.fingerprint, r.sha256) ∈ c.records.map fun r => (r.fingerprint, r.sha256) := by
    rw [hpairs]
    exact mem_map.mpr ⟨r, h, rfl⟩
  obtain ⟨r', hr', heq⟩ := mem_map.mp hmem
  exact ⟨r', hr', (Prod.mk.inj heq).1, (Prod.mk.inj heq).2⟩

variable {statuses : List (Text × SourceStatus)}

theorem replace_distinct (h : Trimmed.Distinct c) (hd : (records.map (·.fingerprint)).Nodup) :
    Trimmed.Distinct (c.replace records statuses) := by
  let kept := c.records.filter fun r => !(records.map (·.fingerprint)).contains r.fingerprint
  have hpairs := setStatuses_pairs statuses (kept ++ records)
  have hkeys := congrArg (List.map Prod.fst) hpairs
  simp only [map_map] at hkeys
  show ((c.replace records statuses).records.map (·.fingerprint)).Nodup
  have heq : (c.replace records statuses).records.map (·.fingerprint) = (kept ++ records).map (·.fingerprint) := hkeys
  rw [heq, map_append, nodup_append]
  refine ⟨h.sublist (filter_sublist.map _), hd, fun f hf f' hf' hff' => ?_⟩
  subst hff'
  obtain ⟨r, hr, rfl⟩ := mem_map.mp hf
  have hnot := (mem_filter.mp hr).2
  simp only [Bool.not_eq_true', contains_eq_mem, decide_eq_false_iff_not] at hnot
  exact hnot hf'

theorem replace_keeps (hr : r ∈ c.records) : (c.replace records statuses).Keeps (records.map (·.fingerprint)) r := by
  let kept := c.records.filter fun r => !(records.map (·.fingerprint)).contains r.fingerprint
  have hpairs : (c.replace records statuses).records.map (fun r => (r.fingerprint, r.sha256)) =
      (kept ++ records).map fun r => (r.fingerprint, r.sha256) := setStatuses_pairs statuses (kept ++ records)
  by_cases hgiven : r.fingerprint ∈ records.map (·.fingerprint)
  · obtain ⟨g, hg, hfp⟩ := mem_map.mp hgiven
    obtain ⟨r', hr', hfp', _⟩ := has_of_pairs (mem_append_right kept hg) hpairs
    exact .inr ⟨hgiven, r', hr', hfp'.trans hfp⟩
  · have hkept : r ∈ kept := mem_filter.mpr ⟨hr, by simpa using hgiven⟩
    exact .inl (has_of_pairs (mem_append_left records hkept) hpairs)

end Catalog

namespace Trimmed

variable {removed : List SourceRecord} {pins : Text → Nat}

theorem has (h : Trimmed (fun hash => 0 < pins hash) retain c removed c') (hd : Distinct c) (hr : r ∈ c.records)
    (hheld : c'.referenced r.fingerprint = true ∨ 0 < pins r.sha256 ∨ r.fingerprint ∈ retain) : r ∈ c'.records := by
  rw [h.eq] at hheld ⊢
  refine mem_filter.mpr ⟨hr, ?_⟩
  simp only [Bool.not_eq_true', contains_eq_mem, decide_eq_false_iff_not]
  intro hgone
  obtain ⟨r', hr', heq⟩ := mem_map.mp hgone
  obtain ⟨hmem, href, hpin, hretain⟩ := Catalog.removable_mem.mp (h.removable r' hr')
  rw [distinct_eq hd hmem hr heq] at href hpin hretain
  rcases hheld with hheld | hheld | hheld
  · change c.referenced r.fingerprint = true at hheld
    rw [href] at hheld
    cases hheld
  · simp [hheld] at hpin
  · exact hretain hheld

theorem carries {given : List Text} {old : Option Catalog} (h : Trimmed (fun hash => 0 < pins hash) retain c removed c')
    (hd : Distinct c) (hkeeps : ∀ c0 ∈ old, ∀ r ∈ c0.records, c.Keeps retain r) (hretain : retain ⊆ given) :
    c'.Carries given pins old := by
  intro c0 hc0 r hr hheld
  rcases hkeeps c0 hc0 r hr with ⟨r', hr', hfp, hsha⟩ | ⟨hgiven, r', hr', hfp⟩
  · refine .inl ⟨r', h.has hd hr' ?_, hfp, hsha⟩
    rw [hfp, hsha]
    exact hheld.imp_right .inl
  · refine .inr ⟨hretain hgiven, r', h.has hd hr' (.inr (.inr ?_)), hfp⟩
    rw [hfp]
    exact hgiven

end Trimmed

end Parins.Filters
