/-
Witnesses. The text that `explain` and a block trace report is cut out of the
query's own key: it is the text of a rule that was added, because what is found
on the path of a name is a kept rule and ends at a label of the name.
-/
import Parins.Policy.Owner

namespace Parins.Policy
open Lib List

inductive Witness.Scope where
  | suffix | exact
deriving DecidableEq

structure Witness where
  /-- `none` identifies local rules. -/
  sourceId : Option Bytes
  rule : Bytes
  scope : Witness.Scope

structure Explanation where
  /-- `none` is `Unmatched`. -/
  decision : Option Decision
  witness : Option Witness

def Group.scope : Group → Witness.Scope
  | .allowSuffix | .blockSuffix => .suffix
  | .allowExact | .blockExact => .exact

namespace Data

def explanation (T : Texts) (p : Data) (name : Name) (found : Match) : Except Fault Explanation := do
  let id ← item p.sourceIds found.sourceSlot
  let rule ← Index.rule T name found
  .ok ⟨some found.group.decision, some ⟨if id.isEmpty then none else some id, rule, found.group.scope⟩⟩

def explain (T : Texts) (p : Data) (name : Name) : Except Fault Explanation := do
  match ← p.index.lookup name with
  | none => .ok ⟨none, none⟩
  | some found =>
    if found.group.decision = .block then
      match ← p.index.blockMatch name p.responses.localSlots with
      | some found => p.explanation T name found
      | none => .error .panic
    else p.explanation T name found

end Data

/-! ## The key of a text -/

variable {text : Bytes} {ks : List Label}

theorem ruleLabel_of_lower {l : Label} (h : canonicalLabel (l.map toAsciiLowercase) = true) : ruleLabel l = true := by
  simp only [canonicalLabel, Bool.and_eq_true, Bool.not_eq_true', decide_eq_true_eq, all_map, all_eq_true,
    length_map] at h
  simp only [ruleLabel, Bool.and_eq_true, Bool.not_eq_true', decide_eq_true_eq, all_eq_true]
  refine ⟨⟨by simpa using h.1.1, h.1.2⟩, fun b hb => ?_⟩
  have hb := h.2 b hb
  simp only [Function.comp_apply, toAsciiLowercase] at hb
  split at hb
  · next hup => simp [isAsciiAlphanumeric, hup]
  · simp only [isAsciiAlphanumeric, Bool.or_eq_true] at hb ⊢
    tauto

theorem Key.rule_eq (h : Spellable (ruleLabels text)) : Key.rule text = .ok (frame (ruleLabels text)) := by
  have hsum := sum_splitOn (stripDot text) 46
  have hlength := h.length
  simp only [ruleLabels, length_frame, map_map, Function.comp_def, length_map, map_reverse,
    sum_reverse] at hlength
  have hne : (stripDot text).isEmpty = false := by
    rw [isEmpty_eq_false_iff]
    intro hnil
    have := h.labels [] (by simp [ruleLabels, hnil])
    simp [canonicalLabel] at this
  have hlabels : ∀ l ∈ ((stripDot text).splitOn 46).reverse, ruleLabel l = true := fun l hl =>
    ruleLabel_of_lower (h.labels _ (mem_map_of_mem hl))
  have hpush : ∀ {ls : List Label} {k : Bytes}, (∀ l ∈ ls, ruleLabel l = true) →
      ls.foldlM Key.pushRule k = ls.foldlM Key.push k := by
    intro ls
    induction ls with
    | nil => exact fun _ => rfl
    | cons l ls ih =>
      intro k hls
      obtain ⟨hl, hls⟩ := forall_mem_cons.mp hls
      simp only [foldlM_cons, Key.pushRule, hl, if_true, fun k => ih (k := k) hls]
  simp only [Key.rule, hne, Bool.false_or, decide_eq_true_eq]
  rw [if_neg (by omega), hpush hlabels]
  exact foldlM_push_ok (Nat.le_trans (Nat.le_of_eq (Nat.zero_add _)) (Nat.le_succ_of_le h.length))

theorem dotted_eq {ls} (h : ls ≠ []) : dotted ls = [46].intercalate ls ++ [46] := by
  induction ls with
  | nil => exact absurd rfl h
  | cons l ls ih =>
    cases ls with
    | nil => simp [dotted]
    | cons k ls =>
      have hk := ih (by simp)
      simp only [dotted, flatMap_cons, intercalate_cons_cons] at hk ⊢
      rw [hk]
      simp

theorem canonicalLabel_same {l : Label} (h : canonicalLabel l = true) : l.map toAsciiLowercase = l ∧ 46 ∉ l := by
  simp only [canonicalLabel, Bool.and_eq_true, all_eq_true] at h
  refine ⟨(map_congr_left fun b hb => ?_).trans (map_id l), fun hdot => by simpa using h.2 46 hdot⟩
  have hb := h.2 b hb
  simp only [Bool.or_eq_true, Bool.and_eq_true, decide_eq_true_eq, beq_iff_eq, UInt8.le_iff_toNat_le,
    ← UInt8.toNat_inj, UInt8.reduceToNat] at hb
  exact if_neg (by simp only [UInt8.le_iff_toNat_le, UInt8.reduceToNat]; omega)

theorem ruleLabels_text (h : Spellable ks) (htext : text ++ [46] = dotted ks.reverse) : ruleLabels text = ks := by
  have hdot : ∀ l ∈ ks.reverse, 46 ∉ l := fun l hl =>
    (canonicalLabel_same (h.labels l (mem_reverse.mp hl))).2
  have hne : ks.reverse ≠ [] := by simpa using h.ne
  have hsplit : text.splitOn 46 = ks.reverse := by
    rw [dotted_eq hne] at htext
    rw [append_cancel_right htext, splitOn_intercalate 46 hdot hne]
  have hstrip : stripDot text = text := by
    obtain ⟨k, ks, rfl⟩ := exists_cons_of_ne_nil h.ne
    have hk := (canonicalLabel_spec (h.labels k mem_cons_self)).1
    have heq : text = dotted ks.reverse ++ k := append_cancel_right (htext.trans (by simp [dotted]))
    refine if_neg fun hlast => ?_
    rw [heq, List.getLast?_append_of_ne_nil _ hk] at hlast
    exact hdot k (by simp) (mem_of_getLast? hlast)
  rw [ruleLabels, hstrip, hsplit, reverse_reverse]
  exact (map_congr_left fun l hl => (canonicalLabel_same (h.labels l hl)).1).trans (map_id ks)

/-! ## What is reported -/

/-- A reported rule is one that was added in this group, with a slot of the source that is reported; its text is
labels that end the name in lower case, or all of them. -/
structure Real (added : List Added) (p : Data) (name : Name) (group : Group) (rule : Bytes) (sourceId : Option Bytes) :
    Prop where
  added : ∃ a ∈ added, a.group = group ∧ (∃ k, Key.rule rule = .ok k ∧ Key.rule a.domain = .ok k) ∧
    ∃ id, p.sourceIds[a.slot.toNat]? = some id ∧ sourceId = if id.isEmpty then none else some id
  text : ∃ labels, rule ++ [46] = dotted labels ∧ labels <:+ name.toLowercase.labels ∧
    (group.scope = .exact → labels = name.toLowercase.labels)

variable {T : Texts} {added : List Added} {p : Data} {name : Name} {r : Rule}

/-- The text of a rule that was added and is found for the name. -/
theorem rule_real (hT : T.Lawful) (hc : Compiled added p) (hname : name.encodedLen ≤ 254)
    (hr : r ∈ added.map Added.rule) (hspell : Spellable r.labels) (hpre : r.labels <+: nameLabels name)
    (hexact : r.group.scope = .exact → r.labels = nameLabels name) :
    ∃ text id, Index.rule T name r.asMatch = .ok text ∧ item (ε := Error) p.sourceIds r.slot = .ok id ∧
      Real added p name r.group text (if id.isEmpty then none else some id) := by
  obtain ⟨text, hrule, htext⟩ := rule_ok hT hname hspell hpre
  obtain ⟨a, ha, rfl⟩ := mem_map.mp hr
  have hslot := hc.slots a ha
  have hid : p.sourceIds[a.slot.toNat]? = some p.sourceIds[a.slot.toNat] := List.getElem?_eq_getElem hslot
  have hlabels := ruleLabels_text hspell htext
  have hname : name.toLowercase.labels = (nameLabels name).reverse := by simp [nameLabels]
  refine ⟨text, _, hrule, by simp [item, Added.rule, hslot],
    ⟨a, ha, rfl, ⟨_, Key.rule_eq (hlabels ▸ hspell), ?_⟩, _, hid, rfl⟩, _, htext, ?_, fun hscope => ?_⟩
  · rw [hlabels]
    exact Key.rule_eq hspell
  · rw [hname]
    exact reverse_suffix.mpr hpre
  · rw [hexact hscope, hname]

theorem lookupFold_allow {len m} : ∀ {visits blocked}, Blocking blocked →
    lookupFold len visits blocked = some m → m.group.decision = .allow →
    ∃ p v, (p, v) ∈ visits ∧ (m ∈ found v p .allowSuffix ∨ p = len ∧ m ∈ found v p .allowExact)
  | [], _, hb, h, ha => by rw [hb m h] at ha; cases ha
  | (p, v) :: visits, blocked, hb, h, ha => by
    have hb' : Blocking (blocked.or (found v p .blockSuffix)) := hb.or (.found rfl)
    simp only [lookupFold] at h
    split at h
    · next hs => exact ⟨p, v, mem_cons_self, .inl (hs.trans h)⟩
    · split at h
      · next hend =>
        split at h
        · next hs => exact ⟨p, v, mem_cons_self, .inr ⟨hend, hs.trans h⟩⟩
        · rw [(hb'.or (.found rfl)) m h] at ha
          cases ha
      · obtain ⟨p', v', hmem, hm⟩ := lookupFold_allow hb' h ha
        exact ⟨p', v', mem_cons_of_mem _ hmem, hm⟩

def Explanation.Real (added : List Added) (p : Data) (name : Name) (e : Explanation) : Prop :=
  ∀ w, e.witness = some w → ∃ group, e.decision = some group.decision ∧ w.scope = group.scope ∧
    Policy.Real added p name group w.rule w.sourceId

theorem explanation_real (hT : T.Lawful) (hc : Compiled added p) (hname : name.encodedLen ≤ 254)
    (hr : r ∈ added.map Added.rule) (hspell : Spellable r.labels) (hpre : r.labels <+: nameLabels name)
    (hexact : r.group.scope = .exact → r.labels = nameLabels name) :
    ∃ e, p.explanation T name r.asMatch = .ok e ∧ e.Real added p name := by
  obtain ⟨text, id, htext, hid, hreal⟩ := rule_real hT hc hname hr hspell hpre hexact
  refine ⟨_, bind_eq_ok.mpr ⟨id, hid, bind_eq_ok.mpr ⟨text, htext, rfl⟩⟩, fun w hw => ?_⟩
  cases hw
  exact ⟨r.group, rfl, rfl, hreal⟩

theorem Applies.scope {qs} (h : Applies qs r) :
    r.group.decision = .block ∧ (r.group.scope = .exact → r.labels = qs) := by
  obtain ⟨labels, group, slot⟩ := r
  rcases h with ⟨rfl, _⟩ | ⟨rfl, hall⟩
  · exact ⟨rfl, nofun⟩
  · exact ⟨rfl, fun _ => hall⟩

/-- **Witnesses are real.** `explain` returns for every name, and what it reports is a rule that was added, with the
decision and the scope of its group; so is the rule of a block trace. -/
theorem witnesses_real (hT : T.Lawful) (hc : Compiled added p) (hname : name.encodedLen ≤ 254) :
    (∃ e, p.explain T name = .ok e ∧ e.Real added p name) ∧
    ∀ query message trace, query.queries[0]?.map Query.name = some name →
      p.blockQuery T query = .ok (some (message, trace)) →
      ∃ group, group.decision = .block ∧ Real added p name group trace.rule trace.sourceId := by
  obtain ⟨S, sha256, env, limits, hbuild⟩ := hc.built
  obtain ⟨b, t, hf, ho, m, hlookup, hfold, hdecision⟩ := lookup_spec hbuild hname
  obtain ⟨b', best, _, _, hrules, hmatch, hsome, hleast⟩ := blockMatch_least hbuild hname
  refine ⟨?_, fun query message trace hquestion hquery => ?_⟩
  · unfold Data.explain
    rw [hlookup]
    cases m with
    | none => exact ⟨_, rfl, nofun⟩
    | some m =>
      simp only [bind, Except.bind]
      cases hd : m.group.decision with
      | block =>
        -- a blocked name has a block rule that answers
        have hblocks : ¬Allowed added name ∧ Blocked added name := by
          simp only [Option.map_some, hd, oracle] at hdecision
          split at hdecision
          · cases hdecision
          · next hallow => exact ⟨hallow, by_contra fun hnot => by simp [hnot] at hdecision⟩
        obtain ⟨x, rfl⟩ := Option.isSome_iff_exists.mp (hsome.mpr hblocks)
        obtain ⟨r, rfl, ⟨hkept, happ⟩, _⟩ := hleast x rfl
        rw [if_pos rfl, hmatch]
        exact explanation_real hT hc hname hkept.mem (hrules r hkept.mem) happ.labels happ.scope.2
      | allow =>
        have hlen := (frame_nameLabels_length name).trans_le hname
        rw [if_neg (by simp)]
        obtain ⟨pos, v, hvisit, hm⟩ := lookupFold_allow (fun _ h => by cases h) hfold hd
        rcases hm with hm | ⟨hend, hm⟩
        · obtain ⟨r, hkept, rfl, hg, hpre, _⟩ := found_kept hf ho hlen hvisit hm
          exact explanation_real hT hc hname hkept.mem (hrules r hkept.mem) hpre (by rw [hg]; nofun)
        · obtain ⟨r, hkept, rfl, _, hpre, hall⟩ := found_kept hf ho hlen hvisit hm
          exact explanation_real hT hc hname hkept.mem (hrules r hkept.mem) hpre fun _ => hall hend
  · obtain ⟨question, hq, rfl⟩ := Option.map_eq_some_iff.mp hquestion
    unfold Data.blockQuery at hquery
    rw [item_of_get hq] at hquery
    simp only [Data.blockAnswer, hmatch, bind, Except.bind] at hquery
    cases best with
    | none => cases hquery
    | some x =>
      obtain ⟨r, rfl, ⟨hkept, happ⟩, _⟩ := hleast x rfl
      obtain ⟨text, id, htext, hid, hreal⟩ :=
        rule_real hT hc hname hkept.mem (hrules r hkept.mem) happ.labels happ.scope.2
      have hanswer : p.answerFor T query question.name r.asMatch = .ok (message, trace) := by
        cases hout : p.answerFor T query question.name r.asMatch with
        | error e => simp [hout, Except.map] at hquery
        | ok out => simpa [hout, Except.map] using hquery
      unfold Data.answerFor at hanswer
      obtain ⟨text', htext', hanswer⟩ := bind_eq_ok.mp hanswer
      obtain ⟨_, _, hanswer⟩ := bind_eq_ok.mp hanswer
      obtain ⟨_, _, hanswer⟩ := bind_eq_ok.mp hanswer
      obtain ⟨id', hid', hanswer⟩ := bind_eq_ok.mp hanswer
      obtain ⟨_, _, hanswer⟩ := bind_eq_ok.mp hanswer
      cases hanswer
      cases htext.symm.trans htext'
      cases hid.symm.trans hid'
      exact ⟨r.group, happ.scope.1, hreal⟩

/-- The sample rules allow `a.com` exactly, and that rule is the witness. -/
theorem witnesses_real_sample : ∃ p e w, Compiled sampleRules p ∧
    p.explain sampleTexts ⟨[[65], [99, 111, 109]], true⟩ = .ok e ∧ e.witness = some w ∧ w.rule = ascii "a.com" ∧
    e.Real sampleRules p ⟨[[65], [99, 111, 109]], true⟩ := by
  obtain ⟨p, hc, hrule⟩ := sample_compiled (b := some (ascii "a.com"))
    (f := fun p => ((p.explain sampleTexts ⟨[[65], [99, 111, 109]], true⟩).toOption.bind (·.witness)).map (·.rule))
    (by decide +kernel)
  obtain ⟨⟨e, he, hreal⟩, _⟩ := @witnesses_real _ _ _ ⟨[[65], [99, 111, 109]], true⟩ sampleTexts_lawful hc (by decide)
  rw [he] at hrule
  obtain ⟨w, hw, hrule⟩ := Option.map_eq_some_iff.mp hrule
  exact ⟨p, e, w, hc, he, hw, hrule, hreal⟩

end Parins.Policy
