/-
Keys are framed labels: `Key::query` of a name and `Key::rule` of a domain are
the length-prefixed encoding (`frame`) of the lowercase labels, root side
first, and what `Key::rule` accepts is a nonempty list of canonical labels of
at most 254 bytes (`Canonical`). A builder that took a list of rules holds
exactly them (`Spelled`).
-/
import Parins.Policy.Rules

namespace Parins.Policy

open Lib List

def nameLabels (name : Name) : List Label := name.toLowercase.labels.reverse

def ruleLabels (domain : Bytes) : List Label :=
  ((stripDot domain).splitOn 46).reverse.map (·.map toAsciiLowercase)

variable {labels : List Label} {k k' : Bytes}

theorem foldlM_push (h : labels.foldlM Key.push k = .ok k') :
    k' = k ++ frame (labels.map (·.map toAsciiLowercase)) := by
  induction labels generalizing k with
  | nil => simp [pure, Except.pure] at h; simp [h]
  | cons l labels ih =>
    rw [foldlM_cons] at h
    obtain ⟨k1, h1, h⟩ := bind_eq_ok.mp h
    rw [ih h]
    unfold Key.push at h1
    split at h1
    · cases h1; simp [frame_cons]
    · cases h1

theorem foldlM_push_ok (h : k.length + (frame (labels.map (·.map toAsciiLowercase))).length ≤ 255) :
    labels.foldlM Key.push k = .ok (k ++ frame (labels.map (·.map toAsciiLowercase))) := by
  induction labels generalizing k with
  | nil => simp [pure, Except.pure]
  | cons l labels ih =>
    simp only [map_cons, frame_cons, length_cons, length_append, length_map] at h
    have hpush : Key.push k l = .ok (k ++ UInt8.ofNat l.length :: l.map toAsciiLowercase) := by
      rw [Key.push, if_pos (by omega)]
    simp only [foldlM_cons, hpush, bind, Except.bind]
    rw [ih (by simp; omega)]
    simp [frame_cons]

theorem frame_nameLabels_length (name : Name) : (frame (nameLabels name)).length = name.encodedLen := by
  simp [length_frame, nameLabels, Name.toLowercase, Name.encodedLen, sum_reverse, Function.comp_def]

theorem Key.query_ok {name : Name} (h : name.encodedLen ≤ 254) : Key.query name = .ok (frame (nameLabels name)) := by
  have heq : nameLabels name = name.labels.reverse.map (·.map toAsciiLowercase) := by
    simp [nameLabels, Name.toLowercase]
  have := @foldlM_push_ok name.labels.reverse [] (by rw [← heq, frame_nameLabels_length]; simp; omega)
  rw [Key.query, this, heq, nil_append]

/-! ## Rule keys -/

def canonicalLabel (label : Label) : Bool :=
  !label.isEmpty && label.length ≤ 63 &&
    label.all fun b => (97 ≤ b && b ≤ 122) || (48 ≤ b && b ≤ 57) || b == 45 || b == 95

structure Spellable (ks : List Label) : Prop where
  ne : ks ≠ []
  labels : ∀ l ∈ ks, canonicalLabel l = true
  length : (frame ks).length ≤ 254

theorem Spellable.short {ks} (h : Spellable ks) : Short ks :=
  .of_length (Nat.le_trans h.length (by omega))

theorem canonicalLabel_spec {l : Label} (h : canonicalLabel l = true) :
    l ≠ [] ∧ l.length ≤ 63 ∧ ∀ x ∈ l, (isAsciiAlphanumeric x || x == 45 || x == 95) = true ∧ x < 128 := by
  simp only [canonicalLabel, Bool.and_eq_true, Bool.not_eq_true', decide_eq_true_eq, all_eq_true] at h
  refine ⟨by simpa using h.1.1, h.1.2, fun x hx => ?_⟩
  have hx := h.2 x hx
  simp only [isAsciiAlphanumeric, Bool.or_eq_true, Bool.and_eq_true, decide_eq_true_eq, beq_iff_eq,
    UInt8.le_iff_toNat_le, UInt8.lt_iff_toNat_lt, ← UInt8.toNat_inj, UInt8.reduceToNat] at hx ⊢
  omega

theorem Spellable.count {ks} (h : Spellable ks) : ks.length ≤ 127 := by
  have hsum : 2 * ks.length ≤ (frame ks).length := by
    rw [length_frame]
    have hlabels := h.labels
    clear h
    induction ks with
    | nil => simp
    | cons k ks ih =>
      have hk := (canonicalLabel_spec (hlabels k mem_cons_self)).1
      have := length_pos_iff.mpr hk
      have := ih fun l hl => hlabels l (mem_cons_of_mem _ hl)
      simp only [length_cons, map_cons, sum_cons]
      omega
  have := h.length
  omega

theorem lower_canonical {b} (h : (isAsciiAlphanumeric b || b == 45 || b == 95) = true) :
    ((97 ≤ toAsciiLowercase b && toAsciiLowercase b ≤ 122) || (48 ≤ toAsciiLowercase b && toAsciiLowercase b ≤ 57) ||
      toAsciiLowercase b == 45 || toAsciiLowercase b == 95) = true := by
  simp only [isAsciiAlphanumeric, Bool.or_eq_true, Bool.and_eq_true, decide_eq_true_eq, beq_iff_eq,
    UInt8.le_iff_toNat_le, ← UInt8.toNat_inj] at h ⊢
  simp only [toAsciiLowercase, UInt8.le_iff_toNat_le]
  split
  · next hup =>
    have : (b + 32).toNat = b.toNat + 32 := by
      rw [UInt8.toNat_add]
      exact Nat.mod_eq_of_lt (by simp at hup ⊢; omega)
    simp only [this, UInt8.reduceToNat] at hup ⊢
    omega
  · next hup =>
    simp only [UInt8.reduceToNat] at h hup ⊢
    omega

theorem canonicalLabel_lower {l : Label} (h : ruleLabel l = true) :
    canonicalLabel (l.map toAsciiLowercase) = true := by
  simp only [ruleLabel, Bool.and_eq_true, Bool.not_eq_true', decide_eq_true_eq, all_eq_true] at h
  simp only [canonicalLabel, Bool.and_eq_true, Bool.not_eq_true', decide_eq_true_eq, all_map,
    all_eq_true, length_map]
  refine ⟨⟨by simpa using h.1.1, h.1.2⟩, fun b hb => ?_⟩
  exact lower_canonical (h.2 b hb)

theorem sum_splitOn (text : Bytes) (b) : ((text.splitOn b).map fun l => 1 + l.length).sum = text.length + 1 := by
  induction text with
  | nil => simp
  | cons x text ih =>
    rw [splitOn_cons_eq_if_modifyHead]
    split
    · simp [ih]; omega
    · obtain ⟨l, ls, hl⟩ := exists_cons_of_ne_nil (splitOn_ne_nil b text)
      rw [hl] at ih ⊢
      simp at ih ⊢
      omega

theorem foldlM_pushRule (h : labels.foldlM Key.pushRule k = .ok k') :
    labels.foldlM Key.push k = .ok k' ∧ ∀ l ∈ labels, ruleLabel l = true := by
  induction labels generalizing k with
  | nil => exact ⟨h, by simp⟩
  | cons l labels ih =>
    rw [foldlM_cons] at h
    obtain ⟨k1, h1, h⟩ := bind_eq_ok.mp h
    obtain ⟨h2, h3⟩ := ih h
    unfold Key.pushRule at h1
    split at h1
    · next hl =>
      refine ⟨?_, ?_⟩
      · rw [foldlM_cons]
        exact bind_eq_ok.mpr ⟨k1, h1, h2⟩
      · intro l' hl'
        rcases mem_cons.mp hl' with rfl | hl'
        · exact hl
        · exact h3 l' hl'
    · cases h1

theorem Key.rule_ok {text} (h : Key.rule text = .ok k) :
    k = frame (ruleLabels text) ∧ Spellable (ruleLabels text) := by
  simp only [Key.rule] at h
  split at h
  · cases h
  · next hlen =>
    simp only [Bool.or_eq_true, decide_eq_true_eq, not_or, Nat.not_lt] at hlen
    obtain ⟨hp, hl⟩ := foldlM_pushRule h
    refine ⟨by simpa [ruleLabels] using foldlM_push hp, ?_, ?_, ?_⟩
    · simp [ruleLabels]
    · intro l hl'
      obtain ⟨l', hmem, rfl⟩ := mem_map.mp hl'
      exact canonicalLabel_lower (hl l' hmem)
    · have := sum_splitOn (stripDot text) 46
      simp only [ruleLabels, length_frame, map_map, Function.comp_def, length_map, map_reverse,
        sum_reverse]
      omega

/-! ## The rules of a builder -/

structure Spells (arena : Bytes) (r : Record) (rule : Rule) : Prop where
  group : r.group = rule.group
  slot : r.entry.sourceSlot = rule.slot
  key : key arena r.entry = frame rule.labels
  len : r.entry.len = (frame rule.labels).length
  labels : Spellable rule.labels
  slotLt : rule.slot < noSlot

/-- The records hold exactly these rules, repeated ones included or not. -/
structure Spelled (arena : Bytes) (records : List Record) (rules : List Rule) : Prop where
  sound : ∀ r ∈ records, ∃ rule ∈ rules, Spells arena r rule
  complete : ∀ rule ∈ rules, ∃ r ∈ records, Spells arena r rule

variable {arena : Bytes} {rules : List Rule}

theorem Spelled.perm {records records' : List Record}
    (h : Spelled arena records rules) (hp : records'.Perm records) : Spelled arena records' rules :=
  ⟨fun r hr => h.sound r (hp.mem_iff.mp hr), fun rule hr => by
    obtain ⟨r, hr, hs⟩ := h.complete rule hr
    exact ⟨r, hp.mem_iff.mpr hr, hs⟩⟩

structure Added where
  domain : Bytes
  group : Group
  slot : UInt16
deriving DecidableEq

def Added.rule (a : Added) : Rule := { labels := ruleLabels a.domain, group := a.group, slot := a.slot.toNat }

def Builder.addAll (env : Env) (b : Builder) (rules : List Added) : Except Fault Builder :=
  rules.foldlM (fun b a => b.add env a.domain a.group a.slot) b

variable {b b' : Builder} {env : Env}

theorem Builder.add_ok {domain group} {slot : UInt16} (h : b.add env domain group slot = .ok b') :
    b.failed = none ∧ slot.toNat ≠ noSlot ∧ Spellable (ruleLabels domain) ∧
      b'.arena.items = b.arena.items ++ frame (ruleLabels domain) ∧
      b'.records.items = b.records.items ++
        [⟨⟨b.arena.items.length, (frame (ruleLabels domain)).length, slot.toNat⟩, group⟩] ∧
      b'.arena.items.length ≤ u32Max ∧ b'.records.items.length ≤ b.maxRules ∧
      b'.localSlots = b.localSlots ∧ b'.classes = b.classes ∧ b'.maxRules = b.maxRules ∧ b'.failed = b.failed := by
  unfold Builder.add at h
  split at h
  · cases h
  next hf =>
  simp only [Builder.addInner] at h
  split at h
  · cases h
  next hslot =>
  obtain ⟨encoded, henc, h⟩ := bind_eq_ok.mp h
  split at h
  · cases h
  next hmax =>
  split at h
  · cases h
  next hlen =>
  obtain ⟨⟨arena, budget1⟩, hg1, h⟩ := bind_eq_ok.mp h
  obtain ⟨⟨records, budget2⟩, hg2, h⟩ := bind_eq_ok.mp h
  obtain ⟨rfl, hsp⟩ := Key.rule_ok henc
  cases h
  have harena : arena.items = b.arena.items := grow_safe.of_ok hg1
  have hrecords : records.items = b.records.items := grow_safe.of_ok hg2
  simp only [harena, hrecords, length_append, length_cons, length_nil, hf]
  exact ⟨trivial, hslot, hsp, trivial, trivial, by omega, by omega, trivial, trivial, trivial, trivial⟩

/-- What a builder that took rules keeps of itself. -/
structure Builder.Wf (b : Builder) (rules : List Rule) : Prop where
  failed : b.failed = none
  spelled : Spelled b.arena.items b.records.items rules
  count : b.records.items.length = rules.length
  inArena : ∀ r ∈ b.records.items, r.entry.offset + r.entry.len ≤ b.arena.items.length
  arenaLen : b.arena.items.length ≤ u32Max
  keyBytes : (b.records.items.map (·.entry.len)).sum = b.arena.items.length
  rulesLen : b.records.items.length ≤ b.maxRules

theorem Builder.Wf.spellable (hb : b.Wf rules) : ∀ rule ∈ rules, Spellable rule.labels := by
  intro rule hrule
  obtain ⟨_, _, hs⟩ := hb.spelled.complete rule hrule
  exact hs.labels

variable {more : Bytes}

theorem key_append {e : Entry} (h : e.offset + e.len ≤ arena.length) : key (arena ++ more) e = key arena e := by
  simp only [key]
  rw [drop_append_of_le_length (by omega), take_append_of_le_length (by simp; omega)]

theorem Spells.append {r : Record} {rule} (h : Spells arena r rule)
    (hin : r.entry.offset + r.entry.len ≤ arena.length) : Spells (arena ++ more) r rule :=
  { h with key := by rw [key_append hin]; exact h.key }

theorem Builder.Wf.add {a : Added} (hb : b.Wf rules)
    (h : b.add env a.domain a.group a.slot = .ok b') : b'.Wf (rules ++ [a.rule]) := by
  obtain ⟨hf, hslot, hsp, harena, hrec, hlen, hmax, -, -, hmr, hf'⟩ := Builder.add_ok h
  have hnew : Spells b'.arena.items ⟨⟨b.arena.items.length, (frame (ruleLabels a.domain)).length, a.slot.toNat⟩, a.group⟩
      a.rule := by
    refine ⟨rfl, rfl, ?_, rfl, hsp, ?_⟩
    · simp [harena, Policy.key, Added.rule]
    · have := a.slot.toNat_lt
      simp only [Added.rule, noSlot] at hslot ⊢
      omega
  refine ⟨hf' ▸ hf, ⟨?_, ?_⟩, ?_, ?_, hlen, ?_, hmr ▸ hmax⟩
  · intro r hr
    rw [hrec, mem_append, mem_singleton] at hr
    rcases hr with hr | rfl
    · obtain ⟨rule, hrule, hs⟩ := hb.spelled.sound r hr
      exact ⟨rule, mem_append_left _ hrule, harena ▸ hs.append (hb.inArena r hr)⟩
    · exact ⟨a.rule, by simp, hnew⟩
  · intro rule hrule
    rw [mem_append, mem_singleton] at hrule
    rcases hrule with hrule | rfl
    · obtain ⟨r, hr, hs⟩ := hb.spelled.complete rule hrule
      exact ⟨r, by rw [hrec]; exact mem_append_left _ hr, harena ▸ hs.append (hb.inArena r hr)⟩
    · exact ⟨_, by rw [hrec]; simp, hnew⟩
  · simp [hrec, hb.count]
  · intro r hr
    rw [hrec, mem_append, mem_singleton] at hr
    rw [harena, length_append]
    rcases hr with hr | rfl
    · have := hb.inArena r hr
      omega
    · simp
  · simp [hrec, harena, hb.keyBytes]

/-- A fresh builder, as a caller sets it up. -/
def Builder.Fresh (b : Builder) : Prop :=
  b.arena.items = [] ∧ b.records.items = [] ∧ b.failed = none

theorem Builder.Fresh.wf (h : b.Fresh) : b.Wf [] := by
  obtain ⟨ha, hr, hf⟩ := h
  refine ⟨hf, ⟨?_, ?_⟩, ?_, ?_, ?_, ?_, ?_⟩ <;> simp [ha, hr]

theorem Builder.new_fresh {limits : Limits} (h : Builder.new limits = .ok b) :
    b.Fresh ∧ b.maxRules = limits.maxRules ∧ limits.maxRules ≤ 5000000 := by
  unfold Builder.new at h
  split at h
  · cases h
  next hl =>
  obtain ⟨budget, -, h⟩ := bind_eq_ok.mp h
  cases h
  simp only [Bool.or_eq_true, decide_eq_true_eq, not_or, Nat.not_lt] at hl
  exact ⟨⟨rfl, rfl, rfl⟩, rfl, hl.1.1.2⟩

/-- **A builder holds the rules it took.** -/
theorem Builder.addAll_wf : ∀ {added : List Added} {b b' : Builder} {rules}, b.Wf rules →
    b.addAll env added = .ok b' → b'.Wf (rules ++ added.map Added.rule)
  | [], b, b', rules, hb, h => by
    simp only [Builder.addAll, foldlM_nil, pure, Except.pure, Except.ok.injEq] at h
    subst h
    simpa using hb
  | a :: added, b, b', rules, hb, h => by
    rw [Builder.addAll, foldlM_cons] at h
    obtain ⟨b1, h1, h⟩ := bind_eq_ok.mp h
    have := Builder.addAll_wf (hb.add h1) h
    simpa using this

theorem Builder.addAll_config : ∀ {added} {b b' : Builder}, b.addAll env added = .ok b' →
      b'.localSlots = b.localSlots ∧ b'.classes = b.classes ∧ b'.maxRules = b.maxRules
  | [], b, b', h => by
    simp only [Builder.addAll, foldlM_nil, pure, Except.pure, Except.ok.injEq] at h
    subst h
    exact ⟨rfl, rfl, rfl⟩
  | a :: added, b, b', h => by
    rw [Builder.addAll, foldlM_cons] at h
    obtain ⟨b1, h1, h⟩ := bind_eq_ok.mp h
    obtain ⟨h2, h3, h4⟩ := Builder.addAll_config h
    obtain ⟨-, -, -, -, -, -, -, h5, h6, h7, -⟩ := Builder.add_ok h1
    exact ⟨h2.trans h5, h3.trans h6, h4.trans h7⟩

end Parins.Policy
