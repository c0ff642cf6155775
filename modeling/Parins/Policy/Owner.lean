/-
The owner name of a block answer. The rule that is reported for a question is
written out and parsed back as a DNS name, and the parser refuses what the rule
grammar accepts: labels that start with a hyphen. A policy answers every query
exactly when no such rule of its index applies to a name that is not allowed.
-/
import Parins.Policy.Answer

namespace Parins.Policy

open Lib List

variable {b : Builder} {rules : List Rule} {qs ks p : List Label}

/-! ## Which rules are reported -/

variable {c : Nat}

theorem effective_local (hp : p <+: ks) (hkept : kept b rules .blockSuffix p = some c) (hc : c < b.localSlots) :
    ∃ c', effective (b.covers .blockSuffix) (first rules .blockSuffix) ks = some c' ∧ c' < b.localSlots := by
  induction ks using List.reverseRecOn with
  | nil =>
    rw [prefix_nil.mp hp] at hkept
    simp [kept, keptSuffix] at hkept
  | append_singleton ks k ih =>
    rw [effective_append_kept]
    rcases prefix_concat_iff.mp hp with heq | hp
    · have hkept : keptSuffix (b.covers .blockSuffix) (first rules .blockSuffix) (ks ++ [k]) = some c := heq ▸ hkept
      exact ⟨c, by rw [hkept, Option.some_or], hc⟩
    · obtain ⟨c', hc', hlocal⟩ := ih hp
      cases hs : keptSuffix (b.covers .blockSuffix) (first rules .blockSuffix) (ks ++ [k]) with
      | none => exact ⟨c', by rw [Option.none_or, hc'], hlocal⟩
      | some s =>
        refine ⟨s, rfl, ?_⟩
        -- A subscription rule would be covered here.
        rw [keptSuffix_append, hc'] at hs
        have hnot := (Option.filter_eq_some_iff.mp hs).2
        by_contra hge
        simp [Builder.covers, Builder.isLocal, hlocal, hge] at hnot

variable {r : Rule}

/-- No subscription rule is kept below a local suffix rule. -/
theorem kept_subscription (hr : IsKept b rules r) (happ : Applies qs r)
    (hslot : b.localSlots ≤ r.slot) (hp : p <+: r.labels) (hne : p ≠ r.labels)
    (hkept : kept b rules .blockSuffix p = some c) : b.localSlots ≤ c := by
  by_contra hc
  obtain ⟨labels, group, slot⟩ := r
  simp only at hp hne hslot
  have hcovers : ∀ c' < b.localSlots, b.covers .blockSuffix c' slot = true := by
    intro c' hc'
    simp [Builder.covers, Builder.isLocal, hc', Nat.not_lt.mpr hslot]
  rcases happ with ⟨hg, _⟩ | ⟨hg, _⟩
  · simp only at hg
    subst hg
    have hr : keptSuffix (b.covers .blockSuffix) (first rules .blockSuffix) labels = some slot := hr
    have hdrop : p <+: labels.dropLast := by
      rcases eq_nil_or_concat labels with rfl | ⟨front, last, rfl⟩
      · exact absurd (prefix_nil.mp hp) hne
      · rw [concat_eq_append] at hp hne ⊢
        rw [dropLast_concat]
        exact (prefix_concat_iff.mp hp).resolve_left hne
    obtain ⟨c', hc', hlocal⟩ := effective_local hdrop hkept (Nat.lt_of_not_le hc)
    have hnot := (Option.filter_eq_some_iff.mp hr).2
    simp [hc', hcovers c' hlocal] at hnot
  · simp only at hg
    subst hg
    have hr : keptExact (b.covers .blockExact) (first rules .blockSuffix) (first rules .blockExact) labels =
      some slot := hr
    obtain ⟨c', hc', hlocal⟩ := effective_local hp hkept (Nat.lt_of_not_le hc)
    have hnot := (Option.filter_eq_some_iff.mp hr).2
    have hsame : b.covers .blockExact = b.covers .blockSuffix := by
      funext x y
      simp [Builder.covers, Group.index]
    rw [hsame, hc'] at hnot
    simp [hcovers c' hlocal] at hnot

theorem Least.longest {w : Rule} (hw : Least b.localSlots (fun r => IsKept b rules r ∧ Applies qs r) w)
    (hr : IsKept b rules r) (happ : Applies qs r) : r.labels <+: w.labels := by
  obtain ⟨hwkept, hwapp⟩ := hw.1
  rcases prefix_or_prefix_of_prefix happ.labels hwapp.labels with h | h
  · exact h
  by_contra hnot
  have hne : w.labels ≠ r.labels := fun heq => hnot (heq ▸ prefix_rfl)
  have hlen := frame_length_lt h hne
  have hgroup : w.group = .blockSuffix := by
    rcases hwapp with ⟨hg, _⟩ | ⟨_, heq⟩
    · exact hg
    · exact absurd (heq ▸ happ.labels) hnot
  refine hw.2 r ⟨hr, happ⟩ (rank_lt_iff.mpr ?_)
  simp only [Rule.asMatch]
  by_cases hlayer : b.localSlots ≤ r.slot ↔ b.localSlots ≤ w.slot
  · right
    refine ⟨hlayer, ?_⟩
    by_cases hr : r.group = .blockSuffix
    · exact .inr ⟨by simp [hr, hgroup], .inl hlen⟩
    · exact .inl ⟨hr, hgroup⟩
  · left
    by_cases hlocal : b.localSlots ≤ r.slot
    · have hkept : kept b rules .blockSuffix w.labels = some w.slot := hgroup ▸ hwkept
      exact absurd ⟨fun _ => kept_subscription hr happ hlocal h hne hkept, fun _ => hlocal⟩ hlayer
    · omega

/-! ## The text of a rule -/

theorem keyLabels_frame : ∀ {ks acc : List Label} {fuel}, Short ks → acc.length + ks.length ≤ 127 →
    (frame ks).length ≤ fuel → keyLabels fuel acc (frame ks) = .ok (acc ++ ks)
  | [], acc, fuel, _, _, _ => by cases fuel <;> simp [keyLabels]
  | k :: ks, acc, 0, _, _, hfuel => by simp [frame_cons] at hfuel
  | k :: ks, acc, fuel + 1, hshort, hcount, hfuel => by
    have hk : k.length < 256 := hshort k mem_cons_self
    have hlen : (UInt8.ofNat k.length).toNat = k.length := by
      rw [UInt8.toNat_ofNat']
      exact Nat.mod_eq_of_lt hk
    rw [frame_cons] at hfuel ⊢
    simp only [length_append, length_cons] at hfuel hcount
    have hstep : ¬((k ++ frame ks).length < k.length || 127 ≤ acc.length) = true := by
      simp
      omega
    simp only [keyLabels, hlen, if_neg hstep, take_left, drop_left]
    rw [keyLabels_frame hshort.tail (by simp; omega) (by omega)]
    simp

variable {T : Texts}

theorem pushLabels : ∀ {ls : List Label} {acc}, acc ≠ [] → (∀ l ∈ ls, T.fromUtf8 l = true) →
    ls.foldlM (pushLabel T) acc = .ok (acc ++ ls.flatMap fun l => 46 :: l)
  | [], acc, _, _ => by simp [pure, Except.pure]
  | l :: ls, acc, hne, hutf8 => by
    have hstep : pushLabel T acc l = .ok (acc ++ [46] ++ l) := by
      simp [pushLabel, hutf8 l mem_cons_self, hne]
    rw [foldlM_cons, hstep]
    show ls.foldlM (pushLabel T) (acc ++ [46] ++ l) = _
    rw [pushLabels (by simp) fun x hx => hutf8 x (mem_cons_of_mem _ hx)]
    simp

theorem dotted_cons (l) (ls : List Label) : dotted (l :: ls) = l ++ ls.flatMap (fun x => 46 :: x) ++ [46] := by
  induction ls generalizing l with
  | nil => simp [dotted]
  | cons k ls ih =>
    have hk := ih k
    simp only [dotted, flatMap_cons] at hk ⊢
    rw [hk]
    simp

theorem pushLabels_dotted {ls : List Label} (hls : ls ≠ []) (hne : ∀ l ∈ ls, l ≠ [])
    (hutf8 : ∀ l ∈ ls, T.fromUtf8 l = true) :
    ∃ text, ls.foldlM (pushLabel T) [] = .ok text ∧ text ++ [46] = dotted ls := by
  cases ls with
  | nil => exact absurd rfl hls
  | cons l ls =>
    have hstep : pushLabel T [] l = .ok l := by simp [pushLabel, hutf8 l mem_cons_self]
    refine ⟨l ++ ls.flatMap (fun x => 46 :: x), ?_, (dotted_cons l ls).symm⟩
    rw [foldlM_cons, hstep]
    exact pushLabels (hne l mem_cons_self) fun x hx => hutf8 x (mem_cons_of_mem _ hx)

theorem rule_ok (hT : T.Lawful) {name : Name} (hname : name.encodedLen ≤ 254)
    (hr : Spellable r.labels) (hpre : r.labels <+: nameLabels name) :
    ∃ text, Index.rule T name r.asMatch = .ok text ∧ text ++ [46] = dotted r.labels.reverse := by
  have hlabel := fun l (hl : l ∈ r.labels) => canonicalLabel_spec (hr.labels l hl)
  have hutf8 : ∀ l ∈ r.labels.reverse, T.fromUtf8 l = true := fun l hl =>
    hT.utf8 l fun x hx => ((hlabel l (mem_reverse.mp hl)).2.2 x hx).2
  obtain ⟨text, htext, hdotted⟩ := pushLabels_dotted (by simpa using hr.ne)
    (fun l hl => (hlabel l (mem_reverse.mp hl)).1) hutf8
  refine ⟨text, ?_, hdotted⟩
  obtain ⟨rest, hrest⟩ := hpre
  have hslice : slice (ε := Error) (frame (nameLabels name)) 0 (frame r.labels).length = .ok (frame r.labels) := by
    rw [← hrest, frame_append, slice_of_le (by simp)]
    simp
  unfold Index.rule
  rw [Key.query_ok hname]
  show (slice (frame (nameLabels name)) 0 (frame r.labels).length >>= fun bytes => _) = _
  rw [hslice]
  show (keyLabels (frame r.labels).length [] (frame r.labels) >>= fun labels => _) = _
  rw [keyLabels_frame hr.short (by simpa using hr.count) (Nat.le_refl _)]
  exact htext

/-! ## Answers -/

/-- A label of the rule starts with a hyphen. -/
def Hyphened (labels : List Label) : Prop := ∃ l ∈ labels, l.head? = some 45

instance (labels : List Label) : Decidable (Hyphened labels) := inferInstanceAs (Decidable (∃ l ∈ labels, _))

/-- A policy of an index built from rules, as `LocalRules::compile` and `compile_inputs` make it:
whatever the rules, every slot has a source. -/
structure Compiled (added : List Added) (p : Data) : Prop where
  built : ∃ S sha256 env limits, buildIndex S sha256 env limits p.responses.localSlots p.responses.classes added =
    .ok p.index
  slots : ∀ a ∈ added, a.slot.toNat < p.sourceIds.length

variable {T : Texts} {added : List Added} {p : Data} {name : Name} {query : Message} {question : Query}

variable {labels : List Label}

theorem name_ok (hT : T.Lawful) (hne : labels ≠ [])
    (hlen : (labels.map fun l => 1 + l.length).sum ≤ 254) (hlabels : ∀ l ∈ labels, asciiLabel l = true) :
    T.name (dotted labels) = .ok ⟨labels, true⟩ := by
  simp [Texts.name, hT.accepts labels hne hlen hlabels]

theorem soa_ok (hT : T.Lawful) (owner dnsClass ttl) : ∃ record, soa T owner dnsClass ttl = .ok record := by
  have hm : ascii "blocked.parins.invalid." = dotted [ascii "blocked", ascii "parins", ascii "invalid"] := by decide
  have hr : ascii "hostmaster.parins.invalid." = dotted [ascii "hostmaster", ascii "parins", ascii "invalid"] := by decide
  have hmname : T.name (dotted [ascii "blocked", ascii "parins", ascii "invalid"]) = .ok ⟨_, true⟩ :=
    name_ok hT (by simp) (by decide) (by decide)
  have hrname : T.name (dotted [ascii "hostmaster", ascii "parins", ascii "invalid"]) = .ok ⟨_, true⟩ :=
    name_ok hT (by simp) (by decide) (by decide)
  unfold soa
  rw [hm, hr, hmname, hrname]
  exact ⟨_, rfl⟩

theorem fill_ok (hT : T.Lawful) (r : BlockResponse) (question owner ttl response) :
    ∃ message, r.fill T question owner ttl response = .ok message := by
  obtain ⟨record, hrecord⟩ := soa_ok hT owner question.queryClass ttl
  unfold BlockResponse.fill
  split
  · exact ⟨_, rfl⟩
  · split
    · exact ⟨_, rfl⟩
    · rw [hrecord]
      exact ⟨_, rfl⟩

theorem item_question (hquery : query.queries = [question]) : item (ε := Error) query.queries 0 = .ok question := by
  simp [item, hquery]

theorem answer_ok (hT : T.Lawful) (r : BlockResponse) (hquery : query.queries = [question]) (owner ttl) :
    ∃ message, r.answer T query owner ttl = .ok message := by
  obtain ⟨message, hmessage⟩ := fill_ok hT r question owner ttl (Protocol.errorResponse query r.code)
  unfold BlockResponse.answer
  rw [item_question hquery]
  show ∃ out, (r.fill T question owner ttl (Protocol.errorResponse query r.code) >>= fun response => _) = Except.ok out
  rw [hmessage]
  exact ⟨_, rfl⟩

/-- A rule without such a label is a name; any other is not. -/
theorem owner_spec (hT : T.Lawful) {text} (hr : Spellable r.labels)
    (htext : text ++ [46] = dotted r.labels.reverse) (question : Query) (name : Name) :
    if name.same question.name = true ∧ Hyphened r.labels then Data.owner T question name text = .error .panic
    else ∃ owner, Data.owner T question name text = .ok owner := by
  have hlabel := fun l (hl : l ∈ r.labels) => canonicalLabel_spec (hr.labels l hl)
  have hrule : ∀ l ∈ r.labels.reverse, ruleLabel l = true := by
    intro l hl
    obtain ⟨hne, hlen, hbytes⟩ := hlabel l (mem_reverse.mp hl)
    simp only [ruleLabel, Bool.and_eq_true, Bool.not_eq_true', decide_eq_true_eq, all_eq_true]
    exact ⟨⟨by simpa using hne, hlen⟩, fun x hx => (hbytes x hx).1⟩
  unfold Data.owner
  rw [htext]
  split
  · next h =>
    obtain ⟨l, hl, hhead⟩ := h.2
    rw [if_pos h.1, Texts.name, hT.rejects _ hrule ⟨l, mem_reverse.mpr hl, hhead⟩]
  · next h =>
    split
    · next hsame =>
      have hplain : ¬Hyphened r.labels := fun hy => h ⟨hsame, hy⟩
      refine ⟨_, name_ok hT (by simpa using hr.ne) ?_ fun l hl => ?_⟩
      · have hsum : (r.labels.reverse.map fun l => 1 + l.length).sum = (frame r.labels).length := by
          rw [length_frame, map_reverse, sum_reverse]
        rw [hsum]
        exact hr.length
      · have hhead : l.head? ≠ some 45 := fun hh => hplain ⟨l, mem_reverse.mp hl, hh⟩
        have hl := hrule l hl
        simp only [ruleLabel, Bool.and_eq_true] at hl
        simp only [asciiLabel, Bool.and_eq_true, bne_iff_ne, ne_eq]
        exact ⟨⟨hl.1, hhead⟩, hl.2⟩
    · exact ⟨_, rfl⟩

theorem answerFor_spec (hT : T.Lawful) (hname : name.encodedLen ≤ 254) (hquery : query.queries = [question])
    (hr : Spellable r.labels) (hpre : r.labels <+: nameLabels name) (hslot : r.slot < p.sourceIds.length) :
    if name.same question.name = true ∧ Hyphened r.labels then p.answerFor T query name r.asMatch = .error .panic
    else ∃ out, p.answerFor T query name r.asMatch = .ok out := by
  obtain ⟨text, hrule, htext⟩ := rule_ok hT hname hr hpre
  have hid : item (ε := Error) p.sourceIds r.slot = .ok p.sourceIds[r.slot] := by simp [item, hslot]
  have hunfold : p.answerFor T query name r.asMatch = (Data.owner T question name text >>= fun owner =>
      (p.responses.get r.slot).answer T query owner p.responses.ttl >>= fun message =>
        .ok (message, ⟨text, if p.sourceIds[r.slot].isEmpty then none else some p.sourceIds[r.slot],
          (p.responses.get r.slot).kind⟩)) := by
    unfold Data.answerFor
    rw [hrule, item_question hquery]
    show (Data.owner T question name text >>= fun owner => item p.sourceIds r.slot >>= fun id => _) = _
    rw [hid]
    rfl
  have howner := owner_spec hT hr htext question name
  rw [hunfold]
  split
  · next h =>
    rw [if_pos h] at howner
    rw [howner]
    rfl
  · next h =>
    rw [if_neg h] at howner
    obtain ⟨owner, howner⟩ := howner
    obtain ⟨message, hmessage⟩ := answer_ok hT (p.responses.get r.slot) hquery owner p.responses.ttl
    rw [howner]
    show ∃ out, ((p.responses.get r.slot).answer T query owner p.responses.ttl >>= fun message => _) = Except.ok out
    rw [hmessage]
    exact ⟨_, rfl⟩

/-- **When a block answer is not given**: the rule that is reported for the question itself has a label
that starts with a hyphen. -/
theorem blockAnswer_spec (hT : T.Lawful) (hc : Compiled added p) (hname : name.encodedLen ≤ 254)
    (hquery : query.queries = [question]) :
    ∃ b : Builder, b.localSlots = p.responses.localSlots ∧ b.classes = p.responses.classes ∧
      ((name.same question.name = true ∧ ¬Allowed added name ∧
          ∃ r, IsKept b (added.map Added.rule) r ∧ Applies (nameLabels name) r ∧ Hyphened r.labels) ∧
        p.blockAnswer T query name = .error .panic ∨
      ¬(name.same question.name = true ∧ ¬Allowed added name ∧
          ∃ r, IsKept b (added.map Added.rule) r ∧ Applies (nameLabels name) r ∧ Hyphened r.labels) ∧
        ∃ out, p.blockAnswer T query name = .ok out) := by
  obtain ⟨S, sha256, env, limits, hbuild⟩ := hc.built
  obtain ⟨b, m, hlocal, hclasses, hrules, hmatch, hsome, hleast⟩ := blockMatch_least hbuild hname
  refine ⟨b, hlocal, hclasses, ?_⟩
  cases m with
  | none =>
    have hnone : p.blockAnswer T query name = .ok none := by
      unfold Data.blockAnswer
      rw [hmatch]
      rfl
    refine .inr ⟨fun ⟨_, hallowed, r, hr, happ, _⟩ => ?_, none, hnone⟩
    have hblocked : Blocked added name := matches_iff.mpr ⟨r, hr.mem, happ⟩
    cases hsome.mpr ⟨hallowed, hblocked⟩
  | some x =>
    obtain ⟨w, rfl, hw⟩ := hleast x rfl
    obtain ⟨hwkept, hwapp⟩ := hw.1
    have hwmem := hwkept.mem
    obtain ⟨a, ha, hrule⟩ := mem_map.mp hwmem
    have hslot : w.slot < p.sourceIds.length := hrule ▸ hc.slots a ha
    have hanswer := answerFor_spec hT hname hquery (hrules w hwmem) hwapp.labels hslot
    have hunfold : p.blockAnswer T query name = (p.answerFor T query name w.asMatch).map some := by
      unfold Data.blockAnswer
      rw [hmatch]
      rfl
    by_cases hy : name.same question.name = true ∧ Hyphened w.labels
    · rw [if_pos hy] at hanswer
      refine .inl ⟨⟨hy.1, (hsome.mp rfl).1, w, hwkept, hwapp, hy.2⟩, ?_⟩
      rw [hunfold, hanswer]
      rfl
    · rw [if_neg hy] at hanswer
      obtain ⟨out, hout⟩ := hanswer
      refine .inr ⟨fun ⟨hsame, _, r, hr, happ, l, hl, hhead⟩ => ?_, some out, ?_⟩
      · exact hy ⟨hsame, l, (hw.longest hr happ).subset hl, hhead⟩
      · rw [hunfold, hout]
        rfl

/-! ## Chains -/

theorem same_iff {x y : Name} : x.same y = true ↔ x.toLowercase = y.toLowercase := by simp [Name.same]

def unseen (links : List (Name × Name)) (visited : List Name) : Nat :=
  links.countP fun link => !visited.any (·.same link.1)

variable {links : List (Name × Name)}

theorem unseen_visit {visited : List Name} (hnew : visited.any (·.same name) = false) :
    unseen links (name :: visited) + (links.filter fun link => link.1.same name).length = unseen links visited := by
  unfold unseen
  induction links with
  | nil => rfl
  | cons link links ih =>
    simp only [countP_cons, filter_cons, any_cons] at ih ⊢
    by_cases hsame : link.1.same name = true
    · have hback : name.same link.1 = true := same_iff.mpr (same_iff.mp hsame).symm
      have hout : visited.any (·.same link.1) = false := by
        rw [any_eq_false] at hnew ⊢
        intro v hv hvl
        exact hnew v hv (same_iff.mpr ((same_iff.mp hvl).trans (same_iff.mp hsame)))
      simp only [hsame, hback, hout, if_true, Bool.true_or, Bool.not_true, Bool.false_eq_true, if_false, Bool.not_false,
        length_cons]
      omega
    · have hback : name.same link.1 = false := by
        rw [Bool.eq_false_iff]
        exact fun h => hsame (same_iff.mpr (same_iff.mp h).symm)
      simp only [hsame, hback, if_false, Bool.false_or, Bool.false_eq_true]
      omega

/-- The loop ends, and fails only where a name fails. -/
theorem followChain_ok (hanswer : ∀ name : Name, name.encodedLen ≤ 254 → ∃ out, p.blockAnswer T query name = .ok out)
    (hlinks : ∀ link ∈ links, link.2.encodedLen ≤ 254) : ∀ {fuel} {visited pending : List Name},
    (∀ name ∈ pending, name.encodedLen ≤ 254) → pending.length + unseen links visited ≤ fuel →
      ∃ out, p.followChain T query links fuel visited pending = .ok out
  | fuel, _, [], _, _ => by
    refine ⟨none, ?_⟩
    cases fuel <;> rfl
  | 0, _, _ :: _, _, hfuel => by simp at hfuel
  | fuel + 1, visited, name :: pending, hpending, hfuel => by
    unfold Data.followChain
    simp only [length_cons] at hfuel
    split
    · exact followChain_ok hanswer hlinks (fun n hn => hpending n (mem_cons_of_mem _ hn)) (by omega)
    · next hnew =>
      obtain ⟨out, hout⟩ := hanswer name (hpending name mem_cons_self)
      rw [hout]
      cases out with
      | some answer => exact ⟨some answer, rfl⟩
      | none =>
        have hcount : unseen links (name :: visited) + (links.filter fun link => link.1.same name).length =
            unseen links visited := unseen_visit (Bool.eq_false_iff.mpr hnew)
        refine followChain_ok hanswer hlinks (fun n hn => ?_) (by simp; omega)
        rcases mem_append.mp hn with hn | hn
        · obtain ⟨link, hlink, rfl⟩ := mem_map.mp (mem_reverse.mp hn)
          exact hlinks link (mem_filter.mp hlink).1
        · exact hpending n (mem_cons_of_mem _ hn)

theorem applyResponse_ok {response : Message} (hquery : query.queries = [question])
    (hanswer : ∀ name : Name, name.encodedLen ≤ 254 → ∃ out, p.blockAnswer T query name = .ok out)
    (hname : question.name.encodedLen ≤ 254)
    (htargets : ∀ rr ∈ response.answers, ∀ target, rr.data = .cname target → target.encodedLen ≤ 254) :
    ∃ out, p.applyResponse T query response = .ok out := by
  unfold Data.applyResponse
  split
  · exact ⟨_, rfl⟩
  have hlinks : ∀ link ∈ Data.links question response, link.2.encodedLen ≤ 254 := by
    intro link hlink
    obtain ⟨rr, hrr, hsome⟩ := mem_filterMap.mp hlink
    split at hsome
    · split at hsome
      · next target hdata =>
        cases hsome
        exact htargets rr hrr target hdata
      · cases hsome
    · cases hsome
  have hpending : ∀ name ∈ [question.name], name.encodedLen ≤ 254 := by simpa using hname
  have hfuel : [question.name].length + unseen (Data.links question response) [] ≤
      (Data.links question response).length + 1 := by
    have : unseen (Data.links question response) [] ≤ (Data.links question response).length := countP_le_length
    simp
    omega
  obtain ⟨out, hout⟩ := followChain_ok hanswer hlinks hpending hfuel
  rw [item_question hquery]
  show ∃ o, (p.followChain T query (Data.links question response) ((Data.links question response).length + 1) []
    [question.name] >>= fun found => _) = Except.ok o
  rw [hout]
  cases out with
  | none => exact ⟨_, rfl⟩
  | some answer => exact ⟨_, rfl⟩

/-! ## Policies that answer every query -/

/-- A builder with the slots and classes of a policy. What it keeps depends on nothing else of it. -/
def pruner (responses : Responses) : Builder where
  arena := .empty
  records := .empty
  budget := ⟨0, 0, 0⟩
  localSlots := responses.localSlots
  classes := responses.classes
  maxRules := 0
  failed := none

theorem isKept_congr {b b' : Builder} (hlocal : b.localSlots = b'.localSlots) (hclasses : b.classes = b'.classes) :
    IsKept b rules r ↔ IsKept b' rules r := by
  have hcovers : b.covers = b'.covers := by
    funext g c s
    simp [Builder.covers, Builder.isLocal, Builder.classOf, hlocal, hclasses]
  have hkept : kept b rules = kept b' rules := by
    funext g
    cases g <;> simp [kept, hcovers]
  rw [IsKept, IsKept, hkept]

/-- **A compiled policy answers every query** exactly when every name that one of its block rules with a
label that starts with a hyphen applies to is allowed. -/
theorem answers_iff_hyphens_allowed (hT : T.Lawful) (hc : Compiled added p) :
    (∀ (query : Message) (question : Query), query.queries = [question] → question.name.encodedLen ≤ 254 →
      (∃ out, p.blockQuery T query = .ok out) ∧
      ∀ response : Message, (∀ rr ∈ response.answers, ∀ target, rr.data = .cname target → target.encodedLen ≤ 254) →
        ∃ out, p.applyResponse T query response = .ok out) ↔
    ∀ r, IsKept (pruner p.responses) (added.map Added.rule) r → Hyphened r.labels →
      ∀ name : Name, name.encodedLen ≤ 254 → Applies (nameLabels name) r → Allowed added name := by
  have hquestion : ∀ {query : Message} {question : Query}, query.queries = [question] →
      p.blockQuery T query = p.blockAnswer T query question.name := by
    intro query question hquery
    unfold Data.blockQuery
    rw [item_question hquery]
    rfl
  constructor
  · intro hall r hr hy name hname happ
    by_contra hallowed
    let query : Message := { id := 0, messageType := .query, opCode := .query, queries := [⟨name, .A, .IN⟩] }
    have hquery : query.queries = [⟨name, .A, .IN⟩] := rfl
    obtain ⟨b, hlocal, hclasses, hspec⟩ := blockAnswer_spec hT hc hname hquery
    have hr : IsKept b (added.map Added.rule) r := (isKept_congr hlocal hclasses).mpr hr
    have hcond : name.same name = true := same_iff.mpr rfl
    obtain ⟨⟨out, hout⟩, _⟩ := hall query _ hquery hname
    rw [hquestion hquery] at hout
    rcases hspec with ⟨_, hpanic⟩ | ⟨hnot, _⟩
    · cases hpanic.symm.trans hout
    · exact hnot ⟨hcond, hallowed, r, hr, happ, hy⟩
  · intro hcond query question hquery hname
    have hanswer : ∀ name : Name, name.encodedLen ≤ 254 → ∃ out, p.blockAnswer T query name = .ok out := by
      intro name hname
      obtain ⟨b, hlocal, hclasses, ⟨⟨_, hallowed, r, hr, happ, hy⟩, _⟩ | ⟨_, hout⟩⟩ := blockAnswer_spec hT hc hname hquery
      · have hr : IsKept (pruner p.responses) (added.map Added.rule) r := (isKept_congr hlocal hclasses).mp hr
        exact absurd (hcond r hr hy name hname happ) hallowed
      · exact hout
    refine ⟨?_, fun response htargets => applyResponse_ok hquery hanswer hname htargets⟩
    rw [hquestion hquery]
    exact hanswer question.name hname

/-! ### A rule that is no name -/

/-- Labels that each end in a dot. -/
def readDotted : Label → Bytes → Option (List Label)
  | label, [] => if label.isEmpty then some [] else none
  | label, x :: rest =>
    if x = 46 then (if asciiLabel label then (readDotted [] rest).map (label :: ·) else none)
    else readDotted (label ++ [x]) rest

/-- The parsers, on absolute names and ASCII texts. -/
def sampleTexts : Texts where
  fromAscii text := (readDotted [] text).map fun labels => ⟨labels, true⟩
  fromUtf8 bytes := bytes.all (· < 128)

theorem readDotted_label {l label rest} (h : 46 ∉ l) : readDotted label (l ++ 46 :: rest) =
    if asciiLabel (label ++ l) then (readDotted [] rest).map ((label ++ l) :: ·) else none := by
  induction l generalizing label with
  | nil => simp [readDotted]
  | cons x l ih =>
    simp only [mem_cons, not_or] at h
    have hx : x ≠ 46 := fun heq => h.1 heq.symm
    simp only [cons_append, readDotted, hx, if_false]
    rw [ih h.2]
    simp

theorem readDotted_dotted (h : ∀ l ∈ labels, 46 ∉ l) :
    readDotted [] (dotted labels) = if labels.all asciiLabel then some labels else none := by
  induction labels with
  | nil => rfl
  | cons l labels ih =>
    have hcons : dotted (l :: labels) = l ++ 46 :: dotted labels := by simp [dotted]
    rw [hcons, readDotted_label (h l mem_cons_self), ih fun x hx => h x (mem_cons_of_mem _ hx)]
    by_cases hl : asciiLabel l = true
    · by_cases hrest : labels.all asciiLabel = true
      · simp [hl, hrest]
      · simp [hl, hrest]
    · simp [hl]

theorem sampleTexts_lawful : sampleTexts.Lawful where
  accepts labels _ _ hlabels := by
    have hdots : ∀ l ∈ labels, 46 ∉ l := by
      intro l hl hmem
      have hl := hlabels l hl
      simp only [asciiLabel, Bool.and_eq_true, all_eq_true] at hl
      exact absurd (hl.2 46 hmem) (by decide)
    simp [sampleTexts, readDotted_dotted hdots, all_eq_true.mpr hlabels]
  rejects labels hlabels hhyphen := by
    have hdots : ∀ l ∈ labels, 46 ∉ l := by
      intro l hl hmem
      have hl := hlabels l hl
      simp only [ruleLabel, Bool.and_eq_true, all_eq_true] at hl
      exact absurd (hl.2 46 hmem) (by decide)
    obtain ⟨l, hl, hhead⟩ := hhyphen
    have hnot : labels.all asciiLabel = false := by
      refine Bool.eq_false_iff.mpr fun hall => ?_
      have hascii := all_eq_true.mp hall l hl
      simp [asciiLabel, hhead] at hascii
    simp [sampleTexts, readDotted_dotted hdots, hnot]
  utf8 bytes h := by simpa [sampleTexts] using h

def sampleResponses : Responses := ⟨.nodata, 10, 1, [none, none]⟩

def sampleQuestion : Message :=
  { id := 7, messageType := .query, opCode := .query, queries := [⟨⟨[[120], [98], [99, 111, 109]], true⟩, .A, .IN⟩] }

/-- The sample rules compile; `f` is what is asked of them. -/
theorem sample_compiled {β : Type} {f : Data → β} {b : β}
    (h : (buildIndex .insertion (fun _ => sampleDigest) quietEnv ⟨1000, 1000000, 0⟩ 1 sampleResponses.classes
      sampleRules).toOption.map (fun ix => f ⟨ix, [[], [115]], sampleResponses⟩) = some b) :
    ∃ p, Compiled sampleRules p ∧ f p = b := by
  obtain ⟨ix, hix, hb⟩ := exists_ok_of_map h
  have hslots : ∀ a ∈ sampleRules, a.slot.toNat < 2 := by decide
  exact ⟨⟨ix, [[], [115]], sampleResponses⟩, ⟨⟨_, _, _, _, hix⟩, hslots⟩, hb⟩

theorem sample_plain : ∀ r ∈ sampleRules.map Added.rule, ¬Hyphened r.labels := by decide +kernel

/-- The sample rules have no hyphens, so they answer. -/
theorem answers_iff_hyphens_allowed_sample : ∃ p, Compiled sampleRules p ∧ p.responses = sampleResponses ∧
    ∃ out, p.blockQuery sampleTexts sampleQuestion = .ok out := by
  obtain ⟨p, hc, hresponses⟩ := sample_compiled (f := (·.responses)) (b := sampleResponses) (by decide +kernel)
  refine ⟨p, hc, hresponses, (((answers_iff_hyphens_allowed sampleTexts_lawful hc).mpr ?_) sampleQuestion _ rfl
    (by decide)).1⟩
  intro r hr hy name _ happ
  exact absurd hy (sample_plain r hr.mem)

def hyphenRules : List Added := [⟨[45, 97], .blockExact, 0⟩]

def hyphenDigest : Digest :=
  #v[41, 243, 250, 160, 50, 181, 226, 69, 33, 194, 210, 191, 154, 40, 197, 20,
    191, 85, 252, 210, 170, 186, 101, 201, 78, 76, 142, 26, 70, 156, 232, 105]

def hyphenQuestion : Message :=
  { id := 7, messageType := .query, opCode := .query, queries := [⟨⟨[[45, 97]], true⟩, .A, .IN⟩] }

/-- The rules are accepted; `f` is what a question comes to. -/
theorem hyphen_compiled {β : Type} {f : Data → Except Fault β}
    (h : (buildIndex .insertion (fun _ => hyphenDigest) quietEnv ⟨1000, 1000000, 0⟩ 1 [0] hyphenRules).toOption.map
      (fun ix => f ⟨ix, [[]], ⟨.nodata, 10, 1, [none]⟩⟩) = some (.error .panic)) :
    ∃ p, Compiled hyphenRules p ∧ f p = .error .panic := by
  obtain ⟨ix, hix, hpanic⟩ := exists_ok_of_map h
  have hslots : ∀ a ∈ hyphenRules, a.slot.toNat < 1 := by decide
  exact ⟨⟨ix, [[]], ⟨.nodata, 10, 1, [none]⟩⟩, ⟨⟨_, _, _, _, hix⟩, hslots⟩, hpanic⟩

/-- The rule is accepted, and the question that it matches panics. -/
theorem hyphen_rule_panics : ∃ p, Compiled hyphenRules p ∧ p.blockQuery sampleTexts hyphenQuestion = .error .panic :=
  hyphen_compiled (by decide +kernel)

end Parins.Policy
