/-
`apply_response` over the whole alias graph of a response: the loop stops at a
blocked name that the question reaches, or has seen every such name and found
none blocked.
-/
import Parins.Policy.Owner

namespace Parins.Policy
open Lib List

/-- The names that a question reaches through the aliases of its class. -/
inductive Reaches (question : Query) (response : Message) : Name → Prop
  | question : Reaches question response question.name
  | through {name target : Name} {rr : Parins.Record} (reached : Reaches question response name)
      (mem : rr ∈ response.answers) (dnsClass : rr.dnsClass = question.queryClass) (owner : rr.name.same name = true)
      (data : rr.data = .cname target) : Reaches question response target

variable {T : Texts} {p : Data} {added : List Added} {query response : Message} {question : Query} {name : Name}
  {links : List (Name × Name)}

def Blocks (added : List Added) (name : Name) : Prop := ¬Allowed added name ∧ Blocked added name

theorem mem_links {owner target} : (owner, target) ∈ Data.links question response ↔
    ∃ rr ∈ response.answers, rr.dnsClass = question.queryClass ∧ rr.data = .cname target ∧ rr.name = owner := by
  simp only [Data.links, mem_filterMap]
  constructor
  · intro ⟨rr, hrr, hsome⟩
    split at hsome
    · next hclass =>
      split at hsome
      · next hdata =>
        cases hsome
        exact ⟨rr, hrr, hclass, hdata, rfl⟩
      · cases hsome
    · cases hsome
  · intro ⟨rr, hrr, hclass, hdata, howner⟩
    refine ⟨rr, hrr, ?_⟩
    rw [if_pos hclass, hdata, howner]

variable {x y : Name}

theorem nameLabels_same (h : x.same y = true) : nameLabels x = nameLabels y := by
  unfold nameLabels
  rw [same_iff.mp h]

theorem blocks_same (h : x.same y = true) : Blocks added x ↔ Blocks added y := by
  unfold Blocks Allowed Blocked
  rw [matches_iff, matches_iff, matches_iff, matches_iff, nameLabels_same h]

theorem blockAnswer_isSome (hc : Compiled added p) (hname : name.encodedLen ≤ 254)
    {out : Option (Message × BlockTrace)} (h : p.blockAnswer T query name = .ok out) :
    out.isSome = true ↔ Blocks added name := by
  obtain ⟨S, sha256, env, limits, hbuild⟩ := hc.built
  obtain ⟨b, m, -, -, -, hmatch, hsome, -⟩ := blockMatch_least hbuild hname
  unfold Data.blockAnswer at h
  rw [hmatch] at h
  cases m with
  | none =>
    cases h
    exact hsome
  | some x =>
    obtain ⟨answer, _, rfl⟩ := map_eq_ok.mp h
    exact hsome

theorem indexRules_ne_zero (hc : Compiled added p) (hname : name.encodedLen ≤ 254) (h : Blocks added name) :
    p.index.indexRules ≠ 0 := by
  obtain ⟨S, sha256, env, limits, hbuild⟩ := hc.built
  obtain ⟨b, m, hlocal, hclasses, -, -, hsome, hleast⟩ := blockMatch_least hbuild hname
  obtain ⟨x, hx⟩ := Option.isSome_iff_exists.mp (hsome.mpr h)
  obtain ⟨r, -, hr⟩ := hleast x hx
  obtain ⟨b', c, out, t, hlocal', hclasses', -, -, -, -, hi, hf⟩ := buildIndex_ok hbuild
  have hkept : IsKept b' (added.map Added.rule) r :=
    (isKept_congr (hlocal.trans hlocal'.symm) (hclasses.trans hclasses'.symm)).mp hr.1.1
  obtain ⟨-, hslot, v, hv, hget⟩ := hf.covers hkept
  obtain ⟨record, hrecord, -⟩ := (hi.slots hv (Nat.ne_of_lt hslot)).mp hget
  rw [hi.indexRules]
  exact Nat.ne_of_gt (length_pos_of_mem hrecord)

/-! ## The loop -/

/-- Every visited name was let through, and its aliases lead to names that were visited or wait. -/
structure Closed (T : Texts) (p : Data) (query : Message) (links : List (Name × Name)) (visited pending : List Name) :
    Prop where
  passed : ∀ v ∈ visited, v.encodedLen ≤ 254 ∧ p.blockAnswer T query v = .ok none
  aliases : ∀ v ∈ visited, ∀ link ∈ links, link.1.same v = true →
    (∃ w ∈ visited, w.same link.2 = true) ∨ link.2 ∈ pending

theorem same_refl (x : Name) : x.same x = true := same_iff.mpr rfl

theorem same_symm (h : x.same y = true) : y.same x = true := same_iff.mpr (same_iff.mp h).symm

theorem same_trans {z} (hxy : x.same y = true) (hyz : y.same z = true) : x.same z = true :=
  same_iff.mpr ((same_iff.mp hxy).trans (same_iff.mp hyz))

namespace Closed

variable {visited pending : List Name}

theorem skip (h : Closed T p query links visited (name :: pending)) (hseen : visited.any (·.same name) = true) :
    Closed T p query links visited pending := by
  refine ⟨h.passed, fun v hv link hlink hsame => ?_⟩
  rcases h.aliases v hv link hlink hsame with hw | hmem
  · exact .inl hw
  · rcases mem_cons.mp hmem with heq | hmem
    · rw [heq]
      exact .inl (by simpa using hseen)
    · exact .inr hmem

theorem visit (h : Closed T p query links visited (name :: pending)) (hlen : name.encodedLen ≤ 254)
    (hnone : p.blockAnswer T query name = .ok none) : Closed T p query links (name :: visited)
      (((links.filter fun link => link.1.same name).map Prod.snd).reverse ++ pending) := by
  refine ⟨?_, ?_⟩
  · intro v hv
    rcases mem_cons.mp hv with rfl | hv
    · exact ⟨hlen, hnone⟩
    · exact h.passed v hv
  · intro v hv link hlink hsame
    rcases mem_cons.mp hv with rfl | hv
    · refine .inr (mem_append_left _ (mem_reverse.mpr (mem_map.mpr ⟨link, ?_, rfl⟩)))
      exact mem_filter.mpr ⟨hlink, hsame⟩
    · rcases h.aliases v hv link hlink hsame with ⟨w, hw, hws⟩ | hmem
      · exact .inl ⟨w, mem_cons_of_mem _ hw, hws⟩
      · rcases mem_cons.mp hmem with heq | hmem
        · exact .inl ⟨name, mem_cons_self, heq ▸ same_refl name⟩
        · exact .inr (mem_append_right _ hmem)

end Closed

/-- The loop stops at a name that was waiting or is reached from one, or it ends with a closed set of
names that covers the stack. -/
theorem followChain_spec {P : Name → Prop} (hP : ∀ name, P name → ∀ link ∈ links, link.1.same name = true → P link.2)
    (hlen : ∀ name, P name → name.encodedLen ≤ 254) :
      ∀ {fuel : Nat} {visited pending out}, (∀ name ∈ pending, P name) → Closed T p query links visited pending →
      p.followChain T query links fuel visited pending = .ok out →
      (∀ answer, out = some answer → ∃ name, P name ∧ p.blockAnswer T query name = .ok (some answer)) ∧
      (out = none → ∃ final, Closed T p query links final [] ∧
        ∀ name, name ∈ visited ∨ name ∈ pending → ∃ w ∈ final, w.same name = true)
  | fuel, visited, [], out, _, hclosed, h => by
    have hout : out = none := by
      cases fuel <;> cases h <;> rfl
    subst hout
    refine ⟨?_, fun _ => ⟨visited, hclosed, fun name hname => ?_⟩⟩
    · intro answer hsome
      cases hsome
    rcases hname with hname | hname
    · exact ⟨name, hname, same_refl name⟩
    · cases hname
  | 0, _, _ :: _, _, _, _, h => by cases h
  | fuel + 1, visited, name :: pending, out, hpending, hclosed, h => by
    have hname : P name := hpending name mem_cons_self
    have hrest : ∀ n ∈ pending, P n := fun n hn => hpending n (mem_cons_of_mem _ hn)
    unfold Data.followChain at h
    split at h
    · next hseen =>
      obtain ⟨hsome, hnone⟩ := followChain_spec hP hlen hrest (hclosed.skip hseen) h
      refine ⟨hsome, fun hout => ?_⟩
      obtain ⟨final, hfinal, hcover⟩ := hnone hout
      refine ⟨final, hfinal, fun n hn => ?_⟩
      rcases hn with hn | hn
      · exact hcover n (.inl hn)
      · rcases mem_cons.mp hn with rfl | hn
        · obtain ⟨v, hv, hvs⟩ := any_eq_true.mp hseen
          obtain ⟨w, hw, hws⟩ := hcover v (.inl hv)
          exact ⟨w, hw, same_trans hws hvs⟩
        · exact hcover n (.inr hn)
    · obtain ⟨found, hanswer, h⟩ := bind_eq_ok.mp h
      cases found with
      | some answer =>
        cases h
        exact ⟨fun a ha => ⟨name, hname, by rw [hanswer, ha]⟩, fun h => by cases h⟩
      | none =>
        have hnext : ∀ n ∈ ((links.filter fun link => link.1.same name).map Prod.snd).reverse ++ pending, P n := by
          intro n hn
          rcases mem_append.mp hn with hn | hn
          · obtain ⟨link, hlink, rfl⟩ := mem_map.mp (mem_reverse.mp hn)
            obtain ⟨hlink, hsame⟩ := mem_filter.mp hlink
            exact hP name hname link hlink hsame
          · exact hrest n hn
        obtain ⟨hsome, hnone⟩ := followChain_spec hP hlen hnext (hclosed.visit (hlen name hname) hanswer) h
        refine ⟨hsome, fun hout => ?_⟩
        obtain ⟨final, hfinal, hcover⟩ := hnone hout
        refine ⟨final, hfinal, fun n hn => ?_⟩
        rcases hn with hn | hn
        · exact hcover n (.inl (mem_cons_of_mem _ hn))
        · rcases mem_cons.mp hn with rfl | hn
          · exact hcover n (.inl mem_cons_self)
          · exact hcover n (.inr (mem_append_right _ hn))

theorem Closed.covers {final} (h : Closed T p query (Data.links question response) final [])
    (hq : ∃ w ∈ final, w.same question.name = true) (hreach : Reaches question response name) :
    ∃ w ∈ final, w.same name = true := by
  induction hreach with
  | question => exact hq
  | @through name target rr _ mem dnsClass owner data ih =>
    obtain ⟨w, hw, hws⟩ := ih
    have hlink : (rr.name, target) ∈ Data.links question response := mem_links.mpr ⟨rr, mem, dnsClass, data, rfl⟩
    rcases h.aliases w hw _ hlink (same_trans owner (same_symm hws)) with hw | hmem
    · exact hw
    · cases hmem

/-! ## The whole response -/

/-- What `apply_response` is for. -/
structure Filtered (T : Texts) (p : Data) (added : List Added) (query : Message) (question : Query)
    (response out : Message) (trace : Option BlockTrace) : Prop where
  blocked : trace.isSome = true ↔ ∃ name, Reaches question response name ∧ Blocks added name
  unchanged : trace = none → out = response
  reported : ∀ t, trace = some t → ∃ name, Reaches question response name ∧ Blocks added name ∧
    p.blockAnswer T query name = .ok (some (out, t))

/-- The rule that is reported for the question itself is no owner name. -/
def HyphenBlocks (p : Data) (added : List Added) (name : Name) : Prop :=
  ¬Allowed added name ∧ ∃ r, IsKept (pruner p.responses) (added.map Added.rule) r ∧ Applies (nameLabels name) r ∧
    Hyphened r.labels

theorem reaches_encodedLen (hname : question.name.encodedLen ≤ 254)
    (htargets : ∀ rr ∈ response.answers, ∀ target, rr.data = .cname target → target.encodedLen ≤ 254)
    (h : Reaches question response name) : name.encodedLen ≤ 254 := by
  cases h with
  | question => exact hname
  | through _ mem _ _ data => exact htargets _ mem _ data

theorem blockAnswer_ok (hT : T.Lawful) (hc : Compiled added p) (hquery : query.queries = [question])
    (hplain : ¬HyphenBlocks p added question.name) {name : Name} (hname : name.encodedLen ≤ 254) :
    ∃ out, p.blockAnswer T query name = .ok out := by
  obtain ⟨b, hlocal, hclasses, ⟨⟨hsame, hallowed, r, hr, happ, hy⟩, _⟩ | ⟨_, hout⟩⟩ := blockAnswer_spec hT hc hname hquery
  · refine absurd ⟨?_, r, (isKept_congr hlocal hclasses).mp hr, ?_, hy⟩ hplain
    · unfold Allowed at hallowed ⊢
      rw [matches_iff] at hallowed ⊢
      rw [← nameLabels_same hsame]
      exact hallowed
    · rw [← nameLabels_same hsame]
      exact happ
  · exact hout

/-- **The filter of responses is exact** whenever the question itself is not blocked by a rule with a
label that starts with a hyphen, and panics otherwise. -/
theorem applyResponse_exact (hT : T.Lawful) (hc : Compiled added p) (hquery : query.queries = [question])
    (hname : question.name.encodedLen ≤ 254)
    (htargets : ∀ rr ∈ response.answers, ∀ target, rr.data = .cname target → target.encodedLen ≤ 254) :
    (∃ out trace, p.applyResponse T query response = .ok (out, trace) ∧
      Filtered T p added query question response out trace) ↔ ¬HyphenBlocks p added question.name := by
  have hunfold : p.index.indexRules ≠ 0 → p.applyResponse T query response =
      (p.followChain T query (Data.links question response) ((Data.links question response).length + 1) []
        [question.name] >>= fun found => .ok (found.elim (response, none) fun answer => (answer.1, some answer.2))) := by
    intro hrules
    unfold Data.applyResponse
    rw [if_neg hrules, item_question hquery]
    simp only [bind, Except.bind]
    cases p.followChain T query (Data.links question response) ((Data.links question response).length + 1) []
      [question.name] with
    | error e => rfl
    | ok found => cases found <;> rfl
  constructor
  · rintro ⟨out, trace, hout, _⟩ hy
    -- the question is popped first
    obtain ⟨b, hlocal, hclasses, hspec⟩ := blockAnswer_spec hT hc hname hquery
    obtain ⟨hallowed, r, hr, happ, hyphen⟩ := hy
    have hblocked : Blocked added question.name := matches_iff.mpr ⟨r, hr.mem, happ⟩
    have hpanic : p.blockAnswer T query question.name = .error .panic := by
      rcases hspec with ⟨_, hpanic⟩ | ⟨hnot, _⟩
      · exact hpanic
      · exact absurd ⟨same_refl _, hallowed, r, (isKept_congr hlocal hclasses).mpr hr, happ, hyphen⟩ hnot
    rw [hunfold (indexRules_ne_zero hc hname ⟨hallowed, hblocked⟩)] at hout
    have hloop : p.followChain T query (Data.links question response) ((Data.links question response).length + 1) []
        [question.name] = .error .panic := by
      unfold Data.followChain
      rw [hpanic]
      rfl
    rw [hloop] at hout
    cases hout
  · intro hplain
    have hanswer : ∀ name : Name, name.encodedLen ≤ 254 → ∃ out, p.blockAnswer T query name = .ok out :=
      fun _ hn => blockAnswer_ok hT hc hquery hplain hn
    have hlen : ∀ name, Reaches question response name → name.encodedLen ≤ 254 :=
      fun _ h => reaches_encodedLen hname htargets h
    by_cases hrules : p.index.indexRules = 0
    · refine ⟨response, none, by unfold Data.applyResponse; rw [if_pos hrules], ⟨?_, fun _ => rfl, by simp⟩⟩
      refine ⟨by simp, ?_⟩
      rintro ⟨name, hreach, hblocks⟩
      exact absurd hrules (indexRules_ne_zero hc (hlen name hreach) hblocks)
    · obtain ⟨out, hout⟩ := applyResponse_ok hquery hanswer hname htargets
      rw [hunfold hrules] at hout
      have hstep : ∀ name, Reaches question response name → ∀ link ∈ Data.links question response,
          link.1.same name = true → Reaches question response link.2 := by
        intro name hreach link hlink hsame
        obtain ⟨rr, hrr, hclass, hdata, howner⟩ := mem_links.mp hlink
        exact .through hreach hrr hclass (howner ▸ hsame) hdata
      cases hloop : p.followChain T query (Data.links question response) ((Data.links question response).length + 1) []
          [question.name] with
      | error e =>
        rw [hloop] at hout
        cases hout
      | ok found =>
        have hstart : Closed T p query (Data.links question response) [] [question.name] :=
          ⟨by simp, by simp⟩
        have hpending : ∀ n ∈ [question.name], Reaches question response n := by
          intro n hn
          rw [mem_singleton.mp hn]
          exact .question
        obtain ⟨hsome, hnone⟩ := followChain_spec hstep hlen hpending hstart hloop
        rw [hunfold hrules, hloop]
        cases found with
        | some answer =>
          obtain ⟨name, hreach, hblock⟩ := hsome answer rfl
          have hblocks : Blocks added name := (blockAnswer_isSome hc (hlen name hreach) hblock).mp rfl
          refine ⟨answer.1, some answer.2, rfl, ⟨⟨fun _ => ⟨name, hreach, hblocks⟩, fun _ => rfl⟩, by simp, ?_⟩⟩
          intro t ht
          cases ht
          exact ⟨name, hreach, hblocks, hblock⟩
        | none =>
          obtain ⟨final, hfinal, hcover⟩ := hnone rfl
          refine ⟨response, none, rfl, ⟨⟨by simp, ?_⟩, fun _ => rfl, by simp⟩⟩
          rintro ⟨name, hreach, hblocks⟩
          obtain ⟨w, hw, hws⟩ := hfinal.covers (hcover question.name (.inr (mem_singleton_self _))) hreach
          obtain ⟨hwlen, hpassed⟩ := hfinal.passed w hw
          exact (blockAnswer_isSome hc hwlen hpassed).mpr ((blocks_same hws).mpr hblocks)

/-- A question for `a.com`, and its alias `b.com`. -/
def aliasQuestion : Message :=
  { id := 7, messageType := .query, opCode := .query, queries := [⟨⟨[[97], [99, 111, 109]], true⟩, .A, .IN⟩] }

def aliasResponse : Message :=
  { id := 7, messageType := .response, opCode := .query, queries := aliasQuestion.queries,
    answers := [⟨⟨[[65], [99, 111, 109]], true⟩, 60, .IN, .cname ⟨[[98], [99, 111, 109]], true⟩⟩] }

/-- The exception for `a.com` does not let its alias through. -/
theorem applyResponse_exact_alias : ∃ p, Compiled sampleRules p ∧
    ∃ out t, p.applyResponse sampleTexts aliasQuestion aliasResponse = .ok (out, some t) := by
  obtain ⟨p, hc, -⟩ := sample_compiled (f := fun _ => ()) (b := ()) (by decide +kernel)
  have hquery : aliasQuestion.queries = [⟨⟨[[97], [99, 111, 109]], true⟩, .A, .IN⟩] := rfl
  have htargets : ∀ rr ∈ aliasResponse.answers, ∀ target, rr.data = .cname target → target.encodedLen ≤ 254 := by
    intro rr hrr target hdata
    rw [mem_singleton.mp hrr] at hdata
    cases hdata
    decide
  obtain ⟨out, trace, hout, hf⟩ := (applyResponse_exact sampleTexts_lawful hc hquery (by decide) htargets).mpr
    fun ⟨_, r, hr, happ, hy⟩ => sample_plain r hr.mem hy
  have hreach : Reaches ⟨⟨[[97], [99, 111, 109]], true⟩, .A, .IN⟩ aliasResponse ⟨[[98], [99, 111, 109]], true⟩ :=
    .through .question (mem_singleton_self _) rfl (by decide) rfl
  have hblocks : Blocks sampleRules ⟨[[98], [99, 111, 109]], true⟩ := by
    unfold Blocks
    decide +kernel
  obtain ⟨t, ht⟩ := Option.isSome_iff_exists.mp (hf.blocked.mpr ⟨_, hreach, hblocks⟩)
  exact ⟨_, hc, out, t, ht ▸ hout⟩

/-- The rule `-a` makes `apply_response` panic for the question that it blocks. -/
theorem hyphen_rule_panics_response : ∃ p, Compiled hyphenRules p ∧
    p.applyResponse sampleTexts hyphenQuestion aliasResponse = .error .panic :=
  hyphen_compiled (by decide +kernel)

end Parins.Policy
