/-
The structures of fixed size in the policy compiler and its index are large
enough: no rule that a builder takes and no query overruns one, and no number is
cut off when it is stored.
-/
import Parins.Policy.Owner

namespace Parins.Policy
open Lib Lib.Radix List

theorem foldlM_pushRule_safe : ∀ {labels : List Label} {k : Bytes},
    k.length + (labels.map fun l => 1 + l.length).sum ≤ 255 → Safe (labels.foldlM Key.pushRule k) fun _ => True
  | [], _, _ => trivial
  | l :: labels, k, h => by
    simp only [map_cons, sum_cons] at h
    rw [foldlM_cons]
    refine Safe.bind (P := fun k' => k'.length = k.length + (1 + l.length)) ?_ fun k' hk' =>
      foldlM_pushRule_safe (by omega)
    unfold Key.pushRule Key.push
    split
    · rw [if_pos (by omega)]
      simp only [Safe, length_append, length_cons, length_map]
      omega
    · trivial

theorem Key.rule_safe (text) : Safe (Key.rule text) fun _ => True := by
  simp only [Key.rule]
  split
  · trivial
  · next hlen =>
    simp only [Bool.or_eq_true, decide_eq_true_eq, not_or, Nat.not_lt] at hlen
    refine foldlM_pushRule_safe ?_
    rw [map_reverse, sum_reverse, sum_splitOn]
    simp only [length_nil]
    omega

theorem mem_lookupFold {len m} : ∀ {visits : List (Nat × Sources)} {blocked}, m ∈ lookupFold len visits blocked →
    m ∈ blocked ∨ ∃ p v g, (p, v) ∈ visits ∧ m ∈ found v p g
  | [], _, h => .inl h
  | (p, v) :: visits, blocked, h => by
    have here : ∀ {g}, m ∈ found v p g → m ∈ blocked ∨ ∃ q w g, (q, w) ∈ (p, v) :: visits ∧ m ∈ found w q g :=
      fun hm => .inr ⟨p, v, _, List.mem_cons_self, hm⟩
    have suffix : m ∈ blocked.or (found v p .blockSuffix) →
        m ∈ blocked ∨ ∃ q w g, (q, w) ∈ (p, v) :: visits ∧ m ∈ found w q g := by
      intro hm
      rcases Option.or_eq_some_iff.mp hm with hm | ⟨-, hm⟩
      · exact .inl hm
      · exact here hm
    simp only [lookupFold] at h
    split at h
    · next hs => exact here (hs ▸ h)
    split at h
    · split at h
      · next hs => exact here (hs ▸ h)
      · rcases Option.or_eq_some_iff.mp h with hm | ⟨-, hm⟩
        · exact suffix hm
        · exact here hm
    · rcases mem_lookupFold h with hm | ⟨q, w, g, hmem, hm⟩
      · exact suffix hm
      · exact .inr ⟨q, w, g, List.mem_cons_of_mem _ hmem, hm⟩

variable {S : UnstableSort} {sha256 : Bytes → Digest} {env : Env} {b : Builder} {rules : List Rule} {T : Texts}
  {name : Name}

/-- Walking down an index returns, and so does the text of the rule that is found. -/
theorem Indexes.answers {c out ix t} (hi : Indexes c ix t) (hb : b.Wf rules) (hp : Prepared sha256 b rules c out)
    (hT : T.Lawful) (hname : name.encodedLen ≤ 254) :
    (∃ m, ix.lookup name = .ok m ∧ ∀ x ∈ m, ∃ text, Index.rule T name x = .ok text) ∧
      ∀ slots, ∃ m, ix.blockMatch name slots = .ok m ∧ ∀ x ∈ m, ∃ text, Index.rule T name x = .ok text := by
  have hf := hi.filters hp
  have hlen := (frame_nameLabels_length name).trans_le hname
  have hrule : ∀ r, IsKept b rules r → r.labels <+: nameLabels name → ∃ text, Index.rule T name r.asMatch = .ok text := by
    intro r hkept hpre
    obtain ⟨text, htext, -⟩ := rule_ok hT hname (hb.spellable r hkept.mem) hpre
    exact ⟨text, htext⟩
  refine ⟨⟨_, hi.lookup hname, fun x hx => ?_⟩, fun slots => ⟨_, hi.blockMatch hname slots, fun x hx => ?_⟩⟩
  · rcases mem_lookupFold hx with hx | ⟨p, v, g, hmem, hx⟩
    · cases hx
    obtain ⟨r, hkept, rfl, -, hpre, -⟩ := found_kept hf hi.ordered hlen hmem hx
    exact hrule r hkept hpre
  · obtain ⟨hasc, hle⟩ := visits_ascend hi.ordered (frame (nameLabels name))
    rw [blockFold_eq hasc hle] at hx
    split at hx
    · cases hx
    obtain ⟨r, hkept, happ, rfl⟩ := (mem_candidates hf hi.ordered hlen).mp (least_some hx).1
    exact hrule r hkept happ.labels

/-- **Nothing of fixed size is too small** for what a builder has taken and for a name: keys, the boundaries and
ancestors of `prepare`, the stack of `build`, the labels of a rule's text; and every number that the index stores
is stored whole. -/
theorem structures_suffice {limits : Limits} {added : List Added} (hT : T.Lawful) (hnew : Builder.new limits = .ok b)
    (localSlots classes) {b'} (hadded : ({ b with localSlots, classes } : Builder).addAll env added = .ok b')
    (hname : name.encodedLen ≤ 254) :
    (∀ text, Key.rule text ≠ .error .panic) ∧ Short (nameLabels name) ∧ Key.query name = .ok (frame (nameLabels name)) ∧
    (∀ r ∈ b'.records.items, r.entry.len ≤ 254 ∧ r.entry.offset + r.entry.len ≤ b'.arena.items.length) ∧
    b'.arena.items.length < 2 ^ 32 ∧
    Safe (b'.prepareWithCheck S sha256 env) fun c => Safe (Index.buildWithCheck S env c) fun ix =>
      (∃ t, Laid (fun _ v => v) ix.nodes.items ix.arena.items 0 1 0 t ∧ ix.nodes.items.length = 1 + t.under ∧
        ix.arena.items.length = t.edgeSum) ∧
      ix.nodes.items.length < 2 ^ 32 ∧ ix.arena.items.length < 2 ^ 32 ∧
      (∃ m, ix.lookup name = .ok m ∧ ∀ x ∈ m, ∃ text, Index.rule T name x = .ok text) ∧
      ∀ slots, ∃ m, ix.blockMatch name slots = .ok m ∧ ∀ x ∈ m, ∃ text, Index.rule T name x = .ok text := by
  obtain ⟨hfresh, hmax, hlimit⟩ := Builder.new_fresh hnew
  have hstart : ({ b with localSlots, classes } : Builder).Fresh := hfresh
  have hb := Builder.addAll_wf hstart.wf hadded
  have hmax' : b'.maxRules ≤ 5000000 := by
    rw [(Builder.addAll_config hadded).2.2]
    exact hmax ▸ hlimit
  refine ⟨fun text htext => ?_, short_of_name hname, Key.query_ok hname,
    fun r hr => ⟨?_, hb.inArena r hr⟩, ?_, ?_⟩
  · have := Key.rule_safe text
    rw [htext] at this
    exact this
  · obtain ⟨rule, -, hs⟩ := hb.spelled.sound r hr
    rw [hs.len]
    exact hs.labels.length
  · have := hb.arenaLen
    simp only [u32Max] at this
    omega
  · refine (prepare_safe hb).mono fun c ⟨out, hp⟩ => ?_
    have hc : c.Wf := hp.wf hb hmax'
    refine (build_safe S env hc).mono fun ix ⟨t, hi⟩ => ?_
    have hcount := hc.count
    have hsmall := hi.small
    exact ⟨⟨t, hi.laid, hi.nodes, hi.bytes⟩, by rw [hi.nodes]; omega, by rw [hi.bytes]; omega,
      hi.answers hb hp hT hname⟩

theorem structures_suffice_sample : ∃ b b', Builder.new ⟨1000, 1000000, 0⟩ = .ok b ∧
    ({ b with localSlots := 1, classes := [0, 1] } : Builder).addAll quietEnv sampleRules = .ok b' ∧
      Safe (b'.prepareWithCheck .insertion (fun _ => sampleDigest) quietEnv) fun c =>
        Safe (Index.buildWithCheck .insertion quietEnv c) fun ix =>
          ∃ m, ix.lookup ⟨[[120], [98], [99, 111, 109]], true⟩ = .ok m ∧
            ∀ x ∈ m, ∃ text, Index.rule sampleTexts ⟨[[120], [98], [99, 111, 109]], true⟩ x = .ok text := by
  obtain ⟨b, hb⟩ := exists_ok (x := Builder.new ⟨1000, 1000000, 0⟩) (by decide +kernel)
  have hadds : (Builder.new ⟨1000, 1000000, 0⟩ >>= fun b =>
      ({ b with localSlots := 1, classes := [0, 1] } : Builder).addAll quietEnv sampleRules).isOk = true := by
    decide +kernel
  rw [hb] at hadds
  obtain ⟨b', hb'⟩ := exists_ok hadds
  have h := @structures_suffice .insertion (fun _ => sampleDigest) quietEnv b sampleTexts
    ⟨[[120], [98], [99, 111, 109]], true⟩
    ⟨1000, 1000000, 0⟩ sampleRules sampleTexts_lawful hb 1 [0, 1] b' hb' (by decide)
  exact ⟨b, b', hb, hb', h.2.2.2.2.2.mono fun c hc => hc.mono fun ix hix => hix.2.2.2.1⟩

end Parins.Policy
