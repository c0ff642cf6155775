/-
What stands behind a learned scope. Over every history of calls, each record of
the table is backed by calls that history contains: the live samples of an
observation by the answers that produced them, a shared record by enough
disjoint networks that agreed and by the absence of any contradiction since.
-/
import Parins.Cache.Sharing

namespace Parins.Cache.Sharing
open Net Lib List

/-- A call of `Table::observe`. -/
structure Call where
  answer : Answer
  now : Nat

/-- What happens to a table: it is told an answer, or an invalidation clears part of it. -/
inductive Event where
  | observe (c : Call)
  | invalidate (f : Filter)

def Table.step (config : EcsSharingConfig) (t : Table) : Event → Table
  | .observe c => (t.observe c.answer c.now config).1
  | .invalidate f => t.invalidate f

def Table.run (config : EcsSharingConfig) (t : Table) (events : List Event) : Table := events.foldl (Table.step config) t

def calls (events : List Event) : List Call :=
  events.filterMap fun
    | .observe c => some c
    | .invalidate _ => none

/-- The contract of `Table::observe`: a fingerprint for exact sources only, and a lifetime only when
the answer is admitted, so never zero. -/
structure Answer.Promised (a : Answer) : Prop where
  exact : a.fingerprint.isSome = true → ∃ n, a.scope = .exactSource n
  lives : ∀ lifetime, a.lifetime = some lifetime → 0 < lifetime

/-- The call speaks against `fingerprint` being the answer for all networks of the class: another
answer or one that cannot be compared, or an explicit scope. -/
def Contradicts (cls : Class) (fingerprint : Fingerprint) (c : Call) : Prop :=
  c.answer.key = cls.key ∧
    match c.answer.scope with
    | .exactSource n => n.addr.isIpv4 = cls.ipv4 ∧ c.answer.fingerprint ≠ some fingerprint
    | .network n => n.addr.isIpv4 = cls.ipv4 ∧ 0 < n.prefixLen
    | _ => False

/-- The call is an admitted answer with `fingerprint` for exactly `n`, which expires at `expires`. -/
def Supports (cls : Class) (fingerprint : Fingerprint) (n : IpNet) (expires : Nat) (c : Call) : Prop :=
  c.answer.key = cls.key ∧ c.answer.scope = .exactSource n ∧ n.addr.isIpv4 = cls.ipv4 ∧
    c.answer.fingerprint = some fingerprint ∧ ∃ lifetime, c.answer.lifetime = some lifetime ∧ expires = c.now + lifetime

def Apart (m n : IpNet) : Prop := ∀ x, m.contains x = true → n.contains x = true → False

/-- All of `networks` lie in one /16 (IPv6 /32) prefix. -/
def InOneSpan (ipv4 : Bool) (networks : List IpNet) : Prop :=
  ∃ s : IpNet, s.prefixLen = (if ipv4 then 16 else 32) ∧
    ∀ n ∈ networks, s.prefixLen ≤ n.prefixLen ∧ s.contains n.addr = true

/-- What a promotion at `since` rests on: answers that were live then, from enough disjoint
networks across more than one span, and nothing against them since the first of them. -/
def Evidence (config : EcsSharingConfig) (cls : Class) (fingerprint : Fingerprint) (since : Nat)
    (history : List Call) : Prop :=
  ∃ earlier later, history = earlier ++ later ∧ (∀ c ∈ later, ¬Contradicts cls fingerprint c) ∧
    ∃ networks : List IpNet, config.minNetworks ≤ networks.length ∧ networks.Pairwise Apart ∧
      ¬InOneSpan cls.ipv4 networks ∧
      ∀ n ∈ networks, ∃ c ∈ later, ∃ expires, Supports cls fingerprint n expires c ∧ c.now ≤ since ∧ since < expires

/-! ## A record and the calls behind it -/

/-- A phase is backed by a history: every live sample by the call that made it, with nothing
against them since, and shared evidence as long as it counts. -/
def Backed (config : EcsSharingConfig) (history : List Call) (cls : Class) : Phase → Prop
  | .observing fingerprint samples =>
    samples.Pairwise (fun s t => Apart s.network t.network) ∧
      ∃ earlier later, history = earlier ++ later ∧ (∀ c ∈ later, ¬Contradicts cls fingerprint c) ∧
        ∀ s ∈ samples, ∃ c ∈ later, Supports cls fingerprint s.network s.expires c
  | .shared fingerprint since =>
    (∃ c ∈ history, c.now = since) ∧
      ((∀ c ∈ history, c.now < since + SHARED_MAX_AGE) → Evidence config cls fingerprint since history)
  | .revoked _ => True

variable {config : EcsSharingConfig} {cls : Class} {fingerprint : Fingerprint} {since now : Nat}
  {history : List Call} {phase : Phase} {c : Call} {network : IpNet}

theorem Evidence.extend (h : Evidence config cls fingerprint since history) (hc : ¬Contradicts cls fingerprint c) :
    Evidence config cls fingerprint since (history ++ [c]) := by
  obtain ⟨earlier, later, rfl, hclean, networks, hlen, hdis, hspan, hsup⟩ := h
  refine ⟨earlier, later ++ [c], append_assoc _ _ _, ?_, networks, hlen, hdis, hspan, fun n hn => ?_⟩
  · intro d hd
    rcases mem_append.mp hd with hd | hd
    · exact hclean d hd
    · rw [mem_singleton.mp hd]
      exact hc
  · obtain ⟨d, hd, rest⟩ := hsup n hn
    exact ⟨d, mem_append_left _ hd, rest⟩

/-- A call that contradicts nothing about a class leaves its record backed. -/
theorem Backed.extend (h : Backed config history cls phase) (hc : ∀ fp, ¬Contradicts cls fp c) :
    Backed config (history ++ [c]) cls phase := by
  cases phase with
  | revoked cooled => trivial
  | observing fp samples =>
    obtain ⟨hdis, earlier, later, rfl, hclean, hsup⟩ := h
    refine ⟨hdis, earlier, later ++ [c], append_assoc _ _ _, ?_, fun s hs => ?_⟩
    · intro d hd
      rcases mem_append.mp hd with hd | hd
      · exact hclean d hd
      · rw [mem_singleton.mp hd]
        exact hc fp
    · obtain ⟨d, hd, rest⟩ := hsup s hs
      exact ⟨d, mem_append_left _ hd, rest⟩
  | shared fp since =>
    obtain ⟨⟨d, hd, hsince⟩, hev⟩ := h
    refine ⟨⟨d, mem_append_left _ hd, hsince⟩, fun hage => (hev fun d hd => ?_).extend (hc fp)⟩
    exact hage d (mem_append_left _ hd)

/-! ## The samples of an observation -/

variable {samples : List Sample} {i : Nat}

theorem oldest_lt (h : oldest samples = some i) : i < samples.length := by
  induction samples generalizing i with
  | nil => cases h
  | cons s rest ih =>
    rw [oldest] at h
    split at h
    · cases h
      exact Nat.zero_lt_succ _
    · next j hj =>
      have := ih hj
      split at h <;> cases h <;> simp only [length_cons] <;> omega

theorem swapRemove_perm {α : Type} {xs : List α} (h : i < xs.length) : (swapRemove xs i).Perm (xs.eraseIdx i) := by
  obtain rfl | ⟨ys, last, rfl⟩ := eq_nil_or_concat xs
  · cases h
  · rw [concat_eq_append] at h ⊢
    simp only [swapRemove, List.getLast?_append, List.getLast?_singleton, Option.some_or]
    by_cases hi : i < ys.length
    · rw [set_append_left i last hi, dropLast_concat, eraseIdx_append_of_lt_length hi]
      exact (set_perm_cons_eraseIdx hi last).trans (perm_append_singleton last _).symm
    · have hi : i = ys.length := by
        simp only [length_append, length_singleton] at h
        omega
      subst hi
      rw [set_append_right _ _ (Nat.le_refl _), eraseIdx_append_of_length_le (Nat.le_refl _)]
      simp

theorem addSample_spec (sample least) (hdis : samples.Pairwise fun s t => Apart s.network t.network) :
    (addSample samples sample least).Pairwise (fun s t => Apart s.network t.network) ∧
      ∀ s ∈ addSample samples sample least, s ∈ samples ∨ s = sample := by
  -- What is left of the old samples is a permutation of a sublist of the disjoint ones.
  obtain ⟨left, kept, hperm, hsub, heq⟩ : ∃ left kept : List Sample, left.Perm kept ∧
      kept.Sublist (samples.filter fun s => !s.network.overlaps sample.network) ∧
      addSample samples sample least = left ++ [sample] := by
    unfold addSample
    dsimp only
    split
    · split
      · next i hi => exact ⟨_, _, swapRemove_perm (oldest_lt hi), eraseIdx_sublist _ _, rfl⟩
      · exact ⟨_, _, .refl _, .refl _, rfl⟩
    · exact ⟨_, _, .refl _, .refl _, rfl⟩
  have hmem : ∀ s ∈ left, s ∈ samples ∧ Apart s.network sample.network := by
    intro s hs
    obtain ⟨hs, hno⟩ := mem_filter.mp (hsub.mem (hperm.mem_iff.mp hs))
    refine ⟨hs, fun x hx hy => ?_⟩
    rw [IpNet.overlaps_iff.mpr ⟨x, hx, hy⟩] at hno
    cases hno
  have hleft : left.Pairwise fun s t => Apart s.network t.network :=
    ((hdis.sublist (hsub.trans filter_sublist)).perm hperm.symm fun h x hx hy => h x hy hx)
  rw [heq]
  refine ⟨pairwise_append.mpr ⟨hleft, pairwise_singleton _ _, fun s hs t ht => ?_⟩, fun s hs => ?_⟩
  · rw [mem_singleton.mp ht]
    exact (hmem s hs).2
  · rcases mem_append.mp hs with hs | hs
    · exact .inl (hmem s hs).1
    · exact .inr (mem_singleton.mp hs)

/-- A network inside a span prefix has that prefix as its span. -/
theorem span_of_inside {s n : IpNet} (hs : s.prefixLen = if n.addr.isIpv4 then 16 else 32)
    (hle : s.prefixLen ≤ n.prefixLen) (hc : s.contains n.addr = true) : span n = some s.trunc := by
  have hmin : min n.prefixLen (if n.addr.isIpv4 then 16 else 32) = s.prefixLen := by omega
  unfold span
  rw [hmin]
  have hw : s.prefixLen ≤ width n.addr.isIpv4 := Nat.le_trans hle n.bound
  rw [IpNet.new, dif_pos hw, Option.map_some]
  have htrunc : s.trunc = (⟨n.addr, s.prefixLen, hw⟩ : IpNet).trunc := IpNet.trunc_eq_iff.mpr ⟨rfl, hc⟩
  rw [htrunc]

theorem not_inOneSpan {least ipv4} (h : promotable samples least = true)
    (hfam : ∀ s ∈ samples, s.network.addr.isIpv4 = ipv4) :
    least ≤ samples.length ∧ ¬InOneSpan ipv4 (samples.map Sample.network) := by
  match samples, h with
  | first :: rest, h =>
    simp only [promotable, Bool.and_eq_true, decide_eq_true_eq, any_eq_true, bne_iff_ne] at h
    obtain ⟨hlen, s, hs, hne⟩ := h
    refine ⟨hlen, fun ⟨p, hp, hall⟩ => hne ?_⟩
    have hspan : ∀ t ∈ first :: rest, span t.network = some p.trunc := fun t ht =>
      have ⟨hle, hc⟩ := hall t.network (mem_map_of_mem ht)
      span_of_inside (by rw [hp, hfam t ht]) hle hc
    rw [hspan s hs, hspan first mem_cons_self]

/-! ## One answer -/

/-- What a learned observation at `c` rests on. -/
def Justified (config : EcsSharingConfig) (history : List Call) (cls : Class) (c : Call) : Prop :=
  ∃ fingerprint since, c.answer.fingerprint = some fingerprint ∧ since ≤ c.now ∧ c.now < since + SHARED_MAX_AGE ∧
    Evidence config cls fingerprint since (history ++ [c])

/-- An exact-source answer that a record of its class is told of, after `history`. -/
structure Told (history : List Call) (cls : Class) (network : IpNet) (c : Call) : Prop where
  key : c.answer.key = cls.key
  scope : c.answer.scope = .exactSource network
  family : network.addr.isIpv4 = cls.ipv4
  last : ∀ d ∈ history, d.now ≤ c.now
  promised : c.answer.Promised

section
variable (h : Told history cls network c)
include h

theorem Told.not_contradicts (hf : c.answer.fingerprint = some fingerprint) :
    ¬Contradicts cls fingerprint c := by
  rintro ⟨_, hc⟩
  rw [h.scope] at hc
  exact hc.2 hf

theorem Told.supports (hf : c.answer.fingerprint = some fingerprint) {s : Sample}
    (hs : c.answer.sample network c.now = some s) :
    s.network = network ∧ c.now < s.expires ∧ Supports cls fingerprint s.network s.expires c := by
  obtain ⟨lifetime, hl, rfl⟩ := Option.map_eq_some_iff.mp hs
  have := h.promised.lives lifetime hl
  exact ⟨rfl, Nat.lt_add_of_pos_right this, h.key, h.scope, h.family, hf, lifetime, hl, rfl⟩

theorem Told.backed_new (hf : c.answer.fingerprint = some fingerprint) :
    Backed config (history ++ [c]) cls (.observing fingerprint (c.answer.sample network c.now).toList) := by
  refine ⟨?_, history, [c], rfl, fun d hd => ?_, fun s hs => ⟨c, mem_singleton_self c, ?_⟩⟩
  · cases c.answer.sample network c.now <;> simp
  · rw [mem_singleton.mp hd]
    exact h.not_contradicts hf
  · exact (h.supports hf (Option.mem_toList.mp hs)).2.2

theorem Told.backed_restart (hidle : c.answer.fingerprint = none → Backed config (history ++ [c]) cls phase) :
    Backed config (history ++ [c]) cls (phase.restart c.answer network c.now) := by
  unfold Phase.restart
  split
  · next fingerprint hf => exact h.backed_new hf
  · next hf => exact hidle hf

variable {observed : Fingerprint}

theorem Told.joins (hf : c.answer.fingerprint = some fingerprint)
    (hb : Backed config history cls (.observing observed samples))
    (hagree : samples = [] ∨ observed = fingerprint) :
    ∃ earlier later, history ++ [c] = earlier ++ later ∧ c ∈ later ∧ (∀ d ∈ later, ¬Contradicts cls fingerprint d) ∧
      ∀ s ∈ samples, ∃ d ∈ later, Supports cls fingerprint s.network s.expires d := by
  have hclean : ∀ d ∈ [c], ¬Contradicts cls fingerprint d := fun d hd =>
    mem_singleton.mp hd ▸ h.not_contradicts hf
  rcases hagree with rfl | rfl
  · exact ⟨history, [c], rfl, mem_singleton_self c, hclean, by simp⟩
  · obtain ⟨_, earlier, later, rfl, hcl, hsup⟩ := hb
    refine ⟨earlier, later ++ [c], append_assoc _ _ _, by simp, fun d hd => ?_, fun s hs => ?_⟩
    · exact (mem_append.mp hd).elim (hcl d) (hclean d)
    · obtain ⟨d, hd, rest⟩ := hsup s hs
      exact ⟨d, mem_append_left _ hd, rest⟩

theorem Told.unshared (ipv4) (he : c.answer.scope = .learned ipv4) :
    ipv4 = cls.ipv4 ∧ Justified config history cls c := by
  cases h.scope.symm.trans he

/-- **One answer for an observation.** What comes of it is backed, and a promotion is justified. -/
theorem Told.gather
    (hb : Backed config history cls (.observing observed samples)) (hlive : ∀ s ∈ samples, c.now < s.expires) :
    let next := Phase.gather observed samples c.answer network c.now config
    Backed config (history ++ [c]) cls next.1 ∧
      ∀ ipv4, next.2.scope = .learned ipv4 → ipv4 = cls.ipv4 ∧ Justified config history cls c := by
  unfold Phase.gather
  cases hf : c.answer.fingerprint with
  | none =>
    dsimp only
    split
    · next hempty =>
      rw [isEmpty_iff.mp hempty]
      exact ⟨⟨.nil, history ++ [c], [], (append_nil _).symm, by simp, by simp⟩, h.unshared⟩
    · exact ⟨trivial, h.unshared⟩
  | some fingerprint =>
    dsimp only
    split
    · exact ⟨trivial, h.unshared⟩
    · next hagree =>
      have hagree : samples = [] ∨ observed = fingerprint := by
        simpa [or_iff_not_imp_left] using hagree
      obtain ⟨earlier, later, hsplit, hc, hclean, hsup⟩ := h.joins hf hb hagree
      split
      · exact ⟨⟨hb.1, earlier, later, hsplit, hclean, hsup⟩, h.unshared⟩
      · next sample hs =>
        obtain ⟨hnet, hexp, hself⟩ := h.supports hf hs
        obtain ⟨hdis, hmem⟩ := addSample_spec sample config.minNetworks hb.1
        have hsup' : ∀ s ∈ addSample samples sample config.minNetworks,
            c.now < s.expires ∧ ∃ d ∈ later, Supports cls fingerprint s.network s.expires d := by
          intro s hs
          rcases hmem s hs with hs | rfl
          · exact ⟨hlive s hs, hsup s hs⟩
          · exact ⟨hexp, c, hc, hself⟩
        split
        · next hpromote =>
          have hev : Evidence config cls fingerprint c.now (history ++ [c]) := by
            have hfam : ∀ s ∈ addSample samples sample config.minNetworks, s.network.addr.isIpv4 = cls.ipv4 :=
              fun s hs => have ⟨_, _, _, hsd⟩ := hsup' s hs; hsd.2.2.1
            obtain ⟨hlen, hspan⟩ := not_inOneSpan hpromote hfam
            refine ⟨earlier, later, hsplit, hclean, _, by simpa using hlen, pairwise_map.mpr hdis, hspan, ?_⟩
            intro n hn
            obtain ⟨s, hs, rfl⟩ := mem_map.mp hn
            obtain ⟨hlt, d, hd, hsd⟩ := hsup' s hs
            refine ⟨d, hd, s.expires, hsd, ?_, hlt⟩
            have hd : d ∈ history ++ [c] := hsplit ▸ mem_append_right _ hd
            rcases mem_append.mp hd with hd | hd
            · exact h.last d hd
            · rw [mem_singleton.mp hd]
          refine ⟨⟨⟨c, by simp, rfl⟩, fun _ => hev⟩, fun ipv4 he => ?_⟩
          have hpos : 0 < SHARED_MAX_AGE := by decide
          exact ⟨(Scope.learned.inj he).symm.trans h.family, fingerprint, c.now, hf, Nat.le_refl _,
            Nat.lt_add_of_pos_right hpos, hev⟩
        · exact ⟨⟨hdis, earlier, later, hsplit, hclean, fun s hs => (hsup' s hs).2⟩, h.unshared⟩

/-- **One answer for a record**, in whatever phase it is. -/
theorem Told.advance (hb : Backed config history cls phase) :
    let next := phase.advance c.answer network c.now config
    Backed config (history ++ [c]) cls next.1 ∧
      ∀ ipv4, next.2.scope = .learned ipv4 → ipv4 = cls.ipv4 ∧ Justified config history cls c := by
  cases phase with
  | revoked cooled =>
    simp only [Phase.advance]
    split
    · exact ⟨trivial, h.unshared⟩
    · exact ⟨h.backed_restart fun _ => trivial, h.unshared⟩
  | shared known since =>
    obtain ⟨⟨d, hd, hsince⟩, hev⟩ := hb
    have hle : since ≤ c.now := hsince ▸ h.last d hd
    have hpast : ∃ e ∈ history ++ [c], e.now = since := ⟨d, mem_append_left _ hd, hsince⟩
    simp only [Phase.advance]
    split
    · next hold =>
      -- Evidence that no longer counts: an answer that cannot be compared leaves it as it is.
      refine ⟨h.backed_restart fun _ => ⟨hpast, fun hage => ?_⟩, h.unshared⟩
      have := hage c (by simp)
      have hpos : 0 < SHARED_MAX_AGE := by decide
      omega
    · next hyoung =>
      split
      · next hf =>
        have hev : Evidence config cls known since (history ++ [c]) := by
          refine (hev fun e he => ?_).extend (h.not_contradicts hf)
          have := h.last e he
          omega
        exact ⟨⟨hpast, fun _ => hev⟩, fun ipv4 he =>
          ⟨(Scope.learned.inj he).symm.trans h.family, known, since, hf, hle, by omega, hev⟩⟩
      · exact ⟨trivial, h.unshared⟩
  | observing observed samples =>
    refine h.gather ?_ fun s hs => of_decide_eq_true (mem_filter.mp hs).2
    obtain ⟨hdis, earlier, later, hsplit, hclean, hsup⟩ := hb
    exact ⟨hdis.sublist filter_sublist, earlier, later, hsplit, hclean, fun s hs =>
      hsup s (mem_filter.mp hs).1⟩

end

/-! ## The table -/

def Table.Backed (config : EcsSharingConfig) (history : List Call) (t : Table) : Prop :=
  ∀ cls phase, (cls, phase) ∈ t.records.items → Sharing.Backed config history cls phase

theorem Contradicts.class_eq (h : Contradicts cls fingerprint c)
    (hs : c.answer.scope = .exactSource network ∨ c.answer.scope = .network network) :
    cls = ⟨c.answer.key, network.addr.isIpv4⟩ := by
  obtain ⟨hkey, hc⟩ := h
  rcases hs with hs | hs <;> rw [hs] at hc <;> cases cls <;> simp_all

variable {t : Table}

theorem Table.observe_backed (hb : t.Backed config history) (hlast : ∀ d ∈ history, d.now ≤ c.now)
    (hp : c.answer.Promised) : (t.observe c.answer c.now config).1.Backed config (history ++ [c]) ∧
      ∀ ipv4, (t.observe c.answer c.now config).2.scope = .learned ipv4 → c.answer.fingerprint.isSome = true →
        Justified config history ⟨c.answer.key, ipv4⟩ c := by
  have h.unshared : ∀ ipv4, c.answer.scope = .learned ipv4 → c.answer.fingerprint.isSome = true →
      Justified config history ⟨c.answer.key, ipv4⟩ c := by
    intro ipv4 he hsome
    obtain ⟨n, hn⟩ := hp.exact hsome
    rw [hn] at he
    cases he
  -- A record of another class than the call's is not contradicted.
  have hother : ∀ {network : IpNet}, c.answer.scope = .exactSource network ∨ c.answer.scope = .network network →
      ∀ cls phase, (cls, phase) ∈ t.records.items → cls ≠ ⟨c.answer.key, network.addr.isIpv4⟩ →
        Sharing.Backed config (history ++ [c]) cls phase := fun hs cls phase hm hne =>
    (hb cls phase hm).extend fun fp hc => hne (hc.class_eq hs)
  unfold Table.observe
  split
  · next network hs =>
    have htold : Told history ⟨c.answer.key, network.addr.isIpv4⟩ network c := ⟨rfl, hs, rfl, hlast, hp⟩
    dsimp only
    split
    · next phase hpeek =>
      obtain ⟨hnext, hlearn⟩ := htold.advance (hb _ _ (Recency.mem_of_peek hpeek))
      refine ⟨fun cls phase' hm => ?_, fun ipv4 he _ => ?_⟩
      · rcases Recency.mem_put.mp hm with heq | ⟨hm, hne⟩
        · cases heq
          exact hnext
        · exact hother (.inl hs) cls phase' hm hne
      · obtain ⟨rfl, hj⟩ := hlearn ipv4 he
        exact hj
    · next hpeek =>
      split
      · refine ⟨fun cls phase hm => hother (.inl hs) cls phase hm ?_, h.unshared⟩
        rintro rfl
        exact Recency.peek_eq_none_iff.mp hpeek phase hm
      · next fingerprint hf =>
        refine ⟨fun cls phase hm => ?_, h.unshared⟩
        rcases Recency.mem_put.mp (Recency.mem_of_mem_truncate hm) with heq | ⟨hm, hne⟩
        · cases heq
          exact htold.backed_new hf
        · exact hother (.inl hs) cls phase hm hne
  · next network hs =>
    split
    · dsimp only
      split
      · next hpeek =>
        refine ⟨fun cls phase hm => hother (.inr hs) cls phase hm ?_, h.unshared⟩
        rintro rfl
        exact Recency.peek_eq_none_iff.mp hpeek phase hm
      · next phase hpeek =>
        split
        · next hcool =>
          refine ⟨fun cls phase' hm => ?_, h.unshared⟩
          have hm := Recency.mem_promote.mp hm
          by_cases hne : cls = ⟨c.answer.key, network.addr.isIpv4⟩
          · -- The record in its cooldown is only used.
            subst hne
            obtain rfl := Recency.value_unique (Recency.mem_of_peek hpeek) hm
            cases phase with
            | revoked => trivial
            | _ => cases hcool
          · exact hother (.inr hs) cls phase' hm hne
        · refine ⟨fun cls phase' hm => ?_, h.unshared⟩
          rcases Recency.mem_put.mp hm with heq | ⟨hm, hne⟩
          · cases heq
            trivial
          · exact hother (.inr hs) cls phase' hm hne
    · next hzero =>
      refine ⟨fun cls phase hm => (hb cls phase hm).extend fun fp hc => ?_, h.unshared⟩
      rw [Contradicts, hs] at hc
      exact hzero hc.2.2
  · next hne hnn =>
    refine ⟨fun cls phase hm => (hb cls phase hm).extend fun fp hc => ?_, h.unshared⟩
    have := hc.2
    split at this
    · next n he => exact hne n he
    · next n he => exact hnn n he
    · exact this

theorem Table.invalidate_subset (t : Table) (f) {p}
    (h : p ∈ (t.invalidate f).records.items) : p ∈ t.records.items := by
  unfold Table.invalidate at h
  split at h
  · exact h
  · split at h
    · cases h
    · exact ((Recency.mem_foldl_pop _).mp h).1
  · exact ((Recency.mem_foldl_pop _).mp h).1

/-- **Every run keeps every record backed.** -/
theorem Table.run_backed (events) (hb : t.Backed config history)
    (htime : ((history ++ calls events).map Call.now).Pairwise (· ≤ ·))
    (hp : ∀ d ∈ calls events, d.answer.Promised) :
    (t.run config events).Backed config (history ++ calls events) := by
  induction events generalizing t history with
  | nil => simpa [Table.run, calls] using hb
  | cons e events ih =>
    cases e with
    | invalidate f => exact ih (fun cls phase hm => hb cls phase (t.invalidate_subset f hm)) htime hp
    | observe c =>
      have hsplit : history ++ calls (.observe c :: events) = (history ++ [c]) ++ calls events := by
        simp [calls]
      rw [hsplit] at htime ⊢
      have hlast : ∀ d ∈ history, d.now ≤ c.now := by
        rw [append_assoc, map_append] at htime
        exact fun d hd => (pairwise_append.mp htime).2.2 _ (mem_map_of_mem hd) _ (by simp)
      refine ih (Table.observe_backed hb hlast (hp c (by simp [calls]))).1 htime fun d hd => hp d ?_
      exact mem_cons_of_mem c hd

/-- **A learned scope is backed by the history.** When a call returns `Scope::Learned`, the record
was promoted less than an hour before, on answers with the call's fingerprint that were then live, from
at least `min_networks` disjoint networks not all inside one /16 (IPv6 /32); and from the first of them
up to the call nothing contradicted it. -/
theorem learned_backed (config : EcsSharingConfig) (capacity : Nat) (events : List Event) (c : Call)
    (hpromised : ∀ d ∈ calls events ++ [c], d.answer.Promised)
    (htime : ((calls events ++ [c]).map Call.now).Pairwise (· ≤ ·))
    (fingerprint : Fingerprint) (hf : c.answer.fingerprint = some fingerprint) (ipv4 : Bool)
    (hlearned : (((Table.new capacity).run config events).observe c.answer c.now config).2.scope = .learned ipv4) :
    ∃ since, since ≤ c.now ∧ c.now - since < 3600 * second ∧
      Evidence config ⟨c.answer.key, ipv4⟩ fingerprint since (calls events ++ [c]) := by
  have hinit : (Table.new capacity).Backed config [] := nofun
  have htimes := pairwise_append.mp (map_append ▸ htime)
  have hb := Table.run_backed events hinit htimes.1 fun d hd => hpromised d (mem_append_left _ hd)
  have hlast : ∀ d ∈ calls events, d.now ≤ c.now := fun d hd =>
    htimes.2.2 _ (mem_map_of_mem hd) _ (mem_singleton_self _)
  obtain ⟨fp, since, hfp, hle, hlt, hev⟩ := (Table.observe_backed hb hlast (hpromised c (by simp))).2 ipv4 hlearned
    (by rw [hf]; rfl)
  obtain rfl : fp = fingerprint := Option.some.inj (hfp.symm.trans hf)
  refine ⟨since, hle, ?_, hev⟩
  unfold SHARED_MAX_AGE at hlt
  omega

/-- An answer of `192.0.2.1` for `test.`, admitted for a minute, for `a.0.0.0/24`. -/
def sampleCall (a : Fin 256) (now : Nat) : Call where
  answer := {
    key := ⟨⟨[[116, 101, 115, 116]], true⟩, .A, .IN, false, false, true, true⟩
    scope := .exactSource ⟨.ofV4 a 0 0 0, 24, by simp [width, IpAddr.ofV4]⟩
    fingerprint := some [192, 0, 2, 1]
    lifetime := some (60 * second) }
  now := now

theorem sampleCall_promised (a now) : (sampleCall a now).answer.Promised where
  exact _ := ⟨_, rfl⟩
  lives _ h := Option.some.inj h ▸ (by decide)

/-- Two networks that agree within a minute make the record shared. -/
theorem learned_backed_two_networks :
    (((Table.new 1024).run { minNetworks := 2 } [.observe (sampleCall 10 0)]).observe
        (sampleCall 11 second).answer second { minNetworks := 2 }).2.scope = .learned true ∧
      ∃ since, since ≤ second ∧ second - since < 3600 * second ∧
        Evidence { minNetworks := 2 } ⟨(sampleCall 11 second).answer.key, true⟩ [192, 0, 2, 1] since
          [sampleCall 10 0, sampleCall 11 second] := by
  have hlearned : (((Table.new 1024).run { minNetworks := 2 } [.observe (sampleCall 10 0)]).observe
      (sampleCall 11 second).answer (sampleCall 11 second).now { minNetworks := 2 }).2.scope = .learned true := by
    decide +kernel
  refine ⟨hlearned, learned_backed { minNetworks := 2 } 1024 [.observe (sampleCall 10 0)] (sampleCall 11 second)
    ?_ (by decide) [192, 0, 2, 1] rfl true hlearned⟩
  intro d hd
  rcases mem_pair.mp hd with rfl | rfl
  · exact sampleCall_promised 10 0
  · exact sampleCall_promised 11 second

def withoutLifetime (c : Call) : Call := { c with answer := { c.answer with lifetime := some 0 } }

/-- A sample without a lifetime counts for its promotion, at a time when it is no longer live. -/
theorem zero_lifetime_learned :
    (((Table.new 1024).run { minNetworks := 2 } [.observe (sampleCall 10 0)]).observe
        (withoutLifetime (sampleCall 11 second)).answer second { minNetworks := 2 }).2.scope = .learned true ∧
      ¬∃ since, since ≤ second ∧ second - since < 3600 * second ∧
        Evidence { minNetworks := 2 } ⟨(sampleCall 11 second).answer.key, true⟩ [192, 0, 2, 1] since
          [sampleCall 10 0, withoutLifetime (sampleCall 11 second)] := by
  refine ⟨by decide +kernel, ?_⟩
  rintro ⟨since, -, -, earlier, later, hsplit, -, networks, hlen, hapart, -, hsup⟩
  -- all the networks are the one of the live sample, which is not apart from itself
  have hone : ∀ n ∈ networks, n = ⟨.ofV4 10 0 0 0, 24, by simp [width, IpAddr.ofV4]⟩ := by
    intro n hn
    obtain ⟨c, hc, expires, ⟨-, hscope, -, -, lifetime, hlifetime, rfl⟩, hle, hlt⟩ := hsup n hn
    have hmem : c ∈ [sampleCall 10 0, withoutLifetime (sampleCall 11 second)] := by
      rw [hsplit]
      exact mem_append_right _ hc
    rcases mem_pair.mp hmem with rfl | rfl
    · exact (Scope.exactSource.inj hscope).symm
    · cases hlifetime
      exact absurd hle (Nat.not_le.mpr hlt)
  rcases networks with _ | ⟨m, _ | ⟨n, rest⟩⟩
  · exact absurd hlen (by decide)
  · exact absurd hlen (by simp)
  · refine (pairwise_cons.mp hapart).1 n mem_cons_self (.ofV4 10 0 0 0) ?_ ?_
    · rw [hone m mem_cons_self]
      decide +kernel
    · rw [hone n (mem_cons_of_mem _ mem_cons_self)]
      decide +kernel

end Parins.Cache.Sharing
