/-
What a fingerprint is of. The bytes that are hashed can be read back: each
section begins with its length and each record with its own, and what is
written of a record is its owner, which ends by itself, two numbers and the
rest. So they are equal only for answers with the same identity.
-/
import Parins.Cache.Reachable
import Parins.Lib.Search

namespace Parins.Cache
open Lib List

/-- Two lists of the same elements, in whatever order and however often. -/
def SameSet {α : Type} (l l' : List α) : Prop := ∀ x, x ∈ l ↔ x ∈ l'

theorem sameSet_iff {α : Type} {l l' : List α} : SameSet l l' ↔ l ⊆ l' ∧ l' ⊆ l :=
  ⟨fun h => ⟨fun x => (h x).mp, fun x => (h x).mpr⟩, fun h x => ⟨@h.1 x, @h.2 x⟩⟩

/-! ## Sorted sets -/

theorem dedup_spec (h : l.Pairwise fun a b => (compare a b).isLE = true) :
    (dedup l).Pairwise (fun a b => compare a b = .lt) ∧ SameSet (dedup l) l := by
  fun_induction dedup l with
  | case1 => exact ⟨.nil, fun _ => .rfl⟩
  | case2 a => exact ⟨pairwise_singleton _ a, fun _ => .rfl⟩
  | case3 b rest ih =>
    obtain ⟨hlt, hmem⟩ := ih h.tail
    exact ⟨hlt, fun x => by simp [hmem x]⟩
  | case4 a b rest hne ih =>
    obtain ⟨hlt, hmem⟩ := ih h.tail
    obtain ⟨hle, htail⟩ := pairwise_cons.mp h
    refine ⟨pairwise_cons.mpr ⟨fun x hx => ?_, hlt⟩, fun x => by simp [hmem x]⟩
    have hab : compare a b = .lt :=
      (Ordering.isLE_iff_eq_lt_or_eq_eq.mp (hle b mem_cons_self)).resolve_right fun heq =>
        hne (Std.LawfulEqOrd.eq_of_compare heq)
    rcases mem_cons.mp ((hmem x).mp hx) with rfl | hx
    · exact hab
    · exact Std.TransCmp.lt_of_lt_of_isLE hab ((pairwise_cons.mp htail).1 x hx)

theorem sortedSet_spec (l) : (sortedSet l).Pairwise (fun a b => compare a b = .lt) ∧ SameSet (sortedSet l) l := by
  have hsorted : (l.mergeSort fun a b => (compare a b).isLE).Pairwise fun a b => (compare a b).isLE = true :=
    pairwise_mergeSort (fun _ _ _ => Std.TransCmp.isLE_trans) (fun a b => by
      have hswap : compare b a = (compare a b).swap := Std.OrientedCmp.eq_swap
      rw [hswap]
      cases compare a b <;> rfl) l
  obtain ⟨hlt, hmem⟩ := dedup_spec hsorted
  exact ⟨hlt, fun x => (hmem x).trans mem_mergeSort⟩

theorem dedup_sublist (l) : (dedup l).Sublist l := by
  fun_induction dedup l with
  | case1 => exact .slnil
  | case2 a => exact .refl _
  | case3 b rest ih => exact ih.cons b
  | case4 a b rest hne ih => exact ih.cons_cons a

theorem length_sortedSet_le (l) : (sortedSet l).length ≤ l.length :=
  (dedup_sublist _).length_le.trans (Nat.le_of_eq (length_mergeSort l))

/-- **Sorting and deduplication forget order and repetition, and nothing else.** -/
theorem sortedSet_eq_iff {l l'} : sortedSet l = sortedSet l' ↔ SameSet l l' := by
  obtain ⟨hlt, hmem⟩ := sortedSet_spec l
  obtain ⟨hlt', hmem'⟩ := sortedSet_spec l'
  constructor
  · intro h x
    rw [← hmem x, h, hmem' x]
  · intro h
    exact @eq_of_ascending _ _ _ _ _ id _ _ hlt hlt' fun x => (hmem x).trans ((h x).trans (hmem' x).symm)

def Counted (l : List Bytes) : Prop := l.length < 256 ^ 4 ∧ ∀ r ∈ l, r.length < 256 ^ 4

theorem pieces_inj : ∀ {l l' : List Bytes} {s t}, l.length = l'.length → (∀ r ∈ l, r.length < 256 ^ 4) →
    (∀ r ∈ l', r.length < 256 ^ 4) →
    (l.map fun r => toBeBytes 4 r.length ++ r).flatten ++ s = (l'.map fun r => toBeBytes 4 r.length ++ r).flatten ++ t →
    l = l' ∧ s = t
  | [], [], _, _, _, _, _, h => ⟨rfl, h⟩
  | r :: l, r' :: l', s, t, hlen, hl, hl', h => by
    simp only [map_cons, flatten_cons, append_assoc] at h
    obtain ⟨hr, hrs⟩ := forall_mem_cons.mp hl
    obtain ⟨hr', hrs'⟩ := forall_mem_cons.mp hl'
    obtain ⟨hsize, h⟩ := toBeBytes_append_inj hr hr' h
    obtain ⟨rfl, hpieces⟩ := append_inj h hsize
    obtain ⟨rfl, hrest⟩ := pieces_inj (Nat.succ.inj hlen) hrs hrs' hpieces
    exact ⟨rfl, hrest⟩

theorem sectionBytes_append_inj (hl : Counted l) (hl' : Counted l') (h : sectionBytes l ++ s = sectionBytes l' ++ t) :
    l = l' ∧ s = t := by
  simp only [sectionBytes, append_assoc] at h
  obtain ⟨hlen, h⟩ := toBeBytes_append_inj hl.1 hl'.1 h
  exact pieces_inj hlen hl.2 hl'.2 h

/-! ## What is written of a record -/

/-- Encoded names depend on their labels and end by themselves; names and record data are no longer than the wire
allows. -/
structure SelfDelimiting (H : Hickory) : Prop where
  labels : ∀ n m, n.labels = m.labels → H.nameBytes n = H.nameBytes m
  name : ∀ n m x y s t, H.nameBytes n = some x → H.nameBytes m = some y → x ++ s = y ++ t → n.labels = m.labels
  nameSize : ∀ n x, H.nameBytes n = some x → x.length < 256 ^ 2
  dataSize : ∀ d x, H.rdataBytes d = some x → x.length < 256 ^ 2

/-- A code with a name is called by it, and every code has two bytes. -/
def Coded (r : ResponseCode) : Prop := ∀ c, r = .other c → 5 < c ∧ c < 256 ^ 2

theorem Coded.lt (h : Coded r) : r.code < 256 ^ 2 := by
  cases r with
  | other c => exact (h c rfl).2
  | _ => simp [ResponseCode.code]

theorem Coded.inj (h : Coded r) (h' : Coded r') (heq : r.code = r'.code) : r = r' := by
  cases r <;> cases r' <;> simp_all [ResponseCode.code, Coded] <;> omega

/-- The numbers of a message have the width of their fields. -/
structure Wire (m : Message) : Prop where
  code : Coded m.responseCode
  answers : m.answers.length < 256 ^ 2
  authorities : m.authorities.length < 256 ^ 2
  kind : ∀ rr ∈ m.answers, rr.recordType.code < 256 ^ 2
  dnsClass : ∀ rr ∈ m.answers ++ m.authorities, rr.dnsClass.code < 256 ^ 2

variable {H : Hickory} {m m' : Message}

def dataBytes (H : Hickory) : Option RData → Option Bytes
  | some data => H.rdataBytes data
  | none => some []

theorem recordBytes_eq {n k c d x} :
    recordBytes H n k c d = some x ↔ ∃ owner data, H.nameBytes n.toLowercase = some owner ∧
    dataBytes H d = some data ∧ x = owner ++ toBeBytes 2 k.code ++ toBeBytes 2 c.code ++ data := by
  cases d <;> simp [recordBytes, dataBytes, Option.bind_eq_some_iff, @eq_comm _ x]

theorem recordBytes_size (hH : SelfDelimiting H) {n k c d x} (h : recordBytes H n k c d = some x) :
    x.length < 256 ^ 4 := by
  obtain ⟨owner, data, howner, hdata, rfl⟩ := recordBytes_eq.mp h
  have hname := hH.nameSize _ _ howner
  have hsize : data.length < 256 ^ 2 := by
    cases d with
    | none => cases hdata; simp
    | some d => exact hH.dataSize d data hdata
  simp only [length_append, length_toBeBytes]
  omega

/-- **The bytes of a record determine what is written.** -/
theorem recordBytes_inj (hH : SelfDelimiting H) {n n' k k' c c' d d' x x'} (hk : k.code < 256 ^ 2)
    (hk' : k'.code < 256 ^ 2) (hc : c.code < 256 ^ 2) (hc' : c'.code < 256 ^ 2) (h : recordBytes H n k c d = some x)
    (h' : recordBytes H n' k' c' d' = some x') :
    x = x' ↔ n.toLowercase.labels = n'.toLowercase.labels ∧ k = k' ∧ c = c' ∧ dataBytes H d = dataBytes H d' := by
  obtain ⟨owner, data, howner, hdata, rfl⟩ := recordBytes_eq.mp h
  obtain ⟨owner', data', howner', hdata', rfl⟩ := recordBytes_eq.mp h'
  simp only [append_assoc]
  constructor
  · intro heq
    have hlabels := hH.name _ _ _ _ _ _ howner howner' heq
    have hsame : owner = owner' := by
      rw [hH.labels _ _ hlabels, howner'] at howner
      exact (Option.some.inj howner).symm
    subst hsame
    obtain ⟨hkind, heq⟩ := toBeBytes_append_inj hk hk' (append_cancel_left heq)
    obtain ⟨hclass, heq⟩ := toBeBytes_append_inj hc hc' heq
    refine ⟨hlabels, ?_, ?_, by rw [hdata, hdata', heq]⟩
    · cases k; cases k'; exact congrArg RecordType.mk hkind
    · cases c; cases c'; exact congrArg DNSClass.mk hclass
  · rintro ⟨hlabels, rfl, rfl, hd⟩
    rw [hH.labels _ _ hlabels, howner'] at howner
    rw [hdata, hdata'] at hd
    cases howner
    cases hd
    rfl

section Sets

variable {α β : Type} {f : α → Option Bytes} {g : α → β} {l l' : List α} {xs xs' : List Bytes}

/-- `f` writes what `g` says. -/
def Writes (f : α → Option Bytes) (g : α → β) (l l' : List α) : Prop :=
  ∀ a ∈ l, ∀ a' ∈ l', ∀ x x', f a = some x → f a' = some x' → (x = x' ↔ g a = g a')

theorem subset_mapM (h : l.mapM f = some xs) (h' : l'.mapM f = some xs') (hg : Writes f g l l') :
    xs ⊆ xs' ↔ l.map g ⊆ l'.map g := by
  obtain ⟨_, hall, hmem⟩ := mapM_eq_some h
  obtain ⟨_, hall', hmem'⟩ := mapM_eq_some h'
  constructor
  · intro hsub y hy
    obtain ⟨a, ha, rfl⟩ := mem_map.mp hy
    obtain ⟨x, hx⟩ := hall a ha
    obtain ⟨a', ha', hx'⟩ := (hmem' x).mp (hsub ((hmem x).mpr ⟨a, ha, hx⟩))
    exact mem_map.mpr ⟨a', ha', ((hg a ha a' ha' x x hx hx').mp rfl).symm⟩
  · intro hsub x hx
    obtain ⟨a, ha, hx⟩ := (hmem x).mp hx
    obtain ⟨a', ha', heq⟩ := mem_map.mp (hsub (mem_map_of_mem ha))
    obtain ⟨x', hx'⟩ := hall' a' ha'
    rw [(hg a ha a' ha' x x' hx hx').mpr heq.symm]
    exact (hmem' x').mpr ⟨a', ha', hx'⟩

/-- Where `f` writes what `g` says, the sets of what is written are the same as those of what is said. -/
theorem sameSet_mapM (h : l.mapM f = some xs) (h' : l'.mapM f = some xs') (hg : Writes f g l l') :
    SameSet xs xs' ↔ SameSet (l.map g) (l'.map g) := by
  have hsub := subset_mapM h h' hg
  have hsub' : xs' ⊆ xs ↔ l'.map g ⊆ l.map g := subset_mapM h' h fun a ha a' ha' x x' hx hx' => by
    rw [eq_comm, hg a' ha' a ha x' x hx' hx, eq_comm]
  simp only [sameSet_iff, hsub, hsub']

theorem counted_mapM (h : l.mapM f = some xs) (hlen : l.length < 256 ^ 2)
    (hf : ∀ a x, f a = some x → x.length < 256 ^ 4) : Counted (sortedSet xs) := by
  obtain ⟨hlength, _, hmem⟩ := mapM_eq_some h
  have hle := length_sortedSet_le xs
  refine ⟨by omega, fun x hx => ?_⟩
  obtain ⟨a, _, ha⟩ := (hmem x).mp (((sortedSet_spec xs).2 x).mp hx)
  exact hf a x ha

end Sets

/-! ## Identity -/

/-- An answer record as it is identified: owner without case, type, class and encoded data. -/
def answerIdentity (H : Hickory) (rr : Record) : List Label × RecordType × DNSClass × Option Bytes :=
  (rr.name.toLowercase.labels, rr.recordType, rr.dnsClass, H.rdataBytes rr.data)

def soaIdentity (rr : Record) : List Label × DNSClass := (rr.name.toLowercase.labels, rr.dnsClass)

def soaRecords (m : Message) : List Record := m.authorities.filter fun rr => rr.recordType = .SOA

def soaBytes (H : Hickory) (negative : Bool) (m : Message) : Option (List Bytes) :=
  if negative then (soaRecords m).mapM fun rr => recordBytes H rr.name .SOA rr.dnsClass none else some []

theorem fingerprintBytes_ok {question bytes} (h : fingerprintBytes H question m = some bytes) : ∃ answers soa,
    m.answers.mapM (fun rr => recordBytes H rr.name rr.recordType rr.dnsClass (some rr.data)) = some answers ∧
    soaBytes H (isNegative question m) m = some soa ∧
    bytes = toBeBytes 2 m.responseCode.code ++ ((if isNegative question m then 1 else 0) ::
      (sectionBytes (sortedSet answers) ++ sectionBytes (sortedSet soa))) := by
  obtain ⟨answers, hanswers, h⟩ := Option.bind_eq_some_iff.mp h
  cases hn : isNegative question m with
  | false =>
    simp only [hn] at h
    exact ⟨answers, [], hanswers, rfl, by simpa using (Option.some.inj h).symm⟩
  | true =>
    simp only [hn] at h
    obtain ⟨soa, hsoa, h⟩ := Option.bind_eq_some_iff.mp h
    exact ⟨answers, soa, hanswers, hsoa, by simpa using (Option.some.inj h).symm⟩

theorem mem_soaRecords (h : rr ∈ soaRecords m) : rr ∈ m.answers ++ m.authorities :=
  mem_append_right _ (mem_of_mem_filter h)

theorem soaBytes_counted (hH : SelfDelimiting H) (hm : Wire m) {negative soa} (h : soaBytes H negative m = some soa) :
    Counted (sortedSet soa) := by
  cases negative with
  | false => cases h; simp [sortedSet, dedup, Counted]
  | true =>
    have hlen : (soaRecords m).length < 256 ^ 2 := (length_filter_le _ _).trans_lt hm.authorities
    exact counted_mapM h hlen fun _ _ => recordBytes_size hH

theorem soaBytes_sameSet (hH : SelfDelimiting H) (hm : Wire m) (hm' : Wire m') {negative soa soa'}
    (h : soaBytes H negative m = some soa) (h' : soaBytes H negative m' = some soa') :
    SameSet soa soa' ↔ (negative = true → SameSet ((soaRecords m).map soaIdentity) ((soaRecords m').map soaIdentity)) := by
  cases negative with
  | false =>
    cases h
    cases h'
    exact ⟨fun _ h => (by cases h), fun _ _ => .rfl⟩
  | true =>
    refine (sameSet_mapM h h' fun rr hrr rr' hrr' x x' hx hx' => ?_).trans ⟨fun h _ => h, fun h => h rfl⟩
    rw [recordBytes_inj hH (by decide) (by decide) (hm.dnsClass rr (mem_soaRecords hrr))
      (hm'.dnsClass rr' (mem_soaRecords hrr')) hx hx']
    simp [soaIdentity, dataBytes]

/-- **The identity of an answer.** -/
theorem fingerprintBytes_eq_iff (hH : SelfDelimiting H) (hm : Wire m) (hm' : Wire m') {question question' bytes bytes'}
    (h : fingerprintBytes H question m = some bytes) (h' : fingerprintBytes H question' m' = some bytes') :
    bytes = bytes' ↔ m.responseCode = m'.responseCode ∧ isNegative question m = isNegative question' m' ∧
      SameSet (m.answers.map (answerIdentity H)) (m'.answers.map (answerIdentity H)) ∧
      (isNegative question m = true → SameSet ((soaRecords m).map soaIdentity) ((soaRecords m').map soaIdentity)) := by
  obtain ⟨answers, soa, hanswers, hsoa, rfl⟩ := fingerprintBytes_ok h
  obtain ⟨answers', soa', hanswers', hsoa', rfl⟩ := fingerprintBytes_ok h'
  have hsize : ∀ (rr : Record) x, recordBytes H rr.name rr.recordType rr.dnsClass (some rr.data) = some x →
      x.length < 256 ^ 4 := fun _ _ => recordBytes_size hH
  have hset : SameSet answers answers' ↔
      SameSet (m.answers.map (answerIdentity H)) (m'.answers.map (answerIdentity H)) := by
    refine sameSet_mapM hanswers hanswers' fun rr hrr rr' hrr' x x' hx hx' => ?_
    rw [recordBytes_inj hH (hm.kind rr hrr) (hm'.kind rr' hrr') (hm.dnsClass rr (mem_append_left _ hrr))
      (hm'.dnsClass rr' (mem_append_left _ hrr')) hx hx']
    simp [answerIdentity, dataBytes]
  constructor
  · intro h
    obtain ⟨hcode, h⟩ := toBeBytes_append_inj hm.code.lt hm'.code.lt h
    obtain ⟨hflag, h⟩ := List.cons.inj h
    obtain ⟨hanswer, h⟩ := sectionBytes_append_inj (counted_mapM hanswers hm.answers hsize)
      (counted_mapM hanswers' hm'.answers hsize) h
    have hneg : isNegative question m = isNegative question' m' := by
      cases hn : isNegative question m <;> cases hn' : isNegative question' m' <;> simp [hn, hn'] at hflag ⊢
    obtain ⟨hsection, _⟩ := sectionBytes_append_inj (soaBytes_counted hH hm hsoa) (soaBytes_counted hH hm' hsoa')
      (congrArg (· ++ []) h)
    refine ⟨hm.code.inj hm'.code hcode, hneg, hset.mp (sortedSet_eq_iff.mp hanswer), ?_⟩
    exact (soaBytes_sameSet hH hm hm' hsoa (hneg ▸ hsoa')).mp (sortedSet_eq_iff.mp hsection)
  · rintro ⟨hcode, hneg, hanswer, howners⟩
    have hsection := (soaBytes_sameSet hH hm hm' hsoa (hneg ▸ hsoa')).mpr howners
    rw [hcode, hneg, sortedSet_eq_iff.mpr (hset.mpr hanswer), sortedSet_eq_iff.mpr hsection]

/-- The codec on the name and the data of the sample answer. -/
def ownerHickory : Hickory :=
  { samplePlatform.hickory with
    nameBytes n := if n.labels = [[97]] then some [1, 97, 0] else none
    rdataBytes d := if d = .other .A [1, 2, 3, 4] then some [1, 2, 3, 4] else none }

theorem ownerHickory_selfDelimiting : SelfDelimiting ownerHickory := by
  constructor
  · intro n m h
    simp [ownerHickory, h]
  · intro n m x y s t hx hy _
    simp only [ownerHickory, Option.ite_none_right_eq_some] at hx hy
    rw [hx.1, hy.1]
  all_goals
    intro _ x hx
    simp only [ownerHickory, Option.ite_none_right_eq_some, Option.some.injEq] at hx
    simp [← hx.2]

/-- The sample answer once more: another id, the record twice, with other TTLs and once in upper case. -/
def repeatedResponse : Message :=
  { sampleResponse with
    id := 7, answers := [⟨⟨[[65]], true⟩, 5, .IN, .other .A [1, 2, 3, 4]⟩,
      ⟨⟨[[97]], true⟩, 9, .IN, .other .A [1, 2, 3, 4]⟩] }

theorem fingerprintBytes_eq_iff_sample :
    ∃ bytes, fingerprintBytes ownerHickory sampleQuery.question sampleResponse = some bytes ∧
    fingerprintBytes ownerHickory sampleQuery.question repeatedResponse = some bytes := by
  obtain ⟨bytes, h⟩ : ∃ bytes, fingerprintBytes ownerHickory sampleQuery.question sampleResponse = some bytes := ⟨_, rfl⟩
  obtain ⟨bytes', h'⟩ : ∃ bytes, fingerprintBytes ownerHickory sampleQuery.question repeatedResponse = some bytes :=
    ⟨_, rfl⟩
  have hwire : Wire sampleResponse := ⟨nofun, by decide, by decide, by decide, by decide⟩
  have hwire' : Wire repeatedResponse := ⟨nofun, by decide, by decide, by decide, by decide⟩
  have hset : SameSet (sampleResponse.answers.map (answerIdentity ownerHickory))
      (repeatedResponse.answers.map (answerIdentity ownerHickory)) := fun x => by
    simp [sampleResponse, repeatedResponse, answerIdentity, Record.recordType, Name.toLowercase, toAsciiLowercase]
  have heq : bytes = bytes' := (fingerprintBytes_eq_iff ownerHickory_selfDelimiting hwire hwire' h h').mpr
    ⟨rfl, rfl, hset, fun hn => absurd hn (by decide)⟩
  exact ⟨bytes, h, heq ▸ h'⟩

end Parins.Cache
