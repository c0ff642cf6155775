/-
Publishing a built index: the walk passes, the publication digest exists and
what is stored is read back (`Publishable`). Of a built index this holds exactly
when no name repeats the slot in charge above it (`publishable_iff`); when one
does, publication panics (`publication_panics`).
-/
import Parins.Policy.Stored

namespace Parins.Policy

open Lib Lib.Radix List

/-! ## Validation -/

variable {g : Group}

section Validation

variable {sha256 : Bytes → Digest} {env : ReadEnv} {b : Builder} {rules : List Rule} {c : Canonical}
  {out : Group → List Record} {ix : Index} {t : Trie UInt8 Sources} {n : Nat}

/-- The keys of a group, in preorder. -/
def groupKeys (t : Trie UInt8 Sources) (g : Group) : List Bytes :=
  ((t.entries []).filter fun x => x.2.get g != noSlot).map (·.1)

theorem groupKeys_eq (hp : Prepared sha256 b rules c out) (hf : Filters b rules t) (ho : t.Ordered) (g) :
    groupKeys t g = (out g).map fun r => key b.arena.items r.entry := by
  refine @eq_of_ascending _ _ _ _ _ id _ _ ?_ ?_ fun k => ?_
  · exact pairwise_map.mpr ((Trie.entries_sorted t [] ho).filter _)
  · exact pairwise_map.mpr (hp.pruned g).keys
  · simp only [groupKeys, mem_map, mem_filter, bne_iff_ne]
    constructor
    · rintro ⟨⟨k, v⟩, ⟨hk, hg⟩, rfl⟩
      obtain ⟨ks, rfl, -, hkept⟩ := hf.slots hk hg rfl
      obtain ⟨r, hr, hspell⟩ := (hp.pruned g).complete hkept
      exact ⟨r, hr, hspell.key⟩
    · rintro ⟨r, hr, rfl⟩
      obtain ⟨ks, hspell, hkept⟩ := (hp.pruned g).sound r hr
      obtain ⟨-, hlt, v, hv, hget⟩ := hf.covers hkept
      exact ⟨(frame ks, v), ⟨hv, by rw [hget]; exact Nat.ne_of_lt hlt⟩, hspell.key.symm⟩

theorem foldl_counts : ∀ {l : List (Bytes × Sources)} {counts} (g),
    l.foldl (fun (counts : Group → Nat) x g => counts g + if x.2.get g ≠ noSlot then 1 else 0) counts g =
      counts g + (l.filter fun x => x.2.get g != noSlot).length
  | [], _, _ => rfl
  | x :: l, counts, g => by
    rw [foldl_cons, foldl_counts]
    by_cases hx : x.2.get g = noSlot
    · simp [hx]
    · simp [hx]
      omega

theorem foldl_keys : ∀ {l : List (Bytes × Sources)} {bytes},
    l.foldl (fun bytes x => if x.2.get g ≠ noSlot then bytes ++ (toBeBytes 2 x.1.length ++ x.1) else bytes) bytes =
      bytes ++ ((l.filter fun x => x.2.get g != noSlot).map (·.1)).flatMap fun k => toBeBytes 2 k.length ++ k
  | [], bytes => by simp
  | x :: l, bytes => by
    rw [foldl_cons, foldl_keys]
    by_cases hx : x.2.get g = noSlot
    · simp [hx]
    · simp [hx]

structure Walkable (n : Nat) (c : Canonical) (ix : Index) (t : Trie UInt8 Sources) : Prop where
  indexes : Indexes c ix t
  root : t.value = .none
  nodes : ix.nodes.items.length ≤ usizeMax
  arena : ix.arena.items.length ≤ usizeMax
  passes : Passes n t

theorem walkGroup_ok (hw : Walkable n c ix t) (hcheck : ∀ site, env.check site = none) (counts bytes) (g : Group) :
    walkGroup env ix n counts bytes g =
      .ok (bytes ++ UInt8.ofNat g.index :: (toBeBytes 8 (counts g) ++
        (groupKeys t g).flatMap fun k => toBeBytes 2 k.length ++ k)) := by
  rw [walkGroup, walk_pass hw.indexes hw.root hw.nodes hw.arena hw.passes (fun _ => run_ok hcheck _)
    (f := fun bytes key sources => if sources.get g ≠ noSlot then bytes ++ (toBeBytes 2 key.length ++ key) else bytes)
    (fun _ _ _ => rfl), foldl_keys]
  simp [groupKeys]

/-- **An index that passes the walk is validated**: its counts are those of the
canonical form, and so is its semantic digest. -/
theorem validate_ok (hw : Walkable n c ix t) (hp : Prepared sha256 b rules c out) (hf : Filters b rules t)
    (hcheck : ∀ site, env.check site = none) : validate sha256 env ix n = .ok () := by
  have hkeys := groupKeys_eq hp hf hw.indexes.ordered
  have hlength : ∀ g, ((t.entries []).filter fun x => x.2.get g != noSlot).length = (out g).length := fun g => by
    have := congrArg List.length (hkeys g)
    rwa [groupKeys, length_map, length_map] at this
  have hcounts : (t.entries []).foldl
      (fun (counts : Group → Nat) x g => counts g + if x.2.get g ≠ noSlot then 1 else 0) (fun _ => 0) =
      fun g => (out g).length := by
    funext g
    rw [foldl_counts, hlength, Nat.zero_add]
  have hsum : (Group.all.map fun g => (out g).length).sum = ix.indexRules := by
    rw [hw.indexes.indexRules, hp.records]
    simp only [Group.all, map_cons, map_nil, sum_cons, sum_nil, length_append]
    omega
  have hflat : ∀ g, ((out g).map fun r => key b.arena.items r.entry).flatMap (fun k => toBeBytes 2 k.length ++ k) =
      (out g).flatMap fun r => toBeBytes 2 r.entry.len ++ key b.arena.items r.entry := fun g => by
    rw [flatMap_map]
    refine flatMap_congr fun r hr => ?_
    obtain ⟨ks, hspell, -⟩ := (hp.pruned g).sound r hr
    rw [hspell.len, hspell.key]
  rw [validate, walk_pass hw.indexes hw.root hw.nodes hw.arena hw.passes (fun _ => run_ok hcheck _)
    (f := fun counts _ sources g => counts g + if sources.get g ≠ noSlot then 1 else 0) (fun _ _ _ => rfl),
    ok_bind, hcounts, ensure_of (by simpa using hsum), ok_bind]
  simp only [Group.all, foldlM_cons, foldlM_nil, walkGroup_ok hw hcheck, ok_bind, pure_bind, hkeys, hflat]
  rw [ensure_of]
  rw [hw.indexes.digest, hp.digest, beq_iff_eq]
  congr 1
  simp [semanticBytes, Group.index]

end Validation

/-! ## Reading back -/

section RoundTrip

variable {sha256 : Bytes → Digest} {env : ReadEnv} {b : Builder} {rules : List Rule} {c : Canonical}
  {out : Group → List Record} {ix ix' : Index} {t : Trie UInt8 Sources} {ids : List Bytes} {limits : Limits}

theorem sourceIdsValid_spec (h : sourceIdsValid ids = true) : ids.length < 256 ^ 2 ∧ ∀ id ∈ ids, id.length < 256 := by
  simp only [sourceIdsValid, Bool.and_eq_true, decide_eq_true_eq, all_eq_true] at h
  obtain ⟨⟨⟨⟨-, hlocal⟩, hcount⟩, hsources⟩, -⟩ := h
  have hsplit := prefix_iff_eq_append.mp (List.takeWhile_prefix (p := fun id : Bytes => id.isEmpty) (l := ids))
  refine ⟨?_, fun id hid => ?_⟩
  · rw [length_drop] at hcount
    unfold maxLocalResponses at hlocal
    omega
  · rw [← hsplit, mem_append] at hid
    rcases hid with hid | hid
    · rw [isEmpty_iff.mp (mem_takeWhile_imp hid)]
      decide
    · have := (hsources id hid).1.2
      omega

theorem Indexes.congr (h : Indexes c ix t) (hn : ix'.nodes.items = ix.nodes.items) (ha : ix'.arena.items = ix.arena.items)
    (hd : ix'.semanticDigest = ix.semanticDigest) (hi : ix'.inputRules = ix.inputRules)
    (hx : ix'.indexRules = ix.indexRules) : Indexes c ix' t where
  slots := h.slots
  covers := h.covers
  short := h.short
  ordered := h.ordered
  compressed := h.compressed
  nodes := by rw [hn]; exact h.nodes
  bytes := by rw [ha]; exact h.bytes
  small := h.small
  laid := by rw [hn, ha]; exact h.laid
  root := by rw [hn]; exact h.root
  digest := by rw [hd]; exact h.digest
  inputRules := by rw [hi]; exact h.inputRules
  indexRules := by rw [hx]; exact h.indexRules

/-- **What was stored is read back**, and is valid. -/
theorem read_stored (hw : Walkable ids.length c ix t) (hp : Prepared sha256 b rules c out) (hf : Filters b rules t)
    (hs : Storable ids.length ix) (hids : sourceIdsValid ids = true) (hroom : Admits env limits ix) (inputDigest) :
    ∃ ix', Index.readFromWithCheck sha256 env
        (storedBytes ix inputDigest ids ++ (sha256 (storedBytes ix inputDigest ids)).toList)
        inputDigest ids limits = .ok ix' ∧
      ix'.nodes.items = ix.nodes.items ∧ ix'.arena.items = ix.arena.items ∧ ix'.semanticDigest = ix.semanticDigest ∧
      ix'.inputRules = ix.inputRules ∧ ix'.indexRules = ix.indexRules := by
  obtain ⟨nodes, arena, budget, hbuffers⟩ := readBuffers_ok hroom
  have hcheck := hroom.check
  have hinput : storedBytes ix inputDigest ids ++ (sha256 (storedBytes ix inputDigest ids)).toList =
      (headerPieces ix inputDigest ids.length).flatten ++ (idBytes ids ++ (ix.nodes.items.flatMap encodeNode ++
        (ix.arena.items ++ (sha256 (storedBytes ix inputDigest ids)).toList))) := by
    simp only [storedBytes, append_assoc]
  rw [Index.readFromWithCheck, run_ok hcheck, ok_bind, ensure_of hids, ok_bind, hinput,
    readHeader_ok hs (sourceIdsValid_spec hids).2 hroom.rules, ok_bind]
  dsimp only
  rw [hbuffers, ok_bind]
  dsimp only
  rw [readNodes_ok hs.ids hcheck hs.fits, ok_bind]
  dsimp only
  rw [readArena_ok hcheck rfl, ok_bind]
  dsimp only
  have hd : (sha256 (storedBytes ix inputDigest ids)).toList.length = 32 := Vector.length_toList
  have hhashed : (headerPieces ix inputDigest ids.length).flatten ++ idBytes ids ++ ix.nodes.items.flatMap encodeNode ++
      ix.arena.items = storedBytes ix inputDigest ids := rfl
  have htrailer := @Reader.get_append _ DiskError.io (storedBytes ix inputDigest ids) _ [] 32 hd
  rw [append_nil] at htrailer
  have hdigest := @digestAt_of (sha256 (storedBytes ix inputDigest ids)).toList 0 _
    (by rw [drop_zero, take_of_length_le (Nat.le_of_eq hd)])
  rw [hhashed, htrailer, ok_bind]
  dsimp only
  rw [hdigest, ensure_of (beq_self_eq_true _), ok_bind, ensure_of isEmpty_nil, ok_bind]
  have hw' : Walkable ids.length c ⟨⟨ix.nodes.items, nodes.capacity⟩, ⟨ix.arena.items, arena.capacity⟩, ix.semanticDigest,
      ix.inputRules, ix.indexRules, budget.peak⟩ t :=
    ⟨hw.indexes.congr rfl rfl rfl rfl rfl, hw.root, hw.nodes, hw.arena, hw.passes⟩
  rw [validate_ok hw' hp hf hcheck, ok_bind]
  exact ⟨_, rfl, rfl, rfl, rfl, rfl, rfl⟩

end RoundTrip

/-! ## Built indexes -/

section Built

variable {sha256 : Bytes → Digest} {b : Builder} {rules : List Rule} {c : Canonical} {out : Group → List Record}
  {ix : Index} {t : Trie UInt8 Sources} {ids : List Bytes} {n : Nat}

theorem kept_mem {ks s} (h : kept b rules g ks = some s) : ⟨ks, g, s⟩ ∈ rules := by
  cases g with
  | allowSuffix | blockSuffix => exact (first_some (keptSuffix_some.mp h).1).1
  | allowExact | blockExact => exact (first_some (keptExact_some.mp h).1).1

theorem Filters.slot_lt (hf : Filters b rules t) (hslots : ∀ rule ∈ rules, rule.slot < n) {k} {v : Sources}
    (h : (k, v) ∈ t.entries []) (g) (hg : v.get g ≠ noSlot) : v.get g < n := by
  obtain ⟨ks, -, -, hkept⟩ := hf.slots h hg rfl
  exact hslots _ (kept_mem hkept)

theorem Filters.root (hf : Filters b rules t) : t.value = .none := by
  have hmem : ([], t.value) ∈ t.entries [] := by
    cases t
    simp [Trie.entries, Trie.value]
  by_contra hne
  obtain ⟨g, hg⟩ := Sources.live_iff.mp (show t.value.live = true by simpa [Sources.live] using hne)
  obtain ⟨ks, hframe, hsp, -⟩ := hf.slots hmem hg rfl
  obtain ⟨l, ks', rfl⟩ := exists_cons_of_ne_nil hsp.ne
  cases hframe

theorem Filters.keys (hf : Filters b rules t) : ∀ x ∈ t.entries [], x.2.live = true → validateKey x.1 = .ok () := by
  rintro ⟨k, v⟩ hx hlive
  obtain ⟨g, hg⟩ := Sources.live_iff.mp hlive
  obtain ⟨ks, rfl, hsp, -⟩ := hf.slots hx hg rfl
  exact validateKey_frame hsp

theorem Indexes.storable (hi : Indexes c ix t) (hc : c.Wf) (hp : Prepared sha256 b rules c out) (hf : Filters b rules t)
    (hb : b.Wf rules) (hmax : b.maxRules ≤ 5000000) (hslots : ∀ rule ∈ rules, rule.slot < n) (hn : n < 256 ^ 2) :
    Storable n ix := by
  obtain ⟨hunder, hsum⟩ := hi.small
  have hcount := hc.count
  have hnodes := hi.nodes
  have hbytes := hi.bytes
  have hinput : ix.inputRules ≤ 5000000 := by
    rw [hi.inputRules, hp.inputRules]
    exact Nat.le_trans hb.rulesLen hmax
  obtain ⟨nd, hnd, hoff, hlen, -⟩ := hi.root
  obtain ⟨htop, hbelow⟩ := @Laid.fits _ _ n (by omega) (by omega) t [] 0 1 0 hi.ordered hi.short
    (fun x hx g => or_iff_not_imp_left.mpr (hf.slot_lt hslots hx g)) hi.laid
  refine ⟨hn, by omega, by omega, by omega, ?_, fun nd' hmem => ?_, by omega, ?_, by omega⟩
  · rw [hi.indexRules, hi.inputRules, hp.inputRules]
    exact hp.sub.length_le
  · obtain ⟨j, hj, rfl⟩ := getElem_of_mem hmem
    cases j with
    | zero =>
      obtain rfl : nd = ix.nodes.items[0] := Option.some.inj (hnd.symm.trans (List.getElem?_eq_getElem hj))
      exact htop _ (List.getElem?_eq_getElem hj) (by omega) (by omega)
    | succ j => exact hbelow (j + 1) _ (by omega) (by omega) (List.getElem?_eq_getElem hj)
  · rw [hi.indexRules]
    omega

end Built

/-- What publication relies on: the walk passes for so many source ids, so the
digest over any witnesses of them exists, and what is stored is read back as it
was. -/
structure Publishable (sha256 : Bytes → Digest) (ix : Index) (ids : List Bytes) : Prop where
  walk : ix.walk ids.length (fun _ => .ok ()) (fun _ _ _ => .ok ()) () = .ok ()
  digest : ∀ witnesses : List Bytes, witnesses.length = ids.length →
    ∃ d, ix.publicationDigest sha256 witnesses = .ok d
  roundTrip : sourceIdsValid ids = true → ∀ (inputDigest : Digest) (env : ReadEnv) (limits : Limits),
    Admits env limits ix → ∃ bytes ix', ix.writeTo sha256 inputDigest ids = .ok bytes ∧
      Index.readFromWithCheck sha256 env bytes inputDigest ids limits = .ok ix' ∧
      ix'.nodes.items = ix.nodes.items ∧ ix'.arena.items = ix.arena.items ∧
      ix'.semanticDigest = ix.semanticDigest ∧ ix'.inputRules = ix.inputRules ∧ ix'.indexRules = ix.indexRules

theorem Walkable.digest {sha256 c} {ix : Index} {t : Trie UInt8 Sources}
    {witnesses : List Bytes} (hw : Walkable witnesses.length c ix t)
    (hslots : ∀ k v, (k, v) ∈ t.entries [] → ∀ g, v.get g ≠ noSlot → v.get g < witnesses.length) :
    ∃ d, ix.publicationDigest sha256 witnesses = .ok d := by
  have hgroup : ∀ (key : Bytes) (v : Sources), (∀ g, v.get g ≠ noSlot → v.get g < witnesses.length) →
      ∀ (gs : List Group) (bytes : Bytes), ∃ bytes', gs.foldlM (witnessBytes witnesses key v) bytes = .ok bytes' := by
    intro key v hv gs
    induction gs with
    | nil => exact fun bytes => ⟨bytes, rfl⟩
    | cons g gs ih =>
      intro bytes
      obtain ⟨bytes', hg⟩ : ∃ bytes', witnessBytes witnesses key v bytes g = .ok bytes' := by
        unfold witnessBytes
        split
        · exact ⟨_, rfl⟩
        · next hlive =>
          rw [item_of_get (List.getElem?_eq_getElem (hv g hlive)), ok_bind]
          exact ⟨_, rfl⟩
      rw [foldlM_cons, hg, ok_bind]
      exact ih bytes'
  let f (bytes key : Bytes) (v : Sources) : Bytes :=
    (Group.all.foldlM (witnessBytes witnesses key v) bytes).toOption.getD bytes
  have hvisit : ∀ bytes, ∀ x ∈ t.entries [], Group.all.foldlM (witnessBytes witnesses x.1 x.2) bytes =
    .ok (f bytes x.1 x.2) := by
    intro bytes x hx
    obtain ⟨bytes', h⟩ := hgroup x.1 x.2 (hslots _ _ hx) Group.all bytes
    simp only [f, h, Except.toOption, Option.getD_some]
  rw [Index.publicationDigest, walk_pass hw.indexes hw.root hw.nodes hw.arena hw.passes (fun _ => rfl) hvisit]
  exact ⟨_, rfl⟩

/-- **A built index can be published exactly when no name repeats the slot in
charge above it.** -/
theorem publishable_iff {S : UnstableSort} {sha256 : Bytes → Digest} {env : Env} {limits : Limits} {localSlots : Nat}
    {classes : List Nat} {added : List Added} {ix : Index} {ids : List Bytes}
    (hbuild : buildIndex S sha256 env limits localSlots classes added = .ok ix)
    (hids : ∀ a ∈ added, a.slot.toNat < ids.length) :
    Publishable sha256 ix ids ↔
      ∀ a ∈ added, repeats localSlots classes (added.map Added.rule) (ruleLabels a.domain) = false := by
  obtain ⟨b, c, out, t, rfl, rfl, hmax, hb, hp, hc, hi, hf⟩ := buildIndex_ok hbuild
  have hslots : ∀ rule ∈ added.map Added.rule, rule.slot < ids.length := forall_mem_map.mpr hids
  have hentry : ∀ k v, (k, v) ∈ t.entries [] → ∀ g, v.get g ≠ noSlot → v.get g < ids.length :=
    fun k v h => hf.slot_lt hslots h
  have hsmall := hi.small
  have hcount := hc.count
  have hn : ix.nodes.items.length ≤ usizeMax := by
    rw [hi.nodes]
    unfold usizeMax
    omega
  have ha : ix.arena.items.length ≤ usizeMax := by
    rw [hi.bytes]
    unfold usizeMax
    omega
  -- A name that repeats is the name of a rule.
  have hnames : (∀ ks, ks ≠ [] → repeats b.localSlots b.classes (added.map Added.rule) ks = false) ↔
      ∀ a ∈ added, repeats b.localSlots b.classes (added.map Added.rule) (ruleLabels a.domain) = false := by
    constructor
    · intro h a hmem
      exact h _ (hb.spellable a.rule (mem_map_of_mem hmem)).ne
    · intro h ks hne
      by_contra hrep
      obtain ⟨s, -, hexact, -⟩ := (repeats_iff hne).mp (Bool.not_eq_false _ ▸ hrep)
      obtain ⟨a, hmem, hrule⟩ := mem_map.mp (kept_mem hexact)
      have hks : ruleLabels a.domain = ks := congrArg Rule.labels hrule
      exact hrep (hks ▸ h a hmem)
  rw [← hnames, ← tree_ok_iff hf hi.ordered hentry]
  constructor
  · intro h x hx
    have hwalk := h.walk
    rw [walk_eq hi hf.root hn ha] at hwalk
    obtain ⟨out, hfold, -⟩ := bind_eq_ok.mp hwalk
    exact forM_of_foldlM hfold x hx
  · intro h
    have hw : Walkable ids.length c ix t := ⟨hi, hf.root, hn, ha, hf.keys, h⟩
    refine ⟨?_, fun witnesses hlen => ?_, fun hvalid inputDigest env limits hroom => ?_⟩
    · exact walk_pass hi hf.root hn ha hw.passes (fun _ => rfl) (f := fun _ _ _ => ()) (fun _ _ _ => rfl) ()
    · rw [← hlen] at hw hentry
      exact hw.digest hentry
    · have hs := hi.storable hc hp hf hb hmax hslots (sourceIdsValid_spec hvalid).1
      obtain ⟨ix', hread, hsame⟩ := read_stored hw hp hf hs hvalid hroom inputDigest
      exact ⟨_, ix', writeTo_ok hs hvalid, hread, hsame⟩

/-- The walk is quiet about `sampleRules`. -/
theorem publishable_iff_sample :
    ∃ ix, buildIndex .insertion (fun _ => sampleDigest) quietEnv ⟨1000, 1000000, 0⟩ 1 [0, 1] sampleRules = .ok ix ∧
      Publishable (fun _ => sampleDigest) ix [[], [97]] := by
  obtain ⟨ix, hix⟩ := sample_builds
  exact ⟨ix, hix, (publishable_iff hix (by decide)).mpr (by decide)⟩

/-- Block `com` and exactly `a.com`, and block `a.com` by another method. -/
def repeatRules : List Added :=
  [⟨[97, 46, 99, 111, 109], .blockExact, 0⟩, ⟨[99, 111, 109], .blockSuffix, 0⟩,
    ⟨[97, 46, 99, 111, 109], .blockSuffix, 1⟩]

def repeatDigest : Digest :=
  #v[35, 83, 16, 103, 17, 39, 249, 53, 181, 231, 148, 80, 123, 2, 23, 41,
    81, 89, 22, 33, 177, 91, 167, 163, 181, 104, 100, 41, 91, 122, 25, 187]

/-- **Publication panics.** The builder keeps all three rules, and the walk
refuses the exact one: its slot is that of `com`, although `a.com` stands
between them. -/
theorem publication_panics :
    ∃ ix, buildIndex .insertion (fun _ => repeatDigest) quietEnv ⟨1000, 1000000, 0⟩ 2 [0, 1] repeatRules = .ok ix ∧
      ix.walk 2 (fun _ => .ok ()) (fun _ _ _ => .ok ()) () =
        .error (.error (.message "derived index redundant suffix child")) ∧
      ix.publicationDigest (fun _ => repeatDigest) [[0], [0]] = .error .panic := by
  have hall : (buildIndex .insertion (fun _ => repeatDigest) quietEnv ⟨1000, 1000000, 0⟩ 2 [0, 1] repeatRules).toOption.map
      (fun ix => (ix.walk 2 (fun _ => .ok ()) (fun _ _ _ => .ok ()) (),
        ix.publicationDigest (fun _ => repeatDigest) [[0], [0]])) =
      some (.error (.error (.message "derived index redundant suffix child")), .error .panic) := by decide +kernel
  obtain ⟨ix, hix, hends⟩ := exists_ok_of_map hall
  exact ⟨ix, hix, Prod.mk.inj hends⟩

end Parins.Policy
