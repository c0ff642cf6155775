/-
What the calls on the store may do to its files, command by command: nothing that
the catalog names or a pin holds is removed, and only a valid catalog is written,
one with every record that it references or that is pinned at that moment.
Each function has one specification, and it also says what becomes of the catalog.
-/
import Parins.Filters.Selection
import Parins.Filters.Store

namespace Parins.Filters
open Lib
open Lib.Exec (attempt memory sustains_memory sustains_modify sustains_ofExcept sustains_attempt)

variable {lib : Library} {M α β : Type} {d d' d1 d2 : Files} {m m' : Store} {c c' : Catalog} {given : List Text}

def Valid (lib : Library) (c : Catalog) : Prop := ∃ heap, validateCatalog lib heap c = .ok ()

/-- The catalog on disk names the object, or a pin holds it. -/
def Files.Needs (d : Files) (hash : Text) : Prop :=
  (∃ c r, d.catalog = some c ∧ r ∈ c.records ∧ r.sha256 = hash) ∨ 0 < d.pins hash

/-- One command; `given` are the sources that the call gives new records. -/
structure Guards (lib : Library) (given : List Text) (d d' : Files) : Prop where
  objects : ∀ hash, d.Needs hash → (d.content .objects (objectName hash)).isSome = true →
    (d'.content .objects (objectName hash)).isSome = true
  indexes : ∀ digest, 0 < d.pins (indexKey digest) → (d.content .indexes (indexName digest)).isSome = true →
    (d'.content .indexes (indexName digest)).isSome = true
  catalog : d'.catalog = d.catalog ∨ ∃ c, d'.catalog = some c ∧ Valid lib c ∧ c.Carries given d.pins d.catalog

/-- Every command of `p` is guarded, and `p` ends in `Q`. -/
abbrev Makes (lib : Library) (given : List Text) (p : Exec Cmd Ans M Error α) (Q : Except Error α → M → Files → Prop)
    (m : M) (d : Files) : Prop :=
  p.Ensures effect (Guards lib given) Q m d

/-! ### What stays -/

/-- Objects and indexes are as before, and no pin came. -/
structure Holds (d d' : Files) : Prop where
  objects : d'.content .objects = d.content .objects
  indexes : d'.content .indexes = d.content .indexes
  pins : ∀ key, d'.pins key ≤ d.pins key

/-- The catalog is as before too. -/
structure Rests (d d' : Files) : Prop extends Holds d d' where
  catalog : d'.catalog = d.catalog

theorem Holds.refl (d) : Holds d d := ⟨rfl, rfl, fun _ => le_refl _⟩

theorem Holds.trans (h1 : Holds d d1) (h2 : Holds d1 d2) : Holds d d2 :=
  ⟨h2.objects.trans h1.objects, h2.indexes.trans h1.indexes, fun key => (h2.pins key).trans (h1.pins key)⟩

theorem Rests.refl (d) : Rests d d := ⟨.refl d, rfl⟩

theorem Rests.trans (h1 : Rests d d1) (h2 : Rests d1 d2) : Rests d d2 :=
  ⟨h1.toHolds.trans h2.toHolds, h2.catalog.trans h1.catalog⟩

theorem Rests.guards (h : Rests d d') : Guards lib given d d' where
  objects hash _ hsome := by rw [h.objects]; exact hsome
  indexes digest _ hsome := by rw [h.indexes]; exact hsome
  catalog := .inl h.catalog

theorem Rests.dropPin (d : Files) (key) : Rests d (d.dropPin key) := by
  refine ⟨⟨rfl, rfl, fun key' => ?_⟩, rfl⟩
  show Function.update d.pins key (d.pins key - 1) key' ≤ d.pins key'
  by_cases h : key' = key
  · rw [h, Function.update_self]
    omega
  · rw [Function.update_of_ne h]

/-- Nothing but pins went. -/
structure Dropped (d d' : Files) : Prop extends Rests d d' where
  temporary : d'.temporary = d.temporary

theorem Dropped.refl (d) : Dropped d d := ⟨.refl d, rfl⟩

theorem dropped_foldl (drops : List Text) (d) : Dropped d (drops.foldl Files.dropPin d) := by
  induction drops generalizing d with
  | nil => exact .refl d
  | cons key rest ih =>
    have h := ih (d.dropPin key)
    exact ⟨(Rests.dropPin d key).trans h.toRests, h.temporary⟩

/-! ### Commands -/

def Cmd.idle : Cmd → Bool
  | .heap | .pins | .openCatalog | .diskBytes | .check | .checkDir _ | .sync | .io | .freshName | .list _ | .openFile ..
  | .handle _ => true
  | _ => false

theorem performNow_idle {c : Cmd} (h : c.idle = true) (x d) : (performNow x c d).2 = d := by
  cases c <;> first | rfl | cases h

def Cmd.apart : Cmd → Bool
  | .createTemporary | .writeTemporary _ | .removeTemporary | .create _ | .produce .. => true
  | .remove dir _ => dir == .staging || dir == .root
  | c => c.idle

theorem Outcome.settle_cases (x : Outcome) (d d') : (x.settle d d').2 = d ∨ (x.settle d d').2 = d' := by
  unfold settle
  split
  · exact .inr rfl
  · exact .inl rfl

theorem Rests.put {dir name content} (h : dir ≠ .objects ∧ dir ≠ .indexes) : Rests d (d.put dir name content) :=
  ⟨⟨Function.update_of_ne h.1.symm _ _, Function.update_of_ne h.2.symm _ _, fun _ => le_refl _⟩, rfl⟩

theorem Rests.settle (x : Outcome) (h : Rests d d') : Rests d (x.settle d d').2 := by
  rcases x.settle_cases d d' with heq | heq <;> rw [heq]
  · exact .refl d
  · exact h

theorem performNow_apart {c : Cmd} (h : c.apart = true) (x d) : Rests d (performNow x c d).2 := by
  cases c with
  | createTemporary => exact ⟨⟨rfl, rfl, fun _ => le_refl _⟩, rfl⟩
  | writeTemporary c => exact Rests.settle x ⟨⟨rfl, rfl, fun _ => le_refl _⟩, rfl⟩
  | removeTemporary => exact Rests.settle x ⟨⟨rfl, rfl, fun _ => le_refl _⟩, rfl⟩
  | create name =>
    simp only [performNow]
    split
    · exact .refl d
    · exact Rests.settle x (.put (by decide))
  | produce name maxBytes => exact Rests.put (by decide)
  | remove dir name =>
    refine Rests.settle x (.put ?_)
    cases dir <;> first | decide | cases h
  | addPin | renameTemporary | moveTo => cases h
  | _ => rw [performNow_idle rfl]; exact .refl d

section Rules
variable {m : M} {c : Cmd} {f : Ans c → Exec Cmd Ans M Error β} {Q : Except Error β → M → Files → Prop}

theorem effect_drops {r} (he : effect c d r d') : ∃ x d1, Dropped d d1 ∧ performNow x c d1 = (r, d') := by
  obtain ⟨x, hx⟩ := he
  exact ⟨x, _, dropped_foldl x.drops d, hx⟩

theorem effect_apart {r} (h : c.apart = true) (he : effect c d r d') : Rests d d' := by
  obtain ⟨x, d1, hdrop, hx⟩ := effect_drops he
  have hrests := performNow_apart h x d1
  rw [hx] at hrests
  exact hdrop.toRests.trans hrests

theorem look_spec (h : c.idle = true) : Makes lib given (call c : Exec Cmd Ans M Error (Ans c))
    (fun r m' d' => m' = m ∧ Dropped d d' ∧ ∃ x, (performNow x c d').1 = r) m d := by
  refine Program.safe_ask fun r d' he => ?_
  obtain ⟨x, d1, hdrop, hx⟩ := effect_drops he
  have hd := performNow_idle h x d1
  rw [hx] at hd
  cases hd
  exact ⟨hdrop.guards, rfl, hdrop, x, by rw [hx]⟩

theorem makes_look (h : c.idle = true)
    (hok : ∀ a d', Dropped d d' → (∃ x, (performNow x c d').1 = .ok a) → Makes lib given (f a) Q m d')
    (herr : ∀ e d', Dropped d d' → Q (.error e) m d') : Makes lib given (call c >>= f) Q m d := by
  refine (look_spec h).bind (fun a m' d' hlook => ?_) fun e m' d' hlook => ?_
  · obtain ⟨rfl, hdrop, hx⟩ := hlook
    exact hok a d' hdrop hx
  · obtain ⟨rfl, hdrop, _⟩ := hlook
    exact herr e d' hdrop

theorem makes_attempt_look {f} (h : c.idle = true)
    (hf : ∀ r d', Dropped d d' → Makes lib given (f r) Q m d') : Makes lib given (attempt (call c) >>= f) Q m d := by
  refine sustains_attempt (look_spec h) fun r m' d' hlook => ?_
  obtain ⟨rfl, hdrop, _⟩ := hlook
  exact hf r d' hdrop

theorem makes_apart (h : c.apart = true) (hok : ∀ a d', Rests d d' → Makes lib given (f a) Q m d')
    (herr : ∀ e d', Rests d d' → Q (.error e) m d') : Makes lib given (call c >>= f) Q m d := by
  refine Program.safe_ask fun r d' he => ?_
  have hrests := effect_apart h he
  refine ⟨hrests.guards, ?_⟩
  cases r with
  | ok a => exact hok a d' hrests
  | error e => exact herr e d' hrests

end Rules

variable {cond : Bool} {text : String}

theorem makes_require {f} {Q : Except Error β → Store → Files → Prop}
    (hok : cond = true → Makes lib given (f ()) Q m d) (herr : ∀ e, Q (.error e) m d) :
    Makes lib given (require cond text >>= f) Q m d := by
  cases cond with
  | true => exact hok rfl
  | false => exact herr _

theorem require_spec : Makes lib given (require cond text) (fun _ m' d' => m' = m ∧ d' = d) m d := by
  cases cond <;> exact ⟨rfl, rfl⟩

theorem makes_certain {f} {Q : Except Error β → Store → Files → Prop} (hok : Makes lib given (f ()) Q m d)
    (herr : ∀ e, Q (.error e) m d) : Makes lib given (certain >>= f) Q m d := by
  have hspec : Makes lib given certain (fun _ m' d' => m' = m ∧ d' = d) m d := sustains_memory require_spec
  refine hspec.bind (fun _ m' d' h => ?_) fun e m' d' h => ?_
  · rw [h.1, h.2]
    exact hok
  · rw [h.1, h.2]
    exact herr e

theorem makes_doWhen {p Q}
    (hp : cond = true → Makes lib given p Q m d) (hnot : Q (.ok ()) m d) : Makes lib given (doWhen cond p) Q m d := by
  cases cond with
  | true => exact hp rfl
  | false => exact hnot

theorem quietly_spec {c : Cmd} (h : c.apart = true) :
    Makes lib given (quietly c) (fun out m' d' => out = .ok () ∧ m' = m ∧ Rests d d') m d :=
  Program.safe_ask fun _ _ he => ⟨(effect_apart h he).guards, rfl, rfl, effect_apart h he⟩

/-! ### Checks that leave everything -/

/-- A part of a call that only looks. -/
structure Looks (m : Store) (d : Files) (m' : Store) (d' : Files) : Prop where
  memory : m' = m
  files : Rests d d'

theorem Looks.refl (m d) : Looks m d m d := ⟨rfl, .refl d⟩

/-- What only looking leaves as it is. -/
def Restful (I : Store → Files → Prop) : Prop := ∀ {m d d'}, I m d → Rests d d' → I m d'

theorem Looks.trans {m1 m2} (h1 : Looks m d m1 d1) (h2 : Looks m1 d1 m2 d2) : Looks m d m2 d2 :=
  ⟨h2.memory.trans h1.memory, h1.files.trans h2.files⟩

theorem Looks.restful : Restful (Looks m d) := fun h hd => h.trans ⟨rfl, hd⟩

theorem call_spec {c : Cmd} (h : c.apart = true) :
    Makes lib given (call c : Writer (Ans c)) (fun _ m' d' => Looks m d m' d') m d :=
  Program.safe_ask fun _ _ he => ⟨(effect_apart h he).guards, rfl, effect_apart h he⟩

section Restful
variable {I : Store → Files → Prop}

theorem Restful.looks {p : Writer α} {f} (hI : Restful I) (hp : Makes lib given p (fun _ m' d' => Looks m d m' d') m d)
    (h : I m d) (hok : ∀ a d', I m d' → Makes lib given (f a) (fun _ => I) m d') :
    Makes lib given (p >>= f : Writer β) (fun _ => I) m d := by
  refine hp.bind (fun a m' d' hl => ?_) fun _ m' d' hl => ?_
  · obtain ⟨rfl, hl⟩ := hl
    exact hok a d' (hI h hl)
  · obtain ⟨rfl, hl⟩ := hl
    exact hI h hl

theorem Restful.call {c : Cmd} {f} (hI : Restful I) (hc : c.apart = true) (h : I m d)
    (hok : ∀ a d', I m d' → Makes lib given (f a) (fun _ => I) m d') :
    Makes lib given (call c >>= f : Writer β) (fun _ => I) m d :=
  hI.looks (call_spec hc) h hok

end Restful

variable {content : Bytes}

theorem hashFile_spec : Makes lib given (hashFile lib content) (fun _ m' d' => Looks m d m' d') m d := by
  refine Looks.restful.call rfl (.refl m d) fun _ d1 h1 => ?_
  exact makes_require (fun _ => h1) fun _ => h1

variable {record : SourceRecord}

theorem verifyFile_spec : Makes lib given (verifyFile lib content record) (fun _ m' d' => Looks m d m' d') m d := by
  refine Looks.restful.call rfl (.refl m d) fun _ d1 h1 => ?_
  refine makes_require (fun _ => ?_) fun _ => h1
  refine Looks.restful.looks hashFile_spec h1 fun _ d2 h2 => ?_
  exact require_spec.mono fun _ m' d' h => by rw [h.1, h.2]; exact h2

theorem verifiedObject_spec : Makes lib given (verifiedObject lib record) (fun _ m' d' => Looks m d m' d') m d := by
  refine Looks.restful.call rfl (.refl m d) fun _ d1 h1 => ?_
  refine Looks.restful.call rfl h1 fun content d2 h2 => ?_
  cases content with
  | none => exact h2
  | some content => exact verifyFile_spec.mono fun _ _ _ h => h2.trans h

theorem verifyCandidates_spec (records : List SourceRecord) (seen : List Text) :
    Makes lib given (verifyCandidates lib seen records) (fun out m' d' => Looks m d m' d' ∧
      (out = .ok () → (records.map (·.fingerprint)).Nodup ∧ ∀ r ∈ records, r.fingerprint ∉ seen)) m d := by
  induction records generalizing seen m d with
  | nil => exact ⟨.refl m d, fun _ => ⟨.nil, nofun⟩⟩
  | cons record rest ih =>
    have herr : ∀ (e : Error) {m' : Store} {d' : Files}, Looks m d m' d' → Looks m d m' d' ∧
        ((Except.error e : Except Error Unit) = .ok () → ((record :: rest).map (·.fingerprint)).Nodup ∧
          ∀ r ∈ record :: rest, r.fingerprint ∉ seen) := fun _ _ _ h => ⟨h, nofun⟩
    refine makes_look rfl (fun heap d1 h1 _ => ?_) fun e _ h => herr e ⟨rfl, h.toRests⟩
    have h1 : Looks m d m d1 := ⟨rfl, h1.toRests⟩
    refine sustains_ofExcept (fun _ _ => ?_) fun e _ => herr e h1
    refine makes_require (fun hseen => ?_) fun e => herr e h1
    refine verifiedObject_spec.bind (fun _ m2 d2 h2 => ?_) fun e _ _ h2 => herr e (h1.trans h2)
    refine (ih (record.fingerprint :: seen)).mono fun out m' d' h => ?_
    refine ⟨(h1.trans h2).trans h.1, fun hok => ?_⟩
    obtain ⟨hnodup, hrest⟩ := h.2 hok
    refine ⟨List.nodup_cons.mpr ⟨fun hmem => ?_, hnodup⟩, fun r hr => ?_⟩
    · obtain ⟨r, hr, heq⟩ := List.mem_map.mp hmem
      exact hrest r hr (heq ▸ List.mem_cons_self)
    · rcases List.mem_cons.mp hr with rfl | hr
      · simpa using hseen
      · exact fun hmem => hrest r hr (List.mem_cons_of_mem _ hmem)

/-! ### The commit -/

/-- A commit that returned: nothing is changed, or a catalog in `R` is the one in memory and on disk. -/
structure Commits (lib : Library) (given : List Text) (R : Catalog → Prop) (m : Store) (d : Files) (out : Except Error α)
    (m' : Store) (d' : Files) : Prop where
  holds : Holds d d'
  result : (∃ e, out = .error e) ∧ m'.catalog = m.catalog ∧ d'.catalog = d.catalog ∨
    (∃ a, out = .ok a) ∧ d'.catalog = some m'.catalog ∧ Valid lib m'.catalog ∧ R m'.catalog ∧
      m'.catalog.Carries given d'.pins d.catalog

namespace Commits

variable {R R' : Catalog → Prop} {out : Except Error α}

theorem failed {e} (h : Rests d d') : Commits lib given R m d (.error e : Except Error α) m d' :=
  ⟨h.toHolds, .inl ⟨⟨e, rfl⟩, rfl, h.catalog⟩⟩

theorem mono (h : Commits lib given R m d out m' d') (hR : ∀ c, R c → R' c) : Commits lib given R' m d out m' d' := by
  refine ⟨h.holds, h.result.imp_right fun ⟨hout, hd, hvalid, hr, hcarries⟩ => ?_⟩
  exact ⟨hout, hd, hvalid, hR _ hr, hcarries⟩

theorem after (h : Commits lib given R m d1 out m' d') (hrests : Rests d d1) : Commits lib given R m d out m' d' := by
  refine ⟨hrests.toHolds.trans h.holds, ?_⟩
  rw [← hrests.catalog]
  exact h.result

end Commits

/-- The rename: the one step that changes the catalog. -/
theorem makes_rename {f} {Q : Except Error β → Store → Files → Prop} (ht : d.temporary = some c)
    (hvalid : Valid lib c) (hcarries : c.Carries given d.pins d.catalog)
    (hok : ∀ d', Holds d d' → d'.catalog = some c → Makes lib given (f ()) Q m d')
    (herr : ∀ e d', Rests d d' → Q (.error e) m d') : Makes lib given (call .renameTemporary >>= f) Q m d := by
  refine Program.safe_ask fun r d' he => ?_
  obtain ⟨x, d1, hdrop, hx⟩ := effect_drops he
  have ht1 : d1.temporary = some c := hdrop.temporary.trans ht
  simp only [performNow, ht1] at hx
  unfold Outcome.settle at hx
  split at hx <;> cases hx
  · have hholds : Holds d { d1 with catalog := some c, temporary := none } :=
      hdrop.toHolds.trans ⟨rfl, rfl, fun _ => le_refl _⟩
    refine ⟨⟨fun hash _ hsome => ?_, fun digest _ hsome => ?_, .inr ⟨c, rfl, hvalid, hcarries⟩⟩, hok _ hholds rfl⟩
    · rw [hholds.objects]
      exact hsome
    · rw [hholds.indexes]
      exact hsome
  · exact ⟨hdrop.guards, herr _ _ hdrop.toRests⟩

theorem makes_writeTemporary {f} {Q : Except Error β → Store → Files → Prop}
    (hok : ∀ d', Rests d d' → d'.temporary = some c → Makes lib given (f ()) Q m d')
    (herr : ∀ e d', Rests d d' → Q (.error e) m d') : Makes lib given (call (.writeTemporary c) >>= f) Q m d := by
  refine Program.safe_ask fun r d' he => ?_
  have hrests := effect_apart rfl he
  obtain ⟨x, d1, _, hx⟩ := effect_drops he
  refine ⟨hrests.guards, ?_⟩
  cases r with
  | error e => exact herr e d' hrests
  | ok a =>
    refine hok d' hrests ?_
    change x.settle d1 { d1 with temporary := some c } = (.ok a, d') at hx
    unfold Outcome.settle at hx
    split at hx <;> cases hx
    rfl

variable {checked : Bool}

theorem replaceCatalog_spec (hvalid : Valid lib c) (hcarries : c.Carries given d.pins d.catalog) :
    Makes lib given (replaceCatalog c checked) (Commits lib given (· = c) m d) m d := by
  refine makes_apart rfl (fun _ d1 h1 => ?_) fun _ _ h => .failed h
  refine makes_writeTemporary (fun d2 h2 ht2 => ?_) fun _ _ h => .failed (h1.trans h)
  have h2 := h1.trans h2
  refine makes_look rfl (fun _ d3 h3 _ => ?_) fun _ _ h => .failed (h2.trans h.toRests)
  have ht3 := h3.temporary.trans ht2
  have h3 := h2.trans h3.toRests
  have hcheck : Makes lib given (doWhen checked (call .check)) (fun _ m' d' => m' = m ∧ Dropped d3 d') m d3 := by
    exact makes_doWhen (fun _ => (look_spec rfl).mono fun _ _ _ h => ⟨h.1, h.2.1⟩) ⟨rfl, .refl d3⟩
  refine hcheck.bind (fun _ m4 d4 h4 => ?_) fun e m4 d4 h4 => ?_
  swap
  · obtain ⟨rfl, h4⟩ := h4
    exact .failed (h3.trans h4.toRests)
  obtain ⟨rfl, h4⟩ := h4
  have ht4 := h4.temporary.trans ht3
  have h4 := h3.trans h4.toRests
  refine makes_rename ht4 hvalid (h4.catalog ▸ hcarries.anti h4.pins) (fun d5 h5 hcatalog => ?_) fun _ _ h =>
    .failed (h4.trans h)
  refine sustains_modify ?_
  refine makes_attempt_look rfl fun sync d6 h6 => ?_
  refine sustains_modify ?_
  have hholds := (h4.toHolds.trans h5).trans h6.toHolds
  exact ⟨hholds, .inr ⟨⟨_, rfl⟩, h6.catalog.trans hcatalog, hvalid, rfl, hcarries.anti hholds.pins⟩⟩

theorem commitCatalogWithCheck_spec (hcarries : c.Carries given d.pins d.catalog) :
    Makes lib given (commitCatalogWithCheck lib c checked) (Commits lib given (· = c) m d) m d := by
  refine makes_look rfl (fun heap d1 h1 _ => ?_) fun _ _ h => .failed h.toRests
  refine sustains_ofExcept (fun _ hvalid => ?_) fun _ _ => .failed h1.toRests
  refine makes_require (fun _ => ?_) fun _ => .failed h1.toRests
  refine makes_look rfl (fun _ d2 h2 _ => ?_) fun _ _ h => .failed (h1.toRests.trans h.toRests)
  have h2 := h1.toRests.trans h2.toRests
  refine makes_look rfl (fun used d3 h3 _ => ?_) fun _ _ h => .failed (h2.trans h.toRests)
  have h3 := h2.trans h3.toRests
  refine sustains_memory ?_
  refine makes_require (fun _ => ?_) fun _ => .failed h3
  refine sustains_attempt (replaceCatalog_spec ⟨heap, hvalid⟩ (h3.catalog ▸ hcarries.anti h3.pins))
    fun result m4 d4 h4 => ?_
  refine (quietly_spec rfl).bind (fun _ m5 d5 h5 => ?_) fun e _ _ h => by cases h.1
  obtain ⟨_, rfl, h5⟩ := h5
  have h4 := h4.after h3
  refine ⟨h4.holds.trans h5.toHolds, ?_⟩
  rcases h4.result with ⟨⟨e, rfl⟩, hm, hd⟩ | ⟨⟨o, rfl⟩, hd, hvalid, hc, hcarries⟩
  · exact .inl ⟨⟨e, rfl⟩, hm, h5.catalog.trans hd⟩
  · exact .inr ⟨⟨o, rfl⟩, h5.catalog.trans hd, hvalid, hc, hcarries.anti h5.pins⟩

end Parins.Filters
