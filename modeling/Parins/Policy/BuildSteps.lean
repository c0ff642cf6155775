/-
The parts of one turn of the build loop. A frame's records are a `Slice`: sorted
keys that share the frame's path. Entering a frame takes the rules that end at
its node off the slice; advancing takes off the run of records with one next
byte and stores their longest common prefix as an edge (`edgeOf`).
-/
import Mathlib.Data.List.TakeWhile
import Mathlib.Data.List.Find
import Parins.Policy.Layout
import Parins.Policy.KeyFacts

namespace Parins.Policy

open Lib Lib.Radix List

/-- Sorted records whose keys go through `pre`, at most one of a group a key. -/
structure Slice (arena pre : Bytes) (rs : List Record) : Prop where
  path : ∀ r ∈ rs, pre <+: key arena r.entry
  len : ∀ r ∈ rs, r.entry.len = (key arena r.entry).length
  max : ∀ r ∈ rs, (key arena r.entry).length ≤ 254
  slot : ∀ r ∈ rs, r.entry.sourceSlot < noSlot
  keys : rs.Pairwise fun a b => (compare (key arena a.entry) (key arena b.entry)).isLE = true
  unique : rs.Pairwise fun a b => key arena a.entry = key arena b.entry → a.group ≠ b.group

theorem Slice.sublist {arena pre} {rs rs' : List Record} (h : Slice arena pre rs) (hs : rs'.Sublist rs) :
    Slice arena pre rs' :=
  ⟨fun r hr => h.path r (hs.subset hr), fun r hr => h.len r (hs.subset hr), fun r hr => h.max r (hs.subset hr),
    fun r hr => h.slot r (hs.subset hr), h.keys.sublist hs, h.unique.sublist hs⟩

/-- The slot of the rule of group `g` at key `k` among these records. -/
def slotAt (arena : Bytes) (rs : List Record) (k : Bytes) (g : Group) : Nat :=
  ((rs.find? fun r => key arena r.entry == k && r.group == g).map (·.entry.sourceSlot)).getD noSlot

theorem find_none {arena k g} {rs : List Record} (h : ∀ r ∈ rs, key arena r.entry ≠ k) :
    rs.find? (fun r => key arena r.entry == k && r.group == g) = none :=
  List.find?_eq_none.mpr fun r hr => by simp [h r hr]

theorem slotAt_append_left {arena k as bs g}
    (h : ∀ r ∈ bs, key arena r.entry ≠ k) : slotAt arena (as ++ bs) k g = slotAt arena as k g := by
  simp only [slotAt, List.find?_append, find_none h, Option.or_none]

theorem slotAt_append_right {arena k as bs g}
    (h : ∀ r ∈ as, key arena r.entry ≠ k) : slotAt arena (as ++ bs) k g = slotAt arena bs k g := by
  simp only [slotAt, List.find?_append, find_none h, Option.none_or]

/-! ## Bytes and runs -/

def byteOf (arena : Bytes) (depth : Nat) (r : Record) : UInt8 := (key arena r.entry)[depth]?.getD 0

variable {arena pre : Bytes} {rs : List Record} {env : Env}

theorem byteAt_ok {depth} {r : Record} (h : depth < (key arena r.entry).length) :
    byteAt arena depth r = .ok (byteOf arena depth r) := by
  simp [byteAt, byteOf, List.getElem?_eq_getElem h]

theorem sameByte_safe {p depth} {byte : UInt8} : ∀ {rs : List Record} {stop : Nat},
    (∀ r ∈ rs, depth < (key arena r.entry).length) → Safe (sameByte env p arena depth byte stop rs) fun out =>
      out = (rs.takeWhile (byteOf arena depth · == byte), rs.dropWhile (byteOf arena depth · == byte))
  | [], _, _ => rfl
  | r :: rs, stop, h => by
    simp only [sameByte, byteAt_ok (h r (by simp))]
    refine Safe.bind (P := fun b => b = byteOf arena depth r) rfl fun b hb => ?_
    subst hb
    split
    · next heq =>
      refine env.when_safe ?_
      refine (sameByte_safe fun r hr => h r (mem_cons_of_mem _ hr)).bind fun out hout => ?_
      simp only [hout, Safe, pure, Except.pure]
      rw [takeWhile_cons_of_pos (by simpa using heq), dropWhile_cons_of_pos (by simpa using heq)]
    · next hne =>
      simp only [Safe, pure, Except.pure]
      rw [takeWhile_cons_of_neg (by simpa using hne), dropWhile_cons_of_neg (by simpa using hne)]

/-- The records after `r` with its byte at `depth`, and what follows them. -/
def runOf (arena : Bytes) (depth : Nat) (r : Record) (rs : List Record) : List Record :=
  rs.takeWhile (byteOf arena depth · == byteOf arena depth r)

def restOf (arena : Bytes) (depth : Nat) (r : Record) (rs : List Record) : List Record :=
  rs.dropWhile (byteOf arena depth · == byteOf arena depth r)

/-- The number of runs of equal bytes, the first one being of `byte`. -/
def runCount : Option UInt8 → List UInt8 → Nat
  | _, [] => 0
  | byte, b :: bs => if byte = some b then runCount byte bs else runCount (some b) bs + 1

theorem countChildren_safe {p depth} : ∀ {rs : List Record} {byte : Option UInt8} {position : Nat},
    (∀ r ∈ rs, depth < (key arena r.entry).length) →
    Safe (countChildren env p arena depth byte position rs) fun n =>
      n = runCount byte (rs.map (byteOf arena depth))
  | [], _, _, _ => rfl
  | r :: rs, byte, position, h => by
    simp only [countChildren, byteAt_ok (h r (by simp)), map_cons, runCount]
    refine Safe.bind (P := fun b => b = byteOf arena depth r) rfl fun b hb => ?_
    subst hb
    split
    · next heq =>
      exact env.when_safe (countChildren_safe fun r hr => h r (mem_cons_of_mem _ hr))
    · refine (countChildren_safe fun r hr => h r (mem_cons_of_mem _ hr)).bind fun n hn => ?_
      simp [Safe, pure, Except.pure, hn]

theorem runCount_some (b) : ∀ bs : List UInt8, runCount (some b) bs = runCount none (bs.dropWhile (· == b))
  | [] => rfl
  | c :: bs => by
    by_cases h : c = b
    · subst h
      rw [dropWhile_cons_of_pos (by simp), ← runCount_some c bs]
      simp [runCount]
    · rw [dropWhile_cons_of_neg (by simpa using h)]
      simp [runCount, Ne.symm h]

theorem runCount_run (depth r rs) : runCount none ((r :: rs).map (byteOf arena depth)) =
      runCount none ((restOf arena depth r rs).map (byteOf arena depth)) + 1 := by
  simp only [map_cons, runCount, runCount_some, dropWhile_map, restOf]
  simp [Function.comp_def]

/-! ## Rules that end at a node -/

theorem terminals_eq (depth) : ∀ (rs : List Record) (s : Sources),
    terminals depth rs s = (rs.dropWhile (·.entry.len == depth),
      (rs.takeWhile (·.entry.len == depth)).foldl (fun s r => s.set r.group r.entry.sourceSlot) s)
  | [], _ => rfl
  | r :: rs, s => by
    by_cases h : r.entry.len = depth
    · simp [terminals, h, terminals_eq depth rs]
    · simp [terminals, h]

theorem foldl_set_get {g} : ∀ {l : List Record} {s : Sources}, (l.Pairwise fun a b => a.group ≠ b.group) →
    (l.foldl (fun s r => s.set r.group r.entry.sourceSlot) s).get g =
      ((l.find? fun r => r.group == g).map (·.entry.sourceSlot)).getD (s.get g)
  | [], _, _ => rfl
  | r :: l, s, h => by
    obtain ⟨hr, hl⟩ := pairwise_cons.mp h
    rw [foldl_cons, foldl_set_get hl, Sources.get_set]
    by_cases hg : r.group = g
    · have hnone : l.find? (fun r => r.group == g) = none := by
        rw [List.find?_eq_none]
        intro r' hr'
        have := hr r' hr'
        simp only [beq_iff_eq]
        exact fun heq => this (hg.trans heq.symm)
      simp [hnone, hg]
    · simp [hg]

theorem Slice.split (h : Slice arena pre rs) :
    (∀ r ∈ rs.takeWhile (·.entry.len == pre.length), key arena r.entry = pre) ∧
      ∀ r ∈ rs.dropWhile (·.entry.len == pre.length), pre.length < (key arena r.entry).length := by
  refine ⟨fun r hr => ?_, fun r hr => ?_⟩
  · have hmem := (takeWhile_sublist _).subset hr
    have hlen := mem_takeWhile_imp hr
    simp only [beq_iff_eq] at hlen
    exact ((h.path r hmem).eq_of_length (by rw [← h.len r hmem, hlen])).symm
  · have hsub := dropWhile_sublist (l := rs) (·.entry.len == pre.length)
    have hmem := hsub.subset hr
    refine Nat.lt_of_le_of_ne (h.path r hmem).length_le fun heq => ?_
    -- A key that ends here would sort before the first that does not.
    cases hd : rs.dropWhile (·.entry.len == pre.length) with
    | nil => rw [hd] at hr; cases hr
    | cons x xs =>
      have hx : x ∈ rs := hsub.subset (by rw [hd]; simp)
      have hxlen : x.entry.len ≠ pre.length := by
        have := List.head?_dropWhile_not (fun r : Record => r.entry.len == pre.length) rs
        rw [hd] at this
        simpa using this
      have hkeys := h.keys.sublist hsub
      rw [hd] at hr hkeys
      rcases mem_cons.mp hr with rfl | hr
      · exact hxlen (by rw [h.len _ hx, ← heq])
      · have hle := (pairwise_cons.mp hkeys).1 r hr
        have hpre : key arena r.entry = pre := ((h.path r hmem).eq_of_length heq).symm
        have hge := compare_prefix_isLE (h.path x hx)
        rw [hpre] at hle
        exact hxlen (by rw [h.len x hx, compare_isLE_antisymm hle hge])

theorem Slice.terminals_get (h : Slice arena pre rs) (g) :
    ((terminals pre.length rs .none).2).get g = slotAt arena rs pre g := by
  obtain ⟨hterm, hrest⟩ := h.split
  have hsub := takeWhile_sublist (l := rs) (·.entry.len == pre.length)
  have hdistinct : (rs.takeWhile (·.entry.len == pre.length)).Pairwise fun a b => a.group ≠ b.group := by
    refine (h.unique.sublist hsub).imp_of_mem fun {a b} ha hb hab => ?_
    exact hab ((hterm a ha).trans (hterm b hb).symm)
  rw [terminals_eq, foldl_set_get hdistinct, Sources.get_none]
  have hsplit := takeWhile_append_dropWhile (p := (·.entry.len == pre.length)) (l := rs)
  have hslot : slotAt arena rs pre g = slotAt arena (rs.takeWhile (·.entry.len == pre.length)) pre g := by
    conv_lhs => rw [← hsplit]
    refine slotAt_append_left fun r hr heq => ?_
    have := hrest r hr
    rw [heq] at this
    omega
  rw [hslot, slotAt]
  congr 2
  refine (List.find?_congr fun r hr => ?_).symm
  simp [hterm r hr]

/-! ## Edges -/

theorem take_commonLen : ∀ a b : Bytes, a.take (commonLen a b) <+: b
  | [], _ => by simp [commonLen]
  | _ :: _, [] => by simp [commonLen]
  | x :: a, y :: b => by
    unfold commonLen
    split
    · next h => simpa [h] using take_commonLen a b
    · simp

theorem commonLen_le : ∀ a b : Bytes, commonLen a b ≤ a.length
  | [], _ => by simp [commonLen]
  | _ :: _, [] => by simp [commonLen]
  | x :: a, y :: b => by
    have := commonLen_le a b
    unfold commonLen
    split
    · simp only [length_cons]; omega
    · exact Nat.zero_le _

theorem commonLen_next : ∀ {a b : Bytes}, commonLen a b < a.length → commonLen a b < b.length →
    a[commonLen a b]? ≠ b[commonLen a b]?
  | [], _, h, _ => by simp at h
  | _ :: _, [], _, h => by simp at h
  | x :: a, y :: b, h1, h2 => by
    unfold commonLen at h1 h2 ⊢
    split
    · next h =>
      simp only [h, if_true, length_cons, Nat.add_lt_add_iff_right] at h1 h2
      simpa using commonLen_next h1 h2
    · next h => simpa using h

/-- The edge stored for a run of records: the common prefix of its first and
last key beyond `depth`. -/
def edgeOf (arena : Bytes) (depth : Nat) (r : Record) (run : List Record) : Bytes :=
  let last := ((r :: run).getLast?.getD r).entry
  ((key arena r.entry).drop depth).take
    (1 + commonLen ((key arena r.entry).drop (depth + 1)) ((key arena last).drop (depth + 1)))

/-- A run: records with one byte after the path. -/
structure Run (arena pre : Bytes) (r : Record) (run : List Record) : Prop where
  slice : Slice arena pre (r :: run)
  deep : ∀ r' ∈ r :: run, pre.length < (key arena r'.entry).length
  byte : ∀ r' ∈ run, byteOf arena pre.length r' = byteOf arena pre.length r

section Run

variable {r : Record} {run : List Record}

theorem Run.drop_eq (h : Run arena pre r run) {r' : Record} (hr : r' ∈ r :: run) :
    (key arena r'.entry).drop pre.length =
      byteOf arena pre.length r :: (key arena r'.entry).drop (pre.length + 1) := by
  have hlt := h.deep r' hr
  have hb : byteOf arena pre.length r' = byteOf arena pre.length r := by
    rcases mem_cons.mp hr with rfl | hr
    · rfl
    · exact h.byte r' hr
  rw [drop_eq_getElem_cons hlt, ← hb, byteOf, List.getElem?_eq_getElem hlt]
  rfl

theorem Run.key_eq (h : Run arena pre r run) {r' : Record} (hr : r' ∈ r :: run) :
    key arena r'.entry = pre ++ (key arena r'.entry).drop pre.length := by
  obtain ⟨tail, htail⟩ := h.slice.path r' hr
  rw [← htail, drop_left]

theorem Run.edge_cons (h : Run arena pre r run) : ∃ e, edgeOf arena pre.length r run = byteOf arena pre.length r :: e ∧
    e = ((key arena r.entry).drop (pre.length + 1)).take (commonLen ((key arena r.entry).drop (pre.length + 1))
      ((key arena ((r :: run).getLast?.getD r).entry).drop (pre.length + 1))) := by
  refine ⟨_, ?_, rfl⟩
  rw [edgeOf, h.drop_eq (by simp), Nat.add_comm 1, take_succ_cons]

theorem Run.last_mem : (r :: run).getLast?.getD r ∈ r :: run := by
  rw [List.getLast?_eq_some_getLast (cons_ne_nil r run)]
  exact getLast_mem _

theorem Run.path (h : Run arena pre r run) {r' : Record} (hr : r' ∈ r :: run) :
    pre ++ edgeOf arena pre.length r run <+: key arena r'.entry := by
  obtain ⟨e, he, hedef⟩ := h.edge_cons
  have hfirst : pre ++ edgeOf arena pre.length r run <+: key arena r.entry := by
    rw [h.key_eq (show r ∈ r :: run by simp), he, h.drop_eq (by simp), prefix_append_right_inj, cons_prefix_cons, hedef]
    exact ⟨rfl, take_prefix _ _⟩
  have hlast : pre ++ edgeOf arena pre.length r run <+: key arena ((r :: run).getLast?.getD r).entry := by
    rw [h.key_eq Run.last_mem, he, h.drop_eq Run.last_mem, prefix_append_right_inj, cons_prefix_cons, hedef]
    exact ⟨rfl, take_commonLen _ _⟩
  -- In between, the keys share what the first and the last share.
  have hkeys := h.slice.keys
  have hge : (compare (key arena r.entry) (key arena r'.entry)).isLE = true := by
    rcases mem_cons.mp hr with rfl | hr
    · simp [Std.ReflOrd.compare_self]
    · exact (pairwise_cons.mp hkeys).1 r' hr
  have hle : (compare (key arena r'.entry) (key arena ((r :: run).getLast?.getD r).entry)).isLE = true := by
    obtain ⟨front, hfront⟩ : ∃ front, r :: run = front ++ [(r :: run).getLast?.getD r] := by
      rw [List.getLast?_eq_some_getLast (cons_ne_nil r run)]
      exact ⟨_, (dropLast_append_getLast (cons_ne_nil r run)).symm⟩
    generalize (r :: run).getLast?.getD r = last at hfront ⊢
    rw [hfront] at hr hkeys
    rcases mem_append.mp hr with hr | hr
    · exact (pairwise_append.mp hkeys).2.2 r' hr last (by simp)
    · simp [mem_singleton.mp hr, Std.ReflOrd.compare_self]
  exact prefix_between hge hle hfirst hlast

theorem Run.sub (h : Run arena pre r run) : Slice arena (pre ++ edgeOf arena pre.length r run) (r :: run) :=
  { h.slice with path := fun _ hr => h.path hr }

theorem Run.branches (h : Run arena pre r run) : key arena r.entry = pre ++ edgeOf arena pre.length r run ∨
      ∃ r' ∈ run, (key arena r.entry)[(pre ++ edgeOf arena pre.length r run).length]? ≠
        (key arena r'.entry)[(pre ++ edgeOf arena pre.length r run).length]? ∧
        (pre ++ edgeOf arena pre.length r run).length < (key arena r.entry).length ∧
        (pre ++ edgeOf arena pre.length r run).length < (key arena r'.entry).length := by
  obtain ⟨e, he, hedef⟩ := h.edge_cons
  have hsplit := h.key_eq (show r ∈ r :: run by simp)
  rw [h.drop_eq (by simp)] at hsplit
  generalize hlast : (r :: run).getLast?.getD r = last at hedef
  have hmem : last ∈ r :: run := hlast ▸ Run.last_mem
  have hsplit' := h.key_eq hmem
  rw [h.drop_eq hmem] at hsplit'
  have hr := h.deep r (by simp)
  have hl := h.deep last hmem
  generalize hA : (key arena r.entry).drop (pre.length + 1) = A at hsplit hedef
  generalize hB : (key arena last.entry).drop (pre.length + 1) = B at hsplit' hedef
  have hle := commonLen_le A B
  have hlen : (pre ++ edgeOf arena pre.length r run).length = pre.length + 1 + commonLen A B := by
    rw [he, hedef]
    simp only [length_append, length_cons, length_take]
    omega
  rcases Nat.lt_or_ge (commonLen A B) A.length with hlt | hge
  · right
    have hget : ∀ k : Bytes, k[pre.length + 1 + commonLen A B]? = (k.drop (pre.length + 1))[commonLen A B]? :=
      fun k => by rw [List.getElem?_drop]
    have hlt' : commonLen A B < B.length := by
      by_contra hnot
      -- Otherwise the last key would be a proper prefix of the first.
      have hBA : B <+: A := by
        have htake := take_commonLen A B
        have : A.take (commonLen A B) = B := htake.eq_of_length_le (by simp; omega)
        exact this ▸ take_prefix _ _
      have hpre : key arena last.entry <+: key arena r.entry := by
        rw [hsplit, hsplit', prefix_append_right_inj, cons_prefix_cons]
        exact ⟨rfl, hBA⟩
      have hcmp : (compare (key arena r.entry) (key arena last.entry)).isLE = true := by
        rcases mem_cons.mp hmem with heq | hmem
        · simp [heq, Std.ReflOrd.compare_self]
        · exact (pairwise_cons.mp h.slice.keys).1 last hmem
      have heq := compare_isLE_antisymm hcmp (compare_prefix_isLE hpre)
      have hAB : A = B := by rw [← hA, ← hB, heq]
      rw [hAB] at hlt
      exact hnot (by rw [hAB]; exact hlt)
    have hne := commonLen_next hlt hlt'
    refine ⟨last, ?_, ?_, ?_, ?_⟩
    · rcases mem_cons.mp hmem with heq | hmem
      · rw [← hA, ← hB, heq] at hne
        exact absurd rfl hne
      · exact hmem
    · rw [hlen, hget, hget, hA, hB]
      exact hne
    · rw [hlen, hsplit]
      simp only [length_append, length_cons]
      omega
    · rw [hlen, hsplit']
      simp only [length_append, length_cons]
      omega
  · left
    have htake : A.take (commonLen A B) = A := take_of_length_le hge
    rw [he, hedef, htake]
    exact hsplit

end Run

/-! ## One turn -/

variable {s : BuildState} {i start depth c : Nat} {nd : Node}

/-- The node a frame's parent becomes when the frame is entered. -/
def entered (nodes : List Node) (nd : Node) (depth : Nat) (rs : List Record) (count : Nat) : Node :=
  { nd with
    sources := (terminals depth rs nd.sources).2
    firstChild := wrap 32 nodes.length
    childCount := wrap 16 count }

theorem enter_safe (h : Slice arena pre rs) (hi : s.nodes.items[i]? = some nd) :
    Safe (enter env arena s (Frame.new i start rs pre.length)) fun out =>
      let rest := rs.dropWhile (·.entry.len == pre.length)
      let count := runCount none (rest.map (byteOf arena pre.length))
      out.1.nodes.items = s.nodes.items.set i (entered s.nodes.items nd pre.length rs count) ++
          List.replicate count Node.empty ∧
        out.1.arena = s.arena ∧ out.1.processed = s.processed ∧
        ∃ start', out.2 = ⟨i, start', rest, pre.length, some s.nodes.items.length⟩ := by
  have hlt : i < s.nodes.items.length := (List.getElem?_eq_some_iff.mp hi).1
  simp only [enter, Frame.new, terminals_eq pre.length rs .none]
  refine (update_safe hi).bind fun placed hplaced => ?_
  refine (countChildren_safe h.split.2).bind fun count hcount => ?_
  refine grow_safe.bind fun out hout => ?_
  obtain ⟨nodes, budget⟩ := out
  simp only at hout
  have hget : (nodes.items ++ List.replicate count Node.empty)[i]? =
      some { nd with sources := (terminals pre.length rs nd.sources).2 } := by
    rw [hout, hplaced, List.getElem?_append_left (by simpa using hlt)]
    simp [hlt]
  refine (update_safe hget).bind fun items hitems => ?_
  simp only [Safe, pure, Except.pure]
  refine ⟨?_, trivial, trivial, _, by rw [hplaced, length_set]⟩
  rw [hitems, hout, hplaced, set_append_left _ _ (by simpa using hlt), set_set, length_set, hcount]
  rfl

/-- The node a child is when its frame is pushed. -/
def opened (offset : Nat) (edge : Bytes) (byte : UInt8) : Node :=
  { Node.empty with edgeOffset := wrap 32 offset, edgeLen := wrap 8 edge.length, firstByte := byte }

theorem advance_safe {r} {frames : List Frame} (h : Run arena pre r (runOf arena pre.length r rs))
    (hdeep : ∀ r' ∈ r :: rs, pre.length < (key arena r'.entry).length)
    (hc : s.nodes.items[c]? = some nd) (hf : frames.length ≤ pre.length) :
    Safe (advance env arena s ⟨i, start, r :: rs, pre.length, some c⟩ frames) fun s' =>
      let edge := edgeOf arena pre.length r (runOf arena pre.length r rs)
      s'.nodes.items = s.nodes.items.set c (opened s.arena.items.length edge (byteOf arena pre.length r)) ∧
        s'.arena.items = s.arena.items ++ edge ∧
        ∃ start', s'.frames = Frame.new c start (r :: runOf arena pre.length r rs) (pre ++ edge).length ::
          ⟨i, start', restOf arena pre.length r rs, pre.length, some (c + 1)⟩ :: frames := by
  obtain ⟨e, he, hedef⟩ := h.edge_cons
  have hlen : (edgeOf arena pre.length r (runOf arena pre.length r rs)).length =
      1 + commonLen ((key arena r.entry).drop (pre.length + 1))
        ((key arena ((r :: runOf arena pre.length r rs).getLast?.getD r).entry).drop (pre.length + 1)) := by
    rw [he, length_cons, hedef, length_take, Nat.min_eq_left (commonLen_le _ _)]
    omega
  simp only [advance, byteAt_ok (hdeep r (by simp)), Option.getD_some]
  refine Safe.bind (P := fun b => b = byteOf arena pre.length r) rfl fun b hb => ?_
  subst hb
  refine Safe.bind (P := fun out => out = (runOf arena pre.length r rs, restOf arena pre.length r rs))
    (sameByte_safe fun r' hr' => hdeep r' (mem_cons_of_mem _ hr')) fun out hout => ?_
  subst hout
  have hsub : ∀ n, pre.length + 1 + n - pre.length = 1 + n := fun n => by omega
  simp only [hsub, ← hlen]
  refine grow_safe.bind fun out hout => ?_
  obtain ⟨bytes, budget⟩ := out
  simp only at hout
  refine (update_safe hc).bind fun items hitems => ?_
  have hroom : frames.length + 1 < maxBuildDepth := by
    have := hdeep r (by simp)
    have := h.slice.max r (by simp)
    simp only [maxBuildDepth]
    omega
  rw [if_pos hroom]
  simp only [Safe, pure, Except.pure]
  refine ⟨hitems, ?_, start + 1 + (runOf arena pre.length r rs).length, ?_⟩
  · rw [hout, hlen]
    rfl
  · rw [length_append, hlen, Nat.add_assoc]

end Parins.Policy
