/-
Sorting and searching slices, as a standard library offers them. An unstable
sort is any function that returns a sorted permutation (`UnstableSort`), so
what is proved of it holds however equal elements end up ordered. The binary
search halves a window of candidates until one is left; on a slice where the
probe answers in order it finds a match whenever there is one
(`binarySearchBy_complete`).

The order on keys is the lexicographic one. What sorting gives about prefixes
is `prefix_between`: a prefix shared by two keys is shared by every key that
sorts between them.
-/
import Mathlib.Data.List.Sort

namespace Parins.Lib
open List

/-- Some implementation of `sort_unstable_by`. -/
structure UnstableSort where
  sort : {α : Type} → (α → α → Ordering) → List α → List α
  perm : ∀ {α : Type} (cmp : α → α → Ordering) (l : List α), (sort cmp l).Perm l
  sorted : ∀ {α : Type} (cmp : α → α → Ordering) [Std.TransCmp cmp] (l : List α),
    (sort cmp l).Pairwise fun a b => (cmp a b).isLE = true

variable {α : Type}

theorem UnstableSort.mem (S : UnstableSort) {cmp} {l : List α} {a : α} :
    a ∈ S.sort cmp l ↔ a ∈ l := (S.perm cmp l).mem_iff

/-- Insertion sort is one such implementation (a stable one). -/
def UnstableSort.insertion : UnstableSort where
  sort cmp l := l.insertionSort fun a b => (cmp a b).isLE = true
  perm _ l := perm_insertionSort _ l
  sorted cmp _ l := by
    have : Std.Total fun a b => (cmp a b).isLE = true := ⟨fun a b => by
      cases h : cmp a b with
      | lt | eq => simp
      | gt => right; rw [Std.OrientedCmp.gt_iff_lt.mp h]; rfl⟩
    have : IsTrans _ fun a b => (cmp a b).isLE = true := ⟨fun _ _ _ => Std.TransCmp.isLE_trans⟩
    exact pairwise_insertionSort _ l

/-! ## Binary search -/

section BinarySearch

variable {α : Type} (f : α → Ordering) (l : List α)

/-- The window loop: while more than one of the `size` candidates from `base`
on is left, keep the half that can still match. -/
def searchBase : Nat → Nat → Nat → Nat
  | 0, base, _ => base
  | fuel + 1, base, size =>
    if size ≤ 1 then base
    else
      let half := size / 2
      let mid := base + half
      searchBase fuel (if l[mid]?.map f = some .gt then base else mid) (size - half)

/-- The index of an element that compares equal, if the search finds one. -/
def binarySearchBy : Option Nat :=
  let base := searchBase f l l.length 0 l.length
  match l[base]? with
  | some a => if f a = .eq then some base else none
  | none => none

/-- The probe answers in slice order: first `lt`, then `eq`, then `gt`. -/
def Probes : Prop :=
  l.Pairwise fun a b => (f a = .gt → f b = .gt) ∧ (f b = .lt → f a = .lt)

variable {f l} {i : Nat}

theorem Probes.at {j a b} (h : Probes f l) (hij : i < j) (ha : l[i]? = some a)
    (hb : l[j]? = some b) : (f a = .gt → f b = .gt) ∧ (f b = .lt → f a = .lt) := by
  obtain ⟨hi, rfl⟩ := List.getElem?_eq_some_iff.mp ha
  obtain ⟨hj, rfl⟩ := List.getElem?_eq_some_iff.mp hb
  exact pairwise_iff_getElem.mp h i j hi hj hij

theorem binarySearchBy_sound (h : binarySearchBy f l = some i) : ∃ a, l[i]? = some a ∧ f a = .eq := by
  simp only [binarySearchBy] at h
  split at h
  · next a ha =>
    split at h
    · next he =>
      simp only [Option.some.injEq] at h
      subst h
      exact ⟨a, ha, he⟩
    · cases h
  · cases h

/-- A match inside the window stays inside it until it is the base. -/
theorem searchBase_hit (hp : Probes f l) : ∀ fuel base size i a, size ≤ fuel + 1 → base ≤ i → i < base + size →
      base + size ≤ l.length → l[i]? = some a → f a = .eq →
      ∃ b, l[searchBase f l fuel base size]? = some b ∧ f b = .eq
  | 0, base, size, i, a, hs, hb, hi, _, ha, he => by
    have : i = base := by omega
    subst this
    exact ⟨a, ha, he⟩
  | fuel + 1, base, size, i, a, hs, hb, hi, hl, ha, he => by
    simp only [searchBase]
    split
    · next h1 =>
      have : i = base := by omega
      subst this
      exact ⟨a, ha, he⟩
    next h1 =>
    have hmid : base + size / 2 < l.length := by omega
    obtain ⟨m, hm⟩ : ∃ m, l[base + size / 2]? = some m := ⟨_, List.getElem?_eq_getElem hmid⟩
    simp only [hm, Option.map_some, Option.some.injEq]
    split
    · next hg =>
      -- Everything from the middle on is above the match.
      have him : i < base + size / 2 := by
        rcases Nat.lt_trichotomy i (base + size / 2) with h | h | h
        · exact h
        · rw [h, hm, Option.some.injEq] at ha; rw [ha, he] at hg; cases hg
        · rw [(hp.at h hm ha).1 hg] at he; cases he
      exact searchBase_hit hp fuel base (size - size / 2) i a (by omega) hb (by omega) (by omega) ha he
    · next hg =>
      rcases Nat.lt_or_ge i (base + size / 2) with h | h
      · -- The middle is a match too, as it lies between a match and nothing above it.
        have hme : f m = .eq := by
          cases hfm : f m with
          | lt => rw [(hp.at h ha hm).2 hfm] at he; cases he
          | eq => rfl
          | gt => exact absurd hfm hg
        exact searchBase_hit hp fuel _ (size - size / 2) _ m (by omega) (Nat.le_refl _) (by omega) (by omega) hm hme
      · exact searchBase_hit hp fuel _ (size - size / 2) i a (by omega) h (by omega) (by omega) ha he

theorem binarySearchBy_complete (hp : Probes f l) {a}
    (ha : l[i]? = some a) (he : f a = .eq) : ∃ j b, binarySearchBy f l = some j ∧ l[j]? = some b ∧ f b = .eq := by
  have hi : i < l.length := (List.getElem?_eq_some_iff.mp ha).1
  obtain ⟨b, hb, hbe⟩ := searchBase_hit hp l.length 0 l.length i a (by omega) (by omega) (by omega) (by omega) ha he
  exact ⟨_, b, by simp [binarySearchBy, hb, hbe], hb, hbe⟩

end BinarySearch

/-! ## The least element -/

section Least

variable {α : Type} (cmp : α → α → Ordering)

/-- The smaller of the best so far and the next one; the best stays on a tie. -/
def better (best : Option α) (x : α) : Option α :=
  match best with
  | none => some x
  | some y => if cmp x y = .lt then some x else best

def least (l : List α) : Option α := l.foldl (better cmp) none

variable {cmp} [Std.TransCmp cmp]

theorem better_spec (best x) : ∃ m, better cmp best x = some m ∧ (m = x ∨ best = some m) ∧
    cmp x m ≠ .lt ∧ ∀ y ∈ best, cmp y m ≠ .lt := by
  cases best with
  | none => exact ⟨x, rfl, .inl rfl, by simp [Std.ReflCmp.compare_self], by simp⟩
  | some y =>
    by_cases h : cmp x y = .lt
    · refine ⟨x, by simp [better, h], .inl rfl, by simp [Std.ReflCmp.compare_self], ?_⟩
      intro z hz
      rw [← Option.mem_some_iff.mp hz, Std.OrientedCmp.gt_of_lt h]
      exact nofun
    · refine ⟨y, by simp [better, h], .inr rfl, h, ?_⟩
      intro z hz
      rw [← Option.mem_some_iff.mp hz]
      simp [Std.ReflCmp.compare_self]

theorem foldl_better : ∀ {l : List α} {best m}, l.foldl (better cmp) best = some m →
    (m ∈ l ∨ best = some m) ∧ (∀ x ∈ l, cmp x m ≠ .lt) ∧ ∀ y ∈ best, cmp y m ≠ .lt
  | [], best, m, h => by
    simp only [foldl_nil] at h
    subst h
    exact ⟨.inr rfl, by simp, fun y hy => by rw [← Option.mem_some_iff.mp hy]; simp [Std.ReflCmp.compare_self]⟩
  | x :: l, best, m, h => by
    obtain ⟨b, hb, hfrom, hx, hbest⟩ := @better_spec α cmp _ best x
    rw [foldl_cons, hb] at h
    obtain ⟨hmem, hl, hle⟩ := foldl_better h
    have hbm : cmp b m ≠ .lt := hle b rfl
    have htrans : ∀ z, cmp z b ≠ .lt → cmp z m ≠ .lt := by
      intro z hz hzm
      have hmb : (cmp m b).isLE = true := by
        cases hc : cmp m b with
        | lt | eq => rfl
        | gt => exact absurd (Std.OrientedCmp.lt_of_gt hc) hbm
      exact hz (Std.TransCmp.lt_of_lt_of_isLE hzm hmb)
    refine ⟨?_, ?_, fun y hy => htrans y (hbest y hy)⟩
    · rcases hmem with hmem | hmem
      · exact .inl (mem_cons_of_mem _ hmem)
      · rw [Option.some.injEq] at hmem
        subst hmem
        rcases hfrom with rfl | hfrom
        · exact .inl (by simp)
        · exact .inr hfrom
    · intro z hz
      rcases mem_cons.mp hz with rfl | hz
      · exact htrans z hx
      · exact hl z hz

theorem least_some {l m} (h : least cmp l = some m) : m ∈ l ∧ ∀ x ∈ l, cmp x m ≠ .lt := by
  obtain ⟨hmem, hl, -⟩ := foldl_better h
  exact ⟨by simpa using hmem, hl⟩

omit [Std.TransCmp cmp] in
theorem foldl_better_isSome : ∀ {l : List α} {best : Option α}, best.isSome = true →
    (l.foldl (better cmp) best).isSome = true
  | [], _, h => h
  | x :: l, best, h => by
    obtain ⟨y, rfl⟩ := Option.isSome_iff_exists.mp h
    rw [foldl_cons]
    refine @foldl_better_isSome l (better cmp (some y) x) ?_
    unfold better
    dsimp only
    split <;> rfl

omit [Std.TransCmp cmp] in
theorem least_isSome {l} : (least cmp l).isSome = true ↔ l ≠ [] := by
  cases l with
  | nil => simp [least]
  | cons x l => simpa [least] using foldl_better_isSome rfl

end Least

/-! ## Lexicographic keys -/

section Keys

variable {α : Type} [Ord α]

theorem compare_prefix_isLE [Std.ReflOrd α] : ∀ {p k : List α}, p <+: k → (compare p k).isLE = true
  | [], [], _ => rfl
  | [], _ :: _, _ => rfl
  | x :: p, k, h => by
    obtain ⟨t, rfl⟩ := h
    simp only [List.cons_append, List.compare_cons_cons, Std.ReflOrd.compare_self]
    exact compare_prefix_isLE (List.prefix_append p t)

variable [Std.TransOrd α] [Std.LawfulEqOrd α]

theorem eq_of_ascending {β : Type} {key : β → List α} {l l' : List β}
    (h : l.Pairwise fun x y => compare (key x) (key y) = .lt) (h' : l'.Pairwise fun x y => compare (key x) (key y) = .lt)
    (hmem : ∀ x, x ∈ l ↔ x ∈ l') : l = l' := by
  have hirrefl : Std.Irrefl fun x y : β => compare (key x) (key y) = .lt :=
    ⟨fun x h => by rw [Std.ReflOrd.compare_self] at h; cases h⟩
  have hasymm : Std.Asymm fun x y : β => compare (key x) (key y) = .lt :=
    ⟨fun x y h h' => by rw [Std.OrientedCmp.gt_of_lt h] at h'; cases h'⟩
  exact h.eq_of_mem_iff h' @hmem

theorem compare_isLE_antisymm {a b : List α} (h1 : (compare a b).isLE = true) (h2 : (compare b a).isLE = true) :
    a = b := Std.LawfulEqOrd.eq_of_compare (Std.OrientedCmp.isLE_antisymm h1 h2)

/-- **A shared prefix is shared in between.** -/
theorem prefix_between : ∀ {p a b c : List α}, (compare a b).isLE = true → (compare b c).isLE = true →
    p <+: a → p <+: c → p <+: b
  | [], _, _, _, _, _, _, _ => nil_prefix
  | x :: p, a, b, c, hab, hbc, ha, hc => by
    obtain ⟨a, rfl⟩ := ha
    obtain ⟨c, rfl⟩ := hc
    cases b with
    | nil => cases hab
    | cons y b =>
      simp only [List.cons_append, List.compare_cons_cons] at hab hbc
      have hxy : x = y := by
        cases hcmp : compare x y with
        | lt =>
          rw [Std.OrientedCmp.gt_of_lt hcmp] at hbc
          cases hbc
        | eq => exact Std.LawfulEqOrd.eq_of_compare hcmp
        | gt => rw [hcmp] at hab; cases hab
      subst hxy
      simp only [Std.ReflOrd.compare_self] at hab hbc
      simpa using prefix_between hab hbc (prefix_append p a) (prefix_append p c)

end Keys

theorem dropWhile_not_eq_filter {P} : ∀ {l : List α},
    (l.Pairwise fun a b => P a = true → P b = true) → l.dropWhile (fun a => !P a) = l.filter P
  | [], _ => rfl
  | a :: l, h => by
    obtain ⟨ha, hl⟩ := pairwise_cons.mp h
    by_cases hP : P a = true
    · rw [dropWhile_cons_of_neg (by simp [hP]), filter_cons_of_pos hP,
        filter_eq_self.mpr fun b hb => ha b hb hP]
    · rw [dropWhile_cons_of_pos (by simp [hP]), filter_cons_of_neg hP, dropWhile_not_eq_filter hl]

end Parins.Lib
