/-
Numbers as big-endian bytes, and a byte stream read piece by piece. A reader
remembers what it has read, for a checksum over it; what was written as one
piece is read back as that piece (`Reader.get_append`), so a decoder is followed
along the concatenation the encoder wrote.
-/
import Parins.Lib.Outcome

namespace Parins.Lib

/-- `to_be_bytes` of an unsigned integer of `width` bytes. -/
def toBeBytes : Nat → Nat → List UInt8
  | 0, _ => []
  | width + 1, n => UInt8.ofNat (n / 256 ^ width % 256) :: toBeBytes width n

/-- `from_be_bytes`. -/
def ofBeBytes (bytes : List UInt8) : Nat := bytes.foldl (fun n b => n * 256 + b.toNat) 0

@[simp] theorem length_toBeBytes (width n) : (toBeBytes width n).length = width := by
  induction width with
  | zero => rfl
  | succ width ih => simp [toBeBytes, ih]

theorem foldl_toBeBytes (width n acc) :
    (toBeBytes width n).foldl (fun n b => n * 256 + b.toNat) acc = acc * 256 ^ width + n % 256 ^ width := by
  induction width generalizing acc with
  | zero => simp [toBeBytes, Nat.mod_one]
  | succ width ih =>
    have hbyte : (UInt8.ofNat (n / 256 ^ width % 256)).toNat = n / 256 ^ width % 256 := by
      simp
    rw [toBeBytes, List.foldl_cons, ih, hbyte, Nat.mod_pow_succ, Nat.pow_succ, Nat.add_mul, Nat.mul_assoc,
      Nat.mul_comm 256 (256 ^ width), Nat.mul_comm (n / 256 ^ width % 256)]
    omega

theorem ofBeBytes_toBeBytes {width n} (h : n < 256 ^ width) : ofBeBytes (toBeBytes width n) = n := by
  rw [ofBeBytes, foldl_toBeBytes, Nat.zero_mul, Nat.zero_add, Nat.mod_eq_of_lt h]

/-- A number of known width, and what follows it. -/
theorem toBeBytes_append_inj {width n m s t} (hn : n < 256 ^ width) (hm : m < 256 ^ width)
    (h : toBeBytes width n ++ s = toBeBytes width m ++ t) : n = m ∧ s = t := by
  obtain ⟨hnum, hrest⟩ := List.append_inj h (by simp)
  exact ⟨by rw [← ofBeBytes_toBeBytes hn, hnum, ofBeBytes_toBeBytes hm], hrest⟩

/-- Pieces that end by themselves, one after the other. -/
theorem flatMap_inj {α β : Type} {f : α → List β} (hne : ∀ a, f a ≠ [])
    (hf : ∀ a b s t, f a ++ s = f b ++ t → a = b ∧ s = t) {l l' : List α} (h : l.flatMap f = l'.flatMap f) : l = l' := by
  induction l generalizing l' with
  | nil =>
    cases l' with
    | nil => rfl
    | cons b l' => exact absurd (List.append_eq_nil_iff.mp h.symm).1 (hne b)
  | cons a l ih =>
    cases l' with
    | nil => exact absurd (List.append_eq_nil_iff.mp h).1 (hne a)
    | cons b l' =>
      obtain ⟨rfl, hrest⟩ := hf a b _ _ h
      rw [ih hrest]

theorem ofBeBytes_singleton (b : UInt8) : ofBeBytes [b] = b.toNat := by simp [ofBeBytes]

theorem flatten_field {α : Type} {pieces : List (List α)} {piece : List α} {offset len} (i)
    (hp : pieces[i]? = some piece) (ho : ((pieces.take i).map List.length).sum = offset) (hl : piece.length = len) :
    (pieces.flatten.drop offset).take len = piece := by
  obtain ⟨hi, rfl⟩ := List.getElem?_eq_some_iff.mp hp
  have hsplit : pieces.flatten = (pieces.take i).flatten ++ (pieces[i] ++ (pieces.drop (i + 1)).flatten) := by
    rw [← List.flatten_cons, ← List.drop_eq_getElem_cons hi, ← List.flatten_append, List.take_append_drop]
  rw [hsplit, List.drop_left' (by rw [List.length_flatten, ho]), List.take_left' hl]

/-! ## Reading -/

structure Reader where
  /-- What has been read so far. -/
  hashed : List UInt8
  rest : List UInt8

section Reader

variable {ε : Type} (e : ε)

/-- `read_exact` of `n` bytes. -/
def Reader.get (r : Reader) (n : Nat) : Except (Fault ε) (List UInt8 × Reader) :=
  if n ≤ r.rest.length then .ok (r.rest.take n, ⟨r.hashed ++ r.rest.take n, r.rest.drop n⟩)
  else .error (.error e)

theorem Reader.get_append {hashed piece rest : List UInt8} {n} (h : piece.length = n) :
    Reader.get e ⟨hashed, piece ++ rest⟩ n = .ok (piece, ⟨hashed ++ piece, rest⟩) := by
  subst h
  simp [Reader.get]

end Reader

end Parins.Lib
