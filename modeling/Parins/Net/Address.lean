/-
Addresses and networks as the `std::net` and `ipnet` types the code uses: an
address is a number of its family's width, a network an address with a prefix
length that fits it. Two networks are nested or disjoint.
-/
import Parins.Lib.Dyadic

namespace Parins.Net
open Lib

def width (isIpv4 : Bool) : Nat := if isIpv4 then 32 else 128

structure IpAddr where
  isIpv4 : Bool
  bits : Nat
  bound : bits < 2 ^ width isIpv4
deriving DecidableEq

namespace IpAddr

instance : NeZero 256 := ⟨by decide⟩

def ofV4 (a b c d : Fin 256) : IpAddr := ⟨true, ((a * 256 + b) * 256 + c) * 256 + d, by simp [width]; omega⟩

/-- `IpAddr::V6(v6) => v6.to_ipv4_mapped()`: the IPv4 address inside `::ffff:0:0/96`, and every
other address as it is. -/
def canonical (a : IpAddr) : IpAddr :=
  if !a.isIpv4 ∧ a.bits / 2 ^ 32 = 0xffff then
    ⟨true, a.bits % 2 ^ 32, Nat.mod_lt _ (Nat.two_pow_pos 32)⟩
  else a

/-- One family, and the first `p` bits the same. -/
def Agree (p : Nat) (a b : IpAddr) : Prop := a.isIpv4 = b.isIpv4 ∧ SameBlock (width a.isIpv4 - p) a.bits b.bits

end IpAddr

/-- `ipnet::IpNet`: host bits may be set. -/
structure IpNet where
  addr : IpAddr
  prefixLen : Nat
  bound : prefixLen ≤ width addr.isIpv4
deriving DecidableEq

namespace IpNet

def new (addr : IpAddr) (prefixLen : Nat) : Option IpNet :=
  if h : prefixLen ≤ width addr.isIpv4 then some ⟨addr, prefixLen, h⟩ else none

/-- How many low bits of an address the network leaves open. -/
def hostBits (n : IpNet) : Nat := width n.addr.isIpv4 - n.prefixLen

/-- `IpNet::trunc`: host bits cleared. -/
def trunc (n : IpNet) : IpNet where
  addr := ⟨n.addr.isIpv4, blockStart n.hostBits n.addr.bits,
    Nat.lt_of_le_of_lt (blockStart_le _ _) n.addr.bound⟩
  prefixLen := n.prefixLen
  bound := n.bound

/-- `IpNet::contains(&IpAddr)`. -/
def contains (n : IpNet) (a : IpAddr) : Bool :=
  n.addr.isIpv4 == a.isIpv4 && decide (SameBlock n.hostBits n.addr.bits a.bits)

/-- One of the networks contains the other's address. -/
def overlaps (a b : IpNet) : Bool := a.contains b.addr || b.contains a.addr

variable {n a b : IpNet} {x y : IpAddr} {p : Nat}

theorem new_eq_some : new x p = some n ↔ n.addr = x ∧ n.prefixLen = p := by
  unfold new
  constructor
  · intro h
    split at h
    · cases h
      exact ⟨rfl, rfl⟩
    · cases h
  · rintro ⟨rfl, rfl⟩
    rw [dif_pos n.bound]

@[simp] theorem trunc_prefixLen (n : IpNet) : n.trunc.prefixLen = n.prefixLen := rfl

@[simp] theorem trunc_isIpv4 (n : IpNet) : n.trunc.addr.isIpv4 = n.addr.isIpv4 := rfl

theorem contains_iff : n.contains x = true ↔ n.addr.isIpv4 = x.isIpv4 ∧ SameBlock n.hostBits n.addr.bits x.bits := by
  simp [contains]

theorem contains_iff_agree : n.contains x = true ↔ n.addr.Agree n.prefixLen x := contains_iff

theorem contains_addr (n : IpNet) : n.contains n.addr = true := contains_iff.mpr ⟨rfl, .refl _ _⟩

theorem trunc_contains_iff : n.trunc.contains x = n.contains x := by
  rw [Bool.eq_iff_iff, contains_iff, contains_iff]
  have hs : SameBlock n.hostBits n.trunc.addr.bits n.addr.bits := sameBlock_blockStart _ _
  exact and_congr Iff.rfl ⟨fun h => hs.symm.trans h, fun h => hs.trans h⟩

theorem trunc_eq_iff : a.trunc = b.trunc ↔ a.prefixLen = b.prefixLen ∧ a.contains b.addr = true := by
  rw [contains_iff]
  constructor
  · intro h
    have hp : a.prefixLen = b.prefixLen := by simpa using congrArg IpNet.prefixLen h
    have hf : a.addr.isIpv4 = b.addr.isIpv4 := by simpa using congrArg (fun n : IpNet => n.addr.isIpv4) h
    have hb : blockStart a.hostBits a.addr.bits = blockStart b.hostBits b.addr.bits := by
      simpa [trunc] using congrArg (fun n : IpNet => n.addr.bits) h
    rw [show b.hostBits = a.hostBits by simp [hostBits, hp, hf]] at hb
    exact ⟨hp, hf, blockStart_eq_iff.mp hb⟩
  · rintro ⟨hp, hf, hs⟩
    have hh : b.hostBits = a.hostBits := by simp [hostBits, hp, hf]
    have hb : blockStart a.hostBits a.addr.bits = blockStart b.hostBits b.addr.bits := by
      rw [hh]
      exact blockStart_eq_iff.mpr hs
    obtain ⟨⟨fa, xa, _⟩, pa, _⟩ := a
    obtain ⟨⟨fb, xb, _⟩, pb, _⟩ := b
    obtain rfl : fa = fb := hf
    obtain rfl : pa = pb := hp
    simpa [trunc] using hb

theorem contains_of_le (ha : a.contains x = true) (hb : b.contains x = true) (hle : a.prefixLen ≤ b.prefixLen)
    (hy : b.contains y = true) : a.contains y = true := by
  rw [contains_iff] at ha hb hy ⊢
  have hf : a.addr.isIpv4 = b.addr.isIpv4 := ha.1.trans hb.1.symm
  have hh : b.hostBits ≤ a.hostBits := by
    simp only [hostBits, hf]
    omega
  exact ⟨hf.trans hy.1, ha.2.trans ((hb.2.symm.trans hy.2).mono hh)⟩

theorem overlaps_comm (a b : IpNet) : a.overlaps b = b.overlaps a := Bool.or_comm _ _

/-- **Networks overlap exactly when they share an address.** -/
theorem overlaps_iff : a.overlaps b = true ↔ ∃ x, a.contains x = true ∧ b.contains x = true := by
  rw [overlaps, Bool.or_eq_true]
  constructor
  · rintro (h | h)
    · exact ⟨_, h, contains_addr b⟩
    · exact ⟨_, contains_addr a, h⟩
  · rintro ⟨x, ha, hb⟩
    rcases Nat.le_total a.prefixLen b.prefixLen with hle | hle
    · exact .inl (contains_of_le ha hb hle (contains_addr b))
    · exact .inr (contains_of_le hb ha hle (contains_addr a))

end IpNet

end Parins.Net
