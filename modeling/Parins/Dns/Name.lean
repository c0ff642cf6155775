/-
DNS names as the code sees them: labels of bytes, leftmost first, without the
empty root label, and whether the name is absolute. `Name::iter` is `labels`.
-/
import Mathlib.Algebra.Ring.Nat
import Mathlib.Data.List.Basic

namespace Parins

abbrev Bytes := List UInt8
abbrev Label := Bytes

instance : LawfulBEq Bytes := inferInstance

def toAsciiLowercase (b : UInt8) : UInt8 := if 65 ≤ b ∧ b ≤ 90 then b + 32 else b

def isAsciiAlphanumeric (b : UInt8) : Bool :=
  (48 ≤ b && b ≤ 57) || (65 ≤ b && b ≤ 90) || (97 ≤ b && b ≤ 122)

def ascii (s : String) : Bytes := s.toList.map fun c => UInt8.ofNat c.toNat

structure Name where
  labels : List Label
  fqdn : Bool
deriving DecidableEq

def Name.toLowercase (n : Name) : Name := { n with labels := n.labels.map (·.map toAsciiLowercase) }

/-- The bytes its labels take, each with its length byte. -/
def Name.encodedLen (n : Name) : Nat := (n.labels.map fun l => 1 + l.length).sum

end Parins
