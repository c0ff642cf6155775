/-
The material that a policy is compiled from, and the digests that name material
and policies. Compilation is the subject of the policy modules; a compiled policy
is known here by what its publication hashes, which is every kept name with its
group, its source and its block method, and the TTL.
-/
import Parins.Lib.Framing
import Parins.Manage.Config
import Parins.Filters.Catalog

namespace Parins.Manage
open Lib

/-- A source with its stored content. -/
structure Input where
  id : SourceId
  fingerprint : Hex
  sha256 : Hex
deriving DecidableEq

/-- The local rules, and the effective sources in their order with the method of each. -/
structure Inputs where
  rules : Rules
  sources : List Input := []
  responses : List (Option Method) := []
deriving DecidableEq

structure Responses where
  global : Method
  ttl : Nat
  localSlots : Nat
  slots : List (Option Method)

/-- `witnesses` is what `Index::publication_digest` hashes. -/
structure Policy where
  witnesses : Bytes
  ttl : Nat
  inputRules : Nat
  fits : ttl < 256 ^ 4
deriving DecidableEq

/-- The policies answer every query alike, with the same witness. -/
def Policy.Same (p q : Policy) : Prop := p.witnesses = q.witnesses ∧ p.ttl = q.ttl

/-- SHA-256, and what the policy modules do: the records that `semantic_digest` of local rules hashes,
their methods, the classes of methods, and compilation. -/
structure Compiler where
  sha256 : Bytes → Bytes
  records : Rules → Bytes
  responses : Rules → Responses
  classes : Responses → List Nat
  inputRules : Rules → Nat
  inputBytes : Rules → Nat
  compile : Inputs → Policy

/-! ### Digests -/

def slotBytes : Option Method → Bytes
  | none => [0]
  | some m => 1 :: (m.val ++ [0])

def Input.bytes (i : Input) : Bytes :=
  UInt8.ofNat i.id.val.length :: (i.id.val ++ (i.fingerprint.val ++ i.sha256.val))

namespace Compiler

variable (C : Compiler)

/-- The hash of a text under its label. -/
def hash (label : String) (text : Bytes) : Bytes := C.sha256 (ascii label ++ 0 :: text)

def aggregateResponses (inputs : Inputs) : Responses :=
  let r := C.responses inputs.rules
  { r with slots := r.slots.take r.localSlots ++ inputs.responses }

def responsesDigest (r : Responses) : Bytes :=
  C.hash "parins-block-responses-v1"
    (r.global.val ++ 0 :: (toBeBytes 4 r.ttl ++ (toBeBytes 2 r.localSlots ++ r.slots.flatMap slotBytes)))

def indexDigest (inputs : Inputs) : Bytes :=
  C.hash "parins-filter-input-v2"
    (C.hash "parins-policy-semantics-v1" (C.records inputs.rules) ++ (C.hash "parins-local-rules-v1" inputs.rules ++
      ((C.classes (C.aggregateResponses inputs)).flatMap (toBeBytes 2) ++ (toBeBytes 8 (C.inputRules inputs.rules) ++
        (toBeBytes 8 (C.inputBytes inputs.rules) ++ inputs.sources.flatMap Input.bytes)))))

/-- `material::digest`. -/
def digest (inputs : Inputs) : Bytes :=
  C.hash "parins-filter-material-v1" (C.indexDigest inputs ++ C.responsesDigest (C.aggregateResponses inputs))

def publicationDigest (p : Policy) : Bytes :=
  C.sha256 (C.hash "parins-policy-witness-v1" p.witnesses ++ toBeBytes 4 p.ttl)

/-- No two texts have the same hash, and a hash ends by itself, as one of fixed length does. -/
def Collisionless : Prop := ∀ a b s t, C.sha256 a ++ s = C.sha256 b ++ t → a = b ∧ s = t

end Compiler

/-! ### What digests tell apart -/

theorem slotBytes_inj (a b s t) (h : slotBytes a ++ s = slotBytes b ++ t) : a = b ∧ s = t := by
  cases a with
  | none =>
    cases b with
    | none => exact ⟨rfl, (List.cons.inj h).2⟩
    | some n => cases (List.cons.inj h).1
  | some m =>
    cases b with
    | none => cases (List.cons.inj h).1
    | some n =>
      -- a label has no zero, so it ends at the first one
      have hlabel : ∀ (m : Method) (s : Bytes), (m.val ++ 0 :: s).takeWhile (· != 0) = m.val := by
        intro m s
        rw [List.takeWhile_append_of_pos fun x hx => by simpa using ne_of_mem_of_not_mem hx m.property]
        simp
      have h : m.val ++ 0 :: s = n.val ++ 0 :: t := by simpa [slotBytes] using h
      have hval : m.val = n.val := by rw [← hlabel m s, h, hlabel]
      rw [hval] at h
      exact ⟨by rw [Subtype.ext hval], (List.cons.inj (List.append_cancel_left h)).2⟩

theorem Input.bytes_inj (a b : Input) (s t) (h : a.bytes ++ s = b.bytes ++ t) : a = b ∧ s = t := by
  obtain ⟨id, fingerprint, sha256⟩ := a
  obtain ⟨id', fingerprint', sha256'⟩ := b
  obtain ⟨hlen, htexts⟩ : UInt8.ofNat id.val.length = UInt8.ofNat id'.val.length ∧
      id.val ++ (fingerprint.val ++ (sha256.val ++ s)) = id'.val ++ (fingerprint'.val ++ (sha256'.val ++ t)) := by
    simpa [bytes] using h
  have hid := id.property
  have hid' := id'.property
  obtain ⟨heq, htexts⟩ := List.append_inj htexts (ofNat_length_inj (by omega) (by omega) hlen)
  obtain ⟨hprint, htexts⟩ := List.append_inj htexts (fingerprint.property.trans fingerprint'.property.symm)
  obtain ⟨hsha, hrest⟩ := List.append_inj htexts (sha256.property.trans sha256'.property.symm)
  rw [Subtype.ext heq, Subtype.ext hprint, Subtype.ext hsha]
  exact ⟨rfl, hrest⟩

namespace Compiler

variable {C : Compiler}

theorem Collisionless.hash (hC : C.Collisionless) {label a b s t} (h : C.hash label a ++ s = C.hash label b ++ t) :
    a = b ∧ s = t := by
  obtain ⟨h, hrest⟩ := hC _ _ _ _ h
  exact ⟨(List.cons.inj (List.append_cancel_left h)).2, hrest⟩

/-- **The digest names the material.** -/
theorem Collisionless.digest (hC : C.Collisionless) {a b} (h : C.digest a = C.digest b) : a = b := by
  obtain ⟨h, -⟩ := hC.hash (congrArg (· ++ []) h)
  obtain ⟨hindex, hresponses⟩ := hC.hash h
  obtain ⟨-, hindex⟩ := hC.hash hindex
  obtain ⟨hrules, hindex⟩ := hC.hash hindex
  obtain ⟨rules, sources, responses⟩ := a
  obtain ⟨_, sources', responses'⟩ := b
  cases hrules
  obtain ⟨hslots, -⟩ := hC.hash (congrArg (· ++ []) hresponses)
  simp only [aggregateResponses, List.append_cancel_left_eq, List.cons.injEq, true_and, List.flatMap_append] at hslots
  cases flatMap_inj (by intro a; cases a <;> simp [slotBytes]) slotBytes_inj hslots
  simp only [aggregateResponses, List.append_cancel_left_eq] at hindex
  cases flatMap_inj (by simp [Input.bytes]) Input.bytes_inj hindex
  rfl

theorem Collisionless.publication (hC : C.Collisionless) {p q} (h : C.publicationDigest p = C.publicationDigest q) :
    p.Same q := by
  obtain ⟨h, -⟩ := hC _ _ _ _ (congrArg (· ++ []) h)
  obtain ⟨hwitnesses, h⟩ := hC.hash h
  exact ⟨hwitnesses, (toBeBytes_append_inj p.fits q.fits (congrArg (· ++ []) h)).1⟩

end Compiler

end Parins.Manage
