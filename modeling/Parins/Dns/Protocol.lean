/-
The parts of `protocol.rs` and of the wire check in `ecs.rs` that the resolver
and its cache share. The codec of `hickory_proto` is a parameter.
-/
import Parins.Dns.Message
import Parins.Lib.Wire

namespace Parins

/-- What the server takes from `hickory_proto`'s codec. -/
structure Hickory where
  /-- `Message::to_vec`. -/
  toVec : Message → Option Bytes
  /-- `Message::read`: the message and the bytes after it. -/
  read : Bytes → Option (Message × Bytes)
  /-- `Name::to_bytes`. -/
  nameBytes : Name → Option Bytes
  /-- `Name::from_bytes`. -/
  nameRead : Bytes → Option Name
  /-- `RData::to_bytes`. -/
  rdataBytes : RData → Option Bytes
  /-- `Header::read`: how many questions and how many records follow, and where. -/
  readHeader : Bytes → Option (Nat × Nat × Nat)
  /-- `Query::read` at a position: the position after it. -/
  skipQuery : Bytes → Nat → Option Nat
  /-- `Name::read` at a position: the position after it. -/
  skipName : Bytes → Nat → Option Nat

namespace Protocol

def MAX_MESSAGE : Nat := 65535
def MAX_UDP_PAYLOAD : Nat := 1232

def ednsWithin (message : Message) (allowed : List EdnsCode) : Bool :=
  match message.edns with
  | none => true
  | some edns => edns.version == 0 && edns.options.all fun o => allowed.contains o.1

def replyEdns (query : Message) : Option Edns :=
  query.edns.map fun client => { maxPayload := MAX_UDP_PAYLOAD, dnssecOk := client.dnssecOk }

def extendedErrors (message : Message) : List EdnsOption :=
  match message.edns with
  | none => []
  | some edns => (edns.options.filter fun o => o.1 = .ExtendedError).map Prod.snd

def errorResponse (query : Message) (code : ResponseCode) : Message where
  id := query.id
  messageType := .response
  opCode := query.opCode
  responseCode := code
  queries := query.queries.take 1
  recursionDesired := query.recursionDesired
  checkingDisabled := query.checkingDisabled
  recursionAvailable := true
  edns := replyEdns query

/-! ## The original OPT envelope -/

structure OptionCounts where
  ecs : Nat := 0
  padding : Nat := 0

def bigEndian (bytes : Bytes) : Nat := Lib.ofBeBytes bytes

/-- `decoder.read_slice(length)` at a position. -/
def readSlice (bytes : Bytes) (at_ length : Nat) : Option (Bytes × Nat) :=
  if at_ + length ≤ bytes.length then some ((bytes.drop at_).take length, at_ + length) else none

/-- `decoder.read_u16()`, `read_u32()`: a big-endian number of `size` bytes. -/
def readNumber (size : Nat) (bytes : Bytes) (at_ : Nat) : Option (Nat × Nat) :=
  (readSlice bytes at_ size).map fun (b, next) => (bigEndian b, next)

/-- The checks on the data of one ECS option: family, prefixes, and an address of exactly the
bytes the source prefix needs, with no bit set beyond it. -/
def ecsDataValid (data : Bytes) : Bool :=
  match data with
  | f1 :: f0 :: source :: scope :: address =>
    let bits := match bigEndian [f1, f0] with
      | 1 => some 32
      | 2 => some 128
      | _ => none
    match bits with
    | none => false
    | some bits =>
      source.toNat ≤ bits && scope.toNat ≤ bits
        && address.length == (source.toNat + 7) / 8
        && (source.toNat % 8 == 0
          || (address.getLast?.getD 0).toNat % 2 ^ (8 - source.toNat % 8) == 0)
  | _ => false

/-- One pass of the `while !options.is_empty()` loop: the data after the option. -/
def checkOption (data : Bytes) (counts : OptionCounts) : Option (Bytes × OptionCounts) := do
  let (code, at_) ← readNumber 2 data 0
  let (length, at_) ← readNumber 2 data at_
  let (option, at_) ← readSlice data at_ length
  let counts := if code = 12 then { counts with padding := counts.padding + 1 } else counts
  if code = 12 ∧ counts.padding ≠ 1 then none
  else if code ≠ 8 then some (data.drop at_, counts)
  else
    let counts := { counts with ecs := counts.ecs + 1 }
    if counts.ecs = 1 ∧ ecsDataValid option then some (data.drop at_, counts) else none

/-- The loop over one OPT record's data; every pass consumes its option, so the length of the
data is fuel enough (`checkOptions_fuel`). -/
def checkOptions : Nat → Bytes → OptionCounts → Option OptionCounts
  | 0, _, _ => none
  | fuel + 1, data, counts =>
    if data.isEmpty then some counts
    else (checkOption data counts).bind fun (rest, counts) => checkOptions fuel rest counts

/-- The loop over the records of a message. -/
def checkRecords (H : Hickory) (bytes : Bytes) : Nat → Nat → OptionCounts → Option OptionCounts
  | 0, _, counts => some counts
  | left + 1, at_, counts => do
    let at_ ← H.skipName bytes at_
    let (kind, at_) ← readNumber 2 bytes at_
    let (_, at_) ← readNumber 2 bytes at_
    let (_, at_) ← readNumber 4 bytes at_
    let (length, at_) ← readNumber 2 bytes at_
    let (data, at_) ← readSlice bytes at_ length
    if kind = RecordType.OPT.code then
      let counts ← checkOptions (data.length + 1) data counts
      checkRecords H bytes left at_ counts
    else checkRecords H bytes left at_ counts

def validateWire (H : Hickory) (bytes : Bytes) : Bool :=
  ((do
    let (queries, records, at_) ← H.readHeader bytes
    let at_ ← (List.range queries).foldlM (fun at_ _ => H.skipQuery bytes at_) at_
    checkRecords H bytes records at_ {}) : Option OptionCounts).isSome

def decode (H : Hickory) (bytes : Bytes) : Option Message :=
  if MAX_MESSAGE < bytes.length then none
  else match H.read bytes with
    | some (message, []) =>
      if message.edns.isSome ∧ ¬validateWire H bytes then none else some message
    | _ => none

theorem readNumber_next {size bytes start n next}
    (h : readNumber size bytes start = some (n, next)) : next = start + size := by
  obtain ⟨⟨b, m⟩, hs, heq⟩ := Option.map_eq_some_iff.mp h
  unfold readSlice at hs
  split at hs
  · cases hs
    exact (Prod.mk.inj heq).2.symm
  · cases hs

theorem checkOption_shorter {data rest : Bytes} {counts counts'}
    (h : checkOption data counts = some (rest, counts')) (hne : data ≠ []) : rest.length < data.length := by
  simp only [checkOption, bind, Option.bind_eq_some_iff, Prod.exists] at h
  obtain ⟨code, i, hi, length, j, hj, option, k, hk, h⟩ := h
  have hi := readNumber_next hi
  have hj := readNumber_next hj
  have hk : k = j + length := by
    unfold readSlice at hk
    split at hk
    · cases hk
      rfl
    · cases hk
  -- Every branch that goes on goes on after the option.
  have hdrop : rest = data.drop k := by
    repeat' split at h
    all_goals first
      | exact (Prod.mk.inj (Option.some.inj h)).1.symm
      | cases h
  have := List.length_pos_of_ne_nil hne
  rw [hdrop, List.length_drop]
  omega

theorem checkOptions_fuel (n m) (data : Bytes) (counts) (hn : data.length < n)
    (hm : data.length < m) : checkOptions n data counts = checkOptions m data counts := by
  induction n generalizing m data counts with
  | zero => exact absurd hn (Nat.not_lt_zero _)
  | succ n ih =>
    obtain ⟨m, rfl⟩ := Nat.exists_eq_succ_of_ne_zero (Nat.ne_zero_of_lt hm)
    rw [checkOptions, checkOptions]
    split
    · rfl
    · next hne =>
      cases hc : checkOption data counts with
      | none => rfl
      | some p =>
        have := checkOption_shorter hc (by simpa using hne)
        exact ih m p.1 p.2 (by omega) (by omega)

end Protocol

end Parins
