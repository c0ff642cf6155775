/-
What a blocked query is answered with: the method of the rule that was found,
the text of that rule as the owner of the synthesized SOA, and the chain of
aliases of a response. Parsing a name from text is `hickory_proto`'s.
-/
import Parins.Policy.BlockMatch
import Parins.Dns.Protocol

namespace Parins.Policy

open Lib

/-! ## Methods -/

inductive BlockResponse where
  | nodata
  | nullIp
  | customIp (ipv4 : Option (BitVec 32)) (ipv6 : Option (BitVec 128))
  | nxdomain
  | refused
deriving DecidableEq

def BlockResponse.kind : BlockResponse → Bytes
  | .nodata => ascii "nodata"
  | .nullIp => ascii "null_ip"
  | .customIp _ _ => ascii "custom_ip"
  | .nxdomain => ascii "nxdomain"
  | .refused => ascii "refused"

/-- The method of every slot; slots below `localSlots` are local rules. -/
structure Responses where
  global : BlockResponse
  ttl : Nat
  localSlots : Nat
  slots : List (Option BlockResponse)
deriving DecidableEq

namespace Responses

def get (r : Responses) (slot : Nat) : BlockResponse := (r.slots[slot]?.join).getD r.global

/-- One slot of `classes`: its class, and the methods met so far. -/
def classStep (r : Responses) (acc : List BlockResponse × List Nat) (slot : Nat) : List BlockResponse × List Nat :=
  match acc.1.idxOf? (r.get slot) with
  | some known => (acc.1, acc.2 ++ [known % 2 ^ 16])
  | none => (acc.1 ++ [r.get slot], acc.2 ++ [acc.1.length % 2 ^ 16])

def classes (r : Responses) : List Nat :=
  ((List.range (r.slots.length % 2 ^ 16)).foldl r.classStep ([], [])).2

end Responses

/-! ## Texts -/

/-- What is taken from other libraries for texts. -/
structure Texts where
  /-- `hickory_proto::rr::Name::from_ascii`. -/
  fromAscii : Bytes → Option Name
  /-- `std::str::from_utf8`, whether it succeeds. -/
  fromUtf8 : Bytes → Bool

def dotted (labels : List Label) : Bytes := labels.flatMap fun l => l ++ [46]

/-- A label that a name may be written with. -/
def asciiLabel (label : Label) : Bool :=
  !label.isEmpty && label.length ≤ 63 && label.head? != some 45 &&
    label.all fun b => isAsciiAlphanumeric b || b == 45 || b == 95

/-- What `from_ascii` and `from_utf8` do with the texts of rules. -/
structure Texts.Lawful (T : Texts) : Prop where
  accepts : ∀ labels, labels ≠ [] → (labels.map fun l => 1 + l.length).sum ≤ 254 → (∀ l ∈ labels, asciiLabel l = true) →
    T.fromAscii (dotted labels) = some ⟨labels, true⟩
  rejects : ∀ labels, (∀ l ∈ labels, ruleLabel l = true) → (∃ l ∈ labels, l.head? = some 45) →
    T.fromAscii (dotted labels) = none
  utf8 : ∀ bytes : Bytes, (∀ b ∈ bytes, b < 128) → T.fromUtf8 bytes = true

/-- `Name::from_ascii(text).expect(..)`. -/
def Texts.name (T : Texts) (text : Bytes) : Except Fault Name :=
  match T.fromAscii text with
  | some name => .ok name
  | none => .error .panic

/-! ## The text of a rule -/

/-- The loop of `Index::rule` over the key: the labels in the order of the key. -/
def keyLabels : Nat → List Label → Bytes → Except Fault (List Label)
  | _, labels, [] => .ok labels
  | 0, _, _ :: _ => .error .panic
  | fuel + 1, labels, len :: rest =>
    if rest.length < len.toNat || 127 ≤ labels.length then .error .panic
    else keyLabels fuel (labels ++ [rest.take len.toNat]) (rest.drop len.toNat)

/-- The loop of `Index::rule` over the labels. -/
def pushLabel (T : Texts) (result : Bytes) (label : Label) : Except Fault Bytes :=
  if T.fromUtf8 label then .ok ((if result.isEmpty then result else result ++ [46]) ++ label) else .error .panic

def Index.rule (T : Texts) (name : Name) (matched : Match) : Except Fault Bytes := do
  let key ← Key.query name
  let bytes ← slice key 0 matched.matchedKeyLen
  let labels ← keyLabels bytes.length [] bytes
  labels.reverse.foldlM (pushLabel T) []

/-! ## Answers -/

/-- The SOA of a negative answer, owned by the rule. -/
def soa (T : Texts) (rule : Name) (dnsClass : DNSClass) (ttl : Nat) : Except Fault Parins.Record := do
  let mname ← T.name (ascii "blocked.parins.invalid.")
  let rname ← T.name (ascii "hostmaster.parins.invalid.")
  .ok ⟨rule, ttl, dnsClass, .soa ⟨mname, rname, 1, 1800, 900, 604800, ttl⟩⟩

/-- The address that a method answers a question with. -/
def BlockResponse.address (r : BlockResponse) (question : Query) : Option RData :=
  if question.queryClass = .IN then
    if question.queryType = .A then
      match r with
      | .nullIp => some (.other .A (toBeBytes 4 0))
      | .customIp ipv4 _ => ipv4.map fun address => .other .A (toBeBytes 4 address.toNat)
      | _ => none
    else if question.queryType = .AAAA then
      match r with
      | .nullIp => some (.other .AAAA (toBeBytes 16 0))
      | .customIp _ ipv6 => ipv6.map fun address => .other .AAAA (toBeBytes 16 address.toNat)
      | _ => none
    else none
  else none

def BlockResponse.code : BlockResponse → ResponseCode
  | .nxdomain => .nxDomain
  | .refused => .refused
  | _ => .noError

/-- The record of an answer: the address, or the SOA unless the query is refused. -/
def BlockResponse.fill (T : Texts) (r : BlockResponse) (question : Query) (rule : Name) (ttl : Nat) (response : Message) :
    Except Fault Message :=
  match r.address question with
  | some data => .ok { response with answers := response.answers ++ [⟨question.name, ttl, question.queryClass, data⟩] }
  | none =>
    if r.code = .refused then .ok response
    else do
      let record ← soa T rule question.queryClass ttl
      .ok { response with authorities := response.authorities ++ [record] }

def BlockResponse.answer (T : Texts) (r : BlockResponse) (query : Message) (rule : Name) (ttl : Nat) :
    Except Fault Message := do
  let question ← item query.queries 0
  let response ← r.fill T question rule ttl (Protocol.errorResponse query r.code)
  .ok { response with
    edns := response.edns.map fun edns => edns.insert (.unknown 15 (toBeBytes 2 15))
    authenticData := false }

/-! ## Policies -/

/-- The rule that blocked a query and the method its answer used. -/
structure BlockTrace where
  rule : Bytes
  /-- `none` identifies local rules. -/
  sourceId : Option Bytes
  response : Bytes
deriving DecidableEq

/-- The data of a compiled policy that answers depend on. -/
structure Data where
  index : Index
  sourceIds : List Bytes
  responses : Responses

namespace Data

/-- The rule's name when it matched the question, else the question name itself. -/
def owner (T : Texts) (question : Query) (name : Name) (rule : Bytes) : Except Fault Name :=
  if name.same question.name then T.name (rule ++ [46]) else .ok question.name

/-- `block_answer` for the rule that was found. -/
def answerFor (T : Texts) (p : Data) (query : Message) (name : Name) (found : Match) :
    Except Fault (Message × BlockTrace) := do
  let response := p.responses.get found.sourceSlot
  let rule ← Index.rule T name found
  let question ← item query.queries 0
  let owner ← owner T question name rule
  let id ← item p.sourceIds found.sourceSlot
  let message ← response.answer T query owner p.responses.ttl
  .ok (message, ⟨rule, if id.isEmpty then none else some id, response.kind⟩)

def blockAnswer (T : Texts) (p : Data) (query : Message) (name : Name) :
    Except Fault (Option (Message × BlockTrace)) := do
  match ← p.index.blockMatch name p.responses.localSlots with
  | none => .ok none
  | some found => (p.answerFor T query name found).map some

def blockQuery (T : Texts) (p : Data) (query : Message) : Except Fault (Option (Message × BlockTrace)) := do
  let question ← item query.queries 0
  p.blockAnswer T query question.name

/-- The aliases of a response in the question's class, in the order of its answers. -/
def links (question : Query) (response : Message) : List (Name × Name) :=
  response.answers.filterMap fun rr =>
    if rr.dnsClass = question.queryClass then
      match rr.data with
      | .cname target => some (rr.name, target)
      | _ => none
    else none

/-- The loop of `apply_response`; the stack has the name that is popped next first. -/
def followChain (T : Texts) (p : Data) (query : Message) (links : List (Name × Name)) :
    Nat → List Name → List Name → Except Fault (Option (Message × BlockTrace))
  | _, _, [] => .ok none
  | 0, _, _ :: _ => .error .panic
  | fuel + 1, visited, name :: pending =>
    if visited.any (·.same name) then followChain T p query links fuel visited pending
    else do
      match ← p.blockAnswer T query name with
      | some answer => .ok (some answer)
      | none =>
        let targets := (links.filter fun link => link.1.same name).map Prod.snd
        followChain T p query links fuel (name :: visited) (targets.reverse ++ pending)

/-- `Policy::apply_response`: the response, replaced when a name of the chain is blocked. Every turn
of the loop pops a name, and every alias is pushed once. -/
def applyResponse (T : Texts) (p : Data) (query response : Message) : Except Fault (Message × Option BlockTrace) :=
  if p.index.indexRules = 0 then .ok (response, none)
  else do
    let question ← item query.queries 0
    let links := links question response
    match ← p.followChain T query links (links.length + 1) [] [question.name] with
    | some (answer, trace) => .ok (answer, some trace)
    | none => .ok (response, none)

end Data

end Parins.Policy
