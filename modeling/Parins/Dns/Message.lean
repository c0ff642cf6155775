/-
DNS messages as `hickory_proto` decodes them, with the fields the server reads
or writes. Record types, classes and option codes are open sets of code points,
so each is its number.
-/
import Parins.Dns.Name
import Parins.Net.Address

namespace Parins
open Net

structure RecordType where
  code : Nat
deriving DecidableEq

namespace RecordType

def A : RecordType := ⟨1⟩
def CNAME : RecordType := ⟨5⟩
def SOA : RecordType := ⟨6⟩
def SIG : RecordType := ⟨24⟩
def AAAA : RecordType := ⟨28⟩
def OPT : RecordType := ⟨41⟩
def TSIG : RecordType := ⟨250⟩

end RecordType

structure DNSClass where
  code : Nat
deriving DecidableEq

def DNSClass.IN : DNSClass := ⟨1⟩

inductive ResponseCode where
  | noError | formErr | servFail | nxDomain | notImp | refused
  | other (code : Nat)
deriving DecidableEq

/-- `u16::from(ResponseCode)`. -/
def ResponseCode.code : ResponseCode → Nat
  | .noError => 0
  | .formErr => 1
  | .servFail => 2
  | .nxDomain => 3
  | .notImp => 4
  | .refused => 5
  | .other code => code

/-- Equality of names as `hickory` compares them: without case. -/
def Name.same (a b : Name) : Bool := a.toLowercase == b.toLowercase

/-- `Name::zone_of`: `z` is `n` or one of its parents, without case. -/
def Name.zoneOf (z n : Name) : Bool := z.toLowercase.labels.isSuffixOf n.toLowercase.labels

def Name.len (n : Name) : Nat := if n.labels.isEmpty then 1 else n.encodedLen

structure Soa where
  mname : Name
  rname : Name
  serial : Nat
  refresh : Nat
  retry : Nat
  expire : Nat
  minimum : Nat
deriving DecidableEq

def Soa.same (a b : Soa) : Bool :=
  a.mname.same b.mname && a.rname.same b.rname && a.serial == b.serial && a.refresh == b.refresh
    && a.retry == b.retry && a.expire == b.expire && a.minimum == b.minimum

/-- Record data; the server looks inside CNAME and SOA only. -/
inductive RData where
  | cname (target : Name)
  | soa (data : Soa)
  | other (kind : RecordType) (bytes : Bytes)
deriving DecidableEq

def RData.recordType : RData → RecordType
  | .cname _ => .CNAME
  | .soa _ => .SOA
  | .other kind _ => kind

structure Record where
  name : Name
  ttl : Nat
  dnsClass : DNSClass
  data : RData
deriving DecidableEq

def Record.recordType (rr : Record) : RecordType := rr.data.recordType

structure Query where
  name : Name
  queryType : RecordType
  queryClass : DNSClass
deriving DecidableEq

structure ClientSubnet where
  addr : IpAddr
  sourcePrefix : Nat
  scopePrefix : Nat
deriving DecidableEq

structure EdnsCode where
  code : Nat
deriving DecidableEq

namespace EdnsCode

def Subnet : EdnsCode := ⟨8⟩
def Cookie : EdnsCode := ⟨10⟩
def Padding : EdnsCode := ⟨12⟩
/-- Extended DNS Error (RFC 8914). -/
def ExtendedError : EdnsCode := ⟨15⟩

end EdnsCode

inductive EdnsOption where
  | subnet (ecs : ClientSubnet)
  | unknown (code : Nat) (data : Bytes)
deriving DecidableEq

def EdnsOption.code : EdnsOption → EdnsCode
  | .subnet _ => .Subnet
  | .unknown code _ => ⟨code⟩

structure Edns where
  version : Nat := 0
  maxPayload : Nat := 512
  dnssecOk : Bool := false
  options : List (EdnsCode × EdnsOption) := []
deriving DecidableEq

namespace Edns

def option (e : Edns) (code : EdnsCode) : Option EdnsOption := (e.options.find? (·.1 = code)).map Prod.snd

/-- `options_mut().insert`. -/
def insert (e : Edns) (o : EdnsOption) : Edns := { e with options := e.options ++ [(o.code, o)] }

/-- `options_mut().remove`. -/
def remove (e : Edns) (code : EdnsCode) : Edns := { e with options := e.options.filter (·.1 ≠ code) }

end Edns

inductive MessageType where
  | query | response
deriving DecidableEq

inductive OpCode where
  | query
  | other (code : Nat)
deriving DecidableEq

structure Message where
  id : Nat
  messageType : MessageType
  opCode : OpCode
  truncation : Bool := false
  recursionDesired : Bool := false
  recursionAvailable : Bool := false
  authenticData : Bool := false
  checkingDisabled : Bool := false
  responseCode : ResponseCode := .noError
  queries : List Query := []
  answers : List Record := []
  authorities : List Record := []
  additionals : List Record := []
  /-- Whether the message ends in a TSIG or SIG(0) record. -/
  signature : Bool := false
  edns : Option Edns := none
deriving DecidableEq

/-- The records of a message, in the order the code chains its sections. -/
def Message.records (m : Message) : List Record := m.answers ++ m.authorities ++ m.additionals

/-- `for rr in answers.iter_mut().chain(authorities).chain(additionals)`. -/
def Message.mapRecords (f : Record → Record) (m : Message) : Message :=
  { m with answers := m.answers.map f, authorities := m.authorities.map f, additionals := m.additionals.map f }

theorem Message.records_mapRecords (f) (m : Message) : (m.mapRecords f).records = m.records.map f := by
  simp [records, mapRecords]

/-- A query that has passed `protocol::request`: it has exactly one question. -/
structure SingleQuery where
  message : Message
  question : Query
  single : message.queries = [question]

end Parins
