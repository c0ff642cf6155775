/-
`ecs.rs`: which client network a query is sent for, and which clients its answer
may serve. A `Scope` is the namespace an answer is stored under; `Scope.matches`
says which outgoing ECS values it serves, and two scopes that serve a common one
overlap (`overlap_of_matches`).
-/
import Parins.Dns.Protocol

namespace Parins
open Net

inductive Scope where
  | noEcs
  | privacy (ipv4 : Bool)
  | network (n : IpNet)
  /-- Missing upstream ECS: only for this exact sent source prefix. -/
  | exactSource (n : IpNet)
  /-- Learned to be identical across the networks of one family; only the cache assigns it. -/
  | learned (ipv4 : Bool)
deriving DecidableEq

namespace Scope

/-- `Scope::matches`. -/
def «matches» : Scope → Option ClientSubnet → Bool
  | .noEcs, none => true
  | .privacy ipv4, some ecs => ecs.sourcePrefix == 0 && ipv4 == ecs.addr.isIpv4
  | .network n, some ecs => 0 < ecs.sourcePrefix && n.prefixLen ≤ ecs.sourcePrefix && n.contains ecs.addr
  | .exactSource n, some ecs =>
    0 < ecs.sourcePrefix && n.prefixLen == ecs.sourcePrefix
      && (match IpNet.new ecs.addr ecs.sourcePrefix with
        | some sent => sent.trunc == n
        | none => false)
  | .learned ipv4, some ecs => 0 < ecs.sourcePrefix && ipv4 == ecs.addr.isIpv4
  | _, _ => false

def prefixLen : Scope → Nat
  | .network n | .exactSource n => n.prefixLen
  | _ => 0

def replyScope (s : Scope) (outgoing : Option ClientSubnet) : Option Nat :=
  match s with
  | .noEcs => none
  | .learned _ => outgoing.map ClientSubnet.sourcePrefix
  | s => some s.prefixLen

/-- `matches!(scope, Scope::Learned { .. })`. -/
def isLearned : Scope → Bool
  | .learned _ => true
  | _ => false

/-- `cache::scopes_overlap`. -/
def overlaps : Scope → Scope → Bool
  | .network a, .network b | .network a, .exactSource b => a.overlaps b
  | .exactSource a, .network b | .exactSource a, .exactSource b => a.overlaps b
  | .learned ipv4, .network n | .learned ipv4, .exactSource n => n.addr.isIpv4 == ipv4
  | .network n, .learned ipv4 | .exactSource n, .learned ipv4 => n.addr.isIpv4 == ipv4
  | a, b => a == b

def learnedServes : Scope → Scope → Bool
  | .learned ipv4, .network n | .learned ipv4, .exactSource n =>
    decide (0 < n.prefixLen) && n.addr.isIpv4 == ipv4
  | _, _ => false

end Scope

/-- `config.ecs`. -/
structure EcsConfig where
  enabled : Bool
  ipv4Prefix : Nat
  ipv6Prefix : Nat

def EcsConfig.cap (config : EcsConfig) (isIpv4 : Bool) : Nat :=
  if isIpv4 then config.ipv4Prefix else config.ipv6Prefix

namespace Ecs

def subnet (message : Message) : Option ClientSubnet :=
  match message.edns.bind (·.option .Subnet) with
  | some (.subnet ecs) => some ecs
  | _ => none

def setSubnet (message : Message) (ecs : Option ClientSubnet) : Message :=
  let edns := message.edns.map (·.remove .Subnet)
  match ecs with
  | none => { message with edns }
  | some ecs =>
    { message with edns := some ((edns.getD { maxPayload := Protocol.MAX_UDP_PAYLOAD }).insert (.subnet ecs)) }

end Ecs

structure Context where
  outgoing : Option ClientSubnet
  incoming : Option ClientSubnet

structure ResponseScope where
  cache : Option Scope
  reply : Option Nat

namespace Context

def prepare (query : SingleQuery) (peer : IpAddr) (config : EcsConfig) : Except ResponseCode (Message × Context) :=
  let incoming := Ecs.subnet query.message
  if incoming.any (·.scopePrefix ≠ 0) then .error .formErr
  else
    let outgoingQuery := { query.message with
      edns := query.message.edns.map fun e => { e with maxPayload := min e.maxPayload Protocol.MAX_UDP_PAYLOAD } }
    if !config.enabled ∨ query.question.queryClass ≠ .IN then
      .ok (Ecs.setSubnet outgoingQuery none, ⟨none, none⟩)
    else do
      let peer := peer.canonical
      let (address, source) ← match incoming with
        | some ecs =>
          match IpNet.new ecs.addr ecs.sourcePrefix with
          | none => .error .formErr
          | some network =>
            if 0 < ecs.sourcePrefix ∧ ¬network.contains peer then .error .refused
            else .ok (ecs.addr, min ecs.sourcePrefix (config.cap ecs.addr.isIpv4))
        | none => .ok (peer, config.cap peer.isIpv4)
      match IpNet.new address source with
      | none => .error .formErr
      | some network =>
        let outgoing : ClientSubnet := ⟨network.trunc.addr, source, 0⟩
        .ok (Ecs.setSubnet outgoingQuery (some outgoing), ⟨some outgoing, incoming⟩)

def sourceScope (c : Context) : Option Scope :=
  match c.outgoing with
  | none => some .noEcs
  | some sent =>
    if sent.sourcePrefix = 0 then some (.privacy sent.addr.isIpv4)
    else (IpNet.new sent.addr sent.sourcePrefix).map fun n => .exactSource n.trunc

def responseScope (c : Context) (response : Message) : ResponseScope :=
  let received := Ecs.subnet response
  let cache := match c.outgoing, received with
    | _, none => c.sourceScope
    | some sent, some received =>
      if received.addr = sent.addr ∧ received.sourcePrefix = sent.sourcePrefix
          ∧ received.scopePrefix ≤ sent.sourcePrefix then
        if sent.sourcePrefix = 0 then some (.privacy sent.addr.isIpv4)
        else (IpNet.new sent.addr received.scopePrefix).map fun n => .network n.trunc
      else none
    | none, some _ => none
  let reply := (cache.bind (·.replyScope c.outgoing)).or (received.map ClientSubnet.scopePrefix)
  ⟨cache, reply⟩

def finish (c : Context) (query : Message) (response : Message) (scope : Option Nat) : Message :=
  let response := { response with
    id := query.id
    recursionDesired := query.recursionDesired
    checkingDisabled := query.checkingDisabled
    authenticData := false
    queries := query.queries }
  let response := Ecs.setSubnet response none
  let response := match query.edns with
    | some client =>
      let edns := { response.edns.getD {} with
        maxPayload := Protocol.MAX_UDP_PAYLOAD, dnssecOk := client.dnssecOk }
      -- An unsolicited upstream cookie belongs to its transaction.
      let edns := if (client.option .Cookie).isNone then edns.remove .Cookie else edns
      { response with edns := some edns }
    | none => { response with edns := none }
  match c.incoming with
  | some original =>
    Ecs.setSubnet response (some ⟨original.addr, original.sourcePrefix, scope.getD original.sourcePrefix⟩)
  | none => response

end Context

/-! ## Scopes that serve a common query overlap -/

namespace Scope

variable {a b s : Scope} {o : Option ClientSubnet}

theorem overlaps_comm (a b : Scope) : a.overlaps b = b.overlaps a := by
  cases a <;> cases b <;> simp only [overlaps, IpNet.overlaps_comm] <;> first | rfl | exact BEq.comm

theorem overlaps_self (a : Scope) : a.overlaps a = true := by
  cases a with
  | network n => exact IpNet.overlaps_iff.mpr ⟨_, n.contains_addr, n.contains_addr⟩
  | exactSource n => exact IpNet.overlaps_iff.mpr ⟨_, n.contains_addr, n.contains_addr⟩
  | _ => simp [overlaps]

variable {ecs : ClientSubnet} {n : IpNet}

/-- What a scope serves: no ECS, the private queries of a family, or a set of networks. -/
theorem matches_network_iff : (network n).matches (some ecs) = true ↔
      0 < ecs.sourcePrefix ∧ n.prefixLen ≤ ecs.sourcePrefix ∧ n.contains ecs.addr = true := by
  simp [«matches», and_assoc]

theorem matches_exactSource_iff : (exactSource n).matches (some ecs) = true ↔
      0 < ecs.sourcePrefix ∧ ∃ sent, IpNet.new ecs.addr ecs.sourcePrefix = some sent ∧ sent.trunc = n := by
  constructor
  · intro h
    simp only [«matches», Bool.and_eq_true, decide_eq_true_eq] at h
    obtain ⟨⟨hpos, _⟩, hsent⟩ := h
    split at hsent
    · next sent hnew => exact ⟨hpos, sent, hnew, eq_of_beq hsent⟩
    · cases hsent
  · rintro ⟨hpos, sent, hnew, rfl⟩
    obtain ⟨_, hp⟩ := IpNet.new_eq_some.mp hnew
    simp [«matches», hpos, hnew, hp]

theorem contains_of_matches_exactSource
    (h : (exactSource n).matches (some ecs) = true) : n.contains ecs.addr = true := by
  obtain ⟨_, sent, hnew, rfl⟩ := matches_exactSource_iff.mp h
  obtain ⟨haddr, _⟩ := IpNet.new_eq_some.mp hnew
  rw [IpNet.trunc_contains_iff, ← haddr]
  exact sent.contains_addr

/-- The shape of an outgoing ECS value that a scope serves. -/
inductive Serves : Scope → Option ClientSubnet → Prop
  | noEcs : Serves .noEcs none
  | privacy {ecs : ClientSubnet} : ecs.sourcePrefix = 0 → Serves (.privacy ecs.addr.isIpv4) (some ecs)
  | network {n : IpNet} {ecs : ClientSubnet} : 0 < ecs.sourcePrefix → n.contains ecs.addr = true →
      Serves (.network n) (some ecs)
  | exactSource {n : IpNet} {ecs : ClientSubnet} : 0 < ecs.sourcePrefix → n.contains ecs.addr = true →
      Serves (.exactSource n) (some ecs)
  | learned {ecs : ClientSubnet} : 0 < ecs.sourcePrefix → Serves (.learned ecs.addr.isIpv4) (some ecs)

theorem serves_of_matches (h : s.matches o = true) : Serves s o := by
  match s, o with
  | .noEcs, none => exact .noEcs
  | .privacy ipv4, some ecs =>
    simp only [«matches», Bool.and_eq_true, beq_iff_eq] at h
    exact h.2 ▸ .privacy h.1
  | .network n, some ecs =>
    obtain ⟨hpos, _, hc⟩ := matches_network_iff.mp h
    exact .network hpos hc
  | .exactSource n, some ecs =>
    exact .exactSource (matches_exactSource_iff.mp h).1 (contains_of_matches_exactSource h)
  | .learned ipv4, some ecs =>
    simp only [«matches», Bool.and_eq_true, decide_eq_true_eq, beq_iff_eq] at h
    exact h.2 ▸ .learned h.1

/-- **Two scopes that both serve one outgoing ECS value overlap.** -/
theorem overlap_of_matches (ha : a.matches o = true) (hb : b.matches o = true) : a.overlaps b = true := by
  have common : ∀ {m n : IpNet} {x : IpAddr}, m.contains x = true → n.contains x = true → m.overlaps n = true :=
    fun hm hn => IpNet.overlaps_iff.mpr ⟨_, hm, hn⟩
  have family : ∀ {n : IpNet} {x : IpAddr}, n.contains x = true → (n.addr.isIpv4 == x.isIpv4) = true :=
    fun hn => beq_iff_eq.mpr (IpNet.contains_iff.mp hn).1
  cases serves_of_matches ha with
  | noEcs => cases serves_of_matches hb; rfl
  | privacy hz =>
    cases serves_of_matches hb with
    | privacy => exact overlaps_self _
    | network hpos | exactSource hpos | learned hpos => omega
  | network hpos hm | exactSource hpos hm =>
    cases serves_of_matches hb with
    | privacy hz => omega
    | network _ hn | exactSource _ hn => exact common hm hn
    | learned => exact family hm
  | learned hpos =>
    cases serves_of_matches hb with
    | privacy hz => omega
    | network _ hn | exactSource _ hn => exact family hn
    | learned => exact overlaps_self _

end Scope

/-! ## Whom an answer may serve -/

/-- An answer that came back with the ECS `received` to a query sent with one outgoing ECS value
may serve a query with another. -/
inductive Reusable (received : Option ClientSubnet) : Option ClientSubnet → Option ClientSubnet → Prop
  | noEcs : Reusable received none none
  | privacy {sent asked : ClientSubnet} : sent.sourcePrefix = 0 → asked.sourcePrefix = 0 →
      sent.addr.isIpv4 = asked.addr.isIpv4 → Reusable received (some sent) (some asked)
  | exactSource {sent asked : ClientSubnet} : received = none → asked.sourcePrefix = sent.sourcePrefix →
      sent.addr.Agree sent.sourcePrefix asked.addr → Reusable received (some sent) (some asked)
  | network {sent asked echoed : ClientSubnet} : received = some echoed → echoed.addr = sent.addr →
      echoed.sourcePrefix = sent.sourcePrefix → echoed.scopePrefix ≤ sent.sourcePrefix →
      0 < sent.sourcePrefix → 0 < asked.sourcePrefix → echoed.scopePrefix ≤ asked.sourcePrefix →
      sent.addr.Agree echoed.scopePrefix asked.addr → Reusable received (some sent) (some asked)

namespace Context

variable {ctx : Context} {response : Message} {scope : Scope} {asked received : Option ClientSubnet}

theorem reusable_sourceScope (h : ctx.sourceScope = some scope) (hm : scope.matches asked = true)
    (hreceived : received = none) : Reusable received ctx.outgoing asked := by
  unfold sourceScope at h
  split at h
  · next hout =>
    cases h
    rw [hout]
    cases Scope.serves_of_matches hm
    exact .noEcs
  · next sent hout =>
    rw [hout]
    split at h
    · next hzero =>
      obtain rfl := Option.some.inj h
      generalize hfamily : sent.addr.isIpv4 = family at hm
      cases Scope.serves_of_matches hm with
      | privacy hz => exact .privacy hzero hz hfamily
    · obtain ⟨n, hnew, rfl⟩ := Option.map_eq_some_iff.mp h
      obtain ⟨haddr, hprefix⟩ := IpNet.new_eq_some.mp hnew
      match asked with
      | some ecs =>
        obtain ⟨_, n', hnew', htrunc⟩ := Scope.matches_exactSource_iff.mp hm
        obtain ⟨haddr', hprefix'⟩ := IpNet.new_eq_some.mp hnew'
        obtain ⟨hlen, hcontains⟩ := IpNet.trunc_eq_iff.mp htrunc.symm
        rw [IpNet.contains_iff_agree, haddr, hprefix, haddr'] at hcontains
        exact .exactSource hreceived (by omega) hcontains

/-- **Whom an answer stored for a context can serve.** -/
theorem reusable_responseScope (h : (ctx.responseScope response).cache = some scope) (hm : scope.matches asked = true) :
    Reusable (Ecs.subnet response) ctx.outgoing asked := by
  simp only [responseScope] at h
  split at h
  · next hnone => exact reusable_sourceScope h hm hnone
  · next sent received hout hreceived =>
    rw [hout]
    split at h
    · next hecho =>
      obtain ⟨haddr, hsource, hle⟩ := hecho
      split at h
      · next hzero =>
        obtain rfl := Option.some.inj h
        generalize hfamily : sent.addr.isIpv4 = family at hm
        cases Scope.serves_of_matches hm with
        | privacy hz => exact .privacy hzero hz hfamily
      · next hpos =>
        obtain ⟨n, hnew, rfl⟩ := Option.map_eq_some_iff.mp h
        obtain ⟨haddr', hprefix⟩ := IpNet.new_eq_some.mp hnew
        match asked with
        | some ecs =>
          obtain ⟨hpos', hwide, hcontains⟩ := Scope.matches_network_iff.mp hm
          rw [IpNet.trunc_contains_iff, IpNet.contains_iff_agree, haddr', hprefix] at hcontains
          rw [IpNet.trunc_prefixLen, hprefix] at hwide
          exact .network hreceived haddr hsource hle (Nat.pos_of_ne_zero hpos) hpos' hwide hcontains
    · cases h
  · cases h

theorem sourceScope_matches (h : ctx.sourceScope = some scope) : scope.matches ctx.outgoing = true := by
  unfold sourceScope at h
  split at h
  · next hout =>
    cases h
    rw [hout]
    rfl
  · next sent hout =>
    rw [hout]
    split at h
    · next hzero =>
      cases h
      simp [Scope.matches, hzero]
    · next hpos =>
      obtain ⟨n, hnew, rfl⟩ := Option.map_eq_some_iff.mp h
      exact Scope.matches_exactSource_iff.mpr ⟨Nat.pos_of_ne_zero hpos, n, hnew, rfl⟩

theorem responseScope_matches (h : (ctx.responseScope response).cache = some scope) :
    scope.matches ctx.outgoing = true := by
  simp only [responseScope] at h
  split at h
  · exact sourceScope_matches h
  · next sent received hout _ =>
    rw [hout]
    split at h
    · next hecho =>
      split at h
      · next hzero =>
        cases h
        simp [Scope.matches, hzero]
      · next hpos =>
        obtain ⟨n, hnew, rfl⟩ := Option.map_eq_some_iff.mp h
        obtain ⟨haddr, hprefix⟩ := IpNet.new_eq_some.mp hnew
        refine Scope.matches_network_iff.mpr ⟨Nat.pos_of_ne_zero hpos, ?_, ?_⟩
        · rw [IpNet.trunc_prefixLen, hprefix]
          exact hecho.2.2
        · rw [IpNet.trunc_contains_iff, ← haddr]
          exact n.contains_addr
    · cases h
  · cases h

/-! ## What an upstream learns of a client -/

theorem find_remove (e : Edns) (code : EdnsCode) : (e.remove code).options.find? (·.1 = code) = none := by
  simp [Edns.remove]

theorem subnet_setSubnet (m : Message) (ecs : Option ClientSubnet) : Ecs.subnet (Ecs.setSubnet m ecs) = ecs := by
  cases ecs <;> cases hm : m.edns <;>
    simp [Ecs.subnet, Ecs.setSubnet, hm, Edns.option, Edns.insert, find_remove, EdnsOption.code]

variable {query : SingleQuery} {peer : IpAddr} {config : EcsConfig} {sent : Message}

/-- **The subnet sent upstream is the peer's own address**, cut to no more bits than the settings
and the client allow. -/
theorem prepare_own (h : prepare query peer config = .ok (sent, ctx)) :
    Ecs.subnet sent = ctx.outgoing ∧
    (ctx.outgoing.isSome ↔ config.enabled = true ∧ query.question.queryClass = .IN) ∧
    ∀ out, ctx.outgoing = some out → out.scopePrefix = 0 ∧ out.sourcePrefix ≤ config.cap out.addr.isIpv4 ∧
      (∀ asked, Ecs.subnet query.message = some asked → out.sourcePrefix ≤ asked.sourcePrefix) ∧
      (0 < out.sourcePrefix →
        ∃ own, IpNet.new peer.canonical out.sourcePrefix = some own ∧ out.addr = own.trunc.addr) := by
  simp only [prepare, bind, Except.bind] at h
  split at h
  · cases h
  split at h
  · next hoff =>
    cases h
    exact ⟨subnet_setSubnet _ _, by simp; grind, by simp⟩
  next hon =>
  cases hasked : Ecs.subnet query.message with
  | none =>
    simp only [hasked] at h
    split at h
    · cases h
    next network hnew =>
    cases h
    refine ⟨subnet_setSubnet _ _, by simpa using hon, ?_⟩
    rintro _ ⟨⟩
    exact ⟨rfl, by simp [(IpNet.new_eq_some.mp hnew).1], by simp, fun _ => ⟨network, hnew, rfl⟩⟩
  | some asked =>
    simp only [hasked] at h
    split at h
    · cases h
    next wide hwide =>
    split at h
    · cases h
    next hin =>
    split at h
    · cases h
    next network hnew =>
    cases h
    refine ⟨subnet_setSubnet _ _, by simpa using hon, ?_⟩
    rintro _ ⟨⟩
    obtain ⟨haddr, hlen⟩ := IpNet.new_eq_some.mp hnew
    obtain ⟨haddr', hlen'⟩ := IpNet.new_eq_some.mp hwide
    refine ⟨rfl, by simp [haddr], by simp, fun hpos => ?_⟩
    have hheld : wide.contains peer.canonical = true := by
      dsimp only at hpos
      grind
    -- the peer is in the network asked for, so also in the wider one sent
    have hcut : network.contains peer.canonical = true := by
      simp only [IpNet.contains_iff, IpNet.hostBits, haddr, hlen, haddr', hlen'] at hheld ⊢
      exact ⟨hheld.1, hheld.2.mono (by omega)⟩
    let own : IpNet := ⟨peer.canonical, network.prefixLen, (IpNet.contains_iff.mp hcut).1 ▸ network.bound⟩
    have htrunc : network.trunc = own.trunc := IpNet.trunc_eq_iff.mpr ⟨rfl, hcut⟩
    exact ⟨own, IpNet.new_eq_some.mpr ⟨rfl, hlen⟩, htrunc ▸ rfl⟩

/-- A query for `a.` that asks for no more than `10.0.0.0/16`. -/
def askingQuery : SingleQuery where
  message := Ecs.setSubnet { id := 1, messageType := .query, opCode := .query, queries := [⟨⟨[[97]], true⟩, .A, .IN⟩] }
    (some ⟨.ofV4 10 0 0 0, 16, 0⟩)
  question := ⟨⟨[[97]], true⟩, .A, .IN⟩
  single := rfl

theorem prepare_own_sample : ∃ sent ctx, prepare askingQuery (.ofV4 10 0 9 7) ⟨true, 24, 56⟩ = .ok (sent, ctx) ∧
    Ecs.subnet sent = ctx.outgoing ∧ ctx.outgoing = some ⟨.ofV4 10 0 0 0, 16, 0⟩ :=
  have h : prepare askingQuery (.ofV4 10 0 9 7) ⟨true, 24, 56⟩ = .ok (_, _) := rfl
  ⟨_, _, h, (prepare_own h).1, rfl⟩

end Context

end Parins
