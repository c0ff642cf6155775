/-
The weighted mode of the upstream pool (`upstreams.rs`): the lines that name its
endpoints, and the smooth weighted round-robin over their scores. Scores are
`i64`; an addition that leaves the range is a failed step.
-/
import Parins.Lib.RoundRobin
import Parins.Lib.Outcome
import Parins.Net.Address
import Parins.Dns.Name
import Mathlib.Algebra.BigOperators.Fin

namespace Parins.Upstreams
open Net Lib List

/-! ## Endpoints -/

inductive Protocol where
  | udp | tcp | tls | https | quic
deriving DecidableEq

structure Endpoint where
  label : Bytes
  protocol : Protocol
  host : Bytes
  port : Nat
  path : Bytes
  weight : Int

structure Authority where
  host : Bytes
  /-- Whether a port is written. -/
  port : Bool
  portU16 : Option Nat

/-- What reading an endpoint takes from the `http` crate. -/
structure Parsers where
  /-- `str::parse::<http::uri::Authority>`. -/
  authority : Bytes → Except String Authority
  /-- `str::parse::<http::uri::PathAndQuery>`. -/
  pathAndQuery : Bytes → Except String Unit

/-- `anyhow::ensure!`. -/
def ensure (condition : Bool) (message : String) : Except String Unit :=
  if condition then .ok () else .error message

/-- `str::strip_prefix`. -/
def stripStart (start text : Bytes) : Option Bytes :=
  if start.isPrefixOf text then some (text.drop start.length) else none

def splitOnce (separator : Bytes) : Bytes → Option (Bytes × Bytes)
  | [] => if separator.isEmpty then some ([], []) else none
  | c :: text =>
    match stripStart separator (c :: text) with
    | some rest => some ([], rest)
    | none => (splitOnce separator text).map fun (a, b) => (c :: a, b)

/-! ### Texts as `std` reads them -/

/-- The bytes of the white space that a text begins with; 0 if it begins with none. -/
def spaceLen : Bytes → Nat
  | 0xc2 :: c :: _ => if c == 0x85 || c == 0xa0 then 2 else 0
  | 0xe1 :: 0x9a :: 0x80 :: _ => 3
  | 0xe2 :: 0x80 :: c :: _ => if (0x80 ≤ c && c ≤ 0x8a) || c == 0xa8 || c == 0xa9 || c == 0xaf then 3 else 0
  | 0xe2 :: 0x81 :: 0x9f :: _ => 3
  | 0xe3 :: 0x80 :: 0x80 :: _ => 3
  | c :: _ => if (9 ≤ c && c ≤ 13) || c == 32 then 1 else 0
  | [] => 0

/-- `skip` bytes of a space are left, and `word` has been read. -/
def splitWhitespaceFrom (word : Bytes) : Nat → Bytes → List Bytes
  | _, [] => if word.isEmpty then [] else [word]
  | skip + 1, _ :: rest => splitWhitespaceFrom word skip rest
  | 0, c :: rest =>
    match spaceLen (c :: rest) with
    | 0 => splitWhitespaceFrom (word ++ [c]) 0 rest
    | n + 1 => if word.isEmpty then splitWhitespaceFrom [] n rest else word :: splitWhitespaceFrom [] n rest

def splitWhitespace (line : Bytes) : List Bytes := splitWhitespaceFrom [] 0 line

/-- `char::to_digit`. -/
def toDigit (radix : Nat) (c : UInt8) : Option Nat :=
  let lower := toAsciiLowercase c
  let value := if 48 ≤ c ∧ c ≤ 57 then c.toNat - 48 else if 97 ≤ lower ∧ lower ≤ 122 then lower.toNat - 87 else radix
  if value < radix then some value else none

def i64From (sign : Int) (overflow : String) (n : Int) : Bytes → Except String Int
  | [] => .ok n
  | c :: rest =>
    match toDigit 10 c with
    | none => .error "invalid digit found in string"
    | some d =>
      if -2 ^ 63 ≤ n * 10 + sign * d ∧ n * 10 + sign * d < 2 ^ 63 then i64From sign overflow (n * 10 + sign * d) rest
      else .error overflow

/-- `str::parse::<i64>`. -/
def parseI64 : Bytes → Except String Int
  | [] => .error "cannot parse integer from empty string"
  | [43] | [45] => .error "invalid digit found in string"
  | 45 :: digits => i64From (-1) "number too small to fit in target type" 0 digits
  | 43 :: digits => i64From 1 "number too large to fit in target type" 0 digits
  | digits => i64From 1 "number too large to fit in target type" 0 digits

def readNumber (radix maxDigits : Nat) (allowZeroPrefix : Bool) (text : Bytes) : Option Nat :=
  if text.isEmpty || maxDigits < text.length || (!allowZeroPrefix && 1 < text.length && text.head? == some 48) then none
  else text.foldlM (fun n c => (toDigit radix c).map (n * radix + ·)) 0

def readIpv4 (text : Bytes) : Option Nat := do
  let parts ← (text.splitOn 46).mapM fun part => (readNumber 10 3 false part).filter (· < 256)
  if parts.length = 4 then some (parts.foldl (fun n part => n * 256 + part) 0) else none

/-- The groups of an IPv6 address; the last two may be written as an IPv4 address. -/
def readGroups : List Bytes → Option (List Nat)
  | [] => some []
  | [last] =>
    match readIpv4 last with
    | some v4 => some [v4 / 65536, v4 % 65536]
    | none => (readNumber 16 4 true last).map ([·])
  | group :: rest => do some ((← readNumber 16 4 true group) :: (← readGroups rest))

def readIpv6 (text : Bytes) : Option Nat := do
  let pieces (part : Bytes) := if part.isEmpty then [] else part.splitOn 58
  let groups ← match splitOnce [58, 58] text with
    | none => (readGroups (text.splitOn 58)).filter (·.length = 8)
    | some (head, tail) => do
      -- an IPv4 part is not allowed before `::`, which stands for at least one group
      let head ← (pieces head).mapM (readNumber 16 4 true)
      let tail ← readGroups (pieces tail)
      if head.length + tail.length ≤ 7 then some (head ++ replicate (8 - head.length - tail.length) 0 ++ tail) else none
  some (groups.foldl (fun n group => n * 65536 + group) 0)

/-- `str::parse::<IpAddr>`. -/
def parseIpAddr (text : Bytes) : Option IpAddr :=
  let ofBits (isIpv4 : Bool) (bits : Nat) := if h : bits < 2 ^ width isIpv4 then some ⟨isIpv4, bits, h⟩ else none
  match readIpv4 text with
  | some bits => ofBits true bits
  | none => (readIpv6 text).bind (ofBits false)

example : parseIpAddr (ascii "::ffff:192.0.2.1") = some ⟨false, 0xffffc0000201, by decide⟩ := by decide +kernel

/-! ### Reading an endpoint -/

/-- `IpAddr::is_unspecified`, `is_multicast` and `is_broadcast`. -/
def routable (ip : IpAddr) : Bool :=
  ip.bits != 0
    && (if ip.isIpv4 then ip.bits / 2 ^ 28 != 0xe else ip.bits / 2 ^ 120 != 0xff)
    && !(ip.isIpv4 && ip.bits == 2 ^ 32 - 1)

def validAddress (ip : IpAddr) (port : Nat) : Except String Unit :=
  ensure (port != 0 && routable ip.canonical) "upstream must be a nonzero unicast endpoint"

def hostLabel (label : Bytes) : Bool :=
  !label.isEmpty && label.length ≤ 63 && label.head? != some 45 && label.getLast? != some 45
    && label.all fun c => isAsciiAlphanumeric c || c == 45

namespace Endpoint

/-- The weight that is written after the endpoint, or 1. -/
def writtenWeight (rest : List Bytes) : Except String Int :=
  match rest.head? with
  | some value =>
    match stripStart (ascii "weight=") value with
    | none => .error "use weight=N after the endpoint"
    | some number => parseI64 number
  | none => .ok 1

/-- The weight of a line, from what follows the endpoint. -/
def parseWeight (rest : List Bytes) : Except String Int := do
  let weight ← writtenWeight rest
  ensure ((rest.drop 1).isEmpty && decide (1 ≤ weight ∧ weight ≤ 1000)) "upstream weight must be in 1..=1000"
  .ok weight

def ofScheme (scheme : Bytes) : Except String (Protocol × Nat) :=
  if scheme = ascii "udp" then .ok (.udp, 53)
  else if scheme = ascii "tcp" then .ok (.tcp, 53)
  else if scheme = ascii "tls" then .ok (.tls, 853)
  else if scheme = ascii "https" then .ok (.https, 443)
  else if scheme = ascii "quic" then .ok (.quic, 853)
  else .error "supported upstream protocols: udp, tcp, tls, https, quic"

/-- An address or a host name. -/
def checkHost (host : Bytes) (port : Nat) : Except String Unit :=
  match parseIpAddr host with
  | some ip => validAddress ip port
  | none => ensure (decide (host.length ≤ 253) && (host.splitOn 46).all hostLabel) "invalid upstream hostname"

def parse (L : Parsers) (line : Bytes) : Except String Endpoint := do
  ensure (decide (line.length ≤ 2048)) "upstream line too long"
  match splitWhitespace line with
  | [] => .error "empty upstream"
  | endpoint :: rest =>
    let weight ← parseWeight rest
    let (scheme, address) := (splitOnce (ascii "://") endpoint).getD (ascii "udp", endpoint)
    let (protocol, defaultPort) ← ofScheme scheme
    ensure (!address.any fun c => c == 64 || c == 63 || c == 35)
      "upstream credentials, query parameters and fragments are unsupported"
    let (authority, path) := match splitOnce [47] address with
      | none => (address, ascii "/dns-query")
      | some (a, p) => (a, 47 :: p)
    ensure (decide (protocol = .https) || !address.contains 47) "only HTTPS upstreams accept a path"
    let authority ← L.authority authority
    let host := (((authority.host.dropWhile (· == 91)).reverse.dropWhile (· == 93)).reverse).map toAsciiLowercase
    ensure (!host.isEmpty) "upstream host is empty"
    ensure (!authority.port || authority.portU16.isSome) "invalid upstream port"
    let port := authority.portU16.getD defaultPort
    ensure (port != 0) "upstream port cannot be zero"
    checkHost host port
    L.pathAndQuery path
    .ok { label := endpoint, protocol, host, port, path, weight }

end Endpoint

/-! ## The pool -/

structure Pool where
  endpoints : List Endpoint
  scores : List Int

def Pool.new (L : Parsers) (servers : List Bytes) : Except String Pool := do
  let endpoints ← servers.mapM (Endpoint.parse L)
  .ok ⟨endpoints, List.replicate endpoints.length 0⟩

/-- `i64` addition; `none` is an overflow. -/
def add64 (a b : Int) : Option Int := if -2 ^ 63 ≤ a + b ∧ a + b < 2 ^ 63 then some (a + b) else none

/-- The variables of the selection loop. -/
structure Scan where
  scores : List Int
  selected : Nat := 0
  total : Int := 0

/-- One turn of the loop, for endpoint `i`. -/
def Scan.raise (scan : Scan) (i : Nat) (weight : Int) : Option Scan := do
  let score ← add64 (← scan.scores[i]?) weight
  let scores := scan.scores.set i score
  let total ← add64 scan.total weight
  let best ← scores[scan.selected]?
  some { scores, selected := if best < score then i else scan.selected, total }

/-- `for (i, client) in self.endpoints.iter().enumerate()`. -/
def Scan.raiseAll : List Int → Nat → Scan → Option Scan
  | [], _, scan => some scan
  | weight :: weights, i, scan => (scan.raise i weight).bind (raiseAll weights (i + 1))

/-- The weighted selection of `Pool::exchange_inner`. -/
def Pool.select (pool : Pool) : Option (Pool × Nat) := do
  let scan ← Scan.raiseAll (pool.endpoints.map Endpoint.weight) 0 { scores := pool.scores }
  let score ← add64 (← scan.scores[scan.selected]?) (-scan.total)
  some ({ pool with scores := scan.scores.set scan.selected score }, scan.selected)

/-- The pool after this many selections, and what they selected. -/
def Pool.selections (pool : Pool) : Nat → Option (Pool × List Nat)
  | 0 => some (pool, [])
  | n + 1 => do
    let (pool, selected) ← pool.selections n
    let (pool, i) ← pool.select
    some (pool, selected ++ [i])

/-! ## One selection -/

theorem ensure_ok {condition message u} (h : ensure condition message = .ok u) : condition = true := by
  unfold ensure at h
  split at h
  · assumption
  · cases h

theorem parseWeight_within {rest weight}
    (h : Endpoint.parseWeight rest = .ok weight) : 1 ≤ weight ∧ weight ≤ 1000 := by
  unfold Endpoint.parseWeight at h
  obtain ⟨written, _, h⟩ := bind_eq_ok.mp h
  obtain ⟨_, hensure, h⟩ := bind_eq_ok.mp h
  cases h
  have hwithin := ensure_ok hensure
  simp only [Bool.and_eq_true, decide_eq_true_eq] at hwithin
  exact hwithin.2

theorem parse_weight {L line} {e : Endpoint} (h : Endpoint.parse L line = .ok e) :
    1 ≤ e.weight ∧ e.weight ≤ 1000 := by
  unfold Endpoint.parse at h
  obtain ⟨_, _, h⟩ := bind_eq_ok.mp h
  split at h
  · cases h
  next endpoint rest _ =>
  obtain ⟨weight, hweight, h⟩ := bind_eq_ok.mp h
  obtain ⟨⟨protocol, defaultPort⟩, _, h⟩ := bind_eq_ok.mp h
  obtain ⟨_, _, h⟩ := bind_eq_ok.mp h
  obtain ⟨_, _, h⟩ := bind_eq_ok.mp h
  obtain ⟨authority, _, h⟩ := bind_eq_ok.mp h
  obtain ⟨_, _, h⟩ := bind_eq_ok.mp h
  obtain ⟨_, _, h⟩ := bind_eq_ok.mp h
  obtain ⟨_, _, h⟩ := bind_eq_ok.mp h
  obtain ⟨_, _, h⟩ := bind_eq_ok.mp h
  obtain ⟨_, _, h⟩ := bind_eq_ok.mp h
  cases h
  exact parseWeight_within hweight

theorem add64_eq {a b} (h : -2 ^ 62 ≤ a ∧ a ≤ 2 ^ 62 ∧ -2 ^ 62 ≤ b ∧ b < 2 ^ 62) : add64 a b = some (a + b) :=
  if_pos (by omega)

def scoreAt (scores : List Int) (i : Nat) : Int := scores.getD i 0

theorem scoreAt_getElem {scores : List Int} {i} (h : i < scores.length) : scoreAt scores i = scores[i] := by
  simp [scoreAt, h]

theorem scoreAt_eq {scores : List Int} {i} (h : i < scores.length) : scores[i]? = some (scoreAt scores i) := by
  simp [scoreAt, h]

theorem scoreAt_set {scores : List Int} {i} (h : i < scores.length) (score j) :
    scoreAt (scores.set i score) j = if i = j then score else scoreAt scores j := by
  unfold scoreAt
  by_cases hj : i = j
  · subst hj
    simp [h]
  · simp [getD_eq_getElem?_getD, hj]

/-- The loop has passed the first `i` endpoints. -/
structure Scan.Passed (weights scores : List Int) (i : Nat) (scan : Scan) : Prop where
  length : scan.scores.length = scores.length
  raised : ∀ j, scoreAt scan.scores j = scoreAt scores j + if j < i then scoreAt weights j else 0
  total : scan.total = (weights.take i).sum
  selected : scan.selected < max 1 i
  greatest : ∀ j < i, scoreAt scan.scores j ≤ scoreAt scan.scores scan.selected

/-- Scores and weights that no addition of the loop takes out of range. -/
structure Small (weights scores : List Int) : Prop where
  length : scores.length = weights.length
  few : weights.length ≤ 32
  weight : ∀ i, 0 ≤ scoreAt weights i ∧ scoreAt weights i ≤ 1000
  score : ∀ i, -2 ^ 40 ≤ scoreAt scores i ∧ scoreAt scores i ≤ 2 ^ 40

theorem Small.sum_take {weights scores : List Int} (h : Small weights scores) (i) :
    0 ≤ (weights.take i).sum ∧ (weights.take i).sum ≤ 32000 := by
  have hmem : ∀ w ∈ weights.take i, 0 ≤ w ∧ w ≤ 1000 := by
    intro w hw
    obtain ⟨j, hj, rfl⟩ := getElem_of_mem (mem_of_mem_take hw)
    have := h.weight j
    rwa [scoreAt_getElem hj] at this
  have hsum : (weights.take i).sum ≤ (weights.take i).length * 1000 := by
    simpa using sum_le_card_nsmul _ 1000 fun w hw => (hmem w hw).2
  have hlength : (weights.take i).length ≤ 32 := by
    have := h.few
    simp
    omega
  refine ⟨sum_nonneg fun w hw => (hmem w hw).1, ?_⟩
  omega

theorem Scan.Passed.raise {weights scores : List Int} {i} {scan : Scan} (hsmall : Small weights scores)
    (h : scan.Passed weights scores i) (hi : i < weights.length) :
    ∃ scan', scan.raise i (scoreAt weights i) = some scan' ∧ scan'.Passed weights scores (i + 1) := by
  have hin : i < scan.scores.length := by
    rw [h.length, hsmall.length]
    exact hi
  have hscore : scoreAt scan.scores i = scoreAt scores i := by
    rw [h.raised, if_neg (lt_irrefl i), add_zero]
  have hweight := hsmall.weight i
  have hbefore := hsmall.score i
  have htotal := hsmall.sum_take i
  have hselected : scan.selected < (scan.scores.set i (scoreAt scan.scores i + scoreAt weights i)).length := by
    have := h.selected
    rw [length_set]
    omega
  have hset := scoreAt_set hin (scoreAt scan.scores i + scoreAt weights i)
  have hraise : add64 (scoreAt scan.scores i) (scoreAt weights i) = some (scoreAt scan.scores i + scoreAt weights i) :=
    add64_eq (by omega)
  have hsum : add64 scan.total (scoreAt weights i) = some (scan.total + scoreAt weights i) :=
    add64_eq (by rw [h.total]; omega)
  obtain ⟨scan', hscan', hscores, hpick, htotal'⟩ : ∃ scan', scan.raise i (scoreAt weights i) = some scan' ∧
      scan'.scores = scan.scores.set i (scoreAt scan.scores i + scoreAt weights i) ∧
      scan'.selected = (if scoreAt (scan.scores.set i (scoreAt scan.scores i + scoreAt weights i)) scan.selected <
        scoreAt scan.scores i + scoreAt weights i then i else scan.selected) ∧
      scan'.total = scan.total + scoreAt weights i := by
    simp only [Scan.raise, scoreAt_eq hin, bind, Option.bind, hraise, hsum, scoreAt_eq hselected]
    exact ⟨_, rfl, rfl, rfl, rfl⟩
  refine ⟨scan', hscan', ⟨?_, ?_, ?_, ?_, ?_⟩⟩
  · rw [hscores, length_set, h.length]
  · intro j
    rw [hscores, hset, h.raised j]
    by_cases hj : i = j
    · subst hj
      rw [if_pos rfl, if_pos (Nat.lt_succ_self i), hscore]
    · rw [if_neg hj]
      congr 1
      exact if_congr (by omega) rfl rfl
  · rw [htotal', h.total, sum_take_succ _ _ hi, scoreAt_getElem hi]
  · have := h.selected
    rw [hpick]
    split <;> omega
  · -- a later endpoint is selected only if it is strictly greater
    intro j hj
    have hold : ∀ k < i, scoreAt (scan.scores.set i (scoreAt scan.scores i + scoreAt weights i)) k =
        scoreAt scan.scores k := by
      intro k hk
      rw [hset, if_neg (by omega)]
    have hnew : scoreAt (scan.scores.set i (scoreAt scan.scores i + scoreAt weights i)) i =
        scoreAt scan.scores i + scoreAt weights i := by rw [hset, if_pos rfl]
    have hbest : i ≠ 0 → scoreAt (scan.scores.set i (scoreAt scan.scores i + scoreAt weights i)) scan.selected =
        scoreAt scan.scores scan.selected := by
      intro hne
      have := h.selected
      exact hold _ (by omega)
    rw [hscores, hpick]
    rcases Nat.lt_succ_iff_lt_or_eq.mp hj with hlt | rfl
    · have := h.greatest j hlt
      rw [hold j hlt]
      split
      · next hbetter =>
        rw [hnew]
        rw [hbest (by omega)] at hbetter
        omega
      · rw [hbest (by omega)]
        exact this
    · split
      · exact le_rfl
      · next hnot =>
        rw [hnew]
        exact not_lt.mp hnot

theorem Scan.Passed.raiseAll {weights scores : List Int} (hsmall : Small weights scores) (left : List Int) {i}
    {scan : Scan} (hleft : weights.drop i = left) (h : scan.Passed weights scores i) :
    ∃ scan', Scan.raiseAll left i scan = some scan' ∧ scan'.Passed weights scores (i + left.length) := by
  induction left generalizing i scan with
  | nil => exact ⟨scan, rfl, h⟩
  | cons weight left ih =>
    have hi : i < weights.length := by
      by_contra hge
      rw [drop_of_length_le (by omega)] at hleft
      cases hleft
    rw [drop_eq_getElem_cons hi] at hleft
    obtain ⟨hweight, hleft⟩ := List.cons.inj hleft
    have hat : scoreAt weights i = weight := by
      rw [scoreAt_getElem hi, hweight]
    obtain ⟨scan1, h1, hpassed⟩ := h.raise hsmall hi
    obtain ⟨scan2, h2, hpassed2⟩ := ih hleft hpassed
    refine ⟨scan2, ?_, ?_⟩
    · rw [Scan.raiseAll, ← hat, h1]
      exact h2
    · rw [length_cons]
      exact (by omega : i + 1 + left.length = i + (left.length + 1)) ▸ hpassed2

/-- The weights and scores of a pool, by endpoint. -/
def Pool.weights (pool : Pool) : List Int := pool.endpoints.map Endpoint.weight

def scoresOf (values : List Int) (n : Nat) : Fin n → ℤ := fun j => scoreAt values j

theorem sum_scoresOf (values : List Int) : ∑ j, scoresOf values values.length j = values.sum := by
  have h := Fin.sum_univ_getElem values
  rw [← h]
  refine Finset.sum_congr rfl fun j _ => ?_
  exact scoreAt_getElem j.isLt

/-- **One selection** is a turn of the round-robin. -/
theorem select_turn {pool : Pool} {weights : List Int} (hpool : pool.weights = weights)
    (hsmall : Small weights pool.scores) (hsome : weights ≠ []) :
    ∃ (i : Fin weights.length) (scores : List Int), pool.select = some ({ pool with scores }, i.val) ∧
      scores.length = weights.length ∧ Turn (scoresOf weights _) (scoresOf pool.scores _) i (scoresOf scores _) := by
  have hstart : Scan.Passed weights pool.scores 0 { scores := pool.scores } :=
    ⟨rfl, fun j => by simp, by simp, by simp, fun j hj => absurd hj (Nat.not_lt_zero j)⟩
  obtain ⟨scan, hscan, h⟩ := hstart.raiseAll hsmall weights (drop_zero)
  rw [Nat.zero_add] at h
  have hpos : 0 < weights.length := length_pos_of_ne_nil hsome
  have hi : scan.selected < weights.length := by
    have := h.selected
    omega
  have hin : scan.selected < scan.scores.length := by
    rw [h.length, hsmall.length]
    exact hi
  have hraised : ∀ j : Fin weights.length, scoreAt scan.scores j =
      scoresOf pool.scores _ j + scoresOf weights _ j := by
    intro j
    rw [h.raised, if_pos j.isLt]
    rfl
  have htotal : scan.total = weights.sum := by rw [h.total, take_length]
  have hscore := hraised ⟨scan.selected, hi⟩
  have hbound := hsmall.score scan.selected
  have hweight := hsmall.weight scan.selected
  have hsum := hsmall.sum_take weights.length
  rw [take_length] at hsum
  simp only [scoresOf] at hscore
  refine ⟨⟨scan.selected, hi⟩, scan.scores.set scan.selected (scoreAt scan.scores scan.selected + -scan.total), ?_, ?_,
    fun j => ?_, fun j => ?_⟩
  · unfold Pool.select
    rw [show pool.endpoints.map Endpoint.weight = weights from hpool, hscan]
    simp only [bind, Option.bind, scoreAt_eq hin]
    rw [add64_eq (by omega)]
  · rw [length_set, h.length, hsmall.length]
  · rw [← hraised, ← hraised]
    exact h.greatest j j.isLt
  · rw [scoresOf, scoreAt_set hin, ← hraised, sum_scoresOf, htotal]
    by_cases hj : scan.selected = j
    · rw [if_pos hj, if_pos (Fin.ext hj.symm), ← hj]
      ring
    · rw [if_neg hj, if_neg fun h => hj (congrArg Fin.val h).symm, sub_zero]

/-! ## Every run of selections -/

theorem new_weights {L} {servers : List Bytes} {pool : Pool} (h : Pool.new L servers = .ok pool) :
    pool.weights.length = servers.length ∧ pool.scores = List.replicate pool.weights.length 0 ∧
      ∀ w ∈ pool.weights, 1 ≤ w ∧ w ≤ 1000 := by
  unfold Pool.new at h
  obtain ⟨endpoints, hparsed, h⟩ := bind_eq_ok.mp h
  cases h
  obtain ⟨hlength, hmem⟩ := mapM_eq_ok hparsed
  refine ⟨by simp [Pool.weights, hlength], by simp [Pool.weights], fun w hw => ?_⟩
  obtain ⟨e, he, rfl⟩ := mem_map.mp hw
  obtain ⟨line, _, hline⟩ := hmem e he
  exact parse_weight hline

theorem sum_pos_of_weights {weights : List Int} (h : ∀ w ∈ weights, 1 ≤ w ∧ w ≤ 1000) (hsome : weights ≠ []) :
    0 < weights.sum :=
  sum_pos weights (fun w hw => (h w hw).1) hsome

theorem small_of_turns {weights scores : List Int} {picked : List (Fin weights.length)} (hfew : weights.length ≤ 32)
    (hweights : ∀ w ∈ weights, 1 ≤ w ∧ w ≤ 1000) (hsome : weights ≠ []) (hlength : scores.length = weights.length)
    (h : Turns (scoresOf weights _) picked (scoresOf scores _)) : Small weights scores := by
  have hat : ∀ i, 0 ≤ scoreAt weights i ∧ scoreAt weights i ≤ 1000 := by
    intro i
    by_cases hi : i < weights.length
    · rw [scoreAt_getElem hi]
      have := hweights _ (getElem_mem hi)
      omega
    · simp [scoreAt, getD_eq_getElem?_getD, hi]
  have hpos := sum_pos_of_weights hweights hsome
  have hsum : weights.sum ≤ 32000 := by
    have := sum_le_card_nsmul _ 1000 fun w hw => (hweights w hw).2
    simp only [nsmul_eq_mul] at this
    omega
  rw [← sum_scoresOf] at hpos hsum
  refine ⟨hlength, hfew, hat, fun i => ?_⟩
  by_cases hi : i < weights.length
  · have habove := h.above hpos (fun j => (hat j).1) ⟨i, hi⟩
    have hatMost := h.atMost hpos (fun j => (hat j).1) ⟨i, hi⟩
    rw [Fintype.card_fin] at hatMost
    simp only [scoresOf] at habove hatMost hsum hpos
    have : (weights.length : ℤ) * ∑ k : Fin weights.length, scoreAt weights k ≤ 32 * 32000 :=
      mul_le_mul (by omega) hsum hpos.le (by omega)
    omega
  · simp [scoreAt, getD_eq_getElem?_getD, hlength, hi]

theorem selections_turns {pool : Pool} (hfew : pool.weights.length ≤ 32) (hweights : ∀ w ∈ pool.weights, 1 ≤ w ∧ w ≤ 1000)
    (hsome : pool.weights ≠ []) (hscores : pool.scores = List.replicate pool.weights.length 0) (n) :
    ∃ (scores : List Int) (picked : List (Fin pool.weights.length)),
      pool.selections n = some ({ pool with scores }, picked.map Fin.val) ∧ picked.length = n ∧
      scores.length = pool.weights.length ∧ Turns (scoresOf pool.weights _) picked (scoresOf scores _) := by
  induction n with
  | zero =>
    refine ⟨pool.scores, [], rfl, rfl, by simp [hscores], ?_⟩
    have hzero : scoresOf pool.scores pool.weights.length = fun _ => 0 := by
      funext j
      simp [scoresOf, scoreAt, hscores, getD_eq_getElem?_getD]
    rw [hzero]
    exact .start
  | succ n ih =>
    obtain ⟨scores, picked, hrun, hpicked, hlength, hturns⟩ := ih
    have hsmall := small_of_turns hfew hweights hsome hlength hturns
    obtain ⟨i, scores', hselect, hlength', hturn⟩ :=
      select_turn (show Pool.weights { pool with scores } = pool.weights from rfl) hsmall hsome
    refine ⟨scores', picked ++ [i], ?_, by simp [hpicked], hlength', hturns.next hturn⟩
    simp only [Pool.selections, hrun, bind, Option.bind, hselect, map_append, map_singleton]

/-- **Exact shares of the weighted mode.** However many selections a new pool has made, no addition
has overflowed, its scores sum to zero, and the score of each endpoint is what its weight brought in
less what its selections cost. After `k` times the sum of all weights each endpoint has been selected
exactly `k` times its weight, and every score is zero. -/
theorem weighted_shares {L : Parsers} {servers : List Bytes} {pool : Pool} (hnew : Pool.new L servers = .ok pool)
    (hcount : 1 ≤ servers.length ∧ servers.length ≤ 32) (n : Nat) :
    ∃ (scores : List Int) (selected : List Nat), pool.selections n = some ({ pool with scores }, selected) ∧
      selected.length = n ∧ scores.sum = 0 ∧
      (∀ (i : Nat) (weight : Int), pool.weights[i]? = some weight →
        scores[i]? = some (n * weight - pool.weights.sum * selected.count i)) ∧
      ∀ k : Nat, (n : Int) = k * pool.weights.sum → ∀ (i : Nat) (weight : Int), pool.weights[i]? = some weight →
        (selected.count i : Int) = k * weight ∧ scores[i]? = some 0 := by
  obtain ⟨hservers, hscores, hweights⟩ := new_weights hnew
  have hsome : pool.weights ≠ [] := ne_nil_of_length_pos (by omega)
  obtain ⟨scores, picked, hrun, hpicked, hlength, hturns⟩ :=
    selections_turns (by omega) hweights hsome hscores n
  have hpos : 0 < ∑ j, scoresOf pool.weights pool.weights.length j := by
    rw [sum_scoresOf]
    exact sum_pos_of_weights hweights hsome
  have hat : ∀ {i : Nat} {weight : Int}, pool.weights[i]? = some weight → ∃ hi : i < pool.weights.length,
      scoresOf pool.weights _ ⟨i, hi⟩ = weight ∧ scores[i]? = some (scoresOf scores _ ⟨i, hi⟩) ∧
      (picked.map Fin.val).count i = picked.count ⟨i, hi⟩ := by
    intro i weight h
    obtain ⟨hi, rfl⟩ := List.getElem?_eq_some_iff.mp h
    refine ⟨hi, scoreAt_getElem hi, scoreAt_eq (hlength.symm ▸ hi), ?_⟩
    exact count_map_of_injective picked Fin.val Fin.val_injective ⟨i, hi⟩
  refine ⟨scores, picked.map Fin.val, hrun, by simp [hpicked], ?_, fun i weight h => ?_, fun k hn i weight h => ?_⟩
  · have hsum := hturns.sum
    rw [← hlength, sum_scoresOf] at hsum
    exact hsum
  · obtain ⟨hi, hw, hs, hc⟩ := hat h
    rw [hs, hturns.score, hw, hc, hpicked, sum_scoresOf]
  · obtain ⟨hi, hw, hs, hc⟩ := hat h
    rw [← sum_scoresOf, ← hpicked] at hn
    have hnonneg : ∀ j : Fin pool.weights.length, 0 ≤ scoresOf pool.weights _ j := by
      intro j
      have := hweights _ (getElem_mem j.isLt)
      rw [scoresOf, scoreAt_getElem j.isLt]
      omega
    obtain ⟨hcount, hzero⟩ := hturns.shares hpos hnonneg hn ⟨i, hi⟩
    rw [hs, hc, hcount, hw, hzero]
    exact ⟨rfl, rfl⟩

/-- Authorities that are a host, and any path. -/
def sampleParsers : Parsers where
  authority text := .ok ⟨text, false, none⟩
  pathAndQuery _ := .ok ()

/-- An endpoint of weight 3 and one of weight 1: four selections. -/
theorem weighted_shares_sample : ∃ pool scores selected,
    Pool.new sampleParsers [ascii "1.1.1.1 weight=3", ascii "tcp://9.9.9.9"] = .ok pool ∧ pool.weights = [3, 1] ∧
      pool.selections 4 = some ({ pool with scores }, selected) ∧ selected.count 0 = 3 ∧ selected.count 1 = 1 := by
  have hshape : (Pool.new sampleParsers [ascii "1.1.1.1 weight=3", ascii "tcp://9.9.9.9"]).toOption.map Pool.weights =
      some [3, 1] := by decide +kernel
  obtain ⟨pool, hnew, hweights⟩ := exists_ok_of_map hshape
  obtain ⟨scores, selected, hrun, _, _, _, hshares⟩ := weighted_shares hnew (by decide) 4
  have hfirst := (hshares 1 (by rw [hweights]; rfl) 0 3 (by rw [hweights]; rfl)).1
  have hsecond := (hshares 1 (by rw [hweights]; rfl) 1 1 (by rw [hweights]; rfl)).1
  exact ⟨pool, scores, selected, hnew, hweights, hrun, by omega, by omega⟩

end Parins.Upstreams
