/-
Configuration documents: what a document is parsed to, and the two comparisons
of documents that decide how a change is applied. TOML and serde belong to other
crates; each section is decoded by a function of its own value.
-/
import Mathlib.Data.List.Basic
import Parins.Dns.Name

namespace Parins.Manage

abbrev Text := Bytes

/-- The errors of the management plane. A request whose connection ends is dropped at its next await. -/
inductive Error
  | message (text : Text)
  /-- A `Failure` of the filter service. -/
  | failure (code : Text)
  | api (status : Nat) (code message : Text)
  | context (text : Text) (cause : Error)
  | panicked
  | dropped
deriving DecidableEq

/-- `format!("{error:#}")`. -/
def Error.text : Error → Text
  | .message text => text
  | .failure code => code
  | .api _ _ text => text
  | .context text cause => text ++ ascii ": " ++ cause.text
  | .panicked => ascii "task panicked"
  | .dropped => []

/-- `ensure!` with its message. -/
def ensure (cond : Bool) (text : String) : Except Error Unit := if cond then .ok () else .error (.message (ascii text))

/-- A TOML document: its keys in order, each with its value in canonical form. No field of a
configuration is a float, so equal values have equal forms wherever a document can be saved. -/
abbrev Table := List (Text × Text)

def Table.remove (t : Table) (keys : List Text) : Table := t.filter fun entry => entry.1 ∉ keys

structure UpdatesConfig where
  autoCheck : Bool
  checkIntervalHours : Nat
deriving DecidableEq

structure CachePersistenceConfig where
  enabled : Bool
  maxBytes : Nat
deriving DecidableEq

/-- `value` is the rest of the section as `serde_json::to_value` gives it. -/
structure CacheConfig where
  persistence : CachePersistenceConfig
  value : Text
deriving DecidableEq

abbrev SourceId := { id : Text // id.length ≤ 32 }

/-- A SHA-256 in hexadecimal. -/
abbrev Hex := { text : Text // text.length = 64 }

/-- A block method by its label. -/
abbrev Method := { label : Text // 0 ∉ label }

/-- A validated source, with the fingerprint of its identity. -/
structure SourceSettings where
  id : SourceId
  fingerprint : Hex
  enabled : Bool
  autoUpdate : Bool
  updateIntervalHours : Nat
  response : Option Method
deriving DecidableEq

structure FilterSettings where
  enabled : Bool := true
  maxRules : Nat := 1000000
  maxMemoryBytes : Nat := 128 * 1024 * 1024
  maxDiskBytes : Nat := 256 * 1024 * 1024
  sources : List SourceSettings := []
deriving DecidableEq

def FilterSettings.effective (s : FilterSettings) : List SourceSettings :=
  s.sources.filter fun source => s.enabled && source.enabled

def FilterSettings.fingerprints (s : FilterSettings) : List Text := s.sources.map (·.fingerprint.val)

/-- The settings that the storage worker reads. -/
structure RuntimeSettings where
  storage : Text
  queryLog : Text
  statistics : Text
  cacheSnapshotMaxBytes : Nat
deriving DecidableEq

/-- Local rules: their settings and lines as `LocalRules::new` hashes them, each with its length. -/
abbrev Rules := Text

inductive LocalPolicySource
  | inline (rules : Rules)
  | file (path : Text)
deriving DecidableEq

/-- The sections that the manager or an owner that outlives DNS reads; `rest` is what the server
takes of the others. -/
structure Config where
  updates : UpdatesConfig
  cache : CacheConfig
  filter : Rules
  filterFile : Option Text
  filterSubscriptions : FilterSettings
  storage : Text
  queryLog : Text
  statistics : Text
  doh : Option Text
  web : Option Text
  rest : Text
deriving DecidableEq

def RuntimeSettings.fromConfig (c : Config) : RuntimeSettings :=
  ⟨c.storage, c.queryLog, c.statistics, c.cache.persistence.maxBytes⟩

def Config.localPolicySource (c : Config) : LocalPolicySource :=
  match c.filterFile with
  | some path => .file path
  | none => .inline c.filter

/-- What other crates and the sections' own types do: parsing TOML, decoding each section from its
value, the checks of `Config::validate`, and the canonical form of a host name. -/
structure Library where
  document : Text → Except Error Table
  updates : Option Text → Except Error UpdatesConfig
  cache : Option Text → Except Error CacheConfig
  filter : Option Text → Except Error Rules
  filterFile : Option Text → Except Error (Option Text)
  filterSubscriptions : Option Text → Except Error FilterSettings
  storage : Option Text → Except Error Text
  queryLog : Option Text → Except Error Text
  statistics : Option Text → Except Error Text
  doh : Option Text → Except Error (Option Text)
  web : Option Text → Except Error (Option Text)
  rest : Table → Except Error Text
  validate : Config → Except Error Unit
  publicHost : Text → Except Error Text
  /-- What serde gives for an absent `[storage]`, `[query_log]` and `[statistics]`. -/
  defaults : RuntimeSettings

/-- The keys of the sections that have a field of `Config` of their own. -/
def SECTIONS : List Text :=
  [ascii "updates", ascii "cache", ascii "filter", ascii "filter_file", ascii "filter_subscriptions", ascii "storage",
   ascii "query_log", ascii "statistics", ascii "doh", ascii "web"]

namespace Library

variable (lib : Library)

/-- `toml::from_str::<Config>`. -/
def decode (t : Table) : Except Error Config := do
  let updates ← lib.updates (t.lookup (ascii "updates"))
  let cache ← lib.cache (t.lookup (ascii "cache"))
  let filter ← lib.filter (t.lookup (ascii "filter"))
  let filterFile ← lib.filterFile (t.lookup (ascii "filter_file"))
  let filterSubscriptions ← lib.filterSubscriptions (t.lookup (ascii "filter_subscriptions"))
  let storage ← lib.storage (t.lookup (ascii "storage"))
  let queryLog ← lib.queryLog (t.lookup (ascii "query_log"))
  let statistics ← lib.statistics (t.lookup (ascii "statistics"))
  let doh ← lib.doh (t.lookup (ascii "doh"))
  let web ← lib.web (t.lookup (ascii "web"))
  let rest ← lib.rest (t.remove SECTIONS)
  return { updates, cache, filter, filterFile, filterSubscriptions, storage, queryLog, statistics, doh, web, rest }

/-- `Config::parse_in` in the state directory. -/
def parse (text : Text) : Except Error Config := do
  let t ← lib.document text
  let config ← lib.decode t
  lib.validate config
  return config

end Library

def MAX_CONFIG : Nat := 256 * 1024

/-- A document without its updates, as `updates_only` compares it. -/
def Library.stripped (lib : Library) (text : Text) : Except Error Table :=
  (lib.document text).map fun t => t.remove [ascii "updates"]

/-- The keys that `cache_only_change` leaves out of its comparison. -/
def HOT : List Text :=
  [ascii "storage", ascii "query_log", ascii "statistics", ascii "updates", ascii "filter", ascii "filter_file",
   ascii "filter_subscriptions", ascii "cache"]

/-! ### What equal documents parse to -/

variable {keys : List Text} {t : Table} {key : Text}

theorem lookup_remove (h : key ∉ keys) : (t.remove keys).lookup key = t.lookup key := by
  induction t with
  | nil => rfl
  | cons entry t ih =>
    obtain ⟨k, v⟩ := entry
    unfold Table.remove at ih ⊢
    by_cases hk : k ∈ keys
    · have hne : (key == k) = false := by
        rw [beq_eq_false_iff_ne]
        intro heq
        exact h (heq ▸ hk)
      rw [List.filter_cons_of_neg (by simpa using hk), ih, List.lookup_cons, hne]
    · rw [List.filter_cons_of_pos (by simpa using hk), List.lookup_cons, List.lookup_cons, ih]

variable {keys' : List Text}

theorem remove_remove (h : ∀ k ∈ keys, k ∈ keys') : (t.remove keys).remove keys' = t.remove keys' := by
  unfold Table.remove
  rw [List.filter_filter]
  refine List.filter_congr fun entry _ => ?_
  by_cases hk : entry.1 ∈ keys'
  · simp [hk]
  · have hk' : entry.1 ∉ keys := fun hmem => hk (h _ hmem)
    simp [hk, hk']

variable {t' : Table}

theorem lookup_of_remove_eq (heq : t.remove keys = t'.remove keys)
    (h : key ∉ keys) : t.lookup key = t'.lookup key := by
  rw [← lookup_remove h, heq, lookup_remove h]

theorem remove_of_remove_eq (heq : t.remove keys = t'.remove keys)
    (h : ∀ k ∈ keys, k ∈ keys') : t.remove keys' = t'.remove keys' := by
  rw [← remove_remove h, heq, remove_remove h]

namespace Library

variable {lib : Library} {t t' : Table} {config config' : Config} {text text' : Text}

/-- Every section of what a document decodes to. -/
structure Decodes (lib : Library) (t : Table) (config : Config) : Prop where
  updates : lib.updates (t.lookup (ascii "updates")) = .ok config.updates
  cache : lib.cache (t.lookup (ascii "cache")) = .ok config.cache
  filter : lib.filter (t.lookup (ascii "filter")) = .ok config.filter
  filterFile : lib.filterFile (t.lookup (ascii "filter_file")) = .ok config.filterFile
  filterSubscriptions : lib.filterSubscriptions (t.lookup (ascii "filter_subscriptions")) = .ok config.filterSubscriptions
  storage : lib.storage (t.lookup (ascii "storage")) = .ok config.storage
  queryLog : lib.queryLog (t.lookup (ascii "query_log")) = .ok config.queryLog
  statistics : lib.statistics (t.lookup (ascii "statistics")) = .ok config.statistics
  doh : lib.doh (t.lookup (ascii "doh")) = .ok config.doh
  web : lib.web (t.lookup (ascii "web")) = .ok config.web
  rest : lib.rest (t.remove SECTIONS) = .ok config.rest

theorem decode_ok (h : lib.decode t = .ok config) : Decodes lib t config := by
  simp only [decode, bind, Except.bind] at h
  repeat' split at h
  all_goals first
    | cases h; constructor <;> assumption
    | cases h

theorem parse_ok (h : lib.parse text = .ok config) : ∃ t, lib.document text = .ok t ∧ Decodes lib t config := by
  simp only [parse, bind, Except.bind] at h
  split at h
  · cases h
  · rename_i t ht
    split at h
    · cases h
    · rename_i c hc
      split at h
      · cases h
      · cases h
        exact ⟨t, ht, decode_ok hc⟩

theorem Decodes.updates_only (h : Decodes lib t config) (h' : Decodes lib t' config')
    (heq : t.remove [ascii "updates"] = t'.remove [ascii "updates"]) :
    config' = { config with updates := config'.updates } := by
  have same : ∀ key ∉ [ascii "updates"], t.lookup key = t'.lookup key := fun _ => lookup_of_remove_eq heq
  have rest : t.remove SECTIONS = t'.remove SECTIONS := remove_of_remove_eq heq (by decide +kernel)
  obtain ⟨-, h1, h2, h3, h4, h5, h6, h7, h8, h9, h10⟩ := h
  obtain ⟨-, h1', h2', h3', h4', h5', h6', h7', h8', h9', h10'⟩ := h'
  rw [← same _ (by decide +kernel)] at h1' h2' h3' h4' h5' h6' h7' h8' h9'
  rw [← rest] at h10'
  cases config
  cases config'
  simp_all

theorem Decodes.hot (h : Decodes lib t config) (h' : Decodes lib t' config') (heq : t.remove HOT = t'.remove HOT) :
    config'.doh = config.doh ∧ config'.web = config.web := by
  have same : ∀ key ∉ HOT, t.lookup key = t'.lookup key := fun _ => lookup_of_remove_eq heq
  have hdoh := h'.doh
  have hweb := h'.web
  rw [← same _ (by decide +kernel), h.doh] at hdoh
  rw [← same _ (by decide +kernel), h.web] at hweb
  exact ⟨(Except.ok.inj hdoh).symm, (Except.ok.inj hweb).symm⟩

end Library

end Parins.Manage
