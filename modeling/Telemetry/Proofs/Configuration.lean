import Telemetry.Agent.Config
import Telemetry.Collector.Config
import Telemetry.Proofs.Layers
import Telemetry.Proofs.Outcome
import Telemetry.Proofs.Cuts

/-! What configuration a program starts with, and why it does not start. The file it is to read is
looked at first, then the port of the address, then the variables, all of their problems together;
what is left follows the layers, setting by setting (`Config.layered`). Both programs go through the
same steps (`Exact`). -/

namespace Telemetry

/-- Of these variables, those that are set at all have a text. -/
def Environment.Legible (env : Environment) (names : List String) : Prop :=
  ∀ name ∈ names, env.isSet name → (env.lookup? name).isSome

instance (env : Environment) (names : List String) : Decidable (env.Legible names) :=
  inferInstanceAs (Decidable (∀ name ∈ names, env.isSet name → (env.lookup? name).isSome))

namespace Settings

/-- The two parts of a text around its only colon, both of them there. -/
structure HostPort (raw : String) (host port : List Char) : Prop where
  text : raw.toList = host ++ ':' :: port
  single : ':' ∉ host ∧ ':' ∉ port
  there : host ≠ [] ∧ port ≠ []

def BadPort (raw : String) : Prop :=
  ∃ host port, HostPort raw host port ∧ Text.unsigned? (2 ^ 16) port = none

/-- The address that a text stands for: itself if it has both parts, or else the default one. -/
inductive Normal (raw : String) : String → Prop
  | whole {host port : List Char} (h : HostPort raw host port) : Normal raw raw
  | standard (h : ∀ host port, ¬HostPort raw host port) : Normal raw defaultAddress

theorem hostPort_iff {raw : String} {host port : List Char} :
    HostPort raw host port ↔
      Text.splitOn ':' raw.toList = [host, port] ∧ host ≠ [] ∧ port ≠ [] := by
  rw [Text.splitOn_eq_pair_iff]
  constructor
  · rintro ⟨text, single, there⟩
    exact ⟨⟨text, single⟩, there⟩
  · rintro ⟨⟨text, single⟩, there⟩
    exact ⟨text, single, there⟩

theorem normalizeAddress_of_hostPort {raw : String} {host port : List Char}
    (h : HostPort raw host port) :
    normalizeAddress raw =
      match Text.unsigned? (2 ^ 16) port with
      | some _ => .ok raw
      | none => .error (.invalidPort raw) := by
  obtain ⟨hsplit, hhost, hport⟩ := hostPort_iff.1 h
  unfold normalizeAddress
  rw [hsplit]
  cases host with
  | nil => exact absurd rfl hhost
  | cons _ _ =>
    cases port with
    | nil => exact absurd rfl hport
    | cons _ _ => rfl

theorem normalizeAddress_of_not_hostPort {raw : String}
    (h : ∀ host port, ¬HostPort raw host port) : normalizeAddress raw = .ok defaultAddress := by
  unfold normalizeAddress
  split
  · next hsplit => exact absurd (hostPort_iff.2 ⟨hsplit, by simp, by simp⟩) (h _ _)
  · rfl

theorem normalizeAddress_eq_error_iff {raw : String} {e : Error} :
    normalizeAddress raw = .error e ↔ BadPort raw ∧ e = .invalidPort raw := by
  by_cases h : ∃ host port, HostPort raw host port
  · obtain ⟨host, port, h⟩ := h
    have bad : BadPort raw ↔ Text.unsigned? (2 ^ 16) port = none := by
      refine ⟨fun ⟨host', port', h', hbad⟩ => ?_, fun hbad => ⟨host, port, h, hbad⟩⟩
      have same := (hostPort_iff.1 h).1.symm.trans (hostPort_iff.1 h').1
      simp only [List.cons.injEq, and_true] at same
      rwa [same.2]
    rw [normalizeAddress_of_hostPort h, bad]
    cases Text.unsigned? (2 ^ 16) port <;> simp [eq_comm]
  · have none : ∀ host port, ¬HostPort raw host port := fun host port h' => h ⟨host, port, h'⟩
    rw [normalizeAddress_of_not_hostPort none]
    refine ⟨fun h' => (nomatch h'), ?_⟩
    rintro ⟨⟨host, port, h', -⟩, -⟩
    exact absurd h' (none host port)

theorem normalizeAddress_eq_ok_iff {raw v : String} :
    normalizeAddress raw = .ok v ↔ ¬BadPort raw ∧ Normal raw v := by
  by_cases hbad : BadPort raw
  · rw [normalizeAddress_eq_error_iff.2 ⟨hbad, rfl⟩]
    simp [hbad]
  · simp only [hbad, not_false_eq_true, true_and]
    by_cases h : ∃ host port, HostPort raw host port
    · obtain ⟨host, port, h⟩ := h
      obtain ⟨n, hn⟩ : ∃ n, Text.unsigned? (2 ^ 16) port = some n :=
        Option.ne_none_iff_exists'.1 fun hn => hbad ⟨host, port, h, hn⟩
      rw [normalizeAddress_of_hostPort h, hn]
      constructor
      · rintro ⟨⟩
        exact .whole h
      · rintro (h' | h')
        · rfl
        · exact absurd h (h' host port)
    · have none : ∀ host port, ¬HostPort raw host port := fun host port h' => h ⟨host, port, h'⟩
      rw [normalizeAddress_of_not_hostPort none]
      constructor
      · rintro ⟨⟩
        exact .standard none
      · rintro (h' | h')
        · exact absurd h' (none _ _)
        · rfl

/-- The file that the variable names, no file if the variable is empty, or else that of the flag. -/
def selected (env : Environment) (flag : Option String) : Option String :=
  match env.lookup? "CONFIG" with
  | some path => if path = "" then none else some path
  | none => flag

theorem filePath_eq_selected (env : Environment) (flag : Option String) :
    filePath env flag = selected env flag := by
  unfold filePath Environment.optionalString Environment.read selected
  cases env.lookup? "CONFIG" with
  | none => rfl
  | some path => simp [Sourced.ofVariable]

section

variable {φ γ : Type} (d : Directory) (ofJson? : Json → Option φ) (absent : φ)

def Unreadable (path : String) : Prop := ∀ content, d.entry path ≠ .file content

def Malformed (path : String) : Prop :=
  ∃ content, d.entry path = .file content ∧
    ∀ json, Json.parse? (Bytes.toList content) = some json → ofJson? json = none

/-- What the file says, or what no file stands for. -/
inductive Says : Option String → φ → Prop
  | absent : Says none absent
  | file {path : String} {content : ByteArray} {json : Json} {file : φ}
    (hread : d.entry path = .file content)
    (hjson : Json.parse? (Bytes.toList content) = some json) (hfile : ofJson? json = some file) :
    Says (some path) file

variable {d ofJson? absent}

theorem loadFile_eq_ok_iff {path? : Option String} {file : φ} :
    loadFile d ofJson? absent path? = .ok file ↔ Says d ofJson? absent path? file := by
  constructor
  · intro h
    cases path? with
    | none =>
      obtain rfl := Except.ok.inj h
      exact .absent
    | some path =>
      simp only [loadFile] at h
      split at h
      · next content hread =>
        split at h
        · next file' hparse =>
          obtain rfl := Except.ok.inj h
          obtain ⟨json, hjson, hfile⟩ := Option.bind_eq_some_iff.1 hparse
          exact .file hread hjson hfile
        · cases h
      · cases h
  · rintro (_ | ⟨hread, hjson, hfile⟩)
    · rfl
    · simp only [loadFile, hread, hjson, Option.bind_some, hfile]

theorem loadFile_eq_error_iff {path? : Option String} {e : Error} :
    loadFile d ofJson? absent path? = .error e ↔ ∃ path, path? = some path ∧
      (e = .unreadable path ∧ Unreadable d path ∨
        e = .malformed path ∧ Malformed d ofJson? path) := by
  cases path? with
  | none => simp [loadFile]
  | some path =>
    simp only [loadFile, Option.some.injEq, exists_eq_left']
    split
    · next content hread =>
      have readable : ¬Unreadable d path := fun h => h content hread
      have malformed : Malformed d ofJson? path ↔
          (Json.parse? (Bytes.toList content)).bind ofJson? = none := by
        simp only [Malformed, hread, Directory.Entry.file.injEq, exists_eq_left',
          Option.bind_eq_none_iff]
      cases hparse : (Json.parse? (Bytes.toList content)).bind ofJson? with
      | none => simp [readable, malformed, hparse, eq_comm]
      | some file => simp [readable, malformed, hparse]
    · next hread =>
      have unreadable : Unreadable d path := hread
      have wellFormed : ¬Malformed d ofJson? path := fun ⟨content, h, _⟩ => hread content h
      simp [unreadable, wellFormed, eq_comm]

/-- The steps in which a program comes by its configuration: `make` is what it makes of a file and
an address that stands for the winning one, unless there are `problems`. Each step is settled if the
variables that are looked at up to then are `legible`, all of those `read` at the end. -/
structure Exact (legible : List String → Prop) (read : List String) (d : Directory)
    (ofJson? : Json → Option φ) (absent : φ) (path? : Option String) (winner : φ → String)
    (problems : List Environment.Problem) (make : φ → String → γ) (result : Except Error γ) :
    Prop where
  unreadable (h : legible ["CONFIG"]) (path : String) :
    result = .error (.unreadable path) ↔ path? = some path ∧ Unreadable d path
  malformed (h : legible ["CONFIG"]) (path : String) :
    result = .error (.malformed path) ↔ path? = some path ∧ Malformed d ofJson? path
  invalidPort (h : legible ["CONFIG", "ADDRESS"]) (raw : String) :
    result = .error (.invalidPort raw) ↔
      ∃ file, Says d ofJson? absent path? file ∧ BadPort (winner file) ∧ raw = winner file
  environment (h : legible ("CONFIG" :: read)) (ps : List Environment.Problem) :
    result = .error (.environment ps) ↔
      ∃ file, Says d ofJson? absent path? file ∧ ¬BadPort (winner file) ∧ problems ≠ [] ∧
        ps = problems
  ok (h : legible ("CONFIG" :: read)) (c : γ) :
    result = .ok c ↔
      ∃ file v, Says d ofJson? absent path? file ∧ ¬BadPort (winner file) ∧ problems = [] ∧
        Normal (winner file) v ∧ c = make file v

theorem checkProblems_eq (found : List (Option Environment.Problem)) :
    checkProblems found =
      if found.filterMap id = [] then .ok () else .error (.environment (found.filterMap id)) := by
  unfold checkProblems
  cases found.filterMap id <;> simp

theorem exact_of_steps (legible : List String → Prop) {read : List String}
    {path? : Option String} {winner : φ → String}
    {problems : List Environment.Problem} {found : List (Option Environment.Problem)}
    {make : φ → String → γ} {resolveWith : φ → Except Error γ}
    (hsteps : ∀ file, resolveWith file = do
      let v ← normalizeAddress (winner file)
      checkProblems found
      .ok (make file v))
    (hfound : found.filterMap id = problems) :
    Exact legible read d ofJson? absent path? winner problems make
      (loadFile d ofJson? absent path? >>= resolveWith) := by
  have hok (file : φ) (c : γ) : resolveWith file = .ok c ↔
      ∃ v, ¬BadPort (winner file) ∧ problems = [] ∧ Normal (winner file) v ∧ c = make file v := by
    rw [hsteps, checkProblems_eq, hfound]
    simp only [bind_eq_ok_iff, normalizeAddress_eq_ok_iff]
    by_cases hp : problems = [] <;> simp [hp, and_assoc, eq_comm]
  have herror (file : φ) (e : Error) : resolveWith file = .error e ↔
      BadPort (winner file) ∧ e = .invalidPort (winner file) ∨
        ¬BadPort (winner file) ∧ problems ≠ [] ∧ e = .environment problems := by
    rw [hsteps, bind_eq_error_iff, normalizeAddress_eq_error_iff, checkProblems_eq, hfound]
    by_cases hbad : BadPort (winner file)
    · simp [hbad, normalizeAddress_eq_ok_iff]
    · obtain ⟨v, hv⟩ : ∃ v, normalizeAddress (winner file) = .ok v := by
        cases h : normalizeAddress (winner file) with
        | ok v => exact ⟨v, rfl⟩
        | error e => exact absurd (normalizeAddress_eq_error_iff.1 h).1 hbad
      by_cases hp : problems = []
      · simp [hbad, hp, bind, Except.bind]
      · simp [hbad, hv, hp, bind, Except.bind, eq_comm]
  have hresult (e : Error) : loadFile d ofJson? absent path? >>= resolveWith = .error e ↔
      (∃ path, path? = some path ∧ (e = .unreadable path ∧ Unreadable d path ∨
        e = .malformed path ∧ Malformed d ofJson? path)) ∨
      ∃ file, Says d ofJson? absent path? file ∧
        (BadPort (winner file) ∧ e = .invalidPort (winner file) ∨
          ¬BadPort (winner file) ∧ problems ≠ [] ∧ e = .environment problems) := by
    rw [bind_eq_error_iff, loadFile_eq_error_iff]
    simp only [loadFile_eq_ok_iff, herror]
  constructor
  case unreadable => simp [hresult]
  case malformed => simp [hresult]
  case invalidPort => simp [hresult]
  case environment => simp [hresult]
  case ok =>
    intro _ c
    simp only [bind_eq_ok_iff, loadFile_eq_ok_iff, hok, exists_and_left]

end

def addressLayers (file flag : Option String) (env : Environment) : Layers String :=
  ⟨defaultAddress, file, flag, env.held "ADDRESS" some⟩

end Settings

/-- The highest layer of an interval, or the default one if that is zero. -/
def Layers.unlessZero (l : Layers Duration) : Sourced Duration :=
  if l.highest.value = .zero then .default l.standard else l.highest

namespace Agent

open Environment (clearing count?)
open Settings (addressLayers)

def variableForms : List (String × Environment.Form) :=
  [("ADDRESS", .text), ("POLL_INTERVAL", .duration), ("REPORT_INTERVAL", .duration),
   ("KEY", .text), ("RATE_LIMIT", .count 1 maxRateLimit), ("CRYPTO_KEY", .text)]

/-- The configuration in which every setting follows its layers. A rate limit of zero in the file
counts as not given. -/
def Config.layered (o : Options) (env : Environment) (file : FileOptions) (address : String) :
    Config where
  address := { (addressLayers file.address o.address env).highest with value := address }
  pollInterval := Layers.unlessZero ⟨defaultPollInterval, file.pollInterval, o.pollInterval,
    env.held "POLL_INTERVAL" Duration.parse?⟩
  reportInterval := Layers.unlessZero ⟨defaultReportInterval, file.reportInterval,
    o.reportInterval, env.held "REPORT_INTERVAL" Duration.parse?⟩
  key := Layers.highest ⟨none, none, o.key.map some, env.held "KEY" clearing⟩
  rateLimit := Layers.highest ⟨defaultRateLimit, file.rateLimit.filter (0 < ·), o.rateLimit,
    env.held "RATE_LIMIT" (count? 1 maxRateLimit)⟩
  cryptoKey := Layers.highest ⟨none, file.cryptoKey.map some, o.cryptoKey.map some,
    env.held "CRYPTO_KEY" clearing⟩
  clientTimeout := Agent.clientTimeout
  retry := .standard

theorem interval_highest (l : Layers Duration) : interval l.standard l.highest = l.unlessZero := by
  have zero : l.highest.value.isZero = true ↔ l.highest.value = .zero := by
    rw [Duration.isZero, beq_iff_eq]
    exact ⟨fun h => congrArg Duration.mk h, fun h => congrArg Duration.nanos h⟩
  simp only [interval, Layers.unlessZero, zero]

theorem Config.exact_resolve (legible : List String → Prop) (d : Directory) (o : Options)
    (env : Environment) :
    Settings.Exact legible (variableForms.map Prod.fst) d FileOptions.ofJson? {}
      (Settings.selected env o.config)
      (fun file => (addressLayers file.address o.address env).highest.value)
      (env.problems variableForms) (Config.layered o env) (resolve d o env) := by
  rw [← Settings.filePath_eq_selected]
  refine Settings.exact_of_steps legible (fun file => ?_)
    (List.filterMap_map (f := fun v => env.problem? v.1 v.2) (l := variableForms))
  have address := env.comes_string "ADDRESS" Settings.defaultAddress file.address o.address
  have poll := env.comes_duration "POLL_INTERVAL" defaultPollInterval file.pollInterval
    o.pollInterval
  have report := env.comes_duration "REPORT_INTERVAL" defaultReportInterval file.reportInterval
    o.reportInterval
  have key := env.comes_optionalString "KEY" none none (o.key.map some)
  have rate := env.comes_word64 "RATE_LIMIT" 1 maxRateLimit defaultRateLimit
    (file.rateLimit.filter (0 < ·)) o.rateLimit
  have crypto := env.comes_optionalString "CRYPTO_KEY" none (file.cryptoKey.map some)
    (o.cryptoKey.map some)
  simp only [resolveWith, Config.layered, address.value, address.problem, poll.value, poll.problem,
    report.value, report.problem, key.value, key.problem, rate.value, rate.problem, crypto.value,
    crypto.problem, ← interval_highest]
  rfl

end Agent

namespace Collector

open Environment (clearing truth?)
open Settings (addressLayers)

def variableForms : List (String × Environment.Form) :=
  [("ADDRESS", .text), ("STORE_INTERVAL", .duration), ("FILE_STORAGE_PATH", .text),
   ("RESTORE", .truth), ("DATABASE_DSN", .text), ("KEY", .text), ("CRYPTO_KEY", .text)]

def unlessBlank (s : Option String) : Option String :=
  s.filter fun t => !t.toList.all Text.isBlank

/-- The configuration in which every setting follows its layers. -/
def Config.layered (o : Options) (env : Environment) (file : FileOptions) (address : String) :
    Config where
  address := { (addressLayers file.address o.address env).highest with value := address }
  storeInterval := Layers.highest ⟨defaultStoreInterval, file.storeInterval, o.storeInterval,
    env.held "STORE_INTERVAL" Duration.parse?⟩
  storeFile := (Layers.highest ⟨some defaultStoreFile, file.storeFile.map some,
    o.storeFile.map some, env.held "FILE_STORAGE_PATH" clearing⟩).map (·.getD defaultStoreFile)
  restore := Layers.highest ⟨true, file.restore, o.restore, env.held "RESTORE" truth?⟩
  databaseDsn := (Layers.highest ⟨none, file.databaseDsn.map some, o.databaseDsn.map some,
    env.held "DATABASE_DSN" clearing⟩).map unlessBlank
  key := Layers.highest ⟨none, none, o.key.map some, env.held "KEY" clearing⟩
  cryptoKey := Layers.highest ⟨none, file.cryptoKey.map some, o.cryptoKey.map some,
    env.held "CRYPTO_KEY" clearing⟩

theorem substantial_eq_unlessBlank : substantial = unlessBlank := by
  funext s
  refine congrArg (s.filter ·) (funext fun t => ?_)
  rw [Bool.eq_iff_iff, decide_eq_true_eq, ne_eq, Text.trim_eq_nil_iff, Bool.not_eq_true',
    List.all_eq_false]
  simp

theorem Config.exact_resolve (legible : List String → Prop) (d : Directory) (o : Options)
    (env : Environment) :
    Settings.Exact legible (variableForms.map Prod.fst) d FileOptions.ofJson? {}
      (Settings.selected env o.config)
      (fun file => (addressLayers file.address o.address env).highest.value)
      (env.problems variableForms) (Config.layered o env) (resolve d o env) := by
  rw [← Settings.filePath_eq_selected]
  refine Settings.exact_of_steps legible (fun file => ?_)
    (List.filterMap_map (f := fun v => env.problem? v.1 v.2) (l := variableForms))
  have address := env.comes_string "ADDRESS" Settings.defaultAddress file.address o.address
  have interval := env.comes_duration "STORE_INTERVAL" defaultStoreInterval file.storeInterval
    o.storeInterval
  have storeFile := env.comes_optionalString "FILE_STORAGE_PATH" (some defaultStoreFile)
    (file.storeFile.map some) (o.storeFile.map some)
  have restore := env.comes_bool "RESTORE" true file.restore o.restore
  have dsn := env.comes_optionalString "DATABASE_DSN" none (file.databaseDsn.map some)
    (o.databaseDsn.map some)
  have key := env.comes_optionalString "KEY" none none (o.key.map some)
  have crypto := env.comes_optionalString "CRYPTO_KEY" none (file.cryptoKey.map some)
    (o.cryptoKey.map some)
  simp only [resolveWith, Config.layered, address.value, address.problem, interval.value,
    interval.problem, storeFile.value, storeFile.problem, restore.value, restore.problem, dsn.value,
    dsn.problem, key.value, key.problem, crypto.value, crypto.problem, substantial_eq_unlessBlank]
  rfl

end Collector

namespace Settings

/-- What is wrong is told in one order, file, address and then all variables, by both programs; if
nothing is wrong, every setting follows its layers. A variable whose bytes are no text leaves open
whatever comes behind the look at it. -/
theorem configurations_follow_layers (d : Directory) (env : Environment) :
    (∀ o : Agent.Options,
      Exact env.Legible (Agent.variableForms.map Prod.fst) d Agent.FileOptions.ofJson? {}
        (selected env o.config) (fun file => (addressLayers file.address o.address env).highest.value)
        (env.problems Agent.variableForms) (Agent.Config.layered o env)
        (Agent.Config.resolve d o env)) ∧
    ∀ o : Collector.Options,
      Exact env.Legible (Collector.variableForms.map Prod.fst) d Collector.FileOptions.ofJson? {}
        (selected env o.config) (fun file => (addressLayers file.address o.address env).highest.value)
        (env.problems Collector.variableForms) (Collector.Config.layered o env)
        (Collector.Config.resolve d o env) :=
  ⟨fun o => Agent.Config.exact_resolve _ d o env, fun o => Collector.Config.exact_resolve _ d o env⟩

/-- Two variables that are read and one that is not. -/
theorem bad_variables_are_told_together :
    let env : Environment :=
      ⟨[("RATE_LIMIT", some "0"), ("POLL_INTERVAL", some "fast"), ("LANG", none)], ""⟩
    env.Legible ("CONFIG" :: Agent.variableForms.map Prod.fst) ∧
      Agent.Config.resolve ⟨[], []⟩ {} env = .error (.environment
        [.invalidDuration "POLL_INTERVAL" "fast", .outOfRange "RATE_LIMIT" 0 1 1024]) := by
  intro env
  have legible : env.Legible ("CONFIG" :: Agent.variableForms.map Prod.fst) := by decide
  have steps := (configurations_follow_layers ⟨[], []⟩ env).1 {}
  have good : ¬BadPort defaultAddress :=
    (normalizeAddress_eq_ok_iff.1 (show normalizeAddress defaultAddress = .ok _ from rfl)).1
  exact ⟨legible, (steps.environment legible _).2 ⟨{}, .absent, good, by decide, by decide⟩⟩

/-- An address without a host is not kept, although it is that of the highest layer. -/
theorem partial_address_is_not_kept :
    let env : Environment := ⟨[], ""⟩
    ¬env.isSet "ADDRESS" ∧
      ∃ o c, Agent.Options.parse ["-a", ":9090"] = .ok o ∧ o.address = some ":9090" ∧
        Agent.Config.resolve ⟨[], []⟩ o env = .ok c ∧
        c.address = .of .commandLine "localhost:8080" :=
  ⟨by decide, _, _, rfl, rfl, rfl, by decide⟩

end Settings
end Telemetry
