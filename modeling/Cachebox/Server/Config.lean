import Cachebox.Engine.Basic
import Cachebox.Theory.Numeral
import Cachebox.Theory.Parser

/-!
# The command line of the server (`src/config.rs`)

`Config::from_args` reads flags with their values, from the left, into a configuration that starts
from the defaults. How socket addresses are read is up to the standard library and is a parameter.
The configurations that a command line can lead to are exactly the valid ones, and a command line
that is refused is refused for its first argument that is not in order.
-/

namespace Cachebox
namespace Server

def defaultBindAddr : String := "127.0.0.1:7400"
def defaultNativeBindAddr : String := "127.0.0.1:7401"

/-- How socket addresses are read, the two default ones among them. -/
structure AddrParser (Addr : Type) where
  parse : String → Option Addr
  bindAddr : Addr
  nativeBindAddr : Addr
  parse_bindAddr : parse defaultBindAddr = some bindAddr
  parse_nativeBindAddr : parse defaultNativeBindAddr = some nativeBindAddr

structure SocketAddrV4 where
  ip : UInt8 × UInt8 × UInt8 × UInt8
  port : UInt16
  deriving DecidableEq

namespace SocketAddrV4

/-- An octet has at most three digits and no zero in front. -/
def readOctet (digits : List Char) : Option UInt8 :=
  if digits = [] ∨ 3 < digits.length ∨ (1 < digits.length ∧ digits.head? = some '0') then none
  else (Numeral.readDigits 256 digits 0).map .ofNat

def readPort (digits : List Char) : Option UInt16 :=
  if digits = [] then none else (Numeral.readDigits 65536 digits 0).map .ofNat

def parse (text : String) : Option SocketAddrV4 := do
  let [ip, port] := text.toList.splitOn ':' | none
  let [a, b, c, d] := ip.splitOn '.' | none
  return ⟨(← readOctet a, ← readOctet b, ← readOctet c, ← readOctet d), ← readPort port⟩

theorem parse_defaultBindAddr : parse defaultBindAddr = some ⟨(127, 0, 0, 1), 7400⟩ := by
  decide +kernel

theorem parse_defaultNativeBindAddr :
    parse defaultNativeBindAddr = some ⟨(127, 0, 0, 1), 7401⟩ := by
  decide +kernel

end SocketAddrV4

/-- The parser of the addresses of version 4. -/
def AddrParser.v4 : AddrParser SocketAddrV4 where
  parse := SocketAddrV4.parse
  bindAddr := ⟨(127, 0, 0, 1), 7400⟩
  nativeBindAddr := ⟨(127, 0, 0, 1), 7401⟩
  parse_bindAddr := SocketAddrV4.parse_defaultBindAddr
  parse_nativeBindAddr := SocketAddrV4.parse_defaultNativeBindAddr

structure Config (Addr : Type) where
  bindAddr : Addr
  nativeBindAddr : Option Addr
  nativeUnixSocket : Option String
  maxBodyBytes : Nat
  maxMemoryBytes : Nat
  maxValueBytes : Nat
  cleanupIntervalMs : Nat
  cleanupMaxEntriesPerTick : Nat
  deriving DecidableEq

inductive ConfigError where
  | helpRequested
  | missingValue (flag : String)
  | unknownArgument (argument : String)
  | invalidBindAddress (value : String)
  | invalidNativeBindAddress (value : String)
  | invalidNativeUnixSocket (value : String)
  | invalidMaxBodyBytes (value : String)
  | invalidMaxMemoryBytes (value : String)
  | invalidMaxValueBytes (value : String)
  | invalidCleanupIntervalMs (value : String)
  | invalidCleanupMaxEntriesPerTick (value : String)
  deriving DecidableEq

/-- The flags that take a value. -/
inductive Flag where
  | bind | nativeBind | nativeUnix | maxBodyBytes | maxMemoryBytes | maxValueBytes
  | cleanupIntervalMs | cleanupMaxEntriesPerTick
  deriving DecidableEq

namespace Flag

def argument : Flag → String
  | bind => "--bind"
  | nativeBind => "--native-bind"
  | nativeUnix => "--native-unix"
  | maxBodyBytes => "--max-body-bytes"
  | maxMemoryBytes => "--max-memory-bytes"
  | maxValueBytes => "--max-value-bytes"
  | cleanupIntervalMs => "--cleanup-interval-ms"
  | cleanupMaxEntriesPerTick => "--cleanup-max-entries-per-tick"

def ofArgument (argument : String) : Option Flag :=
  match argument with
  | "--bind" => some bind
  | "--native-bind" => some nativeBind
  | "--native-unix" => some nativeUnix
  | "--max-body-bytes" => some maxBodyBytes
  | "--max-memory-bytes" => some maxMemoryBytes
  | "--max-value-bytes" => some maxValueBytes
  | "--cleanup-interval-ms" => some cleanupIntervalMs
  | "--cleanup-max-entries-per-tick" => some cleanupMaxEntriesPerTick
  | _ => none

/-- The error for a value that the flag does not take. -/
def invalid : Flag → String → ConfigError
  | bind => .invalidBindAddress
  | nativeBind => .invalidNativeBindAddress
  | nativeUnix => .invalidNativeUnixSocket
  | maxBodyBytes => .invalidMaxBodyBytes
  | maxMemoryBytes => .invalidMaxMemoryBytes
  | maxValueBytes => .invalidMaxValueBytes
  | cleanupIntervalMs => .invalidCleanupIntervalMs
  | cleanupMaxEntriesPerTick => .invalidCleanupMaxEntriesPerTick

end Flag

/-- `parse_nonzero_usize`, for a value that is there. -/
def parseNonzeroUsize (value : String) (error : String → ConfigError) : Except ConfigError Nat :=
  match Numeral.parse (usizeMax + 1) value with
  | none => .error (error value)
  | some parsed => if parsed = 0 then .error (error value) else .ok parsed

/-- `parse_u64`, for a value that is there. -/
def parseU64 (value : String) (error : String → ConfigError) : Except ConfigError Nat :=
  match Numeral.parse (2 ^ 64) value with
  | none => .error (error value)
  | some parsed => .ok parsed

section
variable {Addr : Type} (P : AddrParser Addr)

/-- `Config::default`. -/
def Config.default : Config Addr where
  bindAddr := P.bindAddr
  nativeBindAddr := some P.nativeBindAddr
  nativeUnixSocket := none
  maxBodyBytes := 8 * 1024 * 1024
  maxMemoryBytes := 64 * 1024 * 1024
  maxValueBytes := 8 * 1024 * 1024
  cleanupIntervalMs := 250
  cleanupMaxEntriesPerTick := 128

/-- The arm of a flag in the loop of `from_args`. -/
def Flag.set (flag : Flag) (value : String) (config : Config Addr) :
    Except ConfigError (Config Addr) :=
  match flag with
  | .bind =>
    match P.parse value with
    | some bindAddr => .ok { config with bindAddr }
    | none => .error (.invalidBindAddress value)
  | .nativeBind =>
    match P.parse value with
    | some addr => .ok { config with nativeBindAddr := some addr }
    | none => .error (.invalidNativeBindAddress value)
  | .nativeUnix =>
    if value.isEmpty then .error (.invalidNativeUnixSocket value)
    else .ok { config with nativeUnixSocket := some value }
  | .maxBodyBytes => do
    let maxBodyBytes ← parseNonzeroUsize value .invalidMaxBodyBytes
    return { config with maxBodyBytes }
  | .maxMemoryBytes => do
    let maxMemoryBytes ← parseNonzeroUsize value .invalidMaxMemoryBytes
    return { config with maxMemoryBytes }
  | .maxValueBytes => do
    let maxValueBytes ← parseNonzeroUsize value .invalidMaxValueBytes
    return { config with maxValueBytes }
  | .cleanupIntervalMs => do
    let cleanupIntervalMs ← parseU64 value .invalidCleanupIntervalMs
    return { config with cleanupIntervalMs }
  | .cleanupMaxEntriesPerTick => do
    let cleanupMaxEntriesPerTick ← parseNonzeroUsize value .invalidCleanupMaxEntriesPerTick
    return { config with cleanupMaxEntriesPerTick }

/-- The loop of `from_args`. -/
def Config.readArgs (config : Config Addr) : List String → Except ConfigError (Config Addr)
  | [] => .ok config
  | argument :: args =>
    if argument = "-h" ∨ argument = "--help" then .error .helpRequested
    else
      match Flag.ofArgument argument with
      | none => .error (.unknownArgument argument)
      | some flag =>
        match args with
        | [] => .error (.missingValue argument)
        | value :: args =>
          match flag.set P value config with
          | .error error => .error error
          | .ok config => readArgs config args

def Config.fromArgs (args : List String) : Except ConfigError (Config Addr) :=
  (Config.default P).readArgs P args

end

/-! ## Values of flags -/

section
variable {Addr : Type} {P : AddrParser Addr} {config config' : Config Addr} {flag : Flag}
  {value : String} {error : ConfigError}

/-- A limit can be any number but zero. -/
def IsNonzeroUsize (value : String) : Prop :=
  ∃ parsed, Numeral.parse (usizeMax + 1) value = some parsed ∧ parsed ≠ 0

/-- The values that a flag takes. -/
def Flag.Takes (P : AddrParser Addr) (flag : Flag) (value : String) : Prop :=
  match flag with
  | .bind | .nativeBind => (P.parse value).isSome
  | .nativeUnix => value ≠ ""
  | .maxBodyBytes | .maxMemoryBytes | .maxValueBytes | .cleanupMaxEntriesPerTick =>
    IsNonzeroUsize value
  | .cleanupIntervalMs => (Numeral.parse (2 ^ 64) value).isSome

theorem parseNonzeroUsize_eq_ok_iff {invalid : String → ConfigError} {parsed : Nat} :
    parseNonzeroUsize value invalid = .ok parsed ↔
      Numeral.parse (usizeMax + 1) value = some parsed ∧ parsed ≠ 0 := by
  unfold parseNonzeroUsize
  split
  next h => simp [h]
  next k h =>
    split_ifs with hzero
    · simp only [h, Option.some.injEq, false_iff, not_and, not_not]
      rintro rfl
      exact hzero
    · simp only [Except.ok.injEq, h, Option.some.injEq]
      constructor
      · rintro rfl
        exact ⟨rfl, hzero⟩
      · exact And.left

theorem parseNonzeroUsize_of_not {invalid : String → ConfigError} (h : ¬ IsNonzeroUsize value) :
    parseNonzeroUsize value invalid = .error (invalid value) := by
  unfold parseNonzeroUsize
  split
  · rfl
  next k hk =>
    rw [if_pos]
    by_contra hzero
    exact h ⟨k, hk, hzero⟩

theorem Flag.exists_set (h : flag.Takes P value) (config : Config Addr) :
    ∃ config', flag.set P value config = .ok config' := by
  have hnonzero : ∀ invalid, IsNonzeroUsize value →
      ∃ parsed, parseNonzeroUsize value invalid = .ok parsed := by
    rintro invalid ⟨parsed, hparsed⟩
    exact ⟨parsed, parseNonzeroUsize_eq_ok_iff.mpr hparsed⟩
  cases flag with
  | bind | nativeBind =>
    obtain ⟨addr, haddr⟩ := Option.isSome_iff_exists.mp h
    simp [Flag.set, haddr]
  | nativeUnix =>
    have hvalue : value.isEmpty = false := by simpa [Flag.Takes] using h
    simp [Flag.set, hvalue]
  | maxBodyBytes | maxMemoryBytes | maxValueBytes | cleanupMaxEntriesPerTick =>
    obtain ⟨parsed, hparsed⟩ := hnonzero _ h
    exact ⟨_, by rw [Flag.set, hparsed]; rfl⟩
  | cleanupIntervalMs =>
    obtain ⟨parsed, hparsed⟩ := Option.isSome_iff_exists.mp h
    exact ⟨_, by rw [Flag.set, parseU64, hparsed]; rfl⟩

theorem Flag.set_of_not (h : ¬ flag.Takes P value) (config : Config Addr) :
    flag.set P value config = .error (flag.invalid value) := by
  cases flag with
  | bind | nativeBind =>
    have hnone : P.parse value = none := by simpa [Flag.Takes] using h
    simp only [Flag.set, hnone, Flag.invalid]
  | nativeUnix =>
    have hvalue : value = "" := not_not.mp h
    subst hvalue
    rfl
  | maxBodyBytes | maxMemoryBytes | maxValueBytes | cleanupMaxEntriesPerTick =>
    rw [Flag.set, parseNonzeroUsize_of_not h]
    rfl
  | cleanupIntervalMs =>
    have hnone : Numeral.parse (2 ^ 64) value = none := by simpa [Flag.Takes] using h
    simp only [Flag.set, parseU64, hnone]
    rfl

/-! ## Command lines -/

/-- The arguments for flags with their values. -/
def arguments (settings : List (Flag × String)) : List String :=
  settings.flatMap fun setting => [setting.1.argument, setting.2]

/-- The configuration after the settings, one by one. -/
def Config.apply (P : AddrParser Addr) (config : Config Addr) (settings : List (Flag × String)) :
    Except ConfigError (Config Addr) :=
  settings.foldlM (fun config setting => setting.1.set P setting.2 config) config

/-- The first of the arguments is not in order. -/
inductive Offends (P : AddrParser Addr) : List String → ConfigError → Prop where
  | help {argument : String} (rest : List String) (h : argument = "-h" ∨ argument = "--help") :
    Offends P (argument :: rest) .helpRequested
  | unknown {argument : String} (rest : List String)
    (hhelp : ¬ (argument = "-h" ∨ argument = "--help"))
    (h : ∀ flag : Flag, flag.argument ≠ argument) :
    Offends P (argument :: rest) (.unknownArgument argument)
  | missing (flag : Flag) : Offends P [flag.argument] (.missingValue flag.argument)
  | invalid {flag : Flag} {value : String} (rest : List String) (h : ¬ flag.Takes P value) :
    Offends P (flag.argument :: value :: rest) (flag.invalid value)

theorem Flag.ofArgument_argument (flag : Flag) : Flag.ofArgument flag.argument = some flag := by
  cases flag <;> rfl

theorem Flag.argument_ne_help (flag : Flag) :
    ¬ (flag.argument = "-h" ∨ flag.argument = "--help") := by
  cases flag <;> decide

theorem Flag.ofArgument_eq_some_iff {argument : String} :
    Flag.ofArgument argument = some flag ↔ flag.argument = argument := by
  constructor
  · intro h
    unfold Flag.ofArgument at h
    split at h <;> cases h <;> rfl
  · rintro rfl
    exact flag.ofArgument_argument

theorem readArgs_setting (config : Config Addr) (flag : Flag) (value : String)
    (args : List String) :
    config.readArgs P (flag.argument :: value :: args) =
      flag.set P value config >>= fun config => config.readArgs P args := by
  rw [Config.readArgs, if_neg flag.argument_ne_help]
  simp only [flag.ofArgument_argument]
  cases flag.set P value config with
  | error error => rfl
  | ok config => rfl

/-- The loop on settings in order, and whatever follows. -/
theorem readArgs_arguments (config : Config Addr) (settings : List (Flag × String))
    (rest : List String) :
    config.readArgs P (arguments settings ++ rest) =
      config.apply P settings >>= fun config => config.readArgs P rest := by
  induction settings generalizing config with
  | nil => rfl
  | cons setting settings ih =>
    show config.readArgs P (setting.1.argument :: setting.2 :: (arguments settings ++ rest)) = _
    rw [readArgs_setting, Config.apply, List.foldlM_cons, bind_assoc]
    exact congrArg _ (funext fun config => ih config)

theorem exists_apply {settings : List (Flag × String)}
    (h : ∀ setting ∈ settings, setting.1.Takes P setting.2) (config : Config Addr) :
    ∃ config', config.apply P settings = .ok config' := by
  induction settings generalizing config with
  | nil => exact ⟨config, rfl⟩
  | cons setting settings ih =>
    rw [List.forall_mem_cons] at h
    obtain ⟨config₁, hset⟩ := Flag.exists_set h.1 config
    obtain ⟨config', happly⟩ := ih h.2 config₁
    refine ⟨config', ?_⟩
    rw [Config.apply, List.foldlM_cons, hset]
    exact happly

theorem readArgs_of_offends {rest : List String} (h : Offends P rest error) (config : Config Addr) :
    config.readArgs P rest = .error error := by
  cases h with
  | help rest h => rw [Config.readArgs, if_pos h]
  | unknown rest hhelp h =>
    rename_i argument
    have hnone : Flag.ofArgument argument = none := by
      rw [Option.eq_none_iff_forall_ne_some]
      intro flag hflag
      exact h flag (Flag.ofArgument_eq_some_iff.mp hflag)
    simp only [Config.readArgs, if_neg hhelp, hnone]
  | missing flag =>
    simp only [Config.readArgs, if_neg flag.argument_ne_help, flag.ofArgument_argument]
  | invalid rest h =>
    rw [readArgs_setting, Flag.set_of_not h]
    rfl

/-- An argument asks for help, is unknown, or is a flag. -/
theorem offends_or_flag (P : AddrParser Addr) (argument : String) (rest : List String) :
    (∃ error, Offends P (argument :: rest) error) ∨ ∃ flag : Flag, argument = flag.argument := by
  by_cases hhelp : argument = "-h" ∨ argument = "--help"
  · exact .inl ⟨_, .help rest hhelp⟩
  · by_cases hflag : ∃ flag : Flag, argument = flag.argument
    · exact .inr hflag
    · refine .inl ⟨_, .unknown rest hhelp fun flag heq => hflag ⟨flag, heq.symm⟩⟩

/-- A command line is settings, and then nothing or an argument that is not in order. -/
theorem exists_settings (P : AddrParser Addr) (args : List String) :
    ∃ settings rest, args = arguments settings ++ rest ∧
      (∀ setting ∈ settings, setting.1.Takes P setting.2) ∧
      (rest = [] ∨ ∃ error, Offends P rest error) := by
  induction args using List.twoStepInduction with
  | nil => exact ⟨[], [], rfl, List.forall_mem_nil _, .inl rfl⟩
  | singleton argument =>
    refine ⟨[], [argument], rfl, List.forall_mem_nil _, .inr ?_⟩
    rcases offends_or_flag P argument [] with hoffends | ⟨flag, rfl⟩
    · exact hoffends
    · exact ⟨_, .missing flag⟩
  | cons_cons argument value args ih =>
    rcases offends_or_flag P argument (value :: args) with hoffends | ⟨flag, rfl⟩
    · exact ⟨[], _, rfl, List.forall_mem_nil _, .inr hoffends⟩
    · by_cases htakes : flag.Takes P value
      · obtain ⟨settings, rest, rfl, hsettings, hrest⟩ := ih
        exact ⟨(flag, value) :: settings, rest, rfl, List.forall_mem_cons.mpr ⟨htakes, hsettings⟩,
          hrest⟩
      · exact ⟨[], _, rfl, List.forall_mem_nil _, .inr ⟨_, .invalid args htakes⟩⟩

theorem readArgs_eq_ok_iff {args : List String} :
    config.readArgs P args = .ok config' ↔ ∃ settings, args = arguments settings ∧
      (∀ setting ∈ settings, setting.1.Takes P setting.2) ∧
      config.apply P settings = .ok config' := by
  constructor
  · intro h
    obtain ⟨settings, rest, rfl, hsettings, hrest⟩ := exists_settings P args
    obtain ⟨config₁, happly⟩ := exists_apply hsettings config
    rw [readArgs_arguments, happly] at h
    rcases hrest with rfl | ⟨error, hoffends⟩
    · exact ⟨settings, List.append_nil _, hsettings, happly.trans h⟩
    · cases (readArgs_of_offends hoffends config₁).symm.trans h
  · rintro ⟨settings, rfl, -, happly⟩
    rw [← List.append_nil (arguments settings), readArgs_arguments, happly]
    rfl

theorem readArgs_eq_error_iff {args : List String} :
    config.readArgs P args = .error error ↔ ∃ settings rest, args = arguments settings ++ rest ∧
      (∀ setting ∈ settings, setting.1.Takes P setting.2) ∧ Offends P rest error := by
  constructor
  · intro h
    obtain ⟨settings, rest, rfl, hsettings, hrest⟩ := exists_settings P args
    obtain ⟨config₁, happly⟩ := exists_apply hsettings config
    rw [readArgs_arguments, happly] at h
    rcases hrest with rfl | ⟨error', hoffends⟩
    · cases h
    · cases (readArgs_of_offends hoffends config₁).symm.trans h
      exact ⟨settings, rest, rfl, hsettings, hoffends⟩
  · rintro ⟨settings, rest, rfl, hsettings, hoffends⟩
    obtain ⟨config₁, happly⟩ := exists_apply hsettings config
    rw [readArgs_arguments, happly]
    exact readArgs_of_offends hoffends config₁

/-- **A command line is accepted exactly if it is made of flags with values that they take**, and
the settings then take effect one after the other. Otherwise it is refused for the first argument
that is not in order, whatever stands behind it. -/
theorem fromArgs_decided_by_first_offence (P : AddrParser Addr) (args : List String) :
    (∀ config, Config.fromArgs P args = .ok config ↔ ∃ settings, args = arguments settings ∧
        (∀ setting ∈ settings, setting.1.Takes P setting.2) ∧
        (Config.default P).apply P settings = .ok config) ∧
      ∀ error, Config.fromArgs P args = .error error ↔ ∃ settings rest,
        args = arguments settings ++ rest ∧
        (∀ setting ∈ settings, setting.1.Takes P setting.2) ∧ Offends P rest error :=
  ⟨fun _ => readArgs_eq_ok_iff, fun _ => readArgs_eq_error_iff⟩

/-- The last of the settings of a flag counts. A host name is not an address, and the request for
help behind it is not reached. -/
theorem fromArgs_decided_by_first_offence_v4 :
    (∃ config, Config.fromArgs .v4 ["--bind", "0.0.0.0:80", "--bind", "10.0.0.1:8080"] =
        .ok config ∧ config.bindAddr = ⟨(10, 0, 0, 1), 8080⟩) ∧
      Config.fromArgs .v4 ["--max-body-bytes", "1024", "--bind", "localhost:80", "--help"] =
        .error (.invalidBindAddress "localhost:80") := by
  have hbind : ∀ setting ∈ [(Flag.bind, "0.0.0.0:80"), (Flag.bind, "10.0.0.1:8080")],
      setting.1.Takes .v4 setting.2 := by
    rw [List.forall_mem_cons, List.forall_mem_singleton]
    exact ⟨show (SocketAddrV4.parse "0.0.0.0:80").isSome by decide +kernel,
      show (SocketAddrV4.parse "10.0.0.1:8080").isSome by decide +kernel⟩
  have hbody : ∀ setting ∈ [(Flag.maxBodyBytes, "1024")], setting.1.Takes .v4 setting.2 := by
    rw [List.forall_mem_singleton]
    exact ⟨1024, by decide +kernel, by decide⟩
  have hhost : ¬ Flag.bind.Takes .v4 "localhost:80" :=
    show ¬ (SocketAddrV4.parse "localhost:80").isSome by decide +kernel
  refine ⟨⟨{ Config.default .v4 with bindAddr := ⟨(10, 0, 0, 1), 8080⟩ }, ?_, rfl⟩, ?_⟩
  · exact ((fromArgs_decided_by_first_offence .v4 _).1 _).mpr ⟨_, rfl, hbind, by decide +kernel⟩
  · exact ((fromArgs_decided_by_first_offence .v4 _).2 _).mpr
      ⟨_, _, rfl, hbody, .invalid ["--help"] hhost⟩

/-! ## Configurations -/

/-- What can be configured. The native listener cannot be switched off. -/
structure Config.Valid (P : AddrParser Addr) (config : Config Addr) : Prop where
  bindAddr : ∃ text, P.parse text = some config.bindAddr
  nativeBindAddr : ∃ addr, config.nativeBindAddr = some addr ∧ ∃ text, P.parse text = some addr
  nativeUnixSocket : config.nativeUnixSocket ≠ some ""
  maxBodyBytes : 0 < config.maxBodyBytes ∧ config.maxBodyBytes ≤ usizeMax
  maxMemoryBytes : 0 < config.maxMemoryBytes ∧ config.maxMemoryBytes ≤ usizeMax
  maxValueBytes : 0 < config.maxValueBytes ∧ config.maxValueBytes ≤ usizeMax
  cleanupIntervalMs : config.cleanupIntervalMs < 2 ^ 64
  cleanupMaxEntriesPerTick :
    0 < config.cleanupMaxEntriesPerTick ∧ config.cleanupMaxEntriesPerTick ≤ usizeMax

theorem valid_default (P : AddrParser Addr) : (Config.default P).Valid P where
  bindAddr := ⟨_, P.parse_bindAddr⟩
  nativeBindAddr := ⟨_, rfl, _, P.parse_nativeBindAddr⟩
  nativeUnixSocket := by simp [Config.default]
  maxBodyBytes := by simp [Config.default, usizeMax]
  maxMemoryBytes := by simp [Config.default, usizeMax]
  maxValueBytes := by simp [Config.default, usizeMax]
  cleanupIntervalMs := by simp [Config.default]
  cleanupMaxEntriesPerTick := by simp [Config.default, usizeMax]

theorem bounds_of_parseNonzeroUsize {invalid : String → ConfigError} {parsed : Nat}
    (h : parseNonzeroUsize value invalid = .ok parsed) : 0 < parsed ∧ parsed ≤ usizeMax := by
  obtain ⟨hparse, hzero⟩ := parseNonzeroUsize_eq_ok_iff.mp h
  exact ⟨Nat.pos_of_ne_zero hzero,
    Nat.lt_succ_iff.mp (Numeral.lt_of_parse (Nat.succ_pos usizeMax) hparse)⟩

theorem Config.Valid.set (h : config.Valid P) (hset : flag.set P value config = .ok config') :
    config'.Valid P := by
  cases flag with
  | bind =>
    simp only [Flag.set] at hset
    split at hset
    next addr haddr =>
      cases hset
      exact { h with bindAddr := ⟨value, haddr⟩ }
    next => cases hset
  | nativeBind =>
    simp only [Flag.set] at hset
    split at hset
    next addr haddr =>
      cases hset
      exact { h with nativeBindAddr := ⟨addr, rfl, value, haddr⟩ }
    next => cases hset
  | nativeUnix =>
    simp only [Flag.set] at hset
    split_ifs at hset with hempty
    cases hset
    refine { h with nativeUnixSocket := fun heq => hempty ?_ }
    cases heq
    rfl
  | maxBodyBytes =>
    obtain ⟨parsed, hparsed, hok⟩ := Parser.bind_eq_ok_iff.mp hset
    cases hok
    exact { h with maxBodyBytes := bounds_of_parseNonzeroUsize hparsed }
  | maxMemoryBytes =>
    obtain ⟨parsed, hparsed, hok⟩ := Parser.bind_eq_ok_iff.mp hset
    cases hok
    exact { h with maxMemoryBytes := bounds_of_parseNonzeroUsize hparsed }
  | maxValueBytes =>
    obtain ⟨parsed, hparsed, hok⟩ := Parser.bind_eq_ok_iff.mp hset
    cases hok
    exact { h with maxValueBytes := bounds_of_parseNonzeroUsize hparsed }
  | cleanupIntervalMs =>
    obtain ⟨parsed, hparsed, hok⟩ := Parser.bind_eq_ok_iff.mp hset
    cases hok
    simp only [parseU64] at hparsed
    split at hparsed
    next => cases hparsed
    next hparse =>
      cases hparsed
      exact { h with cleanupIntervalMs := Numeral.lt_of_parse (by decide) hparse }
  | cleanupMaxEntriesPerTick =>
    obtain ⟨parsed, hparsed, hok⟩ := Parser.bind_eq_ok_iff.mp hset
    cases hok
    exact { h with cleanupMaxEntriesPerTick := bounds_of_parseNonzeroUsize hparsed }

theorem Config.Valid.apply {settings : List (Flag × String)} (h : config.Valid P)
    (happly : config.apply P settings = .ok config') : config'.Valid P := by
  induction settings generalizing config with
  | nil =>
    cases happly
    exact h
  | cons setting settings ih =>
    rw [Config.apply, List.foldlM_cons] at happly
    obtain ⟨config₁, hset, happly⟩ := Parser.bind_eq_ok_iff.mp happly
    exact ih (h.set hset) happly

theorem parseNonzeroUsize_toString {parsed : Nat} (h : 0 < parsed ∧ parsed ≤ usizeMax)
    (invalid : String → ConfigError) :
    parseNonzeroUsize (toString parsed) invalid = .ok parsed :=
  parseNonzeroUsize_eq_ok_iff.mpr
    ⟨Numeral.parse_toString (Nat.lt_succ_iff.mpr h.2), Nat.pos_iff_ne_zero.mp h.1⟩

/-- The settings of a configuration. -/
def Config.settings (config : Config Addr) (bindAddr nativeBindAddr : String) :
    List (Flag × String) :=
  [(.bind, bindAddr), (.nativeBind, nativeBindAddr)] ++
    (config.nativeUnixSocket.map (Prod.mk Flag.nativeUnix)).toList ++
    [(.maxBodyBytes, toString config.maxBodyBytes),
      (.maxMemoryBytes, toString config.maxMemoryBytes),
      (.maxValueBytes, toString config.maxValueBytes),
      (.cleanupIntervalMs, toString config.cleanupIntervalMs),
      (.cleanupMaxEntriesPerTick, toString config.cleanupMaxEntriesPerTick)]

theorem apply_settings (h : config.Valid P) {addr : Addr} {bindAddr nativeBindAddr : String}
    (hbind : P.parse bindAddr = some config.bindAddr)
    (hnative : config.nativeBindAddr = some addr) (haddr : P.parse nativeBindAddr = some addr) :
    (Config.default P).apply P (config.settings bindAddr nativeBindAddr) = .ok config := by
  have hbody := parseNonzeroUsize_toString h.maxBodyBytes
  have hmemory := parseNonzeroUsize_toString h.maxMemoryBytes
  have hvalue := parseNonzeroUsize_toString h.maxValueBytes
  have hinterval := Numeral.parse_toString h.cleanupIntervalMs
  have hentries := parseNonzeroUsize_toString h.cleanupMaxEntriesPerTick
  have hsocket := h.nativeUnixSocket
  obtain ⟨bind, nativeBind, socket, body, memory, value, interval, entries⟩ := config
  cases hnative
  cases socket with
  | none =>
    simp only [Config.settings, Config.apply, Flag.set, Config.default, Option.map_none,
      Option.toList_none, List.nil_append, List.cons_append, List.foldlM_cons, List.foldlM_nil,
      hbind, haddr, hbody, hmemory, hvalue, hentries, parseU64, hinterval]
    rfl
  | some socket =>
    have hempty : ¬ socket.isEmpty = true := by
      intro hempty
      exact hsocket (congrArg some (String.isEmpty_iff.mp hempty))
    simp only [Config.settings, Config.apply, Flag.set, Config.default, Option.map_some,
      Option.toList_some, List.nil_append, List.cons_append, List.foldlM_cons, List.foldlM_nil,
      hbind, haddr, hbody, hmemory, hvalue, hentries, parseU64, hinterval, if_neg hempty]
    rfl

/-- **Exactly the valid configurations can be configured.** -/
theorem exists_args_iff_valid (P : AddrParser Addr) (config : Config Addr) :
    (∃ args, Config.fromArgs P args = .ok config) ↔ config.Valid P := by
  constructor
  · rintro ⟨args, hargs⟩
    obtain ⟨settings, -, -, happly⟩ := readArgs_eq_ok_iff.mp hargs
    exact (valid_default P).apply happly
  · intro h
    obtain ⟨bindAddr, hbind⟩ := h.bindAddr
    obtain ⟨addr, hnative, nativeBindAddr, haddr⟩ := h.nativeBindAddr
    refine ⟨arguments (config.settings bindAddr nativeBindAddr), ?_⟩
    rw [Config.fromArgs, ← List.append_nil (arguments _), readArgs_arguments,
      apply_settings h hbind hnative haddr]
    rfl

/-- The smallest limits, on two addresses. -/
def smallest : Config SocketAddrV4 :=
  ⟨⟨(0, 0, 0, 0), 80⟩, some ⟨(10, 0, 0, 1), 81⟩, some "cachebox.sock", 1, 1, 1, 0, 1⟩

theorem exists_args_iff_valid_smallest :
    smallest.Valid .v4 ∧ ∃ args, Config.fromArgs .v4 args = .ok smallest := by
  have hvalid : smallest.Valid .v4 :=
    { bindAddr := ⟨"0.0.0.0:80", by decide +kernel⟩
      nativeBindAddr := ⟨_, rfl, "10.0.0.1:81", by decide +kernel⟩
      nativeUnixSocket := by decide
      maxBodyBytes := by decide
      maxMemoryBytes := by decide
      maxValueBytes := by decide
      cleanupIntervalMs := by decide
      cleanupMaxEntriesPerTick := by decide }
  exact ⟨hvalid, (exists_args_iff_valid .v4 smallest).mpr hvalid⟩

end

end Server
end Cachebox
