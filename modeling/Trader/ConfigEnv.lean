import Trader.EarlyExit
import Trader.Numeral
import Trader.Symbol

set_option autoImplicit false

/-!
# The configuration from the environment

`Config::from_env` reads six variables, parses two of them as numbers and
splits one at its commas, and logs what it has read, the key cut short. It is
translated as a program over the lines of the log, which may throw what the
standard library throws.

An environment is valid, and describes a configuration, in terms of the texts
of the variables alone (`Vars.Valid`, `Vars.Describes`). `from_env` accepts
others and rejects some in another way than it means to:
`std::from_chars` reads the digits at the start of a text and leaves it to the
caller to look at what follows, no piece is asked for when the empty ones are
dropped, and the last three characters of a key are taken of one that has
fewer. `accepts_exactly_iff` says that nothing else goes wrong.
-/

open EarlyExit Decimal

/-- `std::string::npos`, the largest `size_t`. -/
def Text.npos : ℕ := 2 ^ 64 - 1

/-- What the standard library and the program throw. -/
inductive StdException where
  /-- `std::runtime_error`, with its `what()`. -/
  | runtimeError (what : Text)
  /-- `std::out_of_range`, of a position past the end of a string. -/
  | outOfRange
  deriving DecidableEq

/-- `std::string::substr`. -/
def Text.substr (s : Text) (pos count : ℕ) : Except StdException Text :=
  if pos ≤ s.length then .ok ((s.drop pos).take count) else .error .outOfRange

namespace Utils

/-- What `std::getenv` finds under a name. -/
abbrev Environment := Text → Option Text

/-- `Env::get_env_or_throw`. -/
def Env.getEnvOrThrow (env : Environment) (key : Text) : Except StdException Text :=
  match env key with
  | some [] => .error (.runtimeError ("empty envvar, key [".toList ++ key ++ "]".toList))
  | some val => .ok val
  | none => .error (.runtimeError ("envvar not defined, key [".toList ++ key ++ "]".toList))

/-- A variable is set, and not to the empty text. -/
def IsSet (env : Environment) (key val : Text) : Prop := env key = some val ∧ val ≠ []

/-- **What is fetched**: the text of a variable that is set. -/
theorem Env.getEnvOrThrow_cases (env : Environment) (key : Text) :
    (∃ val, IsSet env key val ∧ getEnvOrThrow env key = .ok val)
      ∨ (∀ val, ¬ IsSet env key val)
        ∧ ∃ what, getEnvOrThrow env key = .error (.runtimeError what) := by
  unfold getEnvOrThrow IsSet
  match env key with
  | none => exact Or.inr ⟨by simp, _, rfl⟩
  | some [] => exact Or.inr ⟨by simp, _, rfl⟩
  | some (c :: val) => exact Or.inl ⟨c :: val, ⟨rfl, List.cons_ne_nil c val⟩, rfl⟩

theorem IsSet.unique {env : Environment} {key val val' : Text} (h : IsSet env key val)
    (h' : IsSet env key val') : val = val' :=
  Option.some.inj (h.1.symm.trans h'.1)

end Utils

namespace Binance

open Utils

/-! ## The code -/

/-- `std::errc`, as far as `std::from_chars` reports it. -/
inductive Errc where
  | invalidArgument
  | resultOutOfRange

/-- `std::from_chars` of a `uint8_t`: the digits at the start of the text, and
the position after them. -/
def fromCharsUInt8 (s : Text) : Except Errc (UInt8 × ℕ) :=
  let digits := s.takeWhile Char.isDigit
  if digits = [] then .error .invalidArgument
  else if digitsValue digits < 2 ^ 8 then
    .ok (UInt8.ofNat (digitsValue digits), digits.length)
  else .error .resultOutOfRange

/-- `std::views::split` of a text, from within a piece. -/
def splitFrom (sep : Char) (piece : Text) : Text → List Text
  | [] => [piece]
  | c :: s => if c = sep then piece :: splitFrom sep [] s else splitFrom sep (piece ++ [c]) s

/-- `std::views::split`. An empty range has no piece. -/
def viewsSplit (s : Text) (sep : Char) : List Text :=
  if s.isEmpty then [] else splitFrom sep [] s

/-- `binance::Config`. -/
structure Config where
  apiKey : Text
  privateKeyPath : Text
  fixConfigPath : Text
  symbols : List Text
  pxCpu : UInt8
  txCpu : UInt8
  deriving DecidableEq

namespace Config

/-- `Config::MAX_DEPTH`. -/
def maxDepth : ℕ := 100

/-- `spdlog::info`, of a line. -/
def info (line : Text) : EStateM StdException (List Text) Unit := modify (· ++ [line])

/-- The line for a variable that is read. -/
def fetched (key val : Text) : Text :=
  "fetched envar. key [".toList ++ key ++ "], value [".toList ++ val ++ "]".toList

/-- The number of a core, of either session. -/
def parseCpu (session cpuStr : Text) : Except StdException UInt8 :=
  match fromCharsUInt8 cpuStr with
  -- only `ec` is looked at, the position is not
  | .ok (cpu, _) => .ok cpu
  | .error _ => .error (.runtimeError
      ("could not parse ".toList ++ session ++ " cpu, value [".toList ++ cpuStr ++ "]".toList))

/-- `api_key.substr(0, 3) + "..." + api_key.substr(api_key.length() - 3)`, where
the length is a `size_t`. -/
def masked (apiKey : Text) : Except StdException Text := do
  let first ← Text.substr apiKey 0 3
  let last ← Text.substr apiKey ((apiKey.length + 2 ^ 64 - 3) % 2 ^ 64) Text.npos
  return first ++ "...".toList ++ last

/-- `Config::from_env`. -/
def fromEnv (env : Environment) : EStateM StdException (List Text) Config := do
  let apiKey ← lift (Env.getEnvOrThrow env "API_KEY".toList)
  let privateKey ← lift (Env.getEnvOrThrow env "PRIVATE_KEY_PATH".toList)
  let fixConfig ← lift (Env.getEnvOrThrow env "FIX_CONFIG_PATH".toList)
  let pxCpuStr ← lift (Env.getEnvOrThrow env "PX_SESSION_CPU".toList)
  let txCpuStr ← lift (Env.getEnvOrThrow env "TX_SESSION_CPU".toList)
  let instStr ← lift (Env.getEnvOrThrow env "SYMBOLS".toList)
  let pxCpu ← lift (parseCpu "px".toList pxCpuStr)
  let txCpu ← lift (parseCpu "tx".toList txCpuStr)
  let key ← lift (masked apiKey)
  info (fetched "API_KEY".toList key)
  info (fetched "PRIVATE_KEY_PATH".toList privateKey)
  info (fetched "FIX_CONFIG_PATH".toList fixConfig)
  info (fetched "SYMBOLS".toList instStr)
  info (fetched "PX_SESSION_CPU".toList pxCpuStr)
  info (fetched "TX_SESSION_CPU".toList txCpuStr)
  let symbols := (viewsSplit instStr ',').filter (fun inst => !inst.isEmpty)
  info ("MAX_DEPTH, value [".toList ++ Nat.toDigits 10 maxDepth ++ "]".toList)
  return { apiKey, privateKeyPath := privateKey, fixConfigPath := fixConfig, symbols, pxCpu, txCpu }

/-! ## The parts -/

/-- The non-empty comma-separated pieces of a text, in order. -/
def pieces (s : Text) : List Text := (s.splitOn ',').filter (· ≠ [])

/-- The pieces from within one, where nothing of it has been read. -/
theorem modifyHead_nil_append (l : List Text) : l.modifyHead ([] ++ ·) = l := by
  cases l <;> rfl

theorem splitFrom_eq (sep : Char) (piece s : Text) :
    splitFrom sep piece s = (s.splitOn sep).modifyHead (piece ++ ·) := by
  induction s generalizing piece with
  | nil => simp [splitFrom]
  | cons c s ih =>
    rw [splitFrom, List.splitOn_cons_eq_if_modifyHead]
    by_cases hc : c = sep
    · rw [if_pos hc, if_pos (beq_iff_eq.mpr hc), ih [], modifyHead_nil_append,
        List.modifyHead_cons, List.append_nil]
    · rw [if_neg hc, if_neg (mt beq_iff_eq.mp hc), ih (piece ++ [c]), List.modifyHead_modifyHead]
      congr 1
      funext t
      simp

/-- **The symbols** are the pieces. -/
theorem symbols_eq (s : Text) :
    (viewsSplit s ',').filter (fun inst => !inst.isEmpty) = pieces s := by
  have hfilter : (fun inst : Text => !inst.isEmpty) = (fun inst : Text => decide (inst ≠ [])) := by
    funext inst
    cases inst <;> rfl
  rw [viewsSplit, pieces, hfilter]
  split_ifs with hs
  · rw [List.isEmpty_iff.mp hs]
    rfl
  · rw [splitFrom_eq, modifyHead_nil_append]

/-- There is a piece if there is something to make one of. -/
theorem pieces_ne_nil_iff (s : Text) : pieces s ≠ [] ↔ ∃ c ∈ s, c ≠ ',' := by
  induction s with
  | nil => simp [pieces]
  | cons c s ih =>
    rw [pieces, List.splitOn_cons_eq_if_modifyHead]
    by_cases hc : c = ','
    · rw [if_pos (beq_iff_eq.mpr hc), List.filter_cons_of_neg (by simp)]
      refine ih.trans ?_
      simp [hc]
    · obtain ⟨t, ts, hsplit⟩ := List.exists_cons_of_ne_nil (List.splitOn_ne_nil ',' s)
      rw [if_neg (mt beq_iff_eq.mp hc), hsplit, List.modifyHead_cons,
        List.filter_cons_of_pos (by simp)]
      exact iff_of_true (List.cons_ne_nil _ _) ⟨c, List.mem_cons_self, hc⟩

/-- A text that is a number from 0 to 255, all of it. -/
def WholeNumeral (s : Text) : Prop := IsDigits s ∧ digitsValue s < 2 ^ 8

/-- A text that starts with one, up to its first character that is no digit. -/
def LeadingNumeral (s : Text) : Prop := WholeNumeral (s.takeWhile Char.isDigit)

theorem takeWhile_of_digits {s : Text} (h : ∀ c ∈ s, c.isDigit = true) :
    s.takeWhile Char.isDigit = s :=
  List.takeWhile_eq_self_iff.mpr h

/-- What makes a number of a text that starts with one. -/
theorem wholeNumeral_iff (s : Text) :
    WholeNumeral s ↔ LeadingNumeral s ∧ ∀ c ∈ s, c.isDigit = true := by
  constructor
  · intro h
    rw [LeadingNumeral, takeWhile_of_digits h.1.2]
    exact ⟨h, h.1.2⟩
  · rintro ⟨h, hdigits⟩
    rwa [LeadingNumeral, takeWhile_of_digits hdigits] at h

/-- **Which numbers are read**: those at the start of a text. -/
theorem parseCpu_cases (session s : Text) :
    (LeadingNumeral s ∧ ∃ cpu, parseCpu session s = .ok cpu
        ∧ cpu.toNat = digitsValue (s.takeWhile Char.isDigit))
      ∨ ¬ LeadingNumeral s ∧ ∃ what, parseCpu session s = .error (.runtimeError what) := by
  have hdigits : ∀ c ∈ s.takeWhile Char.isDigit, c.isDigit = true :=
    fun c hc => List.mem_takeWhile_imp hc
  unfold LeadingNumeral WholeNumeral parseCpu fromCharsUInt8
  by_cases hnil : s.takeWhile Char.isDigit = []
  · rw [if_pos hnil]
    exact Or.inr ⟨fun h => h.1.1 hnil, _, rfl⟩
  by_cases hlt : digitsValue (s.takeWhile Char.isDigit) < 2 ^ 8
  · rw [if_neg hnil, if_pos hlt]
    refine Or.inl ⟨⟨⟨hnil, hdigits⟩, hlt⟩, _, rfl, ?_⟩
    rw [UInt8.toNat_ofNat', Nat.mod_eq_of_lt hlt]
  · rw [if_neg hnil, if_neg hlt]
    exact Or.inr ⟨fun h => hlt h.2, _, rfl⟩

/-- **Which keys are cut short**: those of three characters at least. -/
theorem masked_cases (apiKey : Text) :
    (3 ≤ apiKey.length ∧ ∃ key, masked apiKey = .ok key)
      ∨ apiKey.length < 3 ∧ masked apiKey = .error .outOfRange := by
  have hfirst : Text.substr apiKey 0 3 = .ok (apiKey.take 3) := if_pos (Nat.zero_le _)
  unfold masked
  rw [hfirst]
  rcases Nat.lt_or_ge apiKey.length 3 with hlt | hle
  · have hlast : Text.substr apiKey ((apiKey.length + 2 ^ 64 - 3) % 2 ^ 64) Text.npos
        = .error .outOfRange := if_neg (by omega)
    rw [hlast]
    exact Or.inr ⟨hlt, rfl⟩
  · have hlast : Text.substr apiKey ((apiKey.length + 2 ^ 64 - 3) % 2 ^ 64) Text.npos
        = .ok ((apiKey.drop _).take _) := if_pos (by omega)
    rw [hlast]
    exact Or.inl ⟨hle, _, rfl⟩

/-! ## The environments -/

/-- The texts of the six variables. -/
structure Vars where
  apiKey : Text
  privateKey : Text
  fixConfig : Text
  pxCpuStr : Text
  txCpuStr : Text
  instStr : Text

namespace Vars

/-- **The six variables are set** to these texts, none of them empty. -/
structure SetIn (v : Vars) (env : Environment) : Prop where
  apiKey : IsSet env "API_KEY".toList v.apiKey
  privateKey : IsSet env "PRIVATE_KEY_PATH".toList v.privateKey
  fixConfig : IsSet env "FIX_CONFIG_PATH".toList v.fixConfig
  pxCpuStr : IsSet env "PX_SESSION_CPU".toList v.pxCpuStr
  txCpuStr : IsSet env "TX_SESSION_CPU".toList v.txCpuStr
  instStr : IsSet env "SYMBOLS".toList v.instStr

theorem SetIn.unique {v v' : Vars} {env : Environment} (h : v.SetIn env) (h' : v'.SetIn env) :
    v = v' := by
  obtain ⟨a, b, c, d, e, f⟩ := v
  obtain ⟨a', b', c', d', e', f'⟩ := v'
  obtain rfl : a = a' := h.apiKey.unique h'.apiKey
  obtain rfl : b = b' := h.privateKey.unique h'.privateKey
  obtain rfl : c = c' := h.fixConfig.unique h'.fixConfig
  obtain rfl : d = d' := h.pxCpuStr.unique h'.pxCpuStr
  obtain rfl : e = e' := h.txCpuStr.unique h'.txCpuStr
  obtain rfl : f = f' := h.instStr.unique h'.instStr
  rfl

/-- **The texts of a valid environment**: two numbers, and a symbol at least. -/
structure Valid (v : Vars) : Prop where
  pxCpuStr : WholeNumeral v.pxCpuStr
  txCpuStr : WholeNumeral v.txCpuStr
  instStr : pieces v.instStr ≠ []

/-- **The configuration that the texts describe.** -/
structure Describes (v : Vars) (cfg : Config) : Prop where
  apiKey : cfg.apiKey = v.apiKey
  privateKeyPath : cfg.privateKeyPath = v.privateKey
  fixConfigPath : cfg.fixConfigPath = v.fixConfig
  symbols : cfg.symbols = pieces v.instStr
  pxCpu : cfg.pxCpu.toNat = digitsValue v.pxCpuStr
  txCpu : cfg.txCpu.toNat = digitsValue v.txCpuStr

/-- The texts without what follows the digits at the start of two of them. -/
def leading (v : Vars) : Vars :=
  { v with
    pxCpuStr := v.pxCpuStr.takeWhile Char.isDigit
    txCpuStr := v.txCpuStr.takeWhile Char.isDigit }

/-- The texts that two numbers are read of. -/
structure Parsed (v : Vars) : Prop where
  pxCpuStr : LeadingNumeral v.pxCpuStr
  txCpuStr : LeadingNumeral v.txCpuStr

/-- The lines that are logged of the texts, with the key cut short. -/
def lines (v : Vars) (key : Text) : List Text :=
  [fetched "API_KEY".toList key,
    fetched "PRIVATE_KEY_PATH".toList v.privateKey,
    fetched "FIX_CONFIG_PATH".toList v.fixConfig,
    fetched "SYMBOLS".toList v.instStr,
    fetched "PX_SESSION_CPU".toList v.pxCpuStr,
    fetched "TX_SESSION_CPU".toList v.txCpuStr,
    "MAX_DEPTH, value [".toList ++ Nat.toDigits 10 maxDepth ++ "]".toList]

end Vars

/-- **What `from_env` comes to.** It throws before it logs anything. -/
inductive Outcome (env : Environment) (log : List Text) :
    EStateM.Result StdException (List Text) Config → Prop
  | rejected (what : Text) (h : ∀ v : Vars, v.SetIn env → ¬ v.Parsed) :
    Outcome env log (.error (.runtimeError what) log)
  | keyTooShort {v : Vars} (hset : v.SetIn env) (hparsed : v.Parsed) (hlen : v.apiKey.length < 3) :
    Outcome env log (.error .outOfRange log)
  | returned {v : Vars} {key : Text} {cfg : Config} (hset : v.SetIn env) (hparsed : v.Parsed)
    (hlen : 3 ≤ v.apiKey.length) (hkey : masked v.apiKey = .ok key)
    (hcfg : v.leading.Describes cfg) : Outcome env log (.ok cfg (log ++ v.lines key))

/-- Lines that are logged one by one. -/
theorem foldl_log (lines log : List Text) :
    lines.foldl (fun log line => log ++ [line]) log = log ++ lines := by
  induction lines generalizing log with
  | nil => rw [List.foldl_nil, List.append_nil]
  | cons line lines ih => rw [List.foldl_cons, ih, List.append_assoc, List.singleton_append]

section Steps

variable {β : Type} {P : EStateM.Result StdException (List Text) β → Prop} {log : List Text}

/-- A variable is fetched, and what comes after it is about its text. -/
theorem fetch {env : Environment} {key : Text} {f : Text → EStateM StdException (List Text) β}
    (hset : ∀ val, IsSet env key val → P ((f val).run log))
    (hunset : (∀ val, ¬ IsSet env key val) → ∀ what, P (.error (.runtimeError what) log)) :
    P ((lift (Env.getEnvOrThrow env key) >>= f).run log) := by
  rcases Env.getEnvOrThrow_cases env key with ⟨val, hval, hget⟩ | ⟨hno, what, hget⟩
  · rw [run_lift_bind_of_ok hget]
    exact hset val hval
  · rw [run_lift_bind_of_error hget]
    exact hunset hno what

/-- A number is parsed, and what comes after it is about the number. -/
theorem parse {session s : Text} {f : UInt8 → EStateM StdException (List Text) β}
    (hnum : LeadingNumeral s → ∀ cpu : UInt8, cpu.toNat = digitsValue (s.takeWhile Char.isDigit) →
      P ((f cpu).run log))
    (hno : ¬ LeadingNumeral s → ∀ what, P (.error (.runtimeError what) log)) :
    P ((lift (parseCpu session s) >>= f).run log) := by
  rcases parseCpu_cases session s with ⟨hlead, cpu, hcpu, hval⟩ | ⟨hlead, what, hcpu⟩
  · rw [run_lift_bind_of_ok hcpu]
    exact hnum hlead cpu hval
  · rw [run_lift_bind_of_error hcpu]
    exact hno hlead what

end Steps

/-- **What `from_env` does**, in any environment. -/
theorem outcome_fromEnv (env : Environment) (log : List Text) :
    Outcome env log ((fromEnv env).run log) := by
  unfold fromEnv
  -- the variables, in the order they are fetched in
  refine fetch (fun apiKey hkey => ?_)
    (fun hno what => .rejected what (fun v hv => (hno _ hv.apiKey).elim))
  refine fetch (fun privateKey hpriv => ?_)
    (fun hno what => .rejected what (fun v hv => (hno _ hv.privateKey).elim))
  refine fetch (fun fixConfig hfix => ?_)
    (fun hno what => .rejected what (fun v hv => (hno _ hv.fixConfig).elim))
  refine fetch (fun pxCpuStr hpx => ?_)
    (fun hno what => .rejected what (fun v hv => (hno _ hv.pxCpuStr).elim))
  refine fetch (fun txCpuStr htx => ?_)
    (fun hno what => .rejected what (fun v hv => (hno _ hv.txCpuStr).elim))
  refine fetch (fun instStr hinst => ?_)
    (fun hno what => .rejected what (fun v hv => (hno _ hv.instStr).elim))
  have hset : Vars.SetIn ⟨apiKey, privateKey, fixConfig, pxCpuStr, txCpuStr, instStr⟩ env :=
    ⟨hkey, hpriv, hfix, hpx, htx, hinst⟩
  -- the numbers
  refine parse (fun hpxNum pxCpu hpxVal => ?_) (fun hno what => .rejected what (fun v hv h => ?_))
  swap
  · obtain rfl := hv.unique hset
    exact hno h.pxCpuStr
  refine parse (fun htxNum txCpu htxVal => ?_) (fun hno what => .rejected what (fun v hv h => ?_))
  swap
  · obtain rfl := hv.unique hset
    exact hno h.txCpuStr
  -- the key in the log
  rcases masked_cases apiKey with ⟨hlen, key, hmask⟩ | ⟨hlen, hmask⟩
  · rw [run_lift_bind_of_ok hmask]
    have hcfg : Vars.Describes (Vars.leading
          ⟨apiKey, privateKey, fixConfig, pxCpuStr, txCpuStr, instStr⟩) ⟨apiKey, privateKey,
        fixConfig, (viewsSplit instStr ',').filter (fun inst => !inst.isEmpty), pxCpu, txCpu⟩ :=
      ⟨rfl, rfl, rfl, symbols_eq instStr, hpxVal, htxVal⟩
    have hout : Outcome env log _ := .returned hset ⟨hpxNum, htxNum⟩ hlen hmask hcfg
    rw [← foldl_log] at hout
    exact hout
  · rw [run_lift_bind_of_error hmask]
    exact .keyTooShort hset ⟨hpxNum, htxNum⟩ hlen

/-! ## The environments that are accepted -/

/-- **Exactly the valid environments are accepted**, as what they describe, and
the others are rejected by a `std::runtime_error`. -/
structure AcceptsExactly (env : Environment) (log : List Text) : Prop where
  returns_iff : (∃ cfg log', (fromEnv env).run log = .ok cfg log')
    ↔ ∃ v : Vars, v.SetIn env ∧ v.Valid
  describes : ∀ (cfg : Config) (log' : List Text) (v : Vars),
    (fromEnv env).run log = .ok cfg log' → v.SetIn env → v.Describes cfg
  throws : (¬ ∃ v : Vars, v.SetIn env ∧ v.Valid) →
    ∃ what log', (fromEnv env).run log = .error (.runtimeError what) log'

/-- **The texts that `from_env` does not mistake**: a key that is long enough to
cut short, nothing after the digits, and more than commas. -/
structure Vars.Clean (v : Vars) : Prop where
  apiKey : 3 ≤ v.apiKey.length
  pxCpuStr : ∀ c ∈ v.pxCpuStr, c.isDigit = true
  txCpuStr : ∀ c ∈ v.txCpuStr, c.isDigit = true
  instStr : ∃ c ∈ v.instStr, c ≠ ','

theorem Vars.Valid.parsed {v : Vars} (h : v.Valid) : v.Parsed :=
  ⟨((wholeNumeral_iff _).mp h.pxCpuStr).1, ((wholeNumeral_iff _).mp h.txCpuStr).1⟩

theorem Vars.Valid.clean {v : Vars} (h : v.Valid) (hlen : 3 ≤ v.apiKey.length) : v.Clean :=
  ⟨hlen, h.pxCpuStr.1.2, h.txCpuStr.1.2, (pieces_ne_nil_iff _).mp h.instStr⟩

theorem Vars.Clean.valid {v : Vars} (h : v.Clean) (hparsed : v.Parsed) : v.Valid :=
  ⟨(wholeNumeral_iff _).mpr ⟨hparsed.pxCpuStr, h.pxCpuStr⟩,
    (wholeNumeral_iff _).mpr ⟨hparsed.txCpuStr, h.txCpuStr⟩, (pieces_ne_nil_iff _).mpr h.instStr⟩

/-- Nothing follows the digits of a clean text. -/
theorem Vars.Clean.leading_eq {v : Vars} (h : v.Clean) : v.leading = v := by
  rw [Vars.leading, takeWhile_of_digits h.pxCpuStr, takeWhile_of_digits h.txCpuStr]

/-- **When `from_env` accepts exactly what is valid.** -/
theorem accepts_exactly_iff (env : Environment) (log : List Text) :
    AcceptsExactly env log ↔ ∀ v : Vars, v.SetIn env → v.Parsed → v.Clean := by
  have hout := outcome_fromEnv env log
  generalize hrun : (fromEnv env).run log = r at hout
  cases hout with
  | rejected what h =>
    have hinvalid : ¬ ∃ v : Vars, v.SetIn env ∧ v.Valid := by
      rintro ⟨v, hset, hvalid⟩
      exact h v hset hvalid.parsed
    refine iff_of_true ⟨iff_of_false ?_ hinvalid, ?_, fun _ => ⟨what, log, hrun⟩⟩
      (fun v hset hparsed => (h v hset hparsed).elim)
    · rintro ⟨cfg, log', hok⟩
      cases hrun.symm.trans hok
    · intro cfg log' v hok
      cases hrun.symm.trans hok
  | @keyTooShort v hset hparsed hlen =>
    refine iff_of_false (fun h => ?_) (fun h => hlen.not_ge (h v hset hparsed).apiKey)
    by_cases hvalid : ∃ v : Vars, v.SetIn env ∧ v.Valid
    · obtain ⟨cfg, log', hok⟩ := h.returns_iff.mpr hvalid
      cases hrun.symm.trans hok
    · obtain ⟨what, log', herr⟩ := h.throws hvalid
      cases hrun.symm.trans herr
  | @returned v key cfg hset hparsed hlen hkey hcfg =>
    constructor
    · intro h v' hset' _
      obtain ⟨v'', hset'', hvalid⟩ := h.returns_iff.mp ⟨cfg, _, hrun⟩
      obtain rfl := hset'.unique hset''
      obtain rfl := hset.unique hset'
      exact hvalid.clean hlen
    · intro h
      have hclean := h v hset hparsed
      have hvalid := hclean.valid hparsed
      rw [hclean.leading_eq] at hcfg
      refine ⟨iff_of_true ⟨cfg, _, hrun⟩ ⟨v, hset, hvalid⟩, fun cfg' log' v' hok hset' => ?_,
        fun hno => absurd ⟨v, hset, hvalid⟩ hno⟩
      obtain rfl := hset.unique hset'
      obtain ⟨rfl, -⟩ := EStateM.Result.ok.inj (hrun.symm.trans hok)
      exact hcfg

/-- **What is accepted**: what two numbers are read of, with a key that is long
enough. -/
theorem returns_of_parsed {v : Vars} {env : Environment} (hset : v.SetIn env)
    (hparsed : v.Parsed) (hlen : 3 ≤ v.apiKey.length) (log : List Text) :
    ∃ cfg log', (fromEnv env).run log = .ok cfg log' ∧ v.leading.Describes cfg := by
  have hout := outcome_fromEnv env log
  generalize (fromEnv env).run log = r at hout
  cases hout with
  | rejected what h => exact (h v hset hparsed).elim
  | keyTooShort hset' _ hshort =>
    obtain rfl := hset.unique hset'
    exact absurd hlen hshort.not_ge
  | returned hset' _ _ _ hcfg =>
    obtain rfl := hset.unique hset'
    exact ⟨_, _, rfl, hcfg⟩

/-- With a shorter one, cutting it throws. -/
theorem throws_of_short {v : Vars} {env : Environment} (hset : v.SetIn env) (hparsed : v.Parsed)
    (hlen : v.apiKey.length < 3) (log : List Text) :
    (fromEnv env).run log = .error .outOfRange log := by
  have hout := outcome_fromEnv env log
  generalize (fromEnv env).run log = r at hout
  cases hout with
  | rejected what h => exact (h v hset hparsed).elim
  | keyTooShort => rfl
  | returned hset' _ hlong =>
    obtain rfl := hset.unique hset'
    exact absurd hlong hlen.not_ge

/-- An environment of six texts. -/
def Vars.environment (v : Vars) : Environment := fun key => List.lookup key
  [("API_KEY".toList, v.apiKey), ("PRIVATE_KEY_PATH".toList, v.privateKey),
    ("FIX_CONFIG_PATH".toList, v.fixConfig), ("PX_SESSION_CPU".toList, v.pxCpuStr),
    ("TX_SESSION_CPU".toList, v.txCpuStr), ("SYMBOLS".toList, v.instStr)]

/-- Its variables are set, if none of the texts is empty. -/
theorem Vars.setIn_environment {v : Vars}
    (h : ∀ t ∈ [v.apiKey, v.privateKey, v.fixConfig, v.pxCpuStr, v.txCpuStr, v.instStr], t ≠ []) :
    v.SetIn v.environment := by
  simp only [List.forall_mem_cons] at h
  obtain ⟨hkey, hpriv, hfix, hpx, htx, hinst, -⟩ := h
  exact ⟨⟨rfl, hkey⟩, ⟨rfl, hpriv⟩, ⟨rfl, hfix⟩, ⟨rfl, hpx⟩, ⟨rfl, htx⟩, ⟨rfl, hinst⟩⟩

/-- A number with a letter after it. -/
def letterAfter : Vars :=
  ⟨"key".toList, "keypath".toList, "fix".toList, "1x".toList, "1".toList, "BTCUSDT".toList⟩

/-- No symbols. -/
def onlyComma : Vars :=
  ⟨"key".toList, "keypath".toList, "fix".toList, "0".toList, "1".toList, ",".toList⟩

/-- A key of two characters. -/
def shortKey : Vars :=
  ⟨"ab".toList, "keypath".toList, "fix".toList, "0".toList, "1".toList, "BTCUSDT".toList⟩

/-- A number with a letter after it is read as the number, a list of nothing but
a comma as no symbols, and a key of two characters ends in another exception. -/
theorem other_environments :
    (∃ cfg log', (fromEnv letterAfter.environment).run [] = .ok cfg log' ∧ cfg.pxCpu.toNat = 1)
    ∧ (∃ cfg log', (fromEnv onlyComma.environment).run [] = .ok cfg log' ∧ cfg.symbols = [])
    ∧ (fromEnv shortKey.environment).run [] = .error .outOfRange []
    ∧ ¬ ∀ env log, AcceptsExactly env log := by
  have hshort : shortKey.SetIn shortKey.environment := Vars.setIn_environment (by decide)
  have hvalid : shortKey.Valid :=
    ⟨⟨by decide, by decide⟩, ⟨by decide, by decide⟩, (pieces_ne_nil_iff _).mpr ⟨'B', by decide⟩⟩
  have hletter : letterAfter.Parsed := ⟨⟨by decide, by decide⟩, ⟨by decide, by decide⟩⟩
  have hcomma : onlyComma.Parsed := ⟨⟨by decide, by decide⟩, ⟨by decide, by decide⟩⟩
  obtain ⟨cfg, log', hrun, hcfg⟩ :=
    returns_of_parsed (Vars.setIn_environment (by decide)) hletter (by decide) []
  obtain ⟨cfg', log'', hrun', hcfg'⟩ :=
    returns_of_parsed (Vars.setIn_environment (by decide)) hcomma (by decide) []
  have hthrow := throws_of_short hshort hvalid.parsed (by decide) []
  refine ⟨⟨cfg, log', hrun, hcfg.pxCpu⟩, ⟨cfg', log'', hrun', hcfg'.symbols⟩, hthrow, fun h => ?_⟩
  obtain ⟨cfg, log', hok⟩ :=
    (h shortKey.environment []).returns_iff.mpr ⟨shortKey, hshort, hvalid⟩
  cases hthrow.symm.trans hok

end Config

end Binance
