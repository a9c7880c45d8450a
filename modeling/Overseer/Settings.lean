import Overseer.Environment
import Overseer.Failure
import Overseer.Journal

/-!
# Settings

The settings of the harness and how they are read from the environment. A variable that is missing
or unreadable leaves the default; limits are held within their bounds. `SettingsStore` keeps the
settings that were read first until they are read anew.
-/

namespace Overseer

open Number Text

structure Settings where
  cliPrefix : String := "wrangler"
  cliPath : String := "wrangler"
  runTimeout : Seconds := .ofDecimal 50 0
  readTimeout : Seconds := .ofDecimal 10 0
  readyTimeout : Seconds := .ofDecimal 5 0
  debugVariable : String := "WRANGLER_LOG"
  echoOutput : Bool := false
  logDebug : Bool := false
  termTimeout : Seconds := .ofDecimal 2 0
  killTimeout : Seconds := .ofDecimal 1 0
  drainTimeout : Seconds := .ofDecimal 1 0
  deriving DecidableEq, Repr

def readSwitch (value : Option String) (default : Bool) : Bool :=
  match value with
  | none => default
  | some value =>
    ["true", "1", "yes", "on"].contains (String.ofList (value.toList.map Char.toLower))

def leastLimit : Seconds := .ofDecimal 1 (-2)

def greatestLimit : Seconds := .ofDecimal 3600 0

def greatestEndLimit : Seconds := .ofDecimal 60 0

/-- A limit, held between two bounds; the default where there is no number. -/
def readLimit (value : Option String) (default minimum maximum : Seconds) : Seconds :=
  match value with
  | none => default
  | some value =>
    if value = "" then default
    else match Binary64.read? value with
    | some x => Seconds.clamp minimum maximum (.real x)
    | none => default

/-- A text without the blanks around it; the default where nothing else is left. -/
def readText (value : Option String) (default : String) : String :=
  match value with
  | none => default
  | some value => if trim value = "" then default else trim value

def forwardSlashes (path : String) : String :=
  String.ofList (path.toList.map fun c => if c = '\\' then '/' else c)

namespace Settings

def load (env : Environment) : Settings :=
  let cliPrefix := readText (env.get? "E2E_CLI_PREFIX") "wrangler"
  let base : Settings := {}
  let wait (name : String) (default : Seconds) : Seconds :=
    readLimit (env.get? name) default leastLimit greatestLimit
  let ending (name : String) (default : Seconds) : Seconds :=
    readLimit (env.get? name) default leastLimit greatestEndLimit
  { cliPrefix
    cliPath := forwardSlashes (readText (env.get? "E2E_CLI") cliPrefix)
    runTimeout := wait "E2E_RUN_TIMEOUT" base.runTimeout
    readTimeout := wait "E2E_READ_TIMEOUT" base.readTimeout
    readyTimeout := wait "E2E_READY_TIMEOUT" base.readyTimeout
    debugVariable := readText (env.get? "E2E_DEBUG_ENV") base.debugVariable
    echoOutput := readSwitch (env.get? "E2E_ECHO_OUTPUT") false
    logDebug := readSwitch (env.get? "E2E_LOG_DEBUG") false
    termTimeout := ending "E2E_TERM_TIMEOUT" base.termTimeout
    killTimeout := ending "E2E_KILL_TIMEOUT" base.killTimeout
    drainTimeout := ending "E2E_DRAIN_TIMEOUT" base.drainTimeout }

def switchText (on : Bool) : String := if on then "True" else "False"

def describe (s : Settings) : String :=
  "HarnessConfig(cli_prefix=" ++ s.cliPrefix ++ ", cli_path=" ++ s.cliPath ++
    ", run_timeout=" ++ s.runTimeout.text ++ ", read_timeout=" ++ s.readTimeout.text ++
    ", ready_timeout=" ++ s.readyTimeout.text ++ ", debug_env_var=" ++ s.debugVariable ++
    ", echo_output=" ++ switchText s.echoOutput ++ ", log_debug=" ++ switchText s.logDebug ++ ")"

/-- Whether two settings ask for the same: limits are compared as numbers. -/
def same (a b : Settings) : Bool :=
  a.cliPrefix == b.cliPrefix && a.cliPath == b.cliPath && a.runTimeout.same b.runTimeout &&
    a.readTimeout.same b.readTimeout && a.readyTimeout.same b.readyTimeout &&
    a.debugVariable == b.debugVariable && a.echoOutput == b.echoOutput &&
    a.logDebug == b.logDebug && a.termTimeout.same b.termTimeout &&
    a.killTimeout.same b.killTimeout && a.drainTimeout.same b.drainTimeout

def level (s : Settings) : Level := if s.logDebug then .debug else .info

end Settings

structure Reading where
  number : Nat
  settings : Settings
  deriving DecidableEq, Repr

/-- The environment, how often it has been read, and the reading that is kept. -/
structure SettingsStore where
  env : Environment := []
  readings : Nat := 0
  kept : Option Reading := none
  deriving DecidableEq, Repr

namespace SettingsStore

def load (s : SettingsStore) : SettingsStore × Reading :=
  ({ s with readings := s.readings + 1 }, ⟨s.readings, .load s.env⟩)

def reload (s : SettingsStore) : SettingsStore × Reading :=
  let (s, reading) := s.load
  ({ s with kept := some reading }, reading)

def get (s : SettingsStore) : SettingsStore × Reading :=
  match s.kept with
  | some reading => (s, reading)
  | none => s.reload

end SettingsStore

end Overseer
