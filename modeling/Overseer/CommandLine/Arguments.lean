import Overseer.Number.Seconds
import Overseer.Text.Digit
import Overseer.Text.Quoted

/-!
# Arguments of the command line

One command, and options anywhere around it. An option may be cut short as long as no other one
begins the same way; its value follows it or is attached with an equals sign. After a lone `--`
everything is a word. What looks like an option but is none, and words after the first, are not
recognised.
-/

namespace Overseer.CommandLine

open Number Text

inductive Flag where
  | help
  | cwd
  | awaited
  | timeout
  | debug
  deriving DecidableEq, Repr

def spellings : List (String × Flag) :=
  [("-h", .help), ("--help", .help), ("--cwd", .cwd), ("--until", .awaited),
    ("--timeout", .timeout), ("--debug", .debug)]

def Flag.name : Flag → String
  | .help => "-h/--help"
  | .cwd => "--cwd"
  | .awaited => "--until"
  | .timeout => "--timeout"
  | .debug => "--debug"

inductive UsageError where
  | ambiguous (argument : String) (candidates : List String)
  | needlessValue (flag : Flag) (value : String)
  | missingValue (flag : Flag)
  | invalidNumber (flag : Flag) (value : String)
  | missingCommand
  | unrecognized (arguments : List String)
  deriving DecidableEq, Repr

def UsageError.message : UsageError → String
  | .ambiguous argument candidates =>
    "ambiguous option: " ++ argument ++ " could match " ++ ", ".intercalate candidates
  | .needlessValue flag value =>
    "argument " ++ flag.name ++ ": ignored explicit argument " ++ quoted value
  | .missingValue flag => "argument " ++ flag.name ++ ": expected one argument"
  | .invalidNumber flag value =>
    "argument " ++ flag.name ++ ": invalid float value: " ++ quoted value
  | .missingCommand => "the following arguments are required: command"
  | .unrecognized arguments => "unrecognized arguments: " ++ " ".intercalate arguments

structure Arguments where
  command : String
  cwd : Option String := none
  awaited : Option String := none
  timeout : Option Seconds := none
  debug : Bool := false
  deriving DecidableEq, Repr

inductive Parsed where
  | help
  | run (arguments : Arguments)
  deriving DecidableEq, Repr

inductive Token where
  | word (text : String)
  | option (flag : Flag) (value : Option String)
  /-- The short option for help with more letters after it. -/
  | bundle (letters : List Char)
  | unknown (text : String)
  | divider
  deriving DecidableEq, Repr

def isNegativeNumber (s : List Char) : Bool :=
  match s with
  | '-' :: rest =>
    let body := if rest.getLast? = some '\n' then rest.dropLast else rest
    let whole := body.takeWhile isDecimalDigit
    match body.drop whole.length with
    | [] => !whole.isEmpty
    | '.' :: fraction => !fraction.isEmpty && fraction.all isDecimalDigit
    | _ => false
  | _ => false

def splitValue (s : List Char) : String × Option String :=
  match s.dropWhile (· ≠ '=') with
  | [] => (String.ofList s, none)
  | _ :: value => (String.ofList (s.takeWhile (· ≠ '=')), some (String.ofList value))

/-- The options that a text of two dashes and more may be short for. -/
def candidates (start : String) : List (String × Flag) :=
  spellings.filter fun (spelling, _) => start.toList.isPrefixOf spelling.toList

/-- What is left for an argument that is no option: a word, if it is a negative number or holds a
space. -/
def wordOrUnknown (argument : String) : Token :=
  if isNegativeNumber argument.toList || argument.toList.contains ' ' then .word argument
  else .unknown argument

def readShortened (argument : String) : Except UsageError Token :=
  match argument.toList with
  | '-' :: '-' :: _ =>
    let (start, value) := splitValue argument.toList
    match candidates start with
    | [] => .ok (wordOrUnknown argument)
    | [(_, flag)] => .ok (.option flag value)
    | several => .error (.ambiguous argument (several.map (·.1)))
  | '-' :: 'h' :: letters => .ok (.bundle letters)
  | _ => .ok (wordOrUnknown argument)

def readArgument (argument : String) : Except UsageError Token :=
  match argument.toList with
  | '-' :: _ :: _ =>
    match spellings.lookup argument with
    | some flag => .ok (.option flag none)
    | none =>
      let (spelling, value) := splitValue argument.toList
      match value, spellings.lookup spelling with
      | some value, some flag => .ok (.option flag (some value))
      | _, _ => readShortened argument
  | _ => .ok (.word argument)

def readArguments : List String → Except UsageError (List Token)
  | [] => .ok []
  | argument :: rest =>
    if argument = "--" then .ok (.divider :: rest.map .word)
    else do
      let token ← readArgument argument
      let tokens ← readArguments rest
      return token :: tokens

structure Sofar where
  command : Option String := none
  cwd : Option String := none
  awaited : Option String := none
  timeout : Option Seconds := none
  debug : Bool := false
  unrecognized : List String := []
  deriving DecidableEq, Repr

namespace Sofar

def setValue (s : Sofar) (flag : Flag) (value : String) : Except UsageError Sofar :=
  match flag with
  | .cwd => .ok { s with cwd := some value }
  | .awaited => .ok { s with awaited := some value }
  | .timeout =>
    match Binary64.read? value with
    | some x => .ok { s with timeout := some (.real x) }
    | none => .error (.invalidNumber flag value)
  | .help | .debug => .error (.needlessValue flag value)

def strange (s : Sofar) (arguments : List String) : Sofar :=
  { s with unrecognized := s.unrecognized ++ arguments }

def finish (s : Sofar) : Except UsageError Parsed :=
  match s.command with
  | none => .error .missingCommand
  | some command =>
    if s.unrecognized ≠ [] then .error (.unrecognized s.unrecognized)
    else
      .ok (.run
        { command, cwd := s.cwd, awaited := s.awaited, timeout := s.timeout, debug := s.debug })

end Sofar

/-- The letters after the short option for help: the same option again, up to one that is given a
value. -/
def readBundle : List Char → Except UsageError Parsed
  | [] => .ok .help
  | 'h' :: '=' :: value => .error (.needlessValue .help (String.ofList value))
  | 'h' :: letters => readBundle letters
  | '-' :: letters => .error (.needlessValue .help (String.ofList ('-' :: letters)))
  | _ => .ok .help

def wordText : Token → String
  | .word text => text
  | _ => "--"

def understand (s : Sofar) : List Token → Except UsageError Parsed
  | [] => s.finish
  | .word text :: rest =>
    match s.command, rest with
    | some _, rest => understand (s.strange [text]) rest
    | none, .divider :: rest => understand { s with command := some text } rest
    | none, rest => understand { s with command := some text } rest
  | .divider :: rest =>
    match s.command, rest with
    | none, .word text :: rest => understand { s with command := some text } rest
    | _, rest => (s.strange ("--" :: rest.map wordText)).finish
  | .unknown text :: rest => understand (s.strange [text]) rest
  | .bundle letters :: _ => readBundle letters
  | .option flag (some value) :: rest =>
    match s.setValue flag value with
    | .error failure => .error failure
    | .ok s => understand s rest
  | .option .help none :: _ => .ok .help
  | .option .debug none :: rest => understand { s with debug := true } rest
  | .option flag none :: .word value :: rest =>
    match s.setValue flag value with
    | .error failure => .error failure
    | .ok s => understand s rest
  | .option flag none :: _ => .error (.missingValue flag)

def parse (arguments : List String) : Except UsageError Parsed := do
  understand {} (← readArguments arguments)

end Overseer.CommandLine
