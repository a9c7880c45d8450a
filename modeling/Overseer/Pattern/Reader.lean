import Overseer.Pattern.Syntax
import Overseer.Text.Hex

/-!
# Reading patterns

From the text of a pattern to its term. `compile` is total: it refuses a text that is no pattern,
with the cause. Each step of the reader takes at least one character, so the number of characters
bounds the depth of the recursion. Escapes that name a character, as in `\N{BULLET}`, are
not read but refused.
-/

namespace Overseer.Pattern

open Overseer.Text

inductive PatternError where
  | badEscape
  | badRange
  | badRepetition
  | badGroupName
  | badFlags
  | incompatibleFlags
  | misplacedFlags
  | nothingToRepeat
  | repeatedRepetition
  | repeatedGroupName
  | unknownGroup
  | openGroup
  | groupOfSameLookBehind
  | unboundedLookBehind
  | unknownExtension
  | unterminatedSet
  | unterminatedGroup
  | unbalancedParenthesis
  deriving DecidableEq, Repr

structure Modes where
  ignoreCase : Bool := false
  multiLine : Bool := false
  dotAll : Bool := false
  verbose : Bool := false
  ascii : Bool := false
  /-- Whether the contrary of `ascii`, which holds anyhow, has been asked for. -/
  unicode : Bool := false
  deriving DecidableEq, Repr

def Modes.switch (on : Bool) (m : Modes) : Char → Option Modes
  | 'i' => some { m with ignoreCase := on }
  | 'm' => some { m with multiLine := on }
  | 's' => some { m with dotAll := on }
  | 'x' => some { m with verbose := on }
  | 'a' => some { m with ascii := on, unicode := !on }
  | 'u' => some { m with ascii := !on, unicode := on }
  | _ => none

structure Compiled where
  text : String
  term : Term
  groups : Nat
  names : List (String × Nat)
  deriving DecidableEq, Repr

structure ReaderState where
  rest : List Char
  groups : Nat := 0
  names : List (String × Nat) := []
  closed : List (Nat × Width) := []
  /-- How many groups had been opened when the outermost look-behind began. -/
  lookBehind : Option Nat := none
  /-- The greatest number of a group that a conditional has asked about. -/
  asked : Nat := 0

inductive Operand where
  | plain
  | anchor
  | repetition
  deriving DecidableEq, Repr

structure Part where
  term : Term
  kind : Operand := .plain

/-- The terms of a sequence, the last part first, as one term. -/
def sequence (parts : List Part) : Term :=
  match parts with
  | [] => .empty
  | last :: before => before.foldl (fun after part => .seq part.term after) last.term

def controlEscape? : Char → Option Nat
  | 'a' => some 0x7
  | 'f' => some 0xc
  | 'n' => some 0xa
  | 'r' => some 0xd
  | 't' => some 0x9
  | 'v' => some 0xb
  | _ => none

def categoryEscape? : Char → Option (Category × Bool)
  | 'd' => some (.digit, false)
  | 'D' => some (.digit, true)
  | 's' => some (.space, false)
  | 'S' => some (.space, true)
  | 'w' => some (.word, false)
  | 'W' => some (.word, true)
  | _ => none

def anchorEscape? (ascii : Bool) : Char → Option Anchor
  | 'A' => some .textStart
  | 'Z' => some .textEnd
  | 'b' => some (.wordBoundary false ascii)
  | 'B' => some (.wordBoundary true ascii)
  | _ => none

def isOctal (c : Char) : Bool := '0' ≤ c && c ≤ '7'

def octalValue (ds : List Char) : Nat := ds.foldl (fun n c => n * 8 + (c.toNat - 0x30)) 0

def decimalValue (ds : List Char) : Nat := ds.foldl (fun n c => n * 10 + (c.toNat - 0x30)) 0

/-- Exactly `count` hexadecimal digits and what follows. -/
def hexCode (count : Nat) (s : List Char) : Except PatternError (Nat × List Char) :=
  let ds := s.take count
  match ds.mapM hexValue? with
  | some values =>
    let code := values.foldl (fun n v => n * 16 + v) 0
    if ds.length = count ∧ code ≤ 0x10ffff then .ok (code, s.drop count) else .error .badEscape
  | none => .error .badEscape

def hexEscape? (c : Char) (rest : List Char) : Option (Except PatternError (Nat × List Char)) :=
  match c with
  | 'x' => some (hexCode 2 rest)
  | 'u' => some (hexCode 4 rest)
  | 'U' => some (hexCode 8 rest)
  | _ => none

def setEscape (ascii : Bool) (c : Char) (rest : List Char) :
    Except PatternError (SetItem × List Char) :=
  if c = 'b' then .ok (.single 0x8, rest)
  else match controlEscape? c, categoryEscape? c, hexEscape? c rest with
  | some code, _, _ => .ok (.single code, rest)
  | _, some (kind, negated), _ => .ok (.category kind negated ascii, rest)
  | _, _, some code => code.map fun (code, rest) => (.single code, rest)
  | none, none, none =>
    if isOctal c then
      let ds := c :: (rest.take 2).takeWhile isOctal
      let code := octalValue ds
      if code ≤ 0o377 then .ok (.single code, rest.drop (ds.length - 1)) else .error .badEscape
    else if c.isDigit || c.isAlpha then .error .badEscape
    else .ok (.single c.toNat, rest)

def setMember (ascii : Bool) : List Char → Except PatternError (SetItem × List Char)
  | [] => .error .unterminatedSet
  | ['\\'] => .error .badEscape
  | '\\' :: c :: rest => setEscape ascii c rest
  | c :: rest => .ok (.single c.toNat, rest)

/-- The members of a set up to its closing bracket, which a set cannot start with. -/
def setItems (ascii : Bool) : (fuel : Nat) → List SetItem → List Char →
    Except PatternError (List SetItem × List Char)
  | 0, _, _ => .error .unterminatedSet
  | fuel + 1, items, s =>
    match s with
    | [] => .error .unterminatedSet
    | c :: rest =>
      if c = ']' ∧ items ≠ [] then .ok (items.reverse, rest)
      else do
        let (first, after) ← setMember ascii s
        match after with
        | '-' :: ']' :: rest => return ((.single '-'.toNat :: first :: items).reverse, rest)
        | '-' :: more =>
          let (second, after) ← setMember ascii more
          match first, second with
          | .single low, .single high =>
            if high < low then throw .badRange
            else setItems ascii fuel (.range low high :: items) after
          | _, _ => throw .badRange
        | _ => setItems ascii fuel (first :: items) after

/-- The width of a group, nothing known of it being no characters. -/
def ReaderState.groupWidth (st : ReaderState) (index : Nat) : Width :=
  (st.closed.lookup index).getD (.exactly 0)

def ReaderState.checkLookBehind (st : ReaderState) (index : Nat) : Except PatternError Unit :=
  match st.lookBehind with
  | some before =>
    if (st.closed.lookup index).isNone then .error .openGroup
    else if before < index then .error .groupOfSameLookBehind
    else .ok ()
  | none => .ok ()

def ReaderState.reference (st : ReaderState) (modes : Modes) (index : Nat) :
    Except PatternError Term :=
  if index = 0 ∨ st.groups < index then .error .unknownGroup
  else if (st.closed.lookup index).isNone then .error .openGroup
  else (st.checkLookBehind index).map fun _ => .backref modes.ignoreCase index

/-- A reference by number: one digit, or two if a second follows. -/
def numberedReference (modes : Modes) (st : ReaderState) (c : Char) (rest : List Char) :
    Except PatternError (Part × ReaderState) := do
  let more := (rest.take 1).takeWhile Char.isDigit
  let term ← st.reference modes (decimalValue (c :: more))
  return ({ term }, { st with rest := rest.drop more.length })

def escape (modes : Modes) (st : ReaderState) (c : Char) (rest : List Char) :
    Except PatternError (Part × ReaderState) :=
  let literal (code : Nat) (rest : List Char) : Part × ReaderState :=
    ({ term := .char modes.ignoreCase code }, { st with rest })
  match anchorEscape? modes.ascii c, categoryEscape? c, controlEscape? c, hexEscape? c rest with
  | some anchor, _, _, _ => .ok ({ term := .anchor anchor, kind := .anchor }, { st with rest })
  | _, some (kind, negated), _, _ =>
    .ok ({ term := .set modes.ignoreCase false [.category kind negated modes.ascii] },
      { st with rest })
  | _, _, some code, _ => .ok (literal code rest)
  | _, _, _, some code => code.map fun (code, rest) => literal code rest
  | none, none, none, none =>
    if c = '0' then
      let ds := (rest.take 2).takeWhile isOctal
      .ok (literal (octalValue ds) (rest.drop ds.length))
    else if c.isDigit then
      match rest with
      | d :: e :: more =>
        if isOctal c ∧ isOctal d ∧ isOctal e then
          let code := octalValue [c, d, e]
          if code ≤ 0o377 then .ok (literal code more) else .error .badEscape
        else numberedReference modes st c rest
      | _ => numberedReference modes st c rest
    else if c.isAlpha then .error .badEscape
    else .ok (literal c.toNat rest)
/-- The bounds inside braces and what follows them; braces that hold no bounds are plain text. -/
def bounds? (s : List Char) : Option (Option Nat × Option Nat × List Char) :=
  let number (ds : List Char) : Option Nat := if ds = [] then none else some (decimalValue ds)
  let low := s.takeWhile Char.isDigit
  match s.dropWhile Char.isDigit with
  | '}' :: rest => if low = [] then none else some (number low, number low, rest)
  | ',' :: more =>
    let high := more.takeWhile Char.isDigit
    match more.dropWhile Char.isDigit with
    | '}' :: rest => some (number low, number high, rest)
    | _ => none
  | _ => none

def tooMany : Nat := 0xffffffff

def repetition (least : Nat) (most : Option Nat) (parts : List Part) (rest : List Char) :
    Except PatternError (List Part × List Char) :=
  match parts with
  | [] => .error .nothingToRepeat
  | part :: before =>
    match part.kind with
    | .anchor => .error .nothingToRepeat
    | .repetition => .error .repeatedRepetition
    | .plain =>
      let repeated (greed : Greed) (rest : List Char) : List Part × List Char :=
        ({ term := .rep greed least most part.term, kind := .repetition } :: before, rest)
      match rest with
      | '?' :: rest => .ok (repeated .lazy rest)
      | '+' :: rest => .ok (repeated .possessive rest)
      | _ => .ok (repeated .greedy rest)

def nameUntil (mark : Char) (s : List Char) : Except PatternError (String × List Char) :=
  let name := s.takeWhile (· ≠ mark)
  match s.dropWhile (· ≠ mark) with
  | [] => .error .badGroupName
  | _ :: rest => if isName name then .ok (String.ofList name, rest) else .error .badGroupName

/-- The group that a conditional asks about. By its number it can be asked about before it opens. -/
def ReaderState.condition (st : ReaderState) (s : List Char) :
    Except PatternError (Nat × ReaderState) := do
  let name := s.takeWhile (· ≠ ')')
  let (index, rest) ←
    if name ≠ [] ∧ name.all Char.isDigit then pure (decimalValue name, s.drop (name.length + 1))
    else do
      let (name, rest) ← nameUntil ')' s
      match st.names.lookup name with
      | some index => pure (index, rest)
      | none => throw .unknownGroup
  if index = 0 then throw .unknownGroup
  st.checkLookBehind index
  return (index, { st with rest, asked := max st.asked index })

def ReaderState.openGroup (st : ReaderState) (name : Option String) :
    Except PatternError (Nat × ReaderState) :=
  let index := st.groups + 1
  match name with
  | none => .ok (index, { st with groups := index })
  | some name =>
    if (st.names.lookup name).isSome then .error .repeatedGroupName
    else .ok (index, { st with groups := index, names := st.names ++ [(name, index)] })

def ReaderState.closeGroup (st : ReaderState) (index : Nat) (body : Term) : ReaderState :=
  { st with closed := (index, body.width st.groupWidth) :: st.closed }

inductive InlineFlags where
  | whole (modes : Modes)
  | scoped (modes : Modes)

def switches (on : Bool) (modes : Modes) (s : List Char) : Modes × List Char :=
  match s with
  | [] => (modes, [])
  | c :: rest =>
    match modes.switch on c with
    | some modes => switches on modes rest
    | none => (modes, s)

def inlineFlags (modes : Modes) (s : List Char) :
    Except PatternError (InlineFlags × List Char) :=
  let (on, rest) := switches true modes s
  let letters := s.take (s.length - rest.length)
  if letters.contains 'a' ∧ letters.contains 'u' then .error .badFlags
  else match rest with
  | ')' :: rest =>
    if letters = [] then .error .badFlags
    else if (letters.contains 'a' && modes.unicode) || (letters.contains 'u' && modes.ascii) then
      .error .incompatibleFlags
    else .ok (.whole on, rest)
  | ':' :: rest => .ok (.scoped on, rest)
  | '-' :: more =>
    let (off, rest) := switches false on more
    let removed := more.take (more.length - rest.length)
    match rest with
    | ':' :: rest =>
      if removed = [] ∨ removed.any (fun c => c == 'a' || c == 'u' || letters.contains c) then
        .error .badFlags
      else .ok (.scoped off, rest)
    | _ => .error .badFlags
  | _ => .error .badFlags

/-- The text after a comment, if there is a character that ends it. One after a backslash does not.
-/
def afterComment (mark : Char) : List Char → Except PatternError (Option (List Char))
  | [] => .ok none
  | ['\\'] => .error .badEscape
  | '\\' :: _ :: rest => afterComment mark rest
  | c :: rest => if c = mark then .ok (some rest) else afterComment mark rest

def isVerboseSpace (c : Char) : Bool := c == ' ' || (0x9 ≤ c.toNat && c.toNat ≤ 0xd)

def ReaderState.close (st : ReaderState) : Except PatternError ReaderState :=
  match st.rest with
  | ')' :: rest => .ok { st with rest }
  | _ => .error .unterminatedGroup

mutual

/-- Alternatives separated by bars. The modes that hold after the first alternative hold for the
others. -/
def readAlternatives (fuel : Nat) (outermost : Bool) (modes : Modes) (st : ReaderState) :
    Except PatternError (Term × ReaderState) :=
  match fuel with
  | 0 => .error .unterminatedGroup
  | fuel + 1 => do
    let (first, modes, st) ← readSequence fuel outermost modes [] st
    match st.rest with
    | '|' :: rest =>
      let (second, st) ← readMore fuel modes { st with rest }
      return (.alt first second, st)
    | _ => return (first, st)

def readMore (fuel : Nat) (modes : Modes) (st : ReaderState) :
    Except PatternError (Term × ReaderState) :=
  match fuel with
  | 0 => .error .unterminatedGroup
  | fuel + 1 => do
    let (first, _, st) ← readSequence fuel false modes [] st
    match st.rest with
    | '|' :: rest =>
      let (second, st) ← readMore fuel modes { st with rest }
      return (.alt first second, st)
    | _ => return (first, st)

/-- Parts up to a bar, a closing parenthesis or the end. `mayFlag` says whether flags for the whole
pattern may still stand here. -/
def readSequence (fuel : Nat) (mayFlag : Bool) (modes : Modes) (parts : List Part)
    (st : ReaderState) : Except PatternError (Term × Modes × ReaderState) :=
  match fuel with
  | 0 => .error .unterminatedGroup
  | fuel + 1 =>
    let add (part : Part) (st : ReaderState) :=
      readSequence fuel false modes (part :: parts) st
    let repeated (least : Nat) (most : Option Nat) (rest : List Char) := do
      let (parts, rest) ← repetition least most parts rest
      readSequence fuel false modes parts { st with rest }
    match st.rest with
    | [] | '|' :: _ | ')' :: _ => .ok (sequence parts, modes, st)
    | c :: rest =>
      if modes.verbose ∧ isVerboseSpace c then
        readSequence fuel mayFlag modes parts { st with rest }
      else if modes.verbose ∧ c = '#' then do
        let after ← afterComment '\n' rest
        readSequence fuel mayFlag modes parts { st with rest := after.getD [] }
      else match c with
      | '\\' =>
        match rest with
        | [] => .error .badEscape
        | e :: rest => do
          let (part, st) ← escape modes st e rest
          add part st
      | '[' => do
        let (negated, body) := match rest with
          | '^' :: rest => (true, rest)
          | _ => (false, rest)
        let (items, rest) ← setItems modes.ascii (body.length + 1) [] body
        add { term := .set modes.ignoreCase negated items } { st with rest }
      | '.' => add { term := .any modes.dotAll } { st with rest }
      | '^' =>
        let anchor := if modes.multiLine then Anchor.lineStart else .textStart
        add { term := .anchor anchor, kind := .anchor } { st with rest }
      | '$' =>
        let anchor := if modes.multiLine then Anchor.lineEnd else .lastLineEnd
        add { term := .anchor anchor, kind := .anchor } { st with rest }
      | '?' => repeated 0 (some 1) rest
      | '*' => repeated 0 none rest
      | '+' => repeated 1 none rest
      | '{' =>
        match bounds? rest with
        | none => add { term := .char modes.ignoreCase c.toNat } { st with rest }
        | some (least, most, rest) =>
          let least := least.getD 0
          if tooMany ≤ max least (most.getD 0) ∨ most.any (· < least) then .error .badRepetition
          else repeated least most rest
      | '(' => do
        let (part, modes, st) ← readGroup fuel (mayFlag && parts.isEmpty) modes { st with rest }
        match part with
        | some part => readSequence fuel false modes (part :: parts) st
        | none => readSequence fuel mayFlag modes parts st
      | _ => add { term := .char modes.ignoreCase c.toNat } { st with rest }

/-- A group after its opening parenthesis: its part, unless it is a comment or switches modes. -/
def readGroup (fuel : Nat) (mayFlag : Bool) (modes : Modes) (st : ReaderState) :
    Except PatternError (Option Part × Modes × ReaderState) :=
  match fuel with
  | 0 => .error .unterminatedGroup
  | fuel + 1 =>
    let capture (name : Option String) (st : ReaderState) := do
      let (index, st) ← st.openGroup name
      let (body, st) ← readAlternatives fuel false modes st
      let st ← st.close
      return (some { term := .group index body }, modes, st.closeGroup index body)
    let plain (inner : Modes) (wrap : Term → Term) (st : ReaderState) := do
      let (body, st) ← readAlternatives fuel false inner st
      let st ← st.close
      return (some { term := wrap body }, modes, st)
    let behind (negated : Bool) (st : ReaderState) := do
      let outer := st.lookBehind
      let (body, st) ← readAlternatives fuel false modes
        { st with lookBehind := outer <|> some st.groups }
      let st ← st.close
      let width := body.width st.groupWidth
      if width.most = some width.least then
        return (some { term := .behind negated width.least body }, modes,
          { st with lookBehind := outer })
      else throw .unboundedLookBehind
    match st.rest with
    | '?' :: 'P' :: '<' :: rest => do
      let (name, rest) ← nameUntil '>' rest
      capture (some name) { st with rest }
    | '?' :: 'P' :: '=' :: rest => do
      let (name, rest) ← nameUntil ')' rest
      match st.names.lookup name with
      | none => throw .unknownGroup
      | some index =>
        let term ← st.reference modes index
        return (some { term }, modes, { st with rest })
    | '?' :: ':' :: rest => plain modes id { st with rest }
    | '?' :: '>' :: rest => plain modes Term.atomic { st with rest }
    | '?' :: '=' :: rest => plain modes (Term.ahead false) { st with rest }
    | '?' :: '!' :: rest => plain modes (Term.ahead true) { st with rest }
    | '?' :: '<' :: '=' :: rest => behind false { st with rest }
    | '?' :: '<' :: '!' :: rest => behind true { st with rest }
    | '?' :: '#' :: rest => do
      match ← afterComment ')' rest with
      | some rest => return (none, modes, { st with rest })
      | none => throw .unterminatedGroup
    | '?' :: '(' :: rest => do
      let (index, st) ← st.condition rest
      let (yes, _, st) ← readSequence fuel false modes [] st
      let (no, st) ← match st.rest with
        | '|' :: rest => do
          let (no, _, st) ← readSequence fuel false modes [] { st with rest }
          pure (no, st)
        | _ => pure (.empty, st)
      let st ← st.close
      return (some { term := .cond index yes no }, modes, st)
    | '?' :: c :: rest =>
      if c = '-' ∨ (modes.switch true c).isSome then do
        let (flags, rest) ← inlineFlags modes (c :: rest)
        match flags with
        | .whole modes =>
          if mayFlag then return (none, modes, { st with rest }) else throw .misplacedFlags
        | .scoped inner => plain inner id { st with rest }
      else .error .unknownExtension
    | ['?'] => .error .unknownExtension
    | _ => capture none st

end

def compile (modes : Modes) (text : String) : Except PatternError Compiled := do
  let chars := text.toList
  let (term, st) ← readAlternatives (3 * chars.length + 3) true modes { rest := chars }
  match st.rest with
  | [] =>
    if st.groups < st.asked then throw .unknownGroup
    else return { text, term, groups := st.groups, names := st.names }
  | _ => throw .unbalancedParenthesis

end Overseer.Pattern
