import Apidoc.Generate

/-!
Words are read from left to right. The value of an option is only looked at when the next option or
path is met, so a word that is unknown counts before a value that is wrong.
-/

namespace Apidoc

/-- Why a command line asks for no run. -/
inductive UsageFault where
  | missingRequired
  | invalidValue
  | unknown
  | conflict
  | tooManyValues
  | help
  | version
  deriving DecidableEq

/-- What a word can be about: the project, or an option. -/
inductive Switch where
  | project
  | format
  | output
  | config
  | verbose
  | help
  | version
  deriving DecidableEq

namespace Switch

def ofShort? : Char → Option Switch
  | 'f' => some format
  | 'o' => some output
  | 'c' => some config
  | 'v' => some verbose
  | 'h' => some help
  | 'V' => some version
  | _ => none

def ofLong? (name : String) : Option Switch :=
  match name with
  | "format" => some format
  | "output" => some output
  | "config" => some config
  | "verbose" => some verbose
  | "help" => some help
  | "version" => some version
  | _ => none

def takesValue : Switch → Bool
  | project => true
  | format => true
  | output => true
  | config => true
  | _ => false

end Switch

/-- What the words so far have said. What was said last is pending, with the word that is its value,
if that has come. -/
structure CommandLine where
  project : Option String := none
  format : Option Format := none
  output : Option String := none
  config : Option String := none
  verbose : Bool := false
  pending : Option (Switch × Option String) := none

namespace CommandLine

/-- Gives an option its value. A value must not be missing or wrong, nor the option given before. -/
def assign (l : CommandLine) (s : Switch) (value : Option String) :
    Except UsageFault CommandLine :=
  match s, value with
  | .project, some text =>
    if text = "" then .error .invalidValue else .ok { l with project := some text }
  | .format, some text =>
    if l.format.isSome then .error .conflict
    else match Format.ofName? text with
      | some f => .ok { l with format := some f }
      | none => .error .invalidValue
  | .output, some text =>
    if l.output.isSome then .error .conflict
    else if text = "" then .error .invalidValue
    else .ok { l with output := some text }
  | .config, some text =>
    if l.config.isSome then .error .conflict
    else if text = "" then .error .invalidValue
    else .ok { l with config := some text }
  | .verbose, none => if l.verbose then .error .conflict else .ok { l with verbose := true }
  | .help, none => .error .help
  | .version, none => .error .version
  | _, none => .error .invalidValue
  | _, some _ => .error .tooManyValues

/-- Settles what is pending. -/
def settle (l : CommandLine) : Except UsageFault CommandLine :=
  match l.pending with
  | none => .ok l
  | some (s, value) => { l with pending := none }.assign s value

/-- An option, with the value that is attached to it. -/
def option (l : CommandLine) (s : Switch) (value : Option String) :
    Except UsageFault CommandLine := do
  let l ← l.settle
  if s.takesValue && value.isNone then return { l with pending := some (s, none) }
  l.assign s value

/-- An option by its long name. -/
def long (l : CommandLine) (cs : List Char) : Except UsageFault CommandLine :=
  let name := cs.takeWhile (· ≠ '=')
  let value := match cs.drop name.length with
    | _ :: value => some (String.ofList value)
    | [] => none
  match Switch.ofLong? (String.ofList name) with
  | none => .error .unknown
  | some s => if value.isSome && !s.takesValue then .error .tooManyValues else l.option s value

/-- Options by their letters; what follows one that takes a value is its value. -/
def short (l : CommandLine) : List Char → Except UsageFault CommandLine
  | [] => .ok l
  | c :: rest =>
    match Switch.ofShort? c with
    | none => .error .unknown
    | some s =>
      if s.takesValue then
        match rest with
        | [] => l.option s none
        | '=' :: value => l.option s (some (String.ofList value))
        | value => l.option s (some (String.ofList value))
      else do
        (← l.option s none).short rest

def hasProject (l : CommandLine) : Bool :=
  l.project.isSome || l.pending.any (·.1 == .project)

/-- A word that is no option: the value of the option before it, or the project. -/
def plain (l : CommandLine) (isAfterMark : Bool) (word : String) : Except UsageFault CommandLine :=
  match l.pending, isAfterMark with
  | some (s, none), false => .ok { l with pending := some (s, some word) }
  | _, _ =>
    if l.hasProject then .error .unknown
    else return { (← l.settle) with pending := some (.project, some word) }

/-- Reads the words that are left; after the mark of two dashes none is an option. -/
def words (isAfterMark : Bool) (l : CommandLine) : List String → Except UsageFault CommandLine
  | [] => l.settle
  | word :: rest => do
    if isAfterMark then words true (← l.plain true word) rest
    else match word.toList with
      | ['-', '-'] => words true l rest
      | '-' :: '-' :: cs => words false (← l.long cs) rest
      | '-' :: c :: cs => words false (← l.short (c :: cs)) rest
      | _ => words false (← l.plain false word) rest

/-- The request that the words of a command line make. -/
def parse (ws : List String) : Except UsageFault Request := do
  let l ← words false {} ws
  match l.project with
  | none => .error .missingRequired
  | some project =>
    .ok { project, format := l.format.getD .yaml, output := l.output, config := l.config,
          verbose := l.verbose }

end CommandLine

end Apidoc
