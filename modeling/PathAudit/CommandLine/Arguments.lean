import PathAudit.PathKind
import PathAudit.Severity

/-! The command line: three commands with their options, read from a list of arguments. An option
keeps its values until the next argument that is not one of them, and only then are they judged,
so that of two faults the one that is settled first is reported. -/

namespace PathAudit.CommandLine

inductive Format
  | pretty
  | short
  | json
deriving DecidableEq, Repr

def Format.ofName? : String → Option Format
  | "pretty" => some .pretty
  | "short" => some .short
  | "json" => some .json
  | _ => none

structure CheckArguments where
  files : List String
  severity : Option Severity
  strictKinds : Bool
  root : Option String
  format : Format
  noColor : Bool
deriving DecidableEq, Repr

structure ValidateArguments where
  kind : PathKind
  path : String
  message : Option String
  root : Option String
deriving DecidableEq, Repr

inductive Command
  | check (arguments : CheckArguments)
  | validate (arguments : ValidateArguments)
  | root (directory : Option String)
deriving DecidableEq, Repr

/-- A command line that was understood. -/
structure Invocation where
  verbose : Bool
  command : Command
deriving DecidableEq, Repr

/-- Why a command line names no command to run. The first two are what was asked for. -/
inductive Refusal
  | help
  | version
  | nothingGiven
  | missingCommand
  | unknownCommand (name : String)
  | unknownArgument (argument : String)
  | unwantedValue (option : String)
  | badValue (value : String)
  | noSuchChoice (value : String)
  | repeated (option : String)
  | missingArgument (name : String)
deriving DecidableEq, Repr

inductive Parameter
  | verbose
  | help
  | version
  | files
  | severity
  | strictKinds
  | root
  | format
  | noColor
  | kind
  | path
  | message
  | directory
deriving DecidableEq, Repr

namespace Parameter

/-- How a parameter is written: an option by two dashes and its name. -/
def name : Parameter → String
  | verbose => "verbose"
  | help => "help"
  | version => "version"
  | files => "files"
  | severity => "severity"
  | strictKinds => "strict-kinds"
  | root => "root"
  | format => "format"
  | noColor => "no-color"
  | kind => "kind"
  | path => "path"
  | message => "message"
  | directory => "dir"

def letter? : Parameter → Option Char
  | verbose => some 'v'
  | help => some 'h'
  | version => some 'V'
  | _ => none

/-- Holds of an option that takes no value. -/
def isFlag : Parameter → Bool
  | verbose | help | version | strictKinds | noColor => true
  | _ => false

end Parameter

/-- The options and the places of a command. -/
structure Shape where
  options : List Parameter
  places : List Parameter

namespace Shape

def program : Shape := ⟨[.verbose, .help, .version], []⟩

def check : Shape :=
  ⟨[.severity, .strictKinds, .root, .format, .noColor, .verbose, .help], [.files]⟩

def validate : Shape := ⟨[.message, .root, .verbose, .help], [.kind, .path]⟩

def root : Shape := ⟨[.verbose, .help], [.directory]⟩

def named? (s : Shape) (name : String) : Option Parameter :=
  s.options.find? (·.name == name)

def lettered? (s : Shape) (letter : Char) : Option Parameter :=
  s.options.find? (·.letter? == some letter)

end Shape

/-- The values that were given and judged. -/
structure Given where
  verbose : Bool
  files : List String
  severity : Option Severity
  strictKinds : Bool
  root : Option String
  format : Option Format
  noColor : Bool
  kind : Option PathKind
  path : Option String
  message : Option String
  directory : Option String

namespace Given

def nothing : Given := ⟨false, [], none, false, none, none, false, none, none, none, none⟩

/-- Sets a flag, which may be given once. -/
def once (p : Parameter) (given : Bool) : Except Refusal Bool :=
  if given then .error (.repeated p.name) else .ok true

def single {α : Type} (p : Parameter) (given : Option α) (values : List String)
    (read : String → Except Refusal α) : Except Refusal (Option α) :=
  match values with
  | [] => .error (.noSuchChoice "")
  | value :: _ => if given.isSome then .error (.repeated p.name) else (read value).map some

def nonEmpty (value : String) : Except Refusal String :=
  if value.isEmpty then .error (.noSuchChoice value) else .ok value

def choice {α : Type} (choose : String → Option α) (value : String) : Except Refusal α :=
  match choose value with
  | some a => .ok a
  | none => .error (.noSuchChoice value)

def severityNamed (value : String) : Except Refusal Severity :=
  match Severity.ofName? value with
  | some s => .ok s
  | none => .error (.badValue value)

/-- Judges the values of a parameter and keeps them. -/
def keep (g : Given) (p : Parameter) (values : List String) : Except Refusal Given := do
  match p with
  | .help => throw .help
  | .version => throw .version
  | .verbose => pure { g with verbose := ← once p g.verbose }
  | .strictKinds => pure { g with strictKinds := ← once p g.strictKinds }
  | .noColor => pure { g with noColor := ← once p g.noColor }
  | .files => pure { g with files := g.files ++ (← values.mapM nonEmpty) }
  | .severity => pure { g with severity := ← single p g.severity values severityNamed }
  | .root => pure { g with root := ← single p g.root values nonEmpty }
  | .format => pure { g with format := ← single p g.format values (choice Format.ofName?) }
  | .kind => pure { g with kind := ← single p g.kind values (choice PathKind.ofName?) }
  | .path => pure { g with path := ← single p g.path values .ok }
  | .message => pure { g with message := ← single p g.message values .ok }
  | .directory => pure { g with directory := ← single p g.directory values nonEmpty }

end Given

inductive Reading
  /-- Two dashes: only values follow. -/
  | separator
  /-- An option by its name, with the value attached to it. -/
  | long (name : String) (value : Option String)
  /-- Options by their letters. -/
  | letters (letters : List Char)
  /-- Anything else. -/
  | plain

/-- Reads an argument. A single dash is a value. -/
def Reading.ofText (argument : String) : Reading :=
  match argument.toList with
  | ['-', '-'] => .separator
  | '-' :: '-' :: r =>
    let name := r.takeWhile (· != '=')
    let value := match r.drop name.length with
      | _ :: v => some (String.ofList v)
      | [] => none
    .long (String.ofList name) value
  | '-' :: c :: r => .letters (c :: r)
  | _ => .plain

/-- A command whose arguments are being read: what was kept, the parameter whose values are not
settled yet, whether it waits for one, the number of places filled, and whether only values
follow. -/
structure Progress where
  given : Given
  pending : Option (Parameter × List String)
  waiting : Bool
  filled : Nat
  valuesOnly : Bool

namespace Progress

def start : Progress := ⟨Given.nothing, none, false, 0, false⟩

/-- Judges the values that are not settled yet. -/
def settle (s : Progress) : Except Refusal Progress := do
  match s.pending with
  | none => pure s
  | some (p, values) => pure { s with given := ← s.given.keep p values, pending := none }

/-- Takes an option without value, or with the value attached to it. -/
def takeNow (s : Progress) (p : Parameter) (values : List String) : Except Refusal Progress := do
  let s ← s.settle
  pure { s with given := ← s.given.keep p values, waiting := false }

def takeNamed (shape : Shape) (s : Progress) (argument name : String) (value : Option String) :
    Except Refusal Progress := do
  match shape.named? name, value with
  | none, _ => throw (.unknownArgument argument)
  | some p, some value =>
    if p.isFlag then throw (.unwantedValue argument) else s.takeNow p [value]
  | some p, none =>
    if p.isFlag then s.takeNow p []
    else
      let s ← s.settle
      pure { s with pending := some (p, []), waiting := true }

def takeLetters (shape : Shape) (s : Progress) (argument : String) :
    List Char → Except Refusal Progress
  | [] => pure s
  | c :: cs => do
    match shape.lettered? c with
    | some p => takeLetters shape (← s.takeNow p []) argument cs
    | none => throw (.unknownArgument argument)

/-- Takes a value: that of the option that waits for one, or that of the next place. The files
share the last place. -/
def takeValue (shape : Shape) (s : Progress) (value : String) : Except Refusal Progress := do
  match s.pending, s.waiting && !s.valuesOnly with
  | some (p, values), true =>
    pure { s with pending := some (p, values ++ [value]), waiting := false }
  | _, _ =>
    match shape.places[s.filled]? with
    | none => throw (.unknownArgument value)
    | some .files =>
      match s.pending with
      | some (.files, values) => pure { s with pending := some (.files, values ++ [value]) }
      | _ =>
        let s ← s.settle
        pure { s with pending := some (.files, [value]) }
    | some p =>
      let s ← s.settle
      pure { s with pending := some (p, [value]), filled := s.filled + 1 }

def take (shape : Shape) (s : Progress) (argument : String) : Except Refusal Progress :=
  if s.valuesOnly then s.takeValue shape argument
  else match Reading.ofText argument with
    | .separator => .ok { s with valuesOnly := true }
    | .long name value => s.takeNamed shape argument name value
    | .letters letters => s.takeLetters shape argument letters
    | .plain => s.takeValue shape argument

end Progress

def Given.ofArguments (shape : Shape) (arguments : List String) : Except Refusal Given := do
  return (← (← arguments.foldlM (Progress.take shape) Progress.start).settle).given

inductive CommandName
  | check
  | validate
  | root
  | help
deriving DecidableEq, Repr

def CommandName.ofText? : String → Option CommandName
  | "check" => some .check
  | "validate" => some .validate
  | "root" => some .root
  | "help" => some .help
  | _ => none

def readCommand (verbose : Bool) (arguments : List String) : CommandName →
    Except Refusal Invocation
  | .check => do
    let g ← Given.ofArguments Shape.check arguments
    if g.files.isEmpty then throw (.missingArgument "files")
    pure ⟨verbose || g.verbose, .check
      { files := g.files
        severity := g.severity
        strictKinds := g.strictKinds
        root := g.root
        format := g.format.getD .pretty
        noColor := g.noColor }⟩
  | .validate => do
    let g ← Given.ofArguments Shape.validate arguments
    let some kind := g.kind | throw (.missingArgument "kind")
    let some path := g.path | throw (.missingArgument "path")
    pure ⟨verbose || g.verbose, .validate ⟨kind, path, g.message, g.root⟩⟩
  | .root => do
    let g ← Given.ofArguments Shape.root arguments
    pure ⟨verbose || g.verbose, .root g.directory⟩
  | .help =>
    match arguments with
    | [] => .error .help
    | topic :: more =>
      if (CommandName.ofText? topic).isSome && more.isEmpty then .error .help
      else .error (.unknownCommand topic)

/-- Reads the arguments from the first one that is not taken yet, up to the name of a command.
Behind two dashes no command is found. -/
def readFrom (s : Progress) : List String → Except Refusal Invocation
  | [] => .error (if s.given.verbose then .missingCommand else .nothingGiven)
  | argument :: arguments => do
    match CommandName.ofText? argument with
    | some name =>
      if s.valuesOnly then throw (.unknownArgument argument)
      readCommand s.given.verbose arguments name
    | none =>
      match Reading.ofText argument, s.valuesOnly with
      | .plain, _ => throw (.unknownCommand argument)
      | _, true => throw (.unknownCommand argument)
      | _, false => readFrom (← s.take Shape.program argument) arguments

def Invocation.ofArguments (arguments : List String) : Except Refusal Invocation :=
  readFrom Progress.start arguments

end PathAudit.CommandLine
