import Sapling.CommandLine.Input
import Sapling.Parse.Basic
import Sapling.Printer

/-!
# Arguments

    [OPTION]... [fmt [FILE] | dump [FILE] | view FILE]

Arguments are read from left to right, and the first that is wrong ends the reading. An option may
be given once before the subcommand and once behind it, where the later one counts. Its value is
the next argument unless it is attached; an argument that looks like an option is no value. After
`--` all arguments are files.
-/
namespace Sapling.CommandLine

inductive Form where
  | json
  | outline
  | stats
  | tokens
  deriving DecidableEq, Repr

def Form.ofText? (text : String) : Option Form :=
  [("json", Form.json), ("outline", .outline), ("stats", .stats), ("tokens", .tokens)].lookup text

inductive Command where
  | fmt
  | dump
  | view
  deriving DecidableEq, Repr

def Command.ofText? (text : String) : Option Command :=
  [("fmt", Command.fmt), ("dump", .dump), ("view", .view)].lookup text

inductive Opt where
  | strictParams
  | maxDepth
  | verbose
  | version
  | indent
  | format
  deriving DecidableEq, Repr

namespace Opt

def all : List Opt :=
  [.strictParams, .maxDepth, .verbose, .version, .indent, .format]

def long : Opt → String
  | .strictParams => "strict-params"
  | .maxDepth => "max-depth"
  | .verbose => "verbose"
  | .version => "version"
  | .indent => "indent"
  | .format => "format"

def short? : Opt → Option Char
  | .verbose => some 'v'
  | .version => some 'V'
  | .format => some 'f'
  | _ => none

def takesValue : Opt → Bool
  | .maxDepth | .indent | .format => true
  | _ => false

/-- Whether an option may stand behind a subcommand, or before one. -/
def belongsTo (command : Option Command) : Opt → Bool
  | .strictParams | .maxDepth | .verbose => true
  | .version => command.isNone
  | .indent => command == some .fmt
  | .format => command == some .dump

end Opt

/-- What has been given at one place: before the subcommand, or behind it. -/
structure Given where
  strictParams : Bool := false
  verbose : Bool := false
  maxDepth : Option Nat := none
  indent : Option Nat := none
  format : Option Form := none
  file : Option String := none
  deriving DecidableEq, Repr

inductive Stop where
  | usage
  | version
  deriving DecidableEq, Repr

/-- A whole number below 2^64: digits, perhaps after a plus sign. -/
def wholeNumber? (text : String) : Option Nat :=
  let digits := match text.toList with
    | '+' :: rest => rest
    | chars => chars
  if digits.isEmpty || !digits.all Char.isDigit then none
  else
    let n := digits.foldl (fun n c => 10 * n + (c.toNat - '0'.toNat)) 0
    if n < UInt64.size then some n else none

namespace Given

def flag (given : Given) : Opt → Except Stop Given
  | .strictParams =>
    if given.strictParams then .error .usage else .ok { given with strictParams := true }
  | .verbose => if given.verbose then .error .usage else .ok { given with verbose := true }
  | .version => .error .version
  | _ => .error .usage

def value (given : Given) (text : String) : Opt → Except Stop Given
  | .maxDepth =>
    match given.maxDepth, wholeNumber? text with
    | none, some n => .ok { given with maxDepth := some n }
    | _, _ => .error .usage
  | .indent =>
    match given.indent, (wholeNumber? text).filter (· ≤ 16) with
    | none, some n => .ok { given with indent := some n }
    | _, _ => .error .usage
  | .format =>
    match given.format, Form.ofText? text with
    | none, some form => .ok { given with format := some form }
    | _, _ => .error .usage
  | _ => .error .usage

def setFile (given : Given) (path : String) : Except Stop Given :=
  if given.file.isSome || path.isEmpty then .error .usage
  else .ok { given with file := some path }

end Given

structure Reading where
  command : Option Command := none
  /-- An option that still waits for its value. -/
  pending : Option Opt := none
  /-- Only files may follow. -/
  filesOnly : Bool := false
  /-- What was given before the subcommand. -/
  before : Given := {}
  /-- What has been given at the present place. -/
  given : Given := {}
  deriving Repr

namespace Reading

def find? (reading : Reading) (named : Opt → Bool) : Option Opt :=
  Opt.all.find? fun option => named option && option.belongsTo reading.command

def update (reading : Reading) (given : Except Stop Given) : Except Stop Reading :=
  given.map fun given => { reading with given }

/-- An argument that begins with two dashes, without them. -/
def long (reading : Reading) (chars : List Char) : Except Stop Reading :=
  let name := String.ofList (chars.takeWhile (· != '='))
  match reading.find? (·.long == name), chars.dropWhile (· != '=') with
  | none, _ => .error .usage
  | some option, [] =>
    if option.takesValue then .ok { reading with pending := some option }
    else reading.update (reading.given.flag option)
  | some option, _ :: value =>
    reading.update (reading.given.value (String.ofList value) option)

/-- An argument that begins with one dash, without it: flags, and perhaps an option that takes the
rest as its value. -/
def short (reading : Reading) : List Char → Except Stop Reading
  | [] => .ok reading
  | c :: cs =>
    match reading.find? (·.short? == some c) with
    | none => .error .usage
    | some option =>
      if option.takesValue then
        match cs with
        | [] => .ok { reading with pending := some option }
        | '=' :: value => reading.update (reading.given.value (String.ofList value) option)
        | value => reading.update (reading.given.value (String.ofList value) option)
      else
        match reading.given.flag option with
        | .ok given => short { reading with given } cs
        | .error stop => .error stop

/-- A subcommand, or the file behind one. -/
def word (reading : Reading) (text : String) : Except Stop Reading :=
  match reading.command with
  | some _ => reading.update (reading.given.setFile text)
  | none =>
    match Command.ofText? text with
    | some command =>
      if reading.filesOnly then .error .usage
      else .ok { command := some command, before := reading.given }
    | none => .error .usage

def step (reading : Reading) (argument : String) : Except Stop Reading :=
  if reading.filesOnly then reading.word argument
  else
    match reading.pending, argument.toList with
    | some _, '-' :: _ :: _ => .error .usage
    | some option, _ =>
      { reading with pending := none }.update (reading.given.value argument option)
    | none, ['-', '-'] => .ok { reading with filesOnly := true }
    | none, '-' :: '-' :: chars => reading.long chars
    | none, '-' :: c :: chars => reading.short (c :: chars)
    | none, _ => reading.word argument

end Reading

inductive Action where
  | format (layout : Layout)
  | dump (form : Form)
  | view
  deriving DecidableEq, Repr

/-- What the arguments ask for. Without a file the program is read from standard input. -/
structure Invocation where
  options : ParseOptions
  file : Option String
  action : Action
  deriving DecidableEq, Repr

namespace Reading

def finish (reading : Reading) : Except Stop Invocation :=
  let before := reading.before
  let given := reading.given
  let options : ParseOptions :=
    { strictParams := before.strictParams || given.strictParams
      maxDepth := ((given.maxDepth <|> before.maxDepth).getD ({} : ParseOptions).maxDepth) }
  let file := given.file.filter (!isStandardInput ·)
  if reading.pending.isSome then .error .usage
  else
    match reading.command with
    | none => .ok ⟨options, none, .format {}⟩
    | some .fmt => .ok ⟨options, file, .format ((given.indent.map Layout.ofWidth).getD {})⟩
    | some .dump => .ok ⟨options, file, .dump (given.format.getD .outline)⟩
    | some .view => if given.file.isNone then .error .usage else .ok ⟨options, file, .view⟩

end Reading

def readArguments (arguments : List String) : Except Stop Invocation := do
  (← arguments.foldlM Reading.step {}).finish

end Sapling.CommandLine
