import Sapling.CommandLine.Arguments
import Sapling.CommandLine.Input
import Sapling.Json.Program
import Sapling.Parser
import Sapling.Scanner
import Sapling.Viewer.State

/-!
# Runs

A run works on a console, which holds the input of the program and takes what the program writes.
The jobs of a run read the input, make all of the output and then write it. A job that fails ends
the run, with its error written and the exit code 1. Logs are no part of a run.
-/
namespace Sapling.CommandLine

/-- Why a run has no output. Inputs are named as in the arguments. -/
inductive Failure where
  | reading (file : Option String) (cause : ReadError)
  | parsing (name : String) (cause : SyntaxError)
  | tokenizing (name : String) (cause : SyntaxError)
  deriving DecidableEq, Repr

def Failure.text : Failure → String
  | .reading none cause => "failed to read standard input: " ++ cause.text
  | .reading (some path) cause => "failed to read '" ++ path ++ "': " ++ cause.text
  | .parsing name cause => "failed to parse " ++ name ++ ": " ++ cause.message
  | .tokenizing name cause => "failed to tokenize " ++ name ++ ": " ++ cause.message

def inputName (file : Option String) : String :=
  file.getD "<stdin>"

/-- A token with the line on which it ends. -/
def tokenLine (line : Nat) (token : Token) : String :=
  String.ofList (lineNumber line) ++ "  " ++ token.text ++ "\n"

structure Console where
  /-- What is still to be read from standard input. -/
  stdin : ByteArray
  /-- What is found in a file, by its path. -/
  files : String → Except ReadError ByteArray
  out : String := ""
  err : String := ""
  /-- The viewer that has been opened. -/
  viewer : Option Viewer := none

namespace Console

def ofTree (stdin : ByteArray) (tree : FileTree) : Console :=
  { stdin, files := tree.read }

/-- A job has a result or fails, and leaves the console as it is then, or it does not end. -/
abbrev Job : Type → Type := ExceptT Failure (StateT Console Option)

def takeInput (file : Option String) : Job (Except ReadError ByteArray) := fun console =>
  match file with
  | none => some (.ok (.ok console.stdin), { console with stdin := .empty })
  | some path => some (.ok (console.files path), console)

def readSource (file : Option String) : Job (String × String) := do
  match (← takeInput file).bind decode with
  | .ok source => return (inputName file, source)
  | .error cause => throw (.reading file cause)

/-- What takes no part in the console. It may not end. -/
def await {α : Type} (result : Option α) : Job α := fun console =>
  result.map fun a => (.ok a, console)

def runParser (source : String) (options : ParseOptions) : Job (Except SyntaxError Block) := do
  return (← await (Parser.run options (Lexer.ofString source))).1

def parseSource (name source : String) (options : ParseOptions) : Job Block := do
  match ← runParser source options with
  | .ok program => return program
  | .error e => throw (.parsing name e)

def writeOut (text : String) : Job Unit := fun console =>
  some (.ok (), { console with out := console.out ++ text })

def formatSource (file : Option String) (options : ParseOptions) (layout : Layout) : Job Unit := do
  let (name, source) ← readSource file
  let program ← parseSource name source options
  writeOut (program.print layout)

def fetchToken (name : String) (scanner : Scanner) : Job (Bool × Scanner) := do
  match scanner.fetch with
  | .ok more scanner => return (more, scanner)
  | .error (.refused e) _ => throw (.tokenizing name e)
  -- The scanner is stuck.
  | .error .slotTaken _ => await none

/-- One line for each token that is still to be fetched, behind the lines made so far. -/
def dumpTokens (name output : String) (scanner : Scanner) (console : Console) :
    Option (Except Failure String × Console) :=
  (do
    let (more, scanner) ← fetchToken name scanner
    if more then
      let line := (scanner.current.map (tokenLine scanner.line)).getD ""
      (· |>.dumpTokens name (output ++ line) scanner)
    else return output : Job String).run.run console
partial_fixpoint

/-- Listing the tokens takes no parse. -/
def dump (file : Option String) (options : ParseOptions) (form : Form) : Job Unit := do
  let (name, source) ← readSource file
  let output ← match form with
    | .tokens => dumpTokens name "" (.ofString source)
    | .json => do
      let program ← parseSource name source options
      pure (program.toJson.pretty ++ "\n")
    | .outline => do
      let program ← parseSource name source options
      pure ((Outline.ofProgram program).text 2)
    | .stats => do
      let program ← parseSource name source options
      pure (Census.ofProgram program).report
  writeOut output

def openViewer (viewer : Viewer) : Job Unit := fun console =>
  some (.ok (), { console with viewer := some viewer })

/-- The viewer is opened on a text with an error, too. The run fails when it is closed. -/
def view (file : Option String) (options : ParseOptions) : Job Unit := do
  let (name, source) ← readSource file
  let parsed ← runParser source options
  openViewer (.ofParse name source parsed)
  match parsed with
  | .ok _ => return ()
  | .error e => throw (.parsing name e)

def perform (invocation : Invocation) : Job Unit :=
  match invocation.action with
  | .format layout => formatSource invocation.file invocation.options layout
  | .dump form => dump invocation.file invocation.options form
  | .view => view invocation.file invocation.options

def complain (why : Failure) (console : Console) : Console :=
  { console with err := console.err ++ "error: " ++ why.text ++ "\n" }

/-- The exit code, and the console as the run leaves it. -/
def run (invocation : Invocation) (console : Console) : Option (Nat × Console) := do
  match ← perform invocation console with
  | (.ok (), console) => return (0, console)
  | (.error why, console) => return (1, console.complain why)

/-- What arguments do that stop their own reading. How a wrong use is reported is left open. -/
def stop (console : Console) : Stop → Nat × Console
  | .usage => (2, console)
  | .version => (0, { console with out := console.out ++ "toyast 0.1.0\n" })

def runArguments (arguments : List String) (console : Console) : Option (Nat × Console) :=
  match readArguments arguments with
  | .ok invocation => run invocation console
  | .error stopped => console.stop stopped

end Console
end Sapling.CommandLine
