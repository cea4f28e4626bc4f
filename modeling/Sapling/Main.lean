import Sapling.CommandLine.Run

/-!
# Command line program

Runs on a console that holds the input named by the arguments, writes what the run has written, and
shows a viewer as the first screen that it draws.
-/
namespace Sapling.CommandLine

partial def readAll (stream : IO.FS.Stream) (bytes : ByteArray) : IO ByteArray := do
  let more ← stream.read 65536
  if more.isEmpty then return bytes
  readAll stream (bytes ++ more)

def readFile (path : String) : IO (Except ReadError ByteArray) := do
  try return .ok (← IO.FS.readBinFile path)
  catch
    | .inappropriateType _ code _ =>
      return .error (if code = 20 then .notDirectory else .isDirectory)
    | _ => return .error .notFound

/-- The console of a run. Only the file that the arguments name is looked up. -/
def readConsole (arguments : List String) : IO Console := do
  match readArguments arguments with
  | .ok ⟨_, some path, _⟩ =>
    let content ← readFile path
    return { stdin := .empty, files := fun _ => content }
  | .ok ⟨_, none, _⟩ =>
    return { stdin := ← readAll (← IO.getStdin) .empty, files := fun _ => .error .notFound }
  | .error _ => return { stdin := .empty, files := fun _ => .error .notFound }

def perform (arguments : List String) : IO UInt32 := do
  match Console.runArguments arguments (← readConsole arguments) with
  | none => throw (IO.userError "the run does not end")
  | some (exitCode, last) =>
    IO.print last.out
    if let some viewer := last.viewer then
      for row in (viewer.draw 80 24).2 do
        IO.println (Row.symbols row)
    IO.eprint last.err
    return exitCode.toUInt32

end Sapling.CommandLine

def main (arguments : List String) : IO UInt32 :=
  Sapling.CommandLine.perform arguments
