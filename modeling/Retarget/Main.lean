import Retarget.CommandLine.Run

/-!
# The program

Everything is decided by `CommandLine`; here files are read and written, and texts are shown.
-/

namespace Retarget.CommandLine

/-- What an error of the file system means for a command. -/
def fileProblem : IO.Error → FileProblem
  | .inappropriateType _ code _ => if code = 20 then .notDirectory else .isDirectory
  | .resourceBusy .. => .isDirectory
  | .invalidArgument .. => .nameTooLong
  | _ => .missing

/-- The texts of the files that a command reads. -/
def gather (c : Command) : IO (String → Except FileProblem String) :=
  match c with
  | .compile input .. => do
    let text ← try pure (Except.ok (← IO.FS.readFile input))
      catch e => pure (.error (fileProblem e))
    return fun _ => text
  | .test .. => return fun _ => .error .missing

/-- Waits for good. -/
partial def wait : IO UInt32 := do
  IO.sleep 1000
  wait

/-- Shows why a command failed; one without end says nothing. -/
def report (p : Problem) : IO UInt32 := do
  if p = .failure .endless then wait
  else
    IO.eprintln s!"Error: {p.message}"
    return p.code.toUInt32

def execute (c : Command) : IO UInt32 := do
  let (shown, answer) := c.compute (← gather c)
  IO.eprint shown
  match answer, c.output? with
  | .error problem, _ => report problem
  | .ok text, none =>
    IO.print text
    return 0
  | .ok text, some path =>
    try
      IO.FS.writeFile path text
      return 0
    catch e => report (.file (fileProblem e))

end Retarget.CommandLine

open Retarget CommandLine in
def main (args : List String) : IO UInt32 :=
  match parse args with
  | .error .showVersion => do
    IO.print versionText
    return 0
  | .error .showHelp => do
    IO.print usageText
    return 0
  | .error .usage => do
    IO.eprint usageText
    return 2
  | .ok command => execute command
