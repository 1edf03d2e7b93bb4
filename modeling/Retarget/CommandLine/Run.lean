import Retarget.CommandLine.Arguments
import Retarget.CommandLine.Directory
import Retarget.Demo
import Retarget.Ir.Decoding

/-!
# Carrying out a command

The whole effect of a command line on a directory of text files: the exit code, what is shown on the
two output streams, and the files afterwards.
-/

namespace Retarget.CommandLine

/-- Why a command failed. -/
inductive Problem where
  | file (problem : FileProblem)
  /-- The input is not the JSON text of a module. -/
  | notModule
  | unknownDemo (name : String)
  | failure (cause : Failure)
deriving DecidableEq

def Problem.message : Problem → String
  | .file problem => problem.message
  | .notModule => "invalid module"
  | .unknownDemo name => Demo.unknown name
  | .failure cause => cause.message

/-- The module that a command compiles, and how. -/
def Command.load (read : String → Except FileProblem String) :
    Command → Except Problem (Options × Ir.Module)
  | .compile input options _ =>
    match read input with
    | .error problem => .error (.file problem)
    | .ok text =>
      match Ir.Module.parse? text with
      | some m => .ok (options, m)
      | none => .error .notModule
  | .test name arch _ =>
    match Demo.ofName? name with
    | some demo => .ok ({ arch := arch }, demo.toModule arch)
    | none => .error (.unknownDemo name)

/-- Where the assembly text goes; without a path it is shown. -/
def Command.output? : Command → Option String
  | .compile _ _ output | .test _ _ output => output

/-- What a command computes: the machine code shown on the way, and the assembly text. -/
def Command.compute (c : Command) (read : String → Except FileProblem String) :
    String × Except Problem String :=
  match c.load read with
  | .error problem => ("", .error problem)
  | .ok (options, m) =>
    let answer := match options.compile m with
      | .ok text => .ok text
      | .error failure => .error (.failure failure)
    (options.dumpText m, answer)

/-- The end of a run. -/
structure Exit where
  code : Nat
  stdout : String := ""
  stderr : String := ""
  files : Directory

def versionText : String := "mcc 0.1.0\n"

def usageText : String :=
  "Usage: mcc [-v] compile [-t TARGET] [-o FILE] [-O] [--dump-mir STAGE] INPUT\n" ++
    "       mcc [-v] test [-n NAME] [-t TARGET] [-o FILE]\n"

/-- The exit code of a failed run; a number out of range is a fault of the program itself, and a run
without end has to be stopped from outside. -/
def Problem.code : Problem → Nat
  | .failure .outOfRange => 101
  | .failure .endless => 124
  | _ => 1

/-- The end of a run that failed after something was shown. -/
def Problem.exit (p : Problem) (shown : String) (files : Directory) : Exit :=
  { code := p.code, stderr := shown ++ s!"Error: {p.message}\n", files := files }

def run (args : List String) (files : Directory) : Exit :=
  match parse args with
  | .error .showVersion => { code := 0, stdout := versionText, files := files }
  | .error .showHelp => { code := 0, stdout := usageText, files := files }
  | .error .usage => { code := 2, stderr := usageText, files := files }
  | .ok command =>
    let (shown, answer) := command.compute files.read
    match answer, command.output? with
    | .error problem, _ => problem.exit shown files
    | .ok text, none => { code := 0, stdout := text, stderr := shown, files := files }
    | .ok text, some path =>
      match files.write path text with
      | .ok files => { code := 0, stderr := shown, files := files }
      | .error problem => Problem.exit (.file problem) shown files

end Retarget.CommandLine
