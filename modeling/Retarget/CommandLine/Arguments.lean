import Retarget.Pipeline

/-!
# The command line

A command line is `[-v] compile [options] INPUT`, `[-v] test [options]` or `help`.  An option with
a value takes it from its own argument (`--target=riscv`, `-t=riscv`, `-triscv`) or from the next
one, which must not look like an option; short options without a value may share one argument with
others.  No option may be given twice, and behind `--` every argument is an operand.
-/

namespace Retarget.CommandLine

/-! ## Options -/

/-- The options that a command line may hold. -/
inductive Opt where
  | verbose | version | help
  | target | output | optimize | dump | testName
deriving DecidableEq

namespace Opt

def takesValue : Opt → Bool
  | target | output | dump | testName => true
  | _ => false

def short? : Opt → Option Char
  | verbose => some 'v'
  | version => some 'V'
  | help => some 'h'
  | target => some 't'
  | output => some 'o'
  | optimize => some 'O'
  | testName => some 'n'
  | dump => none

def long? : Opt → Option String
  | verbose => some "verbose"
  | version => some "version"
  | help => some "help"
  | target => some "target"
  | output => some "output"
  | dump => some "dump-mir"
  | testName => some "test-name"
  | optimize => none

end Opt

/-- What may stand on one level of the command line. -/
structure Level where
  options : List Opt
  /-- Whether there may be an input file. -/
  takesInput : Bool

namespace Level

/-- Before the command. -/
def top : Level := ⟨[.verbose, .version, .help], false⟩

def compile : Level := ⟨[.verbose, .help, .target, .output, .optimize, .dump], true⟩

def test : Level := ⟨[.verbose, .help, .target, .output, .testName], false⟩

def byShort? (l : Level) (c : Char) : Option Opt := l.options.find? (·.short? == some c)

def byLong? (l : Level) (name : String) : Option Opt := l.options.find? (·.long? == some name)

end Level

/-! ## Arguments -/

/-- Why a command line is not carried out. -/
inductive Stop where
  | showVersion
  | showHelp
  | usage
deriving DecidableEq

def looksLikeOption (arg : String) : Bool :=
  match arg.toList with
  | '-' :: _ :: _ => true
  | _ => false

/-- A value that has to be of some form. -/
def expect {α : Type} : Option α → Except Stop α
  | some a => .ok a
  | none => .error .usage

/-- A path, which cannot be empty. -/
def path (text : String) : Except Stop String :=
  if text.isEmpty then .error .usage else .ok text

/-- What the arguments of one level say. -/
structure Settings where
  verbose : Bool := false
  target : Option Arch := none
  output : Option String := none
  optimize : Bool := false
  dump : Option Stage := none
  testName : Option String := none
  input : Option String := none

namespace Settings

def given (s : Settings) : Opt → Bool
  | .verbose => s.verbose
  | .target => s.target.isSome
  | .output => s.output.isSome
  | .optimize => s.optimize
  | .dump => s.dump.isSome
  | .testName => s.testName.isSome
  | .version | .help => false

/-- One more option.  The two that only show something stop here; no other may come twice, and a
value is judged as soon as it is read. -/
def set (s : Settings) (o : Opt) (value : String) : Except Stop Settings :=
  if s.given o then .error .usage
  else match o with
    | .version => .error .showVersion
    | .help => .error .showHelp
    | .verbose => .ok { s with verbose := true }
    | .optimize => .ok { s with optimize := true }
    | .testName => .ok { s with testName := some value }
    | .target => do return { s with target := some (← expect (Arch.parse value).toOption) }
    | .output => do return { s with output := some (← path value) }
    | .dump => do return { s with dump := some (← expect (Stage.ofName? value)) }

def addOperand (l : Level) (s : Settings) (arg : String) : Except Stop Settings :=
  if l.takesInput && s.input.isNone then do return { s with input := some (← path arg) }
  else .error .usage

/-- The short options behind a dash.  The answer names the one that still needs a value. -/
def readShort (l : Level) (s : Settings) : List Char → Except Stop (Settings × Option Opt)
  | [] => .ok (s, none)
  | c :: rest => do
    let o ← expect (l.byShort? c)
    if o.takesValue then
      match rest with
      | [] => return (s, some o)
      | '=' :: value => return (← s.set o (String.ofList value), none)
      | value => return (← s.set o (String.ofList value), none)
    else readShort l (← s.set o "") rest

/-- The long option behind two dashes. -/
def readLong (l : Level) (s : Settings) (cs : List Char) : Except Stop (Settings × Option Opt) := do
  let o ← expect (l.byLong? (String.ofList (cs.takeWhile (· != '='))))
  match cs.dropWhile (· != '='), o.takesValue with
  | [], true => return (s, some o)
  | [], false => return (← s.set o "", none)
  | _ :: value, true => return (← s.set o (String.ofList value), none)
  | _ :: _, false => throw .usage

/-- The options of an argument that looks like one. -/
def readOption (l : Level) (s : Settings) (arg : String) : Except Stop (Settings × Option Opt) :=
  match arg.toList with
  | '-' :: '-' :: cs => s.readLong l cs
  | _ :: cs => s.readShort l cs
  | [] => .error .usage

/-- The arguments of one level, up to the first one that `isCommand` accepts. -/
def readLevel (l : Level) (isCommand : String → Bool) :
    Settings → List String → Except Stop (Settings × List String)
  | s, [] => .ok (s, [])
  | s, arg :: rest =>
    if arg = "--" then do
      return (← rest.foldlM (addOperand l) s, [])
    else if looksLikeOption arg then do
      let (s, pending) ← s.readOption l arg
      match pending, rest with
      | none, rest => readLevel l isCommand s rest
      | some _, [] => throw .usage
      | some o, value :: rest =>
        if looksLikeOption value then throw .usage
        readLevel l isCommand (← s.set o value) rest
    else if isCommand arg then .ok (s, arg :: rest)
    else do
      readLevel l isCommand (← s.addOperand l arg) rest

end Settings

/-! ## Commands -/

inductive Command where
  | compile (input : String) (options : Options) (output : Option String)
  | test (name : String) (arch : Arch) (output : Option String)
deriving DecidableEq

namespace Settings

def arch (s : Settings) : Arch := s.target.getD .aarch64

def compile (s : Settings) : Except Stop Command := do
  return .compile (← expect s.input) ⟨s.arch, s.optimize, s.dump⟩ s.output

def test (s : Settings) : Command := .test (s.testName.getD "add") s.arch s.output

end Settings

/-- The words that end the top level. -/
def commandWords : List String := ["compile", "test", "help"]

/-- The command that arguments ask for. -/
def parse (args : List String) : Except Stop Command := do
  let (_, rest) ← Settings.readLevel .top (commandWords.contains ·) {} args
  match rest with
  | "compile" :: rest =>
    let (s, _) ← Settings.readLevel .compile (fun _ => false) {} rest
    s.compile
  | "test" :: rest =>
    let (s, _) ← Settings.readLevel .test (fun _ => false) {} rest
    return s.test
  | ["help"] => throw .showHelp
  | ["help", topic] => throw (if commandWords.contains topic then .showHelp else .usage)
  | _ => throw .usage

end Retarget.CommandLine
