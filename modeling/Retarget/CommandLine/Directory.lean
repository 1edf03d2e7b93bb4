/-!
# Files and the paths to them

The files of a run lie in one directory.  A path is walked step by step, from that directory or from
the root.  Outside only the usual directories of the root are known, so a file there is never found,
but it can be written.
-/

namespace Retarget.CommandLine

/-- Why a file cannot be read or written. -/
inductive FileProblem where
  | missing
  | notDirectory
  | isDirectory
  | nameTooLong
deriving DecidableEq

def FileProblem.message : FileProblem → String
  | missing => "No such file or directory (os error 2)"
  | notDirectory => "Not a directory (os error 20)"
  | isDirectory => "Is a directory (os error 21)"
  | nameTooLong => "File name too long (os error 36)"

/-! ## Paths -/

def maxStepBytes : Nat := 255

def maxPathBytes : Nat := 4095

/-- One step of a path. -/
inductive Step where
  | stay
  | up
  | enter (name : String)
deriving DecidableEq

def Step.ofText (text : String) : Step :=
  if text = "." then .stay else if text = ".." then .up else .enter text

/-- The steps of a path, and how it starts and ends. -/
structure Path where
  /-- It starts at the root. -/
  absolute : Bool
  steps : List Step
  /-- It ends in a slash. -/
  slash : Bool
deriving DecidableEq

/-- The path that a text stands for; neighbouring slashes count as one. -/
def Path.ofText (text : String) : Except FileProblem Path :=
  if maxPathBytes < text.utf8ByteSize then .error .nameTooLong
  else .ok
    { absolute := text.startsWith "/"
      steps := ((text.splitOn "/").filter (· != "")).map Step.ofText
      slash := text.endsWith "/" }

/-! ## Directories -/

/-- Files by name, in one directory. -/
abbrev Directory := List (String × String)

/-- A directory that a walk has reached. -/
inductive Place where
  /-- The directory with the files. -/
  | here
  | root
  | outside
deriving DecidableEq

/-- The directories that every root holds. -/
def rootDirectories : List String :=
  ["bin", "dev", "etc", "home", "lib", "mnt", "opt", "proc", "root", "run", "sbin", "srv", "sys",
    "tmp", "usr", "var"]

/-- What a name stands for in a directory. -/
inductive Found where
  | file (text : String)
  | directory (place : Place)
  | nothing
deriving DecidableEq

namespace Directory

/-- What a name stands for at a place. -/
def find (d : Directory) (place : Place) (name : String) : Except FileProblem Found :=
  if maxStepBytes < name.utf8ByteSize then .error .nameTooLong
  else .ok <| match place with
    | .here => match d.lookup name with
      | some text => .file text
      | none => .nothing
    | .root => if rootDirectories.contains name then .directory .outside else .nothing
    | .outside => .nothing

/-- The place one step further. -/
def step (d : Directory) (place : Place) : Step → Except FileProblem Place
  | .stay => .ok place
  | .up => .ok (if place = .root then .root else .outside)
  | .enter name => do
    match ← d.find place name with
    | .directory place => return place
    | .file _ => throw .notDirectory
    | .nothing => throw .missing

/-- The place of the last name of a path, and the name; a path may also end in a directory. -/
def locate (d : Directory) (path : Path) : Except FileProblem (Place × Option String) := do
  let start := if path.absolute then Place.root else .here
  let place ← path.steps.dropLast.foldlM d.step start
  match path.steps.getLast? with
  | some (.enter name) => return (place, some name)
  | _ => return (place, none)

/-- The text of the file at a path. -/
def read (d : Directory) (path : String) : Except FileProblem String := do
  let path ← Path.ofText path
  let (place, some name) ← d.locate path | throw .isDirectory
  match ← d.find place name with
  | .file text => if path.slash then throw .notDirectory else return text
  | .directory _ => throw .isDirectory
  | .nothing => throw .missing

/-- The directory with a file of a name, instead of the one it had. -/
def put (d : Directory) (name text : String) : Directory :=
  (name, text) :: d.filter fun file => file.1 != name

/-- The directory after a text is written to a path, where a file is made if there is none. -/
def write (d : Directory) (path text : String) : Except FileProblem Directory := do
  let path ← Path.ofText path
  let (place, some name) ← d.locate path | throw .isDirectory
  if path.slash then throw .isDirectory
  match place, ← d.find place name with
  | _, .directory _ => throw .isDirectory
  | .here, _ => return d.put name text
  | _, _ => return d

end Directory

end Retarget.CommandLine
