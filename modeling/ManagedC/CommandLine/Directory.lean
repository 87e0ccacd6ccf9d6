import ManagedC.CommandLine

/-!
# Files and the paths to them

The program is run in a directory. A path leads from there, or from the root of the file system if it
starts with a slash, name by name to a file or a directory; each name but the last has to be that of
a directory. What the path leads to is read, or written if the request asks for it. The directory is
a value here, so that an answer of the program and the directory after it can be computed.
-/

namespace ManagedC.CommandLine

/-- Why a file cannot be read or written. -/
inductive FileFault where
  /-- There is nothing of that name. -/
  | missing
  /-- Access is not allowed. -/
  | denied
  /-- A name before the last one is that of a file. -/
  | notDirectory
  /-- There is a directory of that name. -/
  | isDirectory
  /-- A name, or the whole path, has too many bytes. -/
  | nameTooLong
  deriving DecidableEq, Inhabited

namespace FileFault

/-- Every fault. -/
def all : List FileFault := [.missing, .denied, .notDirectory, .isDirectory, .nameTooLong]

/-- The number that the operating system gives to a fault. -/
def number : FileFault → Nat
  | .missing => 2
  | .denied => 13
  | .notDirectory => 20
  | .isDirectory => 21
  | .nameTooLong => 36

/-- What a fault is called. -/
def name : FileFault → String
  | .missing => "No such file or directory"
  | .denied => "Permission denied"
  | .notDirectory => "Not a directory"
  | .isDirectory => "Is a directory"
  | .nameTooLong => "File name too long"

/-- What is said about a fault. -/
def message (f : FileFault) : String := s!"{f.name} (os error {f.number})"

/-- The fault with a number. -/
def ofNumber? (n : Nat) : Option FileFault := all.find? (·.number == n)

end FileFault

/-- Where the names of a path start. -/
inductive Origin where
  /-- At the root of the file system. -/
  | root
  /-- In the directory that the program is run in, or so many levels above it. -/
  | above (levels : Nat)
  deriving DecidableEq, Inhabited

/-- A place in the file system, where there may be a file, a directory or nothing. -/
structure Spot where
  /-- Where its names start. -/
  origin : Origin
  /-- The names that lead to it. -/
  names : List String
  deriving DecidableEq, Inhabited

/-- A file that stands for something else than a text that is kept. -/
inductive Device where
  /-- Nothing is read from it, and what is written to it is lost. -/
  | null
  /-- The standard output. -/
  | output
  /-- The standard error output. -/
  | errors
  deriving DecidableEq, Inhabited

namespace Spot

/-- The root of the file system. -/
def root : Spot := ⟨.root, []⟩

/-- The directory that the program is run in. -/
def here : Spot := ⟨.above 0, []⟩

/-- The place that a name leads to. -/
def child (s : Spot) (name : String) : Spot := { s with names := s.names ++ [name] }

/-- The place one level up. The root is its own parent. -/
def parent (s : Spot) : Spot :=
  match s.origin, s.names with
  | .above levels, [] => ⟨.above (levels + 1), []⟩
  | origin, names => ⟨origin, names.dropLast⟩

/-- Whether a place is somewhere below another one. -/
def isBelow (s directory : Spot) : Bool :=
  s.origin == directory.origin && directory.names.isPrefixOf s.names &&
    directory.names.length < s.names.length

/-- The device at a place. -/
def device? (s : Spot) : Option Device :=
  if s = ⟨.root, ["dev", "null"]⟩ then some .null
  else if s = ⟨.root, ["dev", "stdout"]⟩ then some .output
  else if s = ⟨.root, ["dev", "stderr"]⟩ then some .errors
  else none

/-- Whether there is a directory at a place on any system. -/
def isSystemDirectory (s : Spot) : Bool :=
  s.names.isEmpty || s.origin == .root &&
    [["bin"], ["dev"], ["etc"], ["home"], ["lib"], ["opt"], ["proc"], ["root"], ["sys"], ["tmp"],
      ["usr"], ["var"]].contains s.names

end Spot

/-- A path. -/
structure Path where
  /-- Where it starts. -/
  start : Spot
  /-- Its names, in order. -/
  names : List String
  /-- Whether a slash follows the last name. -/
  endsInSlash : Bool
  deriving DecidableEq, Inhabited

namespace Path

/-- How many bytes a path may have. -/
def maxSize : Nat := 4095

/-- How many bytes a name may have. -/
def maxNameSize : Nat := 255

/-- The path that a text stands for. Slashes in a row count as one. -/
def ofText (text : String) : Except FileFault Path :=
  if text.isEmpty then throw .missing
  else if maxSize < text.utf8ByteSize then throw .nameTooLong
  else pure ⟨if text.startsWith "/" then .root else .here,
    (text.splitOn "/").filter (· ≠ ""), text.endsWith "/"⟩

end Path

/-- The directory that the program is run in. -/
structure Directory where
  /-- The files that paths lead to, the latest first. -/
  files : List (Spot × String) := []
  deriving DecidableEq, Inhabited

namespace Directory

/-- The directory with some files, each with its name. -/
def ofList (files : List (String × String)) : Directory :=
  ⟨files.reverse.map fun (name, text) =>
    (⟨.above 0, (name.splitOn "/").filter (· ≠ "")⟩, text)⟩

/-- The text that is read at a place. -/
def text? (d : Directory) (s : Spot) : Option String :=
  if s.device?.isSome then some "" else d.files.lookup s

/-- Whether there is a directory at a place. -/
def isDirectory (d : Directory) (s : Spot) : Bool :=
  s.isSystemDirectory || d.files.any (·.1.isBelow s)

/-- Follows one name from a place. -/
def step (d : Directory) (s : Spot) (name : String) : Except FileFault Spot :=
  if !d.isDirectory s then
    throw (if (d.text? s).isSome then .notDirectory else .missing)
  else if name = "." then pure s
  else if name = ".." then pure s.parent
  else if Path.maxNameSize < name.utf8ByteSize then throw .nameTooLong
  else pure (s.child name)

/-- Follows names from a place. There need not be anything where they lead. -/
def follow (d : Directory) (s : Spot) (names : List String) : Except FileFault Spot :=
  names.foldlM d.step s

/-- Reads the file that a path leads to. -/
def read (d : Directory) (path : String) : Except FileFault String := do
  let p ← Path.ofText path
  let s ← d.follow p.start p.names
  match d.text? s with
  | some text => if p.endsInSlash then throw .notDirectory else pure text
  | none => throw (if d.isDirectory s then .isDirectory else .missing)

/-- The place where a text goes that is written to a path. A slash after the last name is a mistake
even if there is nothing of that name. -/
def target (d : Directory) (path : String) : Except FileFault Spot := do
  let p ← Path.ofText path
  let name := p.names.getLastD "."
  if name = "." || name = ".." then
    discard <| d.follow p.start p.names
    throw .isDirectory
  else
    let directory ← d.follow p.start (p.names.dropLast ++ ["."])
    if p.endsInSlash then throw .isDirectory
    let s ← d.step directory name
    if d.isDirectory s then throw .isDirectory else pure s

/-- The directory with a text written at a place. -/
def write (d : Directory) (s : Spot) (text : String) : Directory := ⟨(s, text) :: d.files⟩

/-- Carries out an answer to a request: if there is a file to write, it is written. -/
def perform (d : Directory) (request : Request) (response : Response) : Response × Directory :=
  match response.file with
  | none => (response, d)
  | some (path, text) =>
    match d.target path with
    | .error fault => (request.unwritten fault.message, d)
    | .ok s =>
      match s.device? with
      | none => (response, d.write s text)
      | some .null => (response, d)
      | some .output => ({ response with output := response.output ++ text }, d)
      | some .errors => ({ response with errors := response.errors ++ text }, d)

/-- The answer of the program to the words of a command line, and the directory after it. -/
def respond (d : Directory) (words : List String) : Response × Directory :=
  match request? words with
  | none => (.mistake, d)
  | some request =>
    let source := match request.input? with
      | some path => (d.read path).mapError FileFault.message
      | none => .ok ""
    d.perform request (request.respond source)

end Directory

end ManagedC.CommandLine
