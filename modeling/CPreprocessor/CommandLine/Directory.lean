import CPreprocessor.Failure

/-!
A directory of files without subdirectories, and the paths that start in it. A path is
walked name by name. Of what is around the directory only the null device is known: other
names there belong to no file.
-/

namespace CPreprocessor

/-- Files by name. -/
structure Directory where
  files : List (Text × Text) := []
deriving DecidableEq, Repr

namespace Directory

/-- Where a path leads: to a directory, to a file, or to a name that no file has. Each is
either the directory itself or in it (`here`), or around it. -/
inductive Place where
  | directory (here : Bool)
  | file (here : Bool) (name content : Text)
  | free (here : Bool) (name : Text)
deriving DecidableEq, Repr

/-- The texts between the slashes of a path. -/
def segments : Text → List Text
  | [] => [[]]
  | b :: t =>
    match segments t with
    | [] => [[b]]
    | n :: ns => if b = '/'.toUInt8 then [] :: n :: ns else (b :: n) :: ns

/-- The names in a path. Slashes side by side are one slash. -/
def names (path : Text) : List Text :=
  (segments path).filter (· ≠ [])

/-- A path that ends in a slash names a directory. -/
def endsInSlash (path : Text) : Bool :=
  path.getLast? = some '/'.toUInt8

/-- The place that a name leads to from another. -/
def step (d : Directory) (p : Place) (name : Text) : Except PathFault Place :=
  match p with
  | .file .. => .error .notDirectory
  | .free .. => .error .missing
  | .directory here =>
    if name = ascii "." then .ok (.directory here)
    else if name = ascii ".." then .ok (.directory false)
    else if 255 < name.length then .error .tooLong
    else if here then
      match d.files.lookup name with
      | some content => .ok (.file true name content)
      | none => .ok (.free true name)
    else .ok (.free false name)

/-- The place that a path leads to. A path must not hold a null byte, and has fewer than 4096
bytes. -/
def resolve (d : Directory) (path : Text) : Except PathFault Place :=
  let absolute := path.head? = some '/'.toUInt8
  if path.contains 0 then .error .invalid
  else if path = [] then .error .missing
  else if 4096 ≤ path.length then .error .tooLong
  else if absolute ∧ names path = [ascii "dev", ascii "null"] then
    .ok (.file false (ascii "null") [])
  else (names path).foldlM d.step (.directory (!absolute))

/-- What the file at a path holds. -/
def read (d : Directory) (path : Text) : Except SystemFault Text :=
  match d.resolve path with
  | .error f => .error (.opening path f)
  | .ok (.directory _) => .error (.reading path .directory)
  | .ok (.free ..) => .error (.opening path .missing)
  | .ok (.file _ _ content) =>
    if endsInSlash path then .error (.opening path .notDirectory) else .ok content

/-- Why no file can be created at a path. -/
def createFault? (d : Directory) (path : Text) : Option SystemFault :=
  match d.resolve path with
  | .error f => some (.opening path f)
  | .ok (.directory _) => some (.opening path .directory)
  | .ok (.free ..) | .ok (.file ..) =>
    if endsInSlash path then some (.opening path .directory) else none

/-- Puts a file at a path, in the place of one that is there. -/
def put (path content : Text) (d : Directory) : Directory :=
  match d.resolve path with
  | .ok (.free true name) | .ok (.file true name _) =>
    ⟨(name, content) :: d.files.filter fun f => f.1 != name⟩
  | _ => d

/-- The files that another directory does not hold as they are, by name. -/
def changedFrom (before d : Directory) : List (Text × Text) :=
  (d.files.filter fun f => before.files.lookup f.1 != some f.2).mergeSort fun a b =>
    Text.le a.1 b.1

end Directory
end CPreprocessor
