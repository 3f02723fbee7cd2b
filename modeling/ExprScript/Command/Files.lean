set_option autoImplicit false

/-! # Files

What commands need of a file system, as operations of a monad (`FileSystem`), and a file system
that is a plain value (`Workspace`): a directory with files in it, known by the names on the way
to them. A directory is there when a file is in it or below it.
-/

namespace ExprScript.Command

/-- The operations on files that commands use. Reasons are worded for the reader of an error. -/
class FileSystem (m : Type → Type) where
  /-- the content of a file, or why it cannot be read -/
  read : String → m (Except String String)
  /-- writes a file, or says why that is impossible -/
  write : String → String → m (Except String Unit)
  /-- whether there is a file with the given path -/
  isFile : String → m Bool
  /-- the paths of all files at or below a path -/
  filesBelow : String → m (List String)

/-! ## Paths -/

/-- The parts of a text between its slashes. There is always at least one. -/
def splitSlashes : List Char → List (List Char)
  | [] => [[]]
  | c :: cs =>
    if c = '/' then [] :: splitSlashes cs
    else
      match splitSlashes cs with
      | [] => [[c]]
      | part :: parts => (c :: part) :: parts

def pathParts (path : String) : List String := (splitSlashes path.toList).map String.ofList

/-- The number of bytes that a name on the way to a file may have. -/
def maxName : Nat := 255

/-- The number of bytes that a path may have. -/
def maxPath : Nat := 4095

def isTooLong (path : String) : Bool := maxPath < path.utf8ByteSize

def joinPath (directory name : String) : String :=
  if directory.endsWith "/" then directory ++ name else directory ++ "/" ++ name

/-- The parts by which paths are sorted: all but those that stay where they are. -/
def sortKey (path : String) : List String := (pathParts path).filter fun p => p ≠ "" && p ≠ "."

/-- Whether a path comes before another or is the same: part by part. -/
def pathLe (p q : String) : Bool := (compare (sortKey p) (sortKey q)).isLE

/-- The extension of a path: what follows the last dot of its last part, unless that dot is the
first character of the part. -/
def extension? (path : String) : Option String :=
  match (sortKey path).getLast? with
  | none => none
  | some name =>
    let back := name.toList.reverse
    let extension := back.takeWhile (· != '.')
    match back.drop (extension.length + 1) with
    -- without a dot nothing is left, and neither is behind a dot in front
    | [] => none
    | _ => some (String.ofList extension.reverse)

/-! ## Workspaces -/

/-- A directory: its files, each with the names on the way to it, and their contents. -/
structure Workspace where
  files : List (List String × String)
deriving DecidableEq, Repr

namespace Workspace

def get? (w : Workspace) (names : List String) : Option String := w.files.lookup names

def isDirectory (w : Workspace) (names : List String) : Bool :=
  names.isEmpty || w.files.any fun f => names.isPrefixOf f.1 && names.length < f.1.length

/-- Puts a file in the place of the one before, or at the end. -/
def put (w : Workspace) (names : List String) (content : String) : Workspace :=
  if w.files.any (·.1 == names) then
    ⟨w.files.map fun f => if f.1 == names then (names, content) else f⟩
  else ⟨w.files ++ [(names, content)]⟩

/-- Goes one part of a path further, given the names so far, the last one first. That is
possible from a directory only, and with a name that is not too long. An empty part and `.` stay
where they are, and `..` goes back. -/
def step (w : Workspace) (names : List String) (part : String) : Option (List String) :=
  if !w.isDirectory names.reverse || maxName < part.utf8ByteSize then none
  else if part = "" || part = "." then some names
  else if part = ".." then
    match names with
    | [] => none
    | _ :: names => some names
  else some (part :: names)

/-- The names on the way to the file or directory that a path leads to, or would lead to if it
were there. A path that leaves the workspace leads nowhere. -/
def resolve? (w : Workspace) (path : String) : Option (List String) :=
  if path.startsWith "/" || isTooLong path then none
  else ((pathParts path).foldlM w.step []).map List.reverse

def fileAt? (w : Workspace) (path : String) : Option String := (w.resolve? path).bind w.get?

def read (w : Workspace) (path : String) : Except String String :=
  match w.fileAt? path with
  | some content => .ok content
  | none =>
    if isTooLong path then .error "File name too long (os error 36)"
    else if (w.resolve? path).any w.isDirectory then .error "Is a directory (os error 21)"
    else .error "No such file or directory (os error 2)"

def write (w : Workspace) (path content : String) : Except String Workspace :=
  match w.resolve? path with
  | none => .error "No such file or directory (os error 2)"
  | some names =>
    if w.isDirectory names then .error "Is a directory (os error 21)"
    else .ok (w.put names content)

/-- The path of a file below `path`, at the given names from there, unless the path of its
directory is too long. -/
def pathBelow? (path : String) (names : List String) : Option String :=
  let directory := names.dropLast.foldl joinPath path
  if isTooLong directory then none else some (joinPath directory (names.getLast?.getD ""))

def filesBelow (w : Workspace) (path : String) : List String :=
  match w.resolve? path with
  | none => []
  | some names =>
    w.files.filterMap fun f =>
      if f.1 = names then some path
      else if names.isPrefixOf f.1 then pathBelow? path (f.1.drop names.length)
      else none

end Workspace

instance : FileSystem (StateM Workspace) where
  read path := do return (← get).read path
  write path content := do
    match (← get).write path content with
    | .ok w =>
      set w
      return .ok ()
    | .error e => return .error e
  isFile path := do return ((← get).fileAt? path).isSome
  filesBelow path := do return (← get).filesBelow path

end ExprScript.Command
