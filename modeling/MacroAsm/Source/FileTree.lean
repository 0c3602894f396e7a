import MacroAsm.Source.Disk
import MacroAsm.Text.Hex

/-!
# A tree of files

The files and directories around a working directory, held as a value. What lies above the working directory is known
only as far as it was written.

* `Place`: a place in the tree, as the way to it from the working directory;
* `FileTree`: files with their bytes, and directories;
* `FileTree.resolve`: what a path leads to; `FileTree.writable`: where a file of a given path is written;
* `FileTree.write`: the tree with a file written; `FileTree.disk`: the tree as a disk to load from.
-/

namespace MacroAsm

/-- A place in a tree: some directories up from the working directory, and down along names from there. -/
structure Place where
  up : Nat := 0
  names : List Text := []
  deriving DecidableEq

namespace Place

/-- The directory that holds a place. -/
def parent (p : Place) : Place :=
  if p.names.isEmpty then { p with up := p.up + 1 } else { p with names := p.names.dropLast }

/-- The place of a name in a directory. -/
def child (p : Place) (name : Text) : Place := { p with names := p.names ++ [name] }

/-- The place that one part of a path leads to. -/
def step (p : Place) (part : Text) : Place :=
  if Path.isIdle part then p else if Path.isUp part then p.parent else p.child part

/-- One text for each place. -/
def text (p : Place) : Text := '/' :: Text.join ['/'] (List.replicate p.up ['.', '.'] ++ p.names)

end Place

/-- Files and directories. -/
structure FileTree where
  files : List (Place × Bytes) := []
  dirs : List Place := []
  deriving DecidableEq

namespace FileTree

/-- What a path leads to. -/
inductive Node where
  | file (place : Place) (bytes : Bytes)
  | dir (place : Place)
  deriving DecidableEq

def file? (t : FileTree) (p : Place) : Option Bytes := (t.files.find? fun f => f.1 == p).map (·.2)

/-- A directory is the working directory, one above it, or one that was made. -/
def isDir (t : FileTree) (p : Place) : Bool := p.names.isEmpty || t.dirs.contains p

/-- What one part of a path leads to from a directory. -/
def enter (t : FileTree) (p : Place) (part : Text) : Except FileError Node :=
  if Path.isIdle part || Path.isUp part then .ok (.dir (p.step part))
  else if Path.maxName < Text.byteLength part then .error .nameTooLong
  else if t.isDir (p.child part) then .ok (.dir (p.child part))
  else match t.file? (p.child part) with
    | some bytes => .ok (.file (p.child part) bytes)
    | none => .error .notFound

/-- What several parts of a path lead to; only a directory can be entered. -/
def walk (t : FileTree) : Node → List Text → Except FileError Node
  | n, [] => .ok n
  | .file .., _ :: _ => .error .notDirectory
  | .dir p, part :: parts => do t.walk (← t.enter p part) parts

/-- The working directory. -/
def here : Node := .dir {}

/-- A path that can be followed from the working directory. -/
def checkPath (path : Text) : Except FileError Unit :=
  if path.contains '\x00' then .error .nulInPath
  else if Path.maxLength < Text.byteLength path then .error .nameTooLong
  else if path.isEmpty || Path.isAbsolute path then .error .notFound
  else .ok ()

/-- What a path leads to. -/
def resolve (t : FileTree) (path : Text) : Except FileError Node := do
  checkPath path
  t.walk here (Path.parts path)

/-- The bytes of a file. -/
def readBytes (t : FileTree) (path : Text) : Except FileError Bytes := do
  match ← t.resolve path with
  | .file _ bytes => return bytes
  | .dir _ => throw .isDirectory

/-- The text of a file. -/
def readText (t : FileTree) (path : Text) : Except FileError Text := do
  match String.fromUTF8? ⟨(← t.readBytes path).toArray⟩ with
  | some s => return s.toList
  | none => throw .notUtf8

def isFile (t : FileTree) (path : Text) : Bool :=
  match t.resolve path with
  | .ok (.file ..) => true
  | _ => false

/-- The place that a path leads to; a path that leads nowhere stays. -/
def canonical (t : FileTree) (path : Text) : Text :=
  match t.resolve path with
  | .ok (.file p _) => p.text
  | .ok (.dir p) => p.text
  | .error _ => path

/-- The tree with the bytes of a file set. -/
def put (t : FileTree) (p : Place) (bytes : Bytes) : FileTree :=
  { t with files := (p, bytes) :: t.files.filter fun f => f.1 != p }

/-- Where a file named `part` in a directory is written: over an old file, or as a new one. -/
def writableAt (t : FileTree) (p : Place) (part : Text) : Except FileError Place :=
  match t.enter p part with
  | .ok (.file q _) => .ok q
  | .ok (.dir _) => .error .isDirectory
  | .error .notFound => .ok (p.child part)
  | .error e => .error e

/-- Where a file of a given path is written. The way to its last part is followed first; a slash behind that part then
asks for a directory, whatever stands there. -/
def writable (t : FileTree) (path : Text) : Except FileError Place := do
  checkPath path
  let parts := Path.parts (Path.dropSlashes path)
  match ← t.walk here parts.dropLast with
  | .file .. => throw .notDirectory
  | .dir p =>
    if Path.dropSlashes path != path then throw .isDirectory
    else t.writableAt p (parts.getLast?.getD [])

/-- The tree after a file has been written. -/
def write (t : FileTree) (path : Text) (bytes : Bytes) : Except FileError FileTree := do
  return t.put (← t.writable path) bytes

/-- The tree as a disk. -/
def disk (t : FileTree) : Disk Id where
  read := t.readText
  isFile := t.isFile
  canonical := t.canonical

end FileTree
end MacroAsm
