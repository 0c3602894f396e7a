import MacroAsm.Run

/-!
# The program

Runs the assembler on the real files with the words of the command line and the variables of the environment.
-/

namespace MacroAsm
namespace Main

/-- The reason for which the operating system refused a file. -/
def fileError (e : IO.Error) : FileError :=
  match e with
  | .noFileOrDirectory .. => .notFound
  | .inappropriateType _ code _ => if code = 20 then .notDirectory else .isDirectory
  | e => .other (toString e).toList

/-- An action on a file, with its error as a value. -/
def guarded {α : Type} (x : IO α) : IO (Except FileError α) := do
  try return .ok (← x) catch e => return .error (fileError e)

/-- The text of a file. -/
def readText (path : Text) : IO (Except FileError Text) := do
  match ← guarded (IO.FS.readBinFile (String.ofList path)) with
  | .error e => return .error e
  | .ok bytes => match String.fromUTF8? bytes with
    | some s => return .ok s.toList
    | none => return .error .notUtf8

/-- There is a file, not a directory. -/
def isFile (path : Text) : IO Bool := do
  try
    let p ← IO.FS.realPath (String.ofList path)
    return (← p.pathExists) && !(← p.isDir)
  catch _ => return false

/-- The real path, or the path as it is where there is none. -/
def canonical (path : Text) : IO Text := do
  try return (← IO.FS.realPath (String.ofList path)).toString.toList catch _ => return path

/-- Opens a log, empty unless it is to be appended to. -/
def openLog (path : Text) (append : Bool) : IO Unit := do
  let _ ← IO.FS.Handle.mk (String.ofList path) (if append then .append else .write)

/-- Writes to a log at its end, or over its start. -/
def writeLog (path : Text) (append : Bool) (text : Text) : IO Unit := do
  let h ← IO.FS.Handle.mk (String.ofList path) (if append then .append else .readWrite)
  h.putStr (String.ofList text)

/-- The real files. -/
def workspace : Workspace IO where
  read := readText
  isFile := isFile
  canonical := canonical
  write path bytes := guarded (IO.FS.writeBinFile (String.ofList path) ⟨bytes.toArray⟩)
  openLog path append := guarded (openLog path append)
  writeLog path append text := do
    let _ ← guarded (writeLog path append text)

/-- The variables of the environment. -/
def environment : IO Environment :=
  Environment.gather fun name => return (← IO.getEnv name).map String.toList

end Main
end MacroAsm

def main (words : List String) : IO UInt32 := do
  let env ← MacroAsm.Main.environment
  let outcome ← MacroAsm.Run.commandLine MacroAsm.Main.workspace env (words.map String.toList)
  IO.print (String.ofList outcome.stdout)
  IO.eprint (String.ofList outcome.stderr)
  return UInt32.ofNat outcome.exit
