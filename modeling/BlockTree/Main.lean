import BlockTree.Image
import BlockTree.Program
import BlockTree.Usage
import Std.Time.DateTime

/-! The program on the files, variables and clock of the machine. Nothing is
decided here. -/

namespace BlockTree.Machine

/-- What is found under a name. The system tells a directory by the code 21, and a
directory that is missing on the way by another one. -/
def content (file : String) : IO FileContent := do
  try
    match String.fromUTF8? (← IO.FS.readBinFile file) with
    | some text => return .text text
    | none => return .unreadable
  catch
    | .noFileOrDirectory .. => return .absent
    | .inappropriateType _ code _ => return if code = 21 then .directory else .absent
    | _ => return .unreadable

def assignment? (line : List Char) : Option (String × String) :=
  match line.span fun c => c != '=' with
  | (name, '=' :: value) => some (String.ofList name, String.ofList value)
  | _ => none

def environment : IO Environment := do
  match ← content "/proc/self/environ" with
  | .text text => return (text.toList.splitOn '\x00').filterMap assignment?
  | _ => return []

def attempt (act : IO Unit) : IO (Except PathFault Unit) := do
  try
    act
    return .ok ()
  catch
    | .alreadyExists .. => return .error .fileExists
    | .inappropriateType .. => return .error .notDirectory
    | .noFileOrDirectory .. => return .error .missing
    | e => return .error (.other (toString e))

def makeFile (file : String) : IO Unit := do
  let above := "/".intercalate (file.splitOn "/").dropLast
  if above ≠ "" then
    IO.FS.createDirAll above
  let _ ← IO.FS.Handle.mk file .append

def today : IO Date := do
  let day := Std.Time.PlainDate.ofEpochDay (← Std.Time.Timestamp.now).toDaysSinceUnixEpoch
  return ⟨day.year.toInt.toNat, day.month.val.toNat, day.day.val.toNat⟩

def imageFile (dir : String) : String :=
  dir ++ "/blocktree.db"

def load (dir : String) : IO (Except Error Shelf) := do
  IO.FS.createDirAll dir
  try
    match Trees.ofImage? (← IO.FS.readBinFile (imageFile dir)).toList with
    | some trees => return .ok { trees := trees }
    | none => return .error (.storage (.backend s!"damaged store {imageFile dir}"))
  catch
    | .noFileOrDirectory .. => return .ok default
    | e => throw e

def fetch (dir : String) : IO (Except Error Shelf) := do
  try
    load dir
  catch e => return .error (.storage (.backend (toString e)))

/-- A new image replaces the old one only when it is complete. -/
def keep (dir : String) (shelf : Shelf) : IO Unit := do
  let draft := imageFile dir ++ ".new"
  IO.FS.writeBinFile draft ⟨shelf.trees.image.toArray⟩
  IO.FS.rename draft (imageFile dir)

def surroundings : IO (Surroundings IO) := do
  return {
    env := ← environment
    now := (← Std.Time.Timestamp.now).toSecondsSinceUnixEpoch.val
    today := ← today
    read := content
    makeDirectory := fun dir => attempt (IO.FS.createDirAll dir)
    makeFile := fun file => attempt (makeFile file)
    fetch := fetch
    keep := keep }

end BlockTree.Machine

open BlockTree in
/-- Ill-formed command lines end with code 2, and runs that fail with that of the fault. -/
def main (words : List String) : IO UInt32 := do
  let around ← Machine.surroundings
  match Request.ofWords? around.env words with
  | none =>
    IO.eprint (usage around.env none)
    return 2
  | some (.help topic?) =>
    IO.print (usage around.env topic?)
    return 0
  | some (.run invocation) =>
    let report ← invocation.perform around
    IO.print report.output
    match report.fault? with
    | none => return 0
    | some fault =>
      IO.eprintln s!"Error: {fault.message}"
      return fault.code.toUInt32
