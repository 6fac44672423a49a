/-! A tree of files and directories, and where paths lead in it. -/

namespace BlockTree

inductive PathFault where
  | fileExists
  | notDirectory
  | isDirectory
  | missing
  /-- A name has more than 255 bytes, or the path 4096 and more. -/
  | tooLong
  | nulByte
  | other (message : String)
deriving DecidableEq

def PathFault.message : PathFault → String
  | fileExists => "File exists (os error 17)"
  | notDirectory => "Not a directory (os error 20)"
  | isDirectory => "Is a directory (os error 21)"
  | missing => "No such file or directory (os error 2)"
  | tooLong => "File name too long (os error 36)"
  | nulByte => "file name contained an unexpected NUL byte"
  | other message => message

abbrev Place := List String

structure FileTree where
  /-- Files with their texts, if what they hold is text. -/
  files : List (Place × Option String) := []
  /-- All directories but the root. -/
  directories : List Place := []

inductive Spot where
  | nothing
  | directory (place : Place)
  | file (text? : Option String)

namespace FileTree

def isStill (part : String) : Bool :=
  part = "" || part = "."

def join (dir path : String) : String :=
  if dir.isEmpty || path.startsWith "/" then path
  else if dir.endsWith "/" then dir ++ path
  else dir ++ "/" ++ path

def start (home : Place) (path : String) : Place :=
  if path.startsWith "/" then [] else home

/-- Follows the parts of a path. A file is found only at its very end. -/
def follow (t : FileTree) (place : Place) : List String → Spot
  | [] => .directory place
  | part :: parts =>
    if isStill part then t.follow place parts
    else if part = ".." then t.follow place.dropLast parts
    else
      let next := place ++ [part]
      match t.files.lookup next with
      | some text? => if parts.isEmpty then .file text? else .nothing
      | none => if next ∈ t.directories then t.follow next parts else .nothing

def look (t : FileTree) (home : Place) (path : String) : Spot :=
  t.follow (start home path) (path.splitOn "/")

def pathFault? (path : String) : Option PathFault :=
  if path.any (· = '\x00') then some .nulByte
  else if 4096 ≤ path.utf8ByteSize then some .tooLong
  else none

def isNameTooLong (part : String) : Bool :=
  255 < part.utf8ByteSize

/-- The fault of a file in the way, with the parts of the path after it. Directories are
made one by one once the first of them was missing, so the path then ends at the file. -/
def obstacle (made : Bool) (parts : List String) : PathFault :=
  if parts.all (· = "") || made && !parts.all isStill then .fileExists else .notDirectory

/-- Work on a tree. What was made stays there even if the work fails. -/
abbrev Making := ExceptT PathFault (StateM FileTree)

/-- Follows the parts of a path and makes the directories that are missing. A point at the
end of the path asks for a directory that is there already. -/
def makeFrom (made : Bool) (place : Place) : List String → Making Place
  | [] => return place
  | part :: parts => do
    if isStill part then makeFrom made place parts
    else if part = ".." then makeFrom made place.dropLast parts
    else
      if isNameTooLong part then throw .tooLong
      let next := place ++ [part]
      let t ← get
      if (t.files.lookup next).isSome then throw (obstacle made parts)
      if next ∈ t.directories then makeFrom made next parts
      else
        if parts.all isStill && parts.any (· = ".") then throw .missing
        set { t with directories := next :: t.directories }
        makeFrom true next parts

def checkPath (path : String) : Making Unit :=
  match pathFault? path with
  | some fault => throw fault
  | none => return ()

def makeDirectory (home : Place) (path : String) : Making Place := do
  checkPath path
  makeFrom false (start home path) (path.splitOn "/")

def addFile (place : Place) (name : String) : Making Unit := do
  if isNameTooLong name then throw .tooLong
  let next := place ++ [name]
  let t ← get
  if next ∈ t.directories then throw .isDirectory
  if (t.files.lookup next).isNone then
    set { t with files := (next, none) :: t.files }

def makeFile (home : Place) (path : String) : Making Unit := do
  checkPath path
  let parts := path.splitOn "/"
  let above := (parts.dropLast.reverse.dropWhile isStill).reverse
  addFile (← makeFrom false (start home path) above) (parts.getLastD "")

def makeStore (home : Place) (path : String) : Making Place := do
  let inner := join path "blobs"
  if let .file _ := (← get).look home inner then throw .notDirectory
  let place := (← makeDirectory home inner).dropLast
  addFile place "conf"
  addFile place "db"
  return place

end FileTree

end BlockTree
