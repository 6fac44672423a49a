import BlockTree.FileTree
import BlockTree.Setting.Path
import BlockTree.Setting.Toml
import BlockTree.Setting.Yaml

/-! The settings of a node: a file in one of three formats, variables of the
environment on top of it, and a data directory on top of both. -/

namespace BlockTree

abbrev Environment := List (String × String)

inductive FileContent where
  | absent
  | directory
  /-- Bytes that are no text. -/
  | unreadable
  | text (content : String)

def FileContent.isText : FileContent → Bool
  | text _ => true
  | _ => false

inductive SettingsFault where
  | unreadable
  /-- A setting cannot be converted to the type of its place. -/
  | unfit
  /-- A key leads to a place that no list has. -/
  | misplaced
deriving DecidableEq

def SettingsFault.message : SettingsFault → String
  | unreadable => "Failed to build configuration"
  | unfit => "Failed to deserialize configuration"
  | misplaced => "A setting lies outside of its list"

namespace NodeSettings

def extension (name : String) : List Char :=
  let file := (name.toList.reverse.takeWhile fun c => c != '/').reverse
  match file.reverse.span fun c => c != '.' with
  | (_, []) => []
  | (_, ['.']) => []
  | (reversed, _) => reversed.reverse

def format? (extension : String) : Option (List Char → Option Setting) :=
  if extension = "toml" then some Toml.parse
  else if extension = "json" then some Setting.ofJsonText?
  else if extension = "yaml" ∨ extension = "yml" then some Yaml.parse
  else none

/-- A name with each of the known extensions appended to its last part, unless that
part is missing or leads upwards. -/
def extended (name : String) : List String :=
  let parts := (name.splitOn "/").reverse.dropWhile FileTree.isStill
  if parts.head?.all (· = "..") then []
  else
    ["toml", "json", "yaml", "yml"].map fun extension =>
      "/".intercalate parts.reverse ++ "." ++ extension

def ofFile? (name text : String) : Option Setting := do
  let read ← format? (String.ofList (extension name))
  match ← read text.toList with
  | .table entries => some (.table entries)
  | _ => some (.table [])

def pathKey : List Char → List Char
  | '_' :: '_' :: rest => '.' :: pathKey rest
  | c :: rest => c :: pathKey rest
  | [] => []

/-- The Kelvin sign is the only character beyond ASCII with a small letter in it. -/
def smallLetter (c : Char) : Char :=
  if c.toNat = 0x212a then 'k' else c.toLower

/-- The setting that a variable makes. Letter case does not matter in its name. -/
def ofVariable? (entry : String × String) : Option (String × Setting) :=
  let mark := "ledgerlink_".toList
  let name := entry.1.toList.map smallLetter
  if mark.isPrefixOf name then
    some (String.ofList (pathKey (name.drop mark.length)), .text entry.2)
  else none

end NodeSettings

open NodeSettings in
/-- The settings of a node, and whether their file was there. Without the file all
settings have their defaults, whatever the environment says. -/
def NodeConfig.load (name : String) (content : FileContent) (dataDir? : Option String)
    (env : Environment) : Except SettingsFault (NodeConfig × Bool) := do
  let (base, found) ←
    match content with
    | .absent => pure (({} : NodeConfig), false)
    | .directory => throw .unreadable
    | .unreadable => throw .unreadable
    | .text text =>
      match ofFile? name text with
      | none => throw .unreadable
      | some file =>
        let root? := do
          Setting.overlay? (env.filterMap ofVariable?) (← Setting.overlay? file.entries (.table []))
        match root? with
        | none => throw .misplaced
        | some root =>
          match root.nodeConfig? with
          | some config => pure (config, true)
          | none => throw .unfit
  return ({ base with dataDir := dataDir?.getD base.dataDir }, found)

end BlockTree
