import BlockTree.Setting.Conversion
import BlockTree.Setting.Yaml.Node

/-! Settings from YAML text. -/

namespace BlockTree.Yaml

inductive Meaning where
  /-- Nothing, for the tag and the text do not agree. -/
  | absurd
  | nil
  | bool (value : Bool)
  | int (value : Int)
  | real (value : Float)
  /-- A word for a real number that is none, or lies beyond all. No setting holds it. -/
  | unbounded
  | text (value : String)
  | list (items : List Meaning)
  /-- Keys and values in turn. -/
  | table (parts : List Meaning)
deriving Inhabited

def within64? : Int → Option Int :=
  Setting.within? (-2 ^ 63) (2 ^ 63 - 1)

def radixInt? (radix : Nat) : List Char → Option Int
  | '-' :: digits => (Hex.natOf? radix digits).map fun n => -n
  | '+' :: digits => (Hex.natOf? radix digits).map Int.ofNat
  | digits => (Hex.natOf? radix digits).map Int.ofNat

def decimalInt? (text : List Char) : Option Int :=
  (Decimal.intOf? text).bind within64?

/-- A plus sign may stand before any decimal number, even before one with a sign. -/
def int? (text : List Char) : Option Int :=
  let marked? :=
    match text with
    | '0' :: 'x' :: digits => (radixInt? 16 digits).bind within64?
    | '0' :: 'o' :: digits => (radixInt? 8 digits).bind within64?
    | '+' :: rest => decimalInt? rest
    | _ => none
  marked? <|> decimalInt? text

def unboundedWords : List String :=
  [".inf", ".Inf", ".INF", "+.inf", "+.Inf", "+.INF", "-.inf", "-.Inf", "-.INF", ".nan", ".NAN"]

/-- The other words for real numbers, in any letter case. -/
def namedReal? (text : List Char) : Option Float :=
  let (negative, word) :=
    match text with
    | '-' :: rest => (true, rest)
    | '+' :: rest => (false, rest)
    | _ => (false, text)
  let word := String.ofList (word.map Char.toLower)
  if word = "inf" ∨ word = "infinity" then some (if negative then -1 / 0 else 1 / 0)
  else if word = "nan" then some (0 / 0)
  else none

def real? (text : List Char) : Option Meaning :=
  if String.ofList text ∈ unboundedWords then some .unbounded
  else if Decimal.Numeral.isText text then some (.real (Decimal.Numeral.ofText text).nearest)
  else (namedReal? text).map .real

def bool? (text : String) : Option Bool :=
  if text = "true" then some true else if text = "false" then some false else none

def isNil (text : String) : Bool :=
  text = "~" || text = "null"

/-- A scalar without quotes or a tag: a number or a word with a meaning, else itself. -/
def plainMeaning (text : String) : Meaning :=
  match int? text.toList with
  | some n => .int n
  | none =>
    if isNil text then .nil
    else
      match bool? text, real? text.toList with
      | some b, _ => .bool b
      | none, some real => real
      | none, none => .text text

/-- A scalar without quotes, by the second part of its tag. -/
def taggedMeaning (type text : String) : Meaning :=
  let orAbsurd (meaning? : Option Meaning) : Meaning := meaning?.getD .absurd
  if type = "bool" then orAbsurd ((bool? text).map .bool)
  else if type = "int" then orAbsurd ((decimalInt? text.toList).map .int)
  else if type = "float" then orAbsurd (real? text.toList)
  else if type = "null" then (if isNil text then .nil else .absurd)
  else .text text

/-- Only the tags of one handle matter, and of these only some. -/
def scalarMeaning (plain : Bool) (tag? : Option (String × String)) (text : String) : Meaning :=
  match plain, tag? with
  | false, _ => .text text
  | true, none => plainMeaning text
  | true, some (handle, type) => if handle = "!!" then taggedMeaning type text else .text text

mutual

def Node.meaning : Node → Meaning
  | .scalar plain tag? text => scalarMeaning plain tag? text
  | .missing => .nil
  | .unfinished => .absurd
  | .list items => .list (meanings items)
  | .table parts => .table (meanings parts)

def meanings : List Node → List Meaning
  | [] => []
  | node :: nodes => node.meaning :: meanings nodes

end

mutual

def Meaning.setting? : Meaning → Option Setting
  | .absurd => some .nil
  | .nil => some .nil
  | .bool b => some (.bool b)
  | .int n => some (.int n)
  | .real x => some (.real x)
  | .unbounded => none
  | .text s => some (.text s)
  | .list items => (settings? items).map .list
  | .table parts => (entries? parts).map .table

def settings? : List Meaning → Option (List Setting)
  | [] => some []
  | item :: items =>
    match item.setting?, settings? items with
    | some setting, some settings => some (setting :: settings)
    | _, _ => none

/-- The entries with a text for a key, of which the last of one key counts. A part without
meaning is no key, so the next one takes its place. -/
def entries? : List Meaning → Option (List (String × Setting))
  | .absurd :: parts => entries? parts
  | .text key :: value :: parts =>
    match entries? parts with
    | some entries =>
      if (entries.lookup key).isSome then some entries
      else value.setting?.map fun setting => (key, setting) :: entries
    | none => none
  | _ :: _ :: parts => entries? parts
  | _ => some []

end

/-- The settings of a text, which are none without a document. -/
def parse (text : List Char) : Option Setting := do
  let (root?, _) ← Reader.document?.run { tokens := ← Token.ofText? text }
  match root? with
  | some root => root.meaning.setting?
  | none => return .table []

end BlockTree.Yaml
