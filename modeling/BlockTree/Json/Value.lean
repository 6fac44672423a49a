import BlockTree.Hex

/-! JSON values and their compact text. Only whole numbers are kept as numbers,
for no field of a document holds any other. -/

namespace BlockTree.Json

inductive Value where
  | null
  | bool (value : Bool)
  | int (value : Int)
  /-- A number outside the 64-bit integers or with a fraction or an exponent, as
  it was written. -/
  | real (digits : List Char)
  /-- A string, or `none` where its escapes hold half a surrogate pair. -/
  | text (value : Option (List Char))
  | list (items : List Value)
  /-- The fields as they stand, repeated ones included. -/
  | object (fields : List (Option (List Char) × Value))
deriving Inhabited

mutual

def Value.depth : Value → Nat
  | .list items => itemsDepth items + 1
  | .object fields => fieldsDepth fields + 1
  | _ => 0

def itemsDepth : List Value → Nat
  | [] => 0
  | item :: items => max item.depth (itemsDepth items)

def fieldsDepth : List (Option (List Char) × Value) → Nat
  | [] => 0
  | (_, value) :: fields => max value.depth (fieldsDepth fields)

end

def string (s : String) : Value :=
  .text (some s.toList)

def record (fields : List (String × Value)) : Value :=
  .object (fields.map fun (name, value) => (some name.toList, value))

def natDigits (n : Nat) : List Char :=
  Nat.toDigits 10 n

def intDigits : Int → List Char
  | .ofNat n => natDigits n
  | .negSucc n => '-' :: natDigits (n + 1)

/-- Quotes, backslashes and control characters are escaped and nothing else. -/
def escape (c : Char) : List Char :=
  if c = '"' then ['\\', '"']
  else if c = '\\' then ['\\', '\\']
  else if c = '\n' then ['\\', 'n']
  else if c = '\r' then ['\\', 'r']
  else if c = '\t' then ['\\', 't']
  else if c.toNat = 8 then ['\\', 'b']
  else if c.toNat = 12 then ['\\', 'f']
  else if c.toNat < 32 then
    ['\\', 'u', '0', '0', Hex.digit (c.toNat / 16), Hex.digit (c.toNat % 16)]
  else [c]

def quote (s : Option (List Char)) : List Char :=
  '"' :: (s.getD []).flatMap escape ++ ['"']

namespace Value

mutual

def chars : Value → List Char
  | .null => ['n', 'u', 'l', 'l']
  | .bool true => ['t', 'r', 'u', 'e']
  | .bool false => ['f', 'a', 'l', 's', 'e']
  | .int value => intDigits value
  | .real digits => digits
  | .text value => quote value
  | .list [] => ['[', ']']
  | .list (item :: items) => '[' :: chars item ++ itemsChars items
  | .object [] => ['\x7b', '\x7d']
  | .object ((name, value) :: fields) =>
    '\x7b' :: quote name ++ ':' :: chars value ++ fieldsChars fields

def itemsChars : List Value → List Char
  | [] => [']']
  | item :: items => ',' :: chars item ++ itemsChars items

def fieldsChars : List (Option (List Char) × Value) → List Char
  | [] => ['\x7d']
  | (name, value) :: fields => ',' :: quote name ++ ':' :: chars value ++ fieldsChars fields

end

def render (v : Value) : String :=
  String.ofList v.chars

end Value

end BlockTree.Json
