/-! Text without what only steers a terminal: control characters other than blanks, and
the sequences that begin with the escape character. The sequences are told by their
bytes. -/

namespace BlockTree.Text

namespace Control

inductive Phase where
  | outside
  | escape
  | escapeMiddle
  /-- Sequences after a bracket, by the part that they are in. -/
  | bracket
  | bracketParameters
  | bracketMiddle
  | bracketRest
  /-- Sequences for a device, up to where their body begins. -/
  | device
  | deviceParameters
  | deviceMiddle
  /-- The body of a sequence that a byte of its own ends. -/
  | body
  /-- A command to the system, which a bell ends. -/
  | command
deriving DecidableEq

def afterEscape (b : UInt8) : Phase :=
  if b = 0x50 then .device
  else if b = 0x58 ∨ b = 0x5e ∨ b = 0x5f then .body
  else if b = 0x5b then .bracket
  else if b = 0x5d then .command
  else .outside

/-- The parts of a sequence are told by the ranges of their bytes, and the last range
holds those that end it. Other bytes are passed over. -/
def byRange (b : UInt8) (stay middle digits signs last : Phase) : Phase :=
  if 0x20 ≤ b ∧ b ≤ 0x2f then middle
  else if 0x30 ≤ b ∧ b ≤ 0x3b then digits
  else if 0x3c ≤ b ∧ b ≤ 0x3f then signs
  else if 0x40 ≤ b ∧ b ≤ 0x7e then last
  else stay

/-- Three bytes break off every sequence, and one of them begins the next one. -/
def Phase.next (p : Phase) (b : UInt8) : Phase :=
  if b = 0x18 ∨ b = 0x1a then outside
  else if b = 0x1b then escape
  else
    match p with
    | outside => outside
    | escape =>
      if 0x30 ≤ b ∧ b ≤ 0x7e then afterEscape b
      else if 0x20 ≤ b ∧ b ≤ 0x2f then escapeMiddle
      else escape
    | escapeMiddle => if 0x30 ≤ b ∧ b ≤ 0x7e then outside else escapeMiddle
    | bracket => byRange b bracket bracketMiddle bracketParameters bracketParameters outside
    | bracketParameters =>
      byRange b bracketParameters bracketMiddle bracketParameters bracketRest outside
    | bracketMiddle => byRange b bracketMiddle bracketMiddle bracketRest bracketRest outside
    | bracketRest => byRange b bracketRest bracketRest bracketRest bracketRest outside
    | device =>
      if b = 0x3a then body
      else byRange b device deviceMiddle deviceParameters deviceParameters body
    | deviceParameters =>
      if b = 0x3a then body
      else byRange b deviceParameters deviceMiddle deviceParameters body body
    | deviceMiddle => byRange b deviceMiddle deviceMiddle body body body
    | body => if b = 0x9c then outside else body
    | command => if b = 0x07 then outside else command

def isBreak (b : UInt8) : Bool :=
  b == 0x09 || b == 0x0a || b == 0x0c || b == 0x0d

def isText (b : UInt8) : Bool :=
  isBreak b || 0x20 ≤ b && b ≠ 0x7f

/-- Bytes that text begins with. Blanks other than the space are shown even within a
sequence, unless it is one with a body. -/
def Phase.opensText (p : Phase) (b : UInt8) : Bool :=
  match p with
  | outside => isBreak b || 0x20 ≤ b && b < 0x7f || 0xc2 ≤ b && b ≤ 0xf4
  | escape | escapeMiddle | bracket | bracketParameters | bracketMiddle | bracketRest => isBreak b
  | _ => false

/-- The bytes that are shown. Text goes on up to the next byte that cannot be shown. A
sequence that text has broken into is taken up again after it, unless the text had a
character beyond ASCII. -/
def shown (inText : Bool) (p : Phase) : List UInt8 → List UInt8
  | [] => []
  | b :: rest =>
    if inText && isText b then b :: shown true (if b < 0x80 then p else .outside) rest
    else if !inText && p.opensText b then b :: shown true p rest
    else shown false (p.next b) rest

end Control

def withoutControls (text : String) : String :=
  let bytes := Control.shown false .outside text.toUTF8.toList
  (String.fromUTF8? ⟨bytes.toArray⟩).getD ""

end BlockTree.Text
