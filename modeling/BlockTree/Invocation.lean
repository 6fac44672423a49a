import BlockTree.NodeSettings

/-! The words of a command line. Options stand before the command, and the words
after it belong to the command. -/

namespace BlockTree

inductive Command where
  | importFile (file : String)
  | tip
  /-- Lists a path, to the best link if no hash is given. -/
  | path (hash? : Option String)
deriving DecidableEq

structure Invocation where
  config : String
  dataDir? : Option String
  command : Command
deriving DecidableEq

inductive Request where
  | run (invocation : Invocation)
  | help (topic? : Option String)
deriving DecidableEq

namespace Invocation

/-- A word that is no option. A dash alone is an ordinary word. -/
def isPlain (word : String) : Bool :=
  match word.toList with
  | ['-'] => true
  | '-' :: _ => false
  | _ => true

def asksHelp (word : String) : Bool :=
  word = "--help" || "-h".toList.isPrefixOf word.toList

inductive OptionName where
  | config
  | dataDir

def option? (word : String) : Option (OptionName × Option String) :=
  let short (name : OptionName) : List Char → OptionName × Option String
    | [] => (name, none)
    | '=' :: value => (name, some (String.ofList value))
    | value => (name, some (String.ofList value))
  match word.toList with
  | '-' :: '-' :: rest =>
    let (name, rest) := rest.span fun c => c != '='
    let value? :=
      match rest with
      | [] => none
      | _ :: value => some (String.ofList value)
    if name = "config".toList then some (.config, value?)
    else if name = "data-dir".toList then some (.dataDir, value?)
    else none
  | '-' :: 'c' :: rest => some (short .config rest)
  | '-' :: 'd' :: rest => some (short .dataDir rest)
  | _ => none

structure Options where
  config? : Option String := none
  dataDir? : Option String := none
  /-- The option whose value is the word before. It is judged only when another option
  comes, or after the words of the command. -/
  open? : Option (OptionName × String) := none

/-- An option is given once, and its value is not empty. -/
def Options.set (o : Options) (name : OptionName) (value : String) : Option Options :=
  if value.isEmpty then none
  else
    match name, o.config?, o.dataDir? with
    | .config, none, _ => some { o with config? := some value }
    | .dataDir, _, none => some { o with dataDir? := some value }
    | _, _, _ => none

def Options.settle (o : Options) : Option Options :=
  match o.open? with
  | none => some o
  | some (name, value) => { o with open? := none }.set name value

inductive Operands where
  | words (words : List String)
  | help

/-- At most `room` words that are acceptable. Two dashes make all words after them
ordinary. -/
def operands (accepts : String → Bool) : Nat → List String → Option Operands
  | _, [] => some (.words [])
  | room, word :: rest =>
    if word = "--" then
      if rest.length ≤ room && rest.all accepts then some (.words rest) else none
    else if asksHelp word then some .help
    else if !isPlain word || !accepts word then none
    else
      match room with
      | 0 => none
      | room + 1 =>
        match operands accepts room rest with
        | some (.words words) => some (.words (word :: words))
        | other => other

def commandNames : List String :=
  ["import", "tip", "path"]

def operandsOf (name : String) (words : List String) : Option Operands :=
  operands (fun word => name ≠ "import" || !word.isEmpty) (if name = "tip" then 0 else 1) words

def helpTopic? : List String → Option Request
  | [] => some (.help none)
  | [topic] => if topic ∈ "help" :: commandNames then some (.help (some topic)) else none
  | _ => none

def command? (name : String) (words : List String) : Option Command :=
  match name, words with
  | "import", [file] => some (.importFile file)
  | "tip", [] => some .tip
  | "path", [] => some (.path none)
  | "path", [hash] => some (.path (some hash))
  | _, _ => none

/-- The settings file is named by an option, else by a variable. -/
def finish (env : Environment) (o : Options) (name : String) (words : List String) :
    Option Request :=
  if name = "help" then helpTopic? words
  else if name ∉ commandNames then none
  else do
    match ← operandsOf name words with
    | .help => return .help (some name)
    | .words words =>
      let command ← command? name words
      let o ← o.settle
      let config := (o.config? <|> env.lookup "LEDGERLINK_CONFIG").getD "config.toml"
      if config.isEmpty then none
      else return .run ⟨config, o.dataDir?, command⟩

def requestFrom (env : Environment) (o : Options) : List String → Option Request
  | [] => none
  | word :: rest =>
    if isPlain word then finish env o word rest
    else do
      let o ← o.settle
      if asksHelp word then
        return .help none
      match option? word, rest with
      | some (name, some value), rest => requestFrom env (← o.set name value) rest
      | some (name, none), value :: rest =>
        if isPlain value then requestFrom env { o with open? := some (name, value) } rest else none
      | _, _ => none

end Invocation

def Request.ofWords? (env : Environment) (words : List String) : Option Request :=
  Invocation.requestFrom env {} words

end BlockTree
