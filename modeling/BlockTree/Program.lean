import BlockTree.Document
import BlockTree.FileTree
import BlockTree.Importing
import BlockTree.Invocation
import BlockTree.LogFilter
import BlockTree.Shelf

/-! One run of the program on what it finds around it: variables, files, and the
stores in data directories. -/

namespace BlockTree

structure Surroundings (m : Type → Type) where
  env : Environment
  now : Int
  today : Date
  read : String → m FileContent
  makeDirectory : String → m (Except PathFault Unit)
  /-- Makes a file, with the directories above it, unless it is there. -/
  makeFile : String → m (Except PathFault Unit)
  /-- The store in a directory, an empty one if there is none yet. -/
  fetch : String → m (Except Error Shelf)
  keep : String → Shelf → m Unit

inductive RunFault where
  | settings (fault : SettingsFault)
  | logFilter (fault : LogFilter.Fault)
  | logDirectory (fault : PathFault)
  | logFile (fault : PathFault)
  | unreadableFile (file : String)
  | malformedFile (file : String)
  | malformedHash (text : String) (fault : Hash.TextFault)
  | failed (e : Error)

def RunFault.message : RunFault → String
  | settings fault => fault.message
  | logFilter fault => fault.message
  | logDirectory fault => fault.message
  | logFile fault => fault.message
  | unreadableFile file => s!"Failed to read {Text.quoted file}"
  | malformedFile file => s!"Failed to parse {Text.quoted file}"
  | malformedHash text fault => s!"Invalid hash {text}: {fault.message}"
  | failed e => e.message

/-- The code that a failed run ends with: 101 where it breaks off, and 1 where it ends
with a report. -/
def RunFault.code : RunFault → Nat
  | settings .misplaced => 101
  | logFilter .torn => 101
  | logFile _ => 101
  | _ => 1

structure Report where
  output : String
  fault? : Option RunFault

namespace Report

def lines (ls : List String) : String :=
  String.join (ls.map fun line => line ++ "\n")

def done (ls : List String) : Report :=
  ⟨lines ls, none⟩

def fail (fault : RunFault) : Report :=
  ⟨"", some fault⟩

end Report

def Link.tipLine (link : Link) : String :=
  let work := (link.work?.map toString).getD ""
  s!"{link.hash} height={link.height?.getD 0} work={work}"

def Link.pathLine (link : Link) : String :=
  let height := String.ofList ((toString (link.height?.getD 0)).toList.leftpad 8 ' ')
  s!"{height} {link.hash} txs={link.block.transactions.length}"

/-- The blocks of a file, which is a list of documents. -/
def Block.ofText? (text : String) : Option (List Block) :=
  (Json.parse text.toList).bind (Document.list? Document.block?)

namespace Node

variable {σ : Type} [Store σ]

def tipText : StoreM σ (List String) := do
  match ← ask .lastLink with
  | some link => return [link.tipLine]
  | none => return ["empty chain"]

def pathText (act : StoreM σ Path) : StoreM σ (List String) :=
  return (← act).links.map Link.pathLine

/-- The report on a computation that prints nothing but its result. -/
def report (act : NodeM σ (List String)) (n : Node σ) : Report × Node σ :=
  match act n with
  | .ok ls n => (.done ls, n)
  | .error e n => (.fail (.failed e), n)

/-- The count of an import is printed even if the tip cannot be read after it. -/
def reportImport (now : Int) (blocks : List Block) (n : Node σ) : Report × Node σ :=
  match importBlocks now blocks n with
  | .error e n => (.fail (.failed e), n)
  | .ok tally n =>
    let (tip, n) := report (onStore tipText) n
    ({ tip with output := Report.lines [tally.text] ++ tip.output }, n)

end Node

variable {m : Type → Type} [Monad m]

def Command.perform {σ : Type} [Store σ] (s : Surroundings m) (n : Node σ) :
    Command → m (Report × Node σ)
  | .tip => return Node.report (Node.onStore Node.tipText) n
  | .path none => return Node.report (Node.onStore (Node.pathText Node.activePath)) n
  | .path (some text) =>
    match Hash.parse text.toList with
    | .error fault => return (.fail (.malformedHash text fault), n)
    | .ok hash => return Node.report (Node.onStore (Node.pathText (Path.toTip hash))) n
  | .importFile file => do
    match ← s.read file with
    | .text text =>
      match Block.ofText? text with
      | some blocks => return Node.reportImport s.now blocks n
      | none => return (.fail (.malformedFile file), n)
    | _ => return (.fail (.unreadableFile file), n)

/-- The settings file of a name, and what it holds. Where a directory has the name, the
file is meant that has an extension besides. -/
def Surroundings.settingsFile (s : Surroundings m) (name : String) :
    m (String × FileContent) := do
  match ← s.read name with
  | .directory =>
    let tries ← (NodeSettings.extended name).mapM fun file => return (file, ← s.read file)
    return (tries.find? fun found => found.2.isText).getD (name, .directory)
  | content => return (name, content)

def LoggingConfig.fileOf (c : LoggingConfig) (day : Date) : String :=
  let day := String.ofList day.chars
  FileTree.join c.logDir (if c.logFile = "" then day else s!"{c.logFile}.{day}")

def Surroundings.prepareLog (s : Surroundings m) (c : LoggingConfig) :
    m (Except RunFault Unit) := do
  if !c.fileLogging then
    return .ok ()
  match ← (if c.logDir = "" then return .ok () else s.makeDirectory c.logDir) with
  | .error fault => return .error (.logDirectory fault)
  | .ok () => return (← s.makeFile (c.fileOf s.today)).mapError .logFile

/-- Runs a command on the store of the data directory, and keeps the store whatever
becomes of the command. -/
def Command.performIn (s : Surroundings m) (config : NodeConfig) (command : Command) :
    m Report := do
  match ← s.fetch config.dataDir with
  | .error e => return .fail (.failed e)
  | .ok shelf =>
    match Engine.ofStore config.consensus shelf.reopen with
    | .error e _ => return .fail (.failed e)
    | .ok engine shelf =>
      let (report, node) ← command.perform s ⟨engine, shelf⟩
      s.keep config.dataDir node.store
      return report

def Invocation.perform (s : Surroundings m) (i : Invocation) : m Report := do
  let (file, content) ← s.settingsFile i.config
  match NodeConfig.load file content i.dataDir? s.env with
  | .error fault => return .fail (.settings fault)
  | .ok (config, _) =>
    let filter := LogFilter.combined config.logging.level (s.env.lookup "RUST_LOG")
    match LogFilter.check filter with
    | .error fault => return .fail (.logFilter fault)
    | .ok () =>
      match ← s.prepareLog config.logging with
      | .error fault => return .fail fault
      | .ok () => i.command.performIn s config

end BlockTree
