import BlockTree.Invocation
import BlockTree.Text.Control

/-! The texts on how to use the program and its commands. -/

namespace BlockTree

/-- What a command is for, how it is called, and its operands. -/
def commandUsage : String → List String
  | "import" =>
    ["Feed a JSON array of blocks through the consensus engine", "",
      "Usage: ledgerlink import <FILE>", "", "Arguments:", "  <FILE>  "]
  | "tip" => ["Print the active tip", "", "Usage: ledgerlink tip"]
  | "path" =>
    ["Print the blocks from genesis to a hash (the active tip by default)", "",
      "Usage: ledgerlink path [HASH]", "", "Arguments:", "  [HASH]  "]
  | _ =>
    ["Print this message or the help of the given subcommand(s)", "",
      "Usage: ledgerlink help [COMMAND]...", "",
      "Arguments:", "  [COMMAND]...  Print help for the subcommand(s)"]

/-- The texts of the options stand in one column, also after a line break. -/
def inColumn (text : String) : String :=
  ("\n" ++ String.ofList (List.replicate 24 ' ')).intercalate (text.splitOn "\n")

def programUsage (config : String) : List String :=
  ["Chain-link consensus node", "",
    "Usage: ledgerlink [OPTIONS] <COMMAND>", "",
    "Commands:",
    "  import  Feed a JSON array of blocks through the consensus engine",
    "  tip     Print the active tip",
    "  path    Print the blocks from genesis to a hash (the active tip by default)",
    "  help    Print this message or the help of the given subcommand(s)", "",
    "Options:",
    "  -c, --config <FILE>   " ++ inColumn ("Path to the configuration file " ++
      s!"[env: LEDGERLINK_CONFIG={config}] [default: config.toml]"),
    "  -d, --data-dir <DIR>  Path to the data directory",
    "  -h, --help            Print help"]

def usageLines (env : Environment) : Option String → List String
  | none => programUsage ((env.lookup "LEDGERLINK_CONFIG").getD "")
  | some "help" => commandUsage "help"
  | some topic => commandUsage topic ++ ["", "Options:", "  -h, --help  Print help"]

def usage (env : Environment) (topic? : Option String) : String :=
  Text.withoutControls (String.join ((usageLines env topic?).map fun line => line ++ "\n"))

end BlockTree
