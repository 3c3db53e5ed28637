import CampaignRules.Tool.Catalogue

/-! # How the program is used -/

namespace CampaignRules.CommandLine

def synopsis : Bytes :=
  Program.name ++ " " ++ Program.version ++ " - Condition and effect engine\n\n" ++
    "Usage: " ++ Program.name ++ " --source PATH [options]            Serve JSON-RPC on stdio\n" ++
    "       " ++ Program.name ++ " --source PATH <tool> [--key value]  Run one tool\n\n"

def optionsText : Bytes :=
  "Options:\n" ++
  "  --source PATH             Snapshot file (.json, .db, .sqlite)\n" ++
  "  --source-kind KIND        json | sqlite\n" ++
  "  --campaign ID             Default campaign\n" ++
  "  --branch ID               Default branch (default: main)\n" ++
  "  --max-depth N             Expression depth limit (default: 10)\n" ++
  "  --refuse-cyclic-writes    Skip effects on write cycles\n" ++
  "  --no-write-chains         Omit effect-to-effect graph edges\n" ++
  "  --log-level LEVEL         debug | info | warn | error | off\n" ++
  "  --json                    CLI mode: print the raw structured result\n" ++
  "  -v, --verbose             Debug logging\n" ++
  "  --version                 Show version\n" ++
  "  -h, --help                Show this help\n"

def usage : Bytes :=
  synopsis ++ optionsText

/-- The usage with the names of all tools. -/
def usageWithTools : Bytes :=
  usage ++ "\nTools:\n" ++
    Tool.catalogue.flatMap fun tool => Bytes.ofString "  " ++ tool.name ++ Bytes.ofString "\n"

end CampaignRules.CommandLine
