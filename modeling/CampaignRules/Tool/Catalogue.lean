import CampaignRules.Tool.Expression
import CampaignRules.Tool.Graph
import CampaignRules.Tool.Patch
import CampaignRules.Tool.Resolution

/-! # All tools -/

namespace CampaignRules.Tool

/-- The tools in the order in which they are listed. -/
def catalogue : List Tool :=
  expressionTools ++ patchTools ++ resolutionTools ++ graphTools

def named? (name : Bytes) : Option Tool :=
  catalogue.find? fun tool => tool.name = name

/-- Calls a tool by its name. -/
def callNamed (now : Moment) (name : Bytes) (arguments : Json) : Task Engine Result :=
  match named? name with
  | some tool => tool.call now arguments
  | none => .fail (.unknownTool name)

end CampaignRules.Tool
