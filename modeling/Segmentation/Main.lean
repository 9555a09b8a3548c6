import Segmentation.CommandLine.Options
import Segmentation.CommandLine.Run
import Segmentation.Config.Loader
import Segmentation.Json.Writer

namespace Segmentation.CommandLine

def variableNames : List String :=
  (["cluster", "topology", "domain", "tenant__org_id", "tenant__project_id",
    "lookup_timeout_seconds", "log_level"] ++ Naming.fieldNames.map ("naming__" ++ ·)).map
    fun name => "AEGISGATE__" ++ name.toUpper

def usage : String :=
  "Usage: aegisgate --policy <POLICY> [--config <CONFIG>] [--inventory <INVENTORY> | --live]"

def version : String := "aegisgate 0.1.0"

inductive StartFault where
  | config (path : String) (cause : ConfigFault)
  | policyFile (path : String)
  | inventoryFile (path : String)
  | noCluster

def StartFault.message : StartFault → String
  | .config path _ => "无法加载配置文件: " ++ path.quote
  | .policyFile path => "无法读取策略文件: " ++ path.quote
  | .inventoryFile path => "无法读取清单文件: " ++ path.quote
  | .noCluster => "无法创建 Kubernetes 客户端"

def StartFault.cause? : StartFault → Option String
  | .config _ cause => some cause.message
  | _ => none

def readFile? (path : String) : IO (Option String) := do
  match ← (IO.FS.readFile path).toBaseIO with
  | .ok content => return some content
  | .error _ => return none

def environment : IO (List (String × String)) :=
  variableNames.filterMapM fun name => do return (← IO.getEnv name).map fun value => (name, value)

def loadConfig : Option String → IO (Except StartFault Config)
  | none => return .ok {}
  | some path => do
    match ← readFile? path with
    | none => return .error (.config path .unreadable)
    | some content => return (Config.load path content (← environment)).mapError (.config path)

def readInputs (o : Options) : IO (Except StartFault (String × Option String)) := do
  match ← readFile? o.policy with
  | none => return .error (.policyFile o.policy)
  | some policy =>
    match o.live, o.inventory with
    | true, _ => return .error .noCluster
    | false, none => return .ok (policy, none)
    | false, some path =>
      match ← readFile? path with
      | none => return .error (.inventoryFile path)
      | some content => return .ok (policy, some content)

def refuse (message : String) (cause : Option String) : IO UInt32 := do
  IO.eprintln ("Error: " ++ message)
  match cause with
  | none => return 1
  | some text => do
    IO.eprintln ("\nCaused by:\n    " ++ text)
    return 1

def execute (o : Options) : IO UInt32 := do
  match ← loadConfig o.config with
  | .error fault => refuse fault.message fault.cause?
  | .ok config =>
    match ← readInputs o with
    | .error fault => refuse fault.message fault.cause?
    | .ok (policy, inventory) =>
      match run config policy inventory with
      | .error fault => refuse fault.message (fault.cause?.map Error.message)
      | .ok batch => do
        IO.println (Json.renderIndented batch.toDocument)
        return 0

end Segmentation.CommandLine

open Segmentation.CommandLine in
def main (args : List String) : IO UInt32 := do
  match parse ("aegisgate" :: args) with
  | .ok options => execute options
  | .error .displayHelp => do
    IO.println usage
    return 0
  | .error .displayVersion => do
    IO.println version
    return 0
  | .error _ => do
    IO.eprintln usage
    return 2
