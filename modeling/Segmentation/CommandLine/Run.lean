import Segmentation.Kubernetes.Policy
import Segmentation.Reconciliation
import Segmentation.Config
import Segmentation.Wire.Inventory
import Segmentation.Yaml.Reader

namespace Segmentation.CommandLine

inductive RunFault where
  | policyFormat
  | invalidPolicy (cause : Error)
  | inventoryFormat
  | compilation (owner : Owner) (cause : Error)
  deriving DecidableEq

def RunFault.message : RunFault → String
  | .policyFormat => "策略文件格式错误"
  | .invalidPolicy _ => "策略校验失败"
  | .inventoryFormat => "清单文件格式错误"
  | .compilation owner _ => "策略 " ++ owner.text ++ " 编译失败"

def RunFault.cause? : RunFault → Option Error
  | .invalidPolicy cause => some cause
  | .compilation _ cause => some cause
  | .policyFormat | .inventoryFormat => none

def inventory (config : Config) (content : Option String) : Except RunFault Inventory :=
  match content with
  | none => .ok { tenantDefaults := config.tenant }
  | some text =>
    match (Yaml.read? Inventory.shape text).bind Inventory.ofDocument? with
    | none => .error .inventoryFormat
    | some i => .ok { i with tenantDefaults := config.tenant }

/-- A dry run: the policy of one file compiled against the inventory of another, as the batch that
would be published where nothing has been published before. -/
def run (config : Config) (policy : String) (inventoryFile : Option String) :
    Except RunFault Batch :=
  match (Yaml.read? Kubernetes.ZeroTrustPolicy.shape policy).bind Kubernetes.ZeroTrustPolicy.ofDocument? with
  | none => .error .policyFormat
  | some resource =>
    match resource.intent with
    | .error e => .error (.invalidPolicy e)
    | .ok intent => do
      let compiler := config.compiler (← inventory config inventoryFile).directory
      match ((compiler.reconcile intent).run Publisher.accepting {}).1 with
      | .error e => .error (.compilation intent.owner e)
      | .ok batch => return batch

end Segmentation.CommandLine
