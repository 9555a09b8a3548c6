import Segmentation.Compilation
import Segmentation.Text.Blank

namespace Segmentation

structure Config where
  cluster : String := "default"
  topology : TopologyKind := .singleScope
  domain : String := "default"
  tenant : TenantDefaults := {}
  naming : Option Naming := none
  lookupTimeoutSeconds : Nat := 30
  logLevel : String := "info"
  deriving DecidableEq

inductive ConfigFault where
  | emptyCluster
  | nameTooShort (length : Nat)
  | hashLength (length : Nat)
  | noTimeout
  | unsupportedFormat
  | unreadable
  | wrongShape
  deriving DecidableEq, Repr

def ConfigFault.message : ConfigFault → String
  | .emptyCluster => "集群名称不能为空"
  | .nameTooShort length => "名称最大长度 " ++ toString length ++ " 过小，至少为 64"
  | .hashLength length => "哈希长度 " ++ toString length ++ " 无效"
  | .noTimeout => "查询超时必须大于 0"
  | .unsupportedFormat => "不支持的配置文件格式，仅支持 YAML 或 JSON"
  | .unreadable => "构建配置失败"
  | .wrongShape => "配置格式错误"

namespace Config

def effectiveNaming (c : Config) : Naming := c.naming.getD (Naming.default c.topology)

/-- A name has room for a hash and a suffix, a hash has at most the digits that there are, and a
cluster is not blank. -/
def validate (c : Config) : Except ConfigFault Unit :=
  let n := c.effectiveNaming
  if Text.allBlank c.cluster then .error .emptyCluster
  else if n.maxNameLength < 64 then .error (.nameTooShort n.maxNameLength)
  else if n.hashLength = 0 ∨ 64 < n.hashLength then .error (.hashLength n.hashLength)
  else if c.lookupTimeoutSeconds = 0 then .error .noTimeout
  else .ok ()

def compiler (c : Config) (directory : Directory) : Compiler where
  cluster := c.cluster
  topology := c.topology
  domain := c.domain
  naming := c.effectiveNaming
  directory := directory

end Config

end Segmentation
