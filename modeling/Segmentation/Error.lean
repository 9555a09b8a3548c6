namespace Segmentation

inductive LimitKind where
  | criterionExpressions
  | mixedCriterionExpressions
  | groupCriteria
  | groupExpressions
  | inOperators
  | inValues
  deriving DecidableEq, Repr

def LimitKind.label : LimitKind → String
  | .criterionExpressions => "同质条件组表达式数"
  | .mixedCriterionExpressions => "混合条件组表达式数"
  | .groupCriteria => "组内条件组数"
  | .groupExpressions => "组内表达式总数"
  | .inOperators => "In 操作符数"
  | .inValues => "In 取值数"

inductive Field where
  | operator
  | action
  | direction
  | protocol
  | port
  | endPort
  | ipBlock
  | namespace
  | sources
  | destinations
  deriving DecidableEq, Repr

def Field.label : Field → String
  | .operator => "operator"
  | .action => "action"
  | .direction => "direction"
  | .protocol => "protocol"
  | .port => "port"
  | .endPort => "endPort"
  | .ipBlock => "ipBlock"
  | .namespace => "namespace"
  | .sources => "sources"
  | .destinations => "destinations"

inductive CombinationFault where
  | twoWorkloads
  | twoScopes
  | twoBlockLists
  | emptyBlocks
  | nothing
  | blocksWithSelector
  deriving DecidableEq, Repr

def CombinationFault.message : CombinationFault → String
  | .twoWorkloads => "同一对端不能包含两个工作负载选择器"
  | .twoScopes => "同一对端不能包含两个作用域选择器"
  | .twoBlockLists => "同一对端不能包含两个地址块列表"
  | .emptyBlocks => "地址块列表不能为空"
  | .nothing => "对端描述符为空"
  | .blocksWithSelector => "地址块不能与标签选择器组合"

inductive RequirementFault where
  | emptyKey
  | valueCount (key operator : String) (count : Nat)
  deriving DecidableEq, Repr

def RequirementFault.message : RequirementFault → String
  | .emptyKey => "表达式键不能为空"
  | .valueCount key operator count =>
    "键 " ++ key ++ " 的操作符 " ++ operator ++ " 与取值数量 " ++ toString count ++ " 不匹配"

inductive ValidationError where
  | limitExceeded (kind : LimitKind) (actual limit : Nat)
  | duplicateCondition (key value : String)
  | invalidCombination (fault : CombinationFault)
  | invalidRequirement (fault : RequirementFault)
  | invalidValue (field : Field) (value : String)
  | malformedExpression (length : Nat)
  deriving DecidableEq, Repr

def ValidationError.message : ValidationError → String
  | .limitExceeded kind actual limit =>
    kind.label ++ " 为 " ++ toString actual ++ "，超出上限 " ++ toString limit
  | .duplicateCondition key value =>
    "重复条件: 键 " ++ key ++ " 的取值 " ++ value ++ " 同时出现在 matchLabels 与 In 表达式中"
  | .invalidCombination fault => "选择器组合无效: " ++ fault.message
  | .invalidRequirement fault => "选择器表达式无效: " ++ fault.message
  | .invalidValue field value => "字段 " ++ field.label ++ " 的取值无效: " ++ value
  | .malformedExpression length => "表达式结构无效: 长度 " ++ toString length

inductive LookupFault where
  | noScope (name : String)
  | noNetwork (scope : String)
  | outage (message : String)
  deriving DecidableEq, Repr

def LookupFault.message : LookupFault → String
  | .noScope name => "命名空间 " ++ name ++ " 不存在"
  | .noNetwork scope => "命名空间 " ++ scope ++ " 未声明 VPC"
  | .outage message => message

inductive Error where
  | validation (cause : ValidationError)
  /-- A rule has named ports only and none of them is open anywhere; the address sets with the
  given keys have no members any more. -/
  | noEffectiveOption (rule : String) (staleAddressSets : List String)
  | externalLookup (fault : LookupFault)
  | publish (message : String)
  deriving DecidableEq, Repr

def Error.message : Error → String
  | .validation cause => "校验错误: " ++ cause.message
  | .noEffectiveOption rule _ => "规则 " ++ rule ++ " 的命名端口没有有效选项"
  | .externalLookup fault => "外部查询错误: " ++ fault.message
  | .publish message => "发布错误: " ++ message

def Error.limit (kind : LimitKind) (actual limit : Nat) : Error :=
  .validation (.limitExceeded kind actual limit)

def Error.combination (fault : CombinationFault) : Error :=
  .validation (.invalidCombination fault)

def Error.invalid (field : Field) (value : String) : Error :=
  .validation (.invalidValue field value)

end Segmentation
