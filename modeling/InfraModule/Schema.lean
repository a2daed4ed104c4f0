import InfraModule.Text.Sorted

/-!
# The schema of declarations

Every declaration of a module document has one of twenty-one kinds. The kind's row of the schema
table says which family it belongs to, which key must come first and names it (its keyword), which
other keys it accepts, in authored order, what shape each value has and which keys must be present.
-/

namespace InfraModule

/-- The kinds of declarations, in the order of the table. -/
inductive Kind where
  | module | using | parameter | import | variable | group | condition | resource | nested
  | package | function | mapping | resourceType | templateMacro | vpc | propertyType
  | attributeType | apiSource | scheduleSource | topicSource | queueSource
  deriving DecidableEq, Inhabited

/-- Families of kinds that stand in for one another where either is accepted. -/
inductive Family where
  /-- The named items of a module. -/
  | item
  /-- The event sources of a function. -/
  | eventSource
  deriving DecidableEq, Inhabited

/-- What a place in a document accepts: declarations of one kind or of a whole family. -/
inductive DeclarationType where
  /-- One kind. -/
  | concrete (kind : Kind)
  /-- Any kind of a family. -/
  | abstract (family : Family)
  deriving DecidableEq, Inhabited

/-- The shape of the value of a key. -/
inductive ValueKind where
  /-- An untagged scalar, kept as text. -/
  | string
  /-- An untagged scalar that denotes an integer. -/
  | int
  /-- An untagged scalar that denotes a truth value. -/
  | bool
  /-- Any value, tagged functions included. -/
  | expression
  /-- A condition. -/
  | condition
  /-- An untagged mapping. -/
  | object
  /-- An untagged sequence. -/
  | list
  /-- A sequence of untagged scalars. -/
  | stringList
  /-- A nested declaration. -/
  | declaration (type : DeclarationType)
  /-- A sequence of declarations. -/
  | declarationList (type : DeclarationType)
  deriving DecidableEq, Inhabited

/-- A key that a kind of declaration accepts. -/
structure Property where
  /-- The key as it is written. -/
  key : String
  /-- The shape of its value. -/
  value : ValueKind
  /-- Whether a declaration without it is incomplete. -/
  required : Bool
  deriving DecidableEq, Inhabited

/-- A row of the schema table. -/
structure Schema where
  /-- The kind's name. -/
  name : String
  /-- The family that the kind belongs to. -/
  family : Option Family := none
  /-- The key that must come first, with the shape of its value. -/
  keyword : Option (String × ValueKind)
  /-- The other keys, in authored order. -/
  properties : List Property

namespace Schema

/-- A key that may be left out. -/
def optional (key : String) (value : ValueKind) : Property :=
  ⟨key, value, false⟩

/-- A key that must be present. -/
def required (key : String) (value : ValueKind) : Property :=
  ⟨key, value, true⟩

/-- The row of a named item of a module, introduced by its kind and name. -/
def item (kind : String) (properties : List Property) : Schema where
  name := kind
  family := some .item
  keyword := some (kind, .string)
  properties := properties

/-- A sequence of the items of a module. -/
def items : ValueKind :=
  .declarationList (.abstract .item)

end Schema

open Schema in
/-- The schema table. -/
def Kind.schema : Kind → Schema
  | .module =>
    { name := "Module"
      keyword := some ("Module", .string)
      properties := [
        optional "Version" .string,
        optional "Description" .string,
        optional "Pragmas" .list,
        optional "Secrets" .stringList,
        optional "Using" (.declarationList (.concrete .using)),
        required "Items" items] }
  | .using =>
    { name := "Using"
      keyword := some ("Module", .string)
      properties := [optional "Description" .string] }
  | .parameter =>
    item "Parameter" [
      optional "Section" .string,
      optional "Label" .string,
      optional "Description" .string,
      optional "Type" .string,
      optional "Scope" .stringList,
      optional "NoEcho" .bool,
      optional "Default" .string,
      optional "ConstraintDescription" .string,
      optional "AllowedPattern" .string,
      optional "AllowedValues" .list,
      optional "MaxLength" .int,
      optional "MaxValue" .int,
      optional "MinLength" .int,
      optional "MinValue" .int,
      optional "Allow" .expression,
      optional "Properties" .object,
      optional "EncryptionContext" .object,
      optional "Pragmas" .list]
  | .import =>
    item "Import" [
      optional "Description" .string,
      optional "Type" .string,
      optional "Scope" .stringList,
      required "Module" .string,
      optional "EncryptionContext" .object]
  | .variable =>
    item "Variable" [
      optional "Description" .string,
      optional "Type" .string,
      optional "Scope" .stringList,
      required "Value" .expression,
      optional "EncryptionContext" .object]
  | .group =>
    item "Group" [
      optional "Description" .string,
      required "Items" items]
  | .condition =>
    item "Condition" [
      optional "Description" .string,
      required "Value" .condition]
  | .resource =>
    item "Resource" [
      optional "Description" .string,
      optional "If" .condition,
      optional "Type" .string,
      optional "Scope" .stringList,
      optional "Allow" .expression,
      optional "Value" .expression,
      optional "DependsOn" .stringList,
      optional "Properties" .object,
      optional "DefaultAttribute" .string,
      optional "Pragmas" .list]
  | .nested =>
    item "Nested" [
      optional "Description" .string,
      required "Module" .string,
      optional "DependsOn" .stringList,
      optional "Parameters" .object]
  | .package =>
    item "Package" [
      optional "Description" .string,
      optional "Scope" .stringList,
      required "Files" .string]
  | .function =>
    item "Function" [
      optional "Description" .string,
      optional "Scope" .stringList,
      optional "If" .condition,
      required "Memory" .string,
      required "Timeout" .string,
      optional "Project" .string,
      optional "Runtime" .string,
      optional "Language" .string,
      optional "Handler" .string,
      optional "Vpc" (.declaration (.concrete .vpc)),
      optional "Environment" .object,
      optional "Properties" .object,
      optional "Sources" (.declarationList (.abstract .eventSource)),
      optional "Pragmas" .list]
  | .mapping =>
    item "Mapping" [
      optional "Description" .string,
      required "Value" .object]
  | .resourceType =>
    item "ResourceType" [
      optional "Description" .string,
      required "Handler" .string,
      required "Properties" (.declarationList (.concrete .propertyType)),
      required "Attributes" (.declarationList (.concrete .attributeType))]
  | .templateMacro =>
    item "Macro" [
      optional "Description" .string,
      required "Handler" .string]
  | .vpc =>
    { name := "Vpc"
      keyword := none
      properties := [
        required "SecurityGroupIds" .expression,
        required "SubnetIds" .expression] }
  | .propertyType =>
    { name := "PropertyType"
      keyword := some ("Name", .string)
      properties := [
        optional "Description" .string,
        required "Type" .string,
        optional "Required" .bool] }
  | .attributeType =>
    { name := "AttributeType"
      keyword := some ("Name", .string)
      properties := [
        optional "Description" .string,
        required "Type" .string] }
  | .apiSource =>
    { name := "ApiSource"
      family := some .eventSource
      keyword := some ("Api", .string)
      properties := [
        optional "Integration" .string,
        optional "OperationName" .string,
        optional "ApiKeyRequired" .bool,
        optional "Invoke" .string] }
  | .scheduleSource =>
    { name := "ScheduleSource"
      family := some .eventSource
      keyword := some ("Schedule", .expression)
      properties := [optional "Name" .string] }
  | .topicSource =>
    { name := "TopicSource"
      family := some .eventSource
      keyword := some ("Topic", .string)
      properties := [optional "Filters" .object] }
  | .queueSource =>
    { name := "QueueSource"
      family := some .eventSource
      keyword := some ("Sqs", .string)
      properties := [optional "BatchSize" .int] }

namespace Kind

/-- All kinds, in the order of the table. -/
def all : List Kind :=
  [.module, .using, .parameter, .import, .variable, .group, .condition, .resource, .nested,
    .package, .function, .mapping, .resourceType, .templateMacro, .vpc, .propertyType,
    .attributeType, .apiSource, .scheduleSource, .topicSource, .queueSource]

/-- Every kind is listed. -/
theorem mem_all (k : Kind) : k ∈ all := by
  cases k <;> decide

/-- The kind's name. -/
def name (k : Kind) : String :=
  k.schema.name

/-- The family that the kind belongs to. -/
def family (k : Kind) : Option Family :=
  k.schema.family

/-- Whether declarations of this kind are named items of a module. -/
def isItem (k : Kind) : Bool :=
  k.family == some .item

/-- The key that must come first. -/
def keyword (k : Kind) : Option String :=
  k.schema.keyword.map Prod.fst

/-- The keys other than the keyword, in authored order. -/
def properties (k : Kind) : List Property :=
  k.schema.properties

/-- The names of the keys other than the keyword, in authored order. -/
def propertyKeys (k : Kind) : List String :=
  k.properties.map Property.key

/-- The keyword as a key that must be present. -/
def keywordProperty (k : Kind) : Option Property :=
  k.schema.keyword.map fun (key, value) => ⟨key, value, true⟩

/-- All accepted keys, the keyword first. -/
def keys (k : Kind) : List Property :=
  k.keywordProperty.toList ++ k.properties

/-- The accepted key of a given name. -/
def property? (k : Kind) (key : String) : Option Property :=
  k.keys.find? (·.key == key)

/-- Whether `key` is the keyword. -/
def isKeyword (k : Kind) (key : String) : Bool :=
  k.keyword == some key

/-- The keys that must be present, keyword included, sorted. -/
def mandatoryKeys (k : Kind) : List String :=
  Sorted.ofList ((k.keys.filter Property.required).map Property.key)

end Kind

/-- The kinds of a family, in the order of the table. -/
def Family.kinds (f : Family) : List Kind :=
  Kind.all.filter (·.family == some f)

/-- Whether a kind is accepted where a declaration of this type is. -/
def DeclarationType.accepts : DeclarationType → Kind → Bool
  | .concrete kind, k => k == kind
  | .abstract family, k => k.family == some family

end InfraModule
