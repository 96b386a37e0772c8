import Apidoc.Record
import Apidoc.Resource
import Apidoc.Source.Type

namespace Apidoc

open Value

def TypeRef.ofNode? (n : Node) : Option TypeRef :=
  n.text?.bind fun s => (TypeRef.parse s).toOption

def TypeRef.toValue (t : TypeRef) : Value := .string t.text

def Verb.ofNode? : Node → Option Verb :=
  Node.choice? true (Verb.every.map Verb.name) Verb.ofName?

def Verb.toValue (v : Verb) : Value := .string v.name

namespace Authorization

def ofNode? (n : Node) : Option Authorization := do
  let r ← Record.of? ["value", "scopes"] n
  return {
    scheme := ← r.field? "value" "" Node.text?
    scopes := ← r.field? "scopes" [] Node.texts? }

def toValue (a : Authorization) : Value :=
  .object [("value", .string a.scheme), ("scopes", strings a.scopes)]

end Authorization

namespace ApiInfo

def ofNode? (n : Node) : Option ApiInfo := do
  let r ← Record.of? ["value", "description", "tags", "hidden", "authorizations"] n
  return {
    value := ← r.field? "value" "" Node.text?
    description := ← r.field? "description" "" Node.text?
    tags := ← r.field? "tags" [] Node.texts?
    hidden := ← r.field? "hidden" false Node.bool?
    authorizations := ← r.field? "authorizations" [] (Node.listOf? Authorization.ofNode?) }

def toValue (a : ApiInfo) : Value :=
  .object [("value", .string a.value), ("description", .string a.description),
    ("tags", strings a.tags), ("hidden", .bool a.hidden),
    ("authorizations", .list (a.authorizations.map Authorization.toValue))]

end ApiInfo

namespace CustomAnnotation

def ofNode? (n : Node) : Option CustomAnnotation := do
  let r ← Record.of? ["name", "http_method"] n
  return {
    name := ← r.field? "name" "" Node.text?
    verb := ← r.field? "http_method" none (Node.optional? Node.text?) }

def toValue (a : CustomAnnotation) : Value :=
  .object [("name", .string a.name), ("http_method", orNull .string a.verb)]

end CustomAnnotation

namespace HeaderInfo

def ofNode? (n : Node) : Option HeaderInfo := do
  let r ← Record.of? ["name", "description", "response", "response_container"] n
  return {
    name := ← r.field? "name" "" Node.text?
    description := ← r.field? "description" "" Node.text?
    type := ← r.field? "response" none (Node.optional? TypeRef.ofNode?)
    container := ← r.field? "response_container" "" Node.text? }

def toValue (h : HeaderInfo) : Value :=
  .object [("name", .string h.name), ("description", .string h.description),
    ("response", orNull TypeRef.toValue h.type), ("response_container", .string h.container)]

end HeaderInfo

namespace ExtensionProperty

def ofNode? (n : Node) : Option ExtensionProperty := do
  let r ← Record.of? ["name", "value"] n
  return {
    name := ← r.field? "name" "" Node.text?
    value := ← r.field? "value" "" Node.text? }

def toValue (p : ExtensionProperty) : Value :=
  .object [("name", .string p.name), ("value", .string p.value)]

end ExtensionProperty

namespace Extension

def ofNode? (n : Node) : Option Extension := do
  let r ← Record.of? ["name", "properties"] n
  return {
    name := ← r.field? "name" "" Node.text?
    properties := ← r.field? "properties" [] (Node.listOf? ExtensionProperty.ofNode?) }

def toValue (e : Extension) : Value :=
  .object [("name", .string e.name),
    ("properties", .list (e.properties.map ExtensionProperty.toValue))]

end Extension

namespace OperationInfo

def ofNode? (n : Node) : Option OperationInfo := do
  let r ← Record.of? ["value", "notes", "nickname", "tags", "http_method", "response",
    "response_container", "code", "response_headers", "authorizations", "extensions", "protocols",
    "hidden"] n
  return {
    summary := ← r.field? "value" "" Node.text?
    notes := ← r.field? "notes" "" Node.text?
    nickname := ← r.field? "nickname" "" Node.text?
    tags := ← r.field? "tags" [] Node.texts?
    verb := ← r.field? "http_method" "" Node.text?
    response := ← r.field? "response" none (Node.optional? TypeRef.ofNode?)
    container := ← r.field? "response_container" "" Node.text?
    code := ← r.field? "code" 200 Node.word?
    headers := ← r.field? "response_headers" [] (Node.listOf? HeaderInfo.ofNode?)
    authorizations := ← r.field? "authorizations" [] (Node.listOf? Authorization.ofNode?)
    extensions := ← r.field? "extensions" [] (Node.listOf? Extension.ofNode?)
    protocols := ← r.field? "protocols" "" Node.text?
    hidden := ← r.field? "hidden" false Node.bool? }

def toValue (o : OperationInfo) : Value :=
  .object [("value", .string o.summary), ("notes", .string o.notes),
    ("nickname", .string o.nickname), ("tags", strings o.tags), ("http_method", .string o.verb),
    ("response", orNull TypeRef.toValue o.response), ("response_container", .string o.container),
    ("code", .int o.code.toNat),
    ("response_headers", .list (o.headers.map HeaderInfo.toValue)),
    ("authorizations", .list (o.authorizations.map Authorization.toValue)),
    ("extensions", .list (o.extensions.map Extension.toValue)),
    ("protocols", .string o.protocols), ("hidden", .bool o.hidden)]

end OperationInfo

namespace ResponseInfo

def ofNode? (n : Node) : Option ResponseInfo := do
  let r ← Record.of? ["code", "message", "response", "response_container", "response_headers"] n
  return {
    code := ← r.field? "code" 0 Node.word?
    message := ← r.field? "message" "" Node.text?
    type := ← r.field? "response" none (Node.optional? TypeRef.ofNode?)
    container := ← r.field? "response_container" "" Node.text?
    headers := ← r.field? "response_headers" [] (Node.listOf? HeaderInfo.ofNode?) }

def toValue (x : ResponseInfo) : Value :=
  .object [("code", .int x.code.toNat), ("message", .string x.message),
    ("response", orNull TypeRef.toValue x.type), ("response_container", .string x.container),
    ("response_headers", .list (x.headers.map HeaderInfo.toValue))]

end ResponseInfo

namespace ImplicitParameter

def ofNode? (n : Node) : Option ImplicitParameter := do
  let r ← Record.of? ["name", "value", "required", "data_type", "param_type", "default_value",
    "allowable_values", "allow_multiple", "format"] n
  return {
    name := ← r.field? "name" "" Node.text?
    description := ← r.field? "value" "" Node.text?
    required := ← r.field? "required" false Node.bool?
    type := ← r.field? "data_type" "" Node.text?
    location := ← r.field? "param_type" "" Node.text?
    default := ← r.field? "default_value" "" Node.text?
    allowed := ← r.field? "allowable_values" "" Node.text?
    multiple := ← r.field? "allow_multiple" false Node.bool?
    format := ← r.field? "format" "" Node.text? }

def toValue (i : ImplicitParameter) : Value :=
  .object [("name", .string i.name), ("value", .string i.description),
    ("required", .bool i.required), ("data_type", .string i.type),
    ("param_type", .string i.location), ("default_value", .string i.default),
    ("allowable_values", .string i.allowed), ("allow_multiple", .bool i.multiple),
    ("format", .string i.format)]

end ImplicitParameter

namespace ParameterInfo

def ofNode? (n : Node) : Option ParameterInfo := do
  let r ← Record.of? ["name", "value", "required", "hidden", "type", "format",
    "collection_format", "allowable_values", "default_value"] n
  return {
    name := ← r.field? "name" "" Node.text?
    description := ← r.field? "value" "" Node.text?
    required := ← r.field? "required" false Node.bool?
    hidden := ← r.field? "hidden" false Node.bool?
    type := ← r.field? "type" "" Node.text?
    format := ← r.field? "format" "" Node.text?
    collectionFormat := ← r.field? "collection_format" "" Node.text?
    allowed := ← r.field? "allowable_values" "" Node.text?
    default := ← r.field? "default_value" "" Node.text? }

def fields (i : ParameterInfo) : List (String × Value) :=
  [("name", .string i.name), ("value", .string i.description), ("required", .bool i.required),
    ("hidden", .bool i.hidden), ("type", .string i.type), ("format", .string i.format),
    ("collection_format", .string i.collectionFormat), ("allowable_values", .string i.allowed),
    ("default_value", .string i.default)]

end ParameterInfo

namespace ParamAnnotation

/-- The only field of an annotation. -/
def soleField? (name : String) (n : Node) : Option String := do
  let r ← Record.of? [name] n
  r.required? name Node.text?

/-- Annotations that say nothing more have any fields, but no items. -/
def isBare : Node → Bool
  | .map _ => true
  | .list [] => true
  | _ => false

/-- The annotation of a kind with its typed content. -/
def ofContent? (kind : String) (content : Node) : Option ParamAnnotation :=
  if kind = "path" then (soleField? "name" content).map path
  else if kind = "query" then (soleField? "name" content).map query
  else if kind = "header" then (soleField? "name" content).map header
  else if kind = "form" then (soleField? "name" content).map form
  else if kind = "cookie" then (soleField? "name" content).map cookie
  else if kind = "bean" then if isBare content then some bean else none
  else if kind = "context" then if isBare content then some context else none
  else if kind = "default_value" then (soleField? "value" content).map defaultValue
  else if kind = "api" then (ParameterInfo.ofNode? content).map api
  else none

/-- The kinds among the entries of an annotation, and its typed other entries. -/
def splitKind? : List (Node × Node) → Option (List Node × List (Node × Node))
  | [] => some ([], [])
  | (k, v) :: rest => do
    let key ← k.typed?
    let (kinds, others) ← splitKind? rest
    match key with
    | .string "kind" => return (v :: kinds, others)
    | key => return (kinds, (key, ← v.typed?) :: others)

/-- An annotation is an object with its kind among the fields, or a list that begins with it. -/
def ofNode? : Node → Option ParamAnnotation
  | .map entries => do
    let (kinds, others) ← splitKind? entries
    match kinds with
    | [kind] => ofContent? (← kind.text?) (.map others)
    | _ => none
  | .list (kind :: rest) => do ofContent? (← kind.text?) (.list (← Node.typedAll? rest))
  | .sequence (kind :: rest) => do ofContent? (← kind.text?) (.list (← Node.typedAll? rest))
  | _ => none

def toValue : ParamAnnotation → Value
  | path name => .object [("kind", .string "path"), ("name", .string name)]
  | query name => .object [("kind", .string "query"), ("name", .string name)]
  | header name => .object [("kind", .string "header"), ("name", .string name)]
  | form name => .object [("kind", .string "form"), ("name", .string name)]
  | cookie name => .object [("kind", .string "cookie"), ("name", .string name)]
  | bean => .object [("kind", .string "bean")]
  | context => .object [("kind", .string "context")]
  | defaultValue value => .object [("kind", .string "default_value"), ("value", .string value)]
  | api info => .object (("kind", .string "api") :: info.fields)

end ParamAnnotation

namespace Declaration

def names : List String :=
  ["operation", "path", "verb", "custom_annotations", "consumes", "produces", "responses",
    "implicit_params", "deprecated"]

/-- The declaration that typed entries hold. -/
def ofEntries? (entries : List (Node × Node)) : Option Declaration := do
  let r ← Record.of? names (.map entries)
  return {
    operation := ← r.field? "operation" none (Node.optional? OperationInfo.ofNode?)
    path := ← r.field? "path" none (Node.optional? Node.text?)
    verb := ← r.field? "verb" none (Node.optional? Verb.ofNode?)
    customAnnotations :=
      ← r.field? "custom_annotations" [] (Node.listOf? CustomAnnotation.ofNode?)
    consumes := ← r.field? "consumes" none (Node.optional? Node.texts?)
    produces := ← r.field? "produces" none (Node.optional? Node.texts?)
    responses :=
      ← r.field? "responses" none (Node.optional? (Node.listOf? ResponseInfo.ofNode?))
    implicitParameters :=
      ← r.field? "implicit_params" none (Node.optional? (Node.listOf? ImplicitParameter.ofNode?))
    deprecated := ← r.field? "deprecated" false Node.bool? }

def fields (d : Declaration) : List (String × Value) :=
  [("operation", orNull OperationInfo.toValue d.operation), ("path", orNull .string d.path),
    ("verb", orNull Verb.toValue d.verb),
    ("custom_annotations", .list (d.customAnnotations.map CustomAnnotation.toValue)),
    ("consumes", orNull strings d.consumes), ("produces", orNull strings d.produces),
    ("responses", orNull (fun rs => .list (rs.map ResponseInfo.toValue)) d.responses),
    ("implicit_params",
      orNull (fun is => .list (is.map ImplicitParameter.toValue)) d.implicitParameters),
    ("deprecated", .bool d.deprecated)]

end Declaration

namespace Overridden

def ofNode? (n : Node) : Option Overridden := do
  let (r, others) ← Record.openOf? ["parameter_annotations"] n
  return {
    declaration := ← Declaration.ofEntries? others
    parameterAnnotations := ← r.field? "parameter_annotations" []
      (Node.listOf? (Node.listOf? ParamAnnotation.ofNode?)) }

def toValue (o : Overridden) : Value :=
  .object (o.declaration.fields ++ [("parameter_annotations",
    .list (o.parameterAnnotations.map fun as => .list (as.map ParamAnnotation.toValue)))])

end Overridden

namespace ParameterDecl

def ofNode? (n : Node) : Option ParameterDecl := do
  let r ← Record.of? ["type", "annotations"] n
  return {
    type := ← r.required? "type" TypeRef.ofNode?
    annotations := ← r.field? "annotations" [] (Node.listOf? ParamAnnotation.ofNode?) }

def toValue (p : ParameterDecl) : Value :=
  .object [("type", p.type.toValue),
    ("annotations", .list (p.annotations.map ParamAnnotation.toValue))]

end ParameterDecl

namespace Method

def ofNode? (n : Node) : Option Method := do
  let (r, others) ← Record.openOf? ["name", "return_type", "parameters", "overridden"] n
  return {
    name := ← r.required? "name" Node.text?
    returnType := ← r.field? "return_type" .void TypeRef.ofNode?
    parameters := ← r.field? "parameters" [] (Node.listOf? ParameterDecl.ofNode?)
    declaration := ← Declaration.ofEntries? others
    overridden := ← r.field? "overridden" [] (Node.listOf? Overridden.ofNode?) }

def toValue (m : Method) : Value :=
  .object ([("name", .string m.name), ("return_type", m.returnType.toValue),
    ("parameters", .list (m.parameters.map ParameterDecl.toValue))] ++ m.declaration.fields ++
    [("overridden", .list (m.overridden.map Overridden.toValue))])

end Method

namespace Resource

def ofNode? (n : Node) : Option Resource := do
  let r ← Record.of? ["name", "api", "path", "consumes", "produces", "methods"] n
  return {
    name := ← r.field? "name" "" Node.text?
    api := ← r.field? "api" none (Node.optional? ApiInfo.ofNode?)
    path := ← r.field? "path" none (Node.optional? Node.text?)
    consumes := ← r.field? "consumes" [] Node.texts?
    produces := ← r.field? "produces" [] Node.texts?
    methods := ← r.field? "methods" [] (Node.listOf? Method.ofNode?) }

def toValue (x : Resource) : Value :=
  .object [("name", .string x.name), ("api", orNull ApiInfo.toValue x.api),
    ("path", orNull .string x.path), ("consumes", strings x.consumes),
    ("produces", strings x.produces), ("methods", .list (x.methods.map Method.toValue))]

end Resource

namespace BeanField

def ofNode? (n : Node) : Option BeanField := do
  let r ← Record.of? ["name", "type", "annotations"] n
  return {
    name := ← r.required? "name" Node.text?
    type := ← r.required? "type" TypeRef.ofNode?
    annotations := ← r.field? "annotations" [] (Node.listOf? ParamAnnotation.ofNode?) }

def toValue (f : BeanField) : Value :=
  .object [("name", .string f.name), ("type", f.type.toValue),
    ("annotations", .list (f.annotations.map ParamAnnotation.toValue))]

end BeanField

namespace Bean

def ofNode? (n : Node) : Option Bean := do
  let r ← Record.of? ["name", "fields"] n
  return {
    name := ← r.field? "name" "" Node.text?
    fields := ← r.field? "fields" [] (Node.listOf? BeanField.ofNode?) }

def toValue (b : Bean) : Value :=
  .object [("name", .string b.name), ("fields", .list (b.fields.map BeanField.toValue))]

end Bean

namespace TagDefinition

def ofNode? (n : Node) : Option TagDefinition := do
  let r ← Record.of? ["name", "description"] n
  return {
    name := ← r.field? "name" "" Node.text?
    description := ← r.field? "description" "" Node.text? }

def toValue (t : TagDefinition) : Value :=
  .object [("name", .string t.name), ("description", .string t.description)]

end TagDefinition

namespace Bundle

def ofNode? (n : Node) : Option Bundle := do
  let r ← Record.of? ["resources", "sub_resources", "beans", "tags"] n
  return {
    resources := ← r.field? "resources" [] (Node.listOf? Resource.ofNode?)
    subResources := ← r.field? "sub_resources" [] (Node.listOf? Resource.ofNode?)
    beans := ← r.field? "beans" [] (Node.listOf? Bean.ofNode?)
    tags := ← r.field? "tags" [] (Node.listOf? TagDefinition.ofNode?) }

def toValue (b : Bundle) : Value :=
  .object [("resources", .list (b.resources.map Resource.toValue)),
    ("sub_resources", .list (b.subResources.map Resource.toValue)),
    ("beans", .list (b.beans.map Bean.toValue)),
    ("tags", .list (b.tags.map TagDefinition.toValue))]

end Bundle

end Apidoc
