import Apidoc.Document
import Apidoc.Json.Reader
import Apidoc.Record

namespace Apidoc

open Value

namespace Node

mutual

/-- How many nodes there are in a node. -/
def size : Node → Nat
  | .list items => 1 + sizeAll items
  | .sequence items => 1 + sizeAll items
  | .map entries => 1 + sizeEntries entries
  | .tagged n => 1 + n.size
  | _ => 1

def sizeAll : List Node → Nat
  | [] => 0
  | n :: rest => n.size + sizeAll rest

def sizeEntries : List (Node × Node) → Nat
  | [] => 0
  | (k, v) :: rest => k.size + v.size + sizeEntries rest

end

/-- A table of named values. -/
def tableOf? {α : Type} (read : Node → Option α) : Node → Option (Table α)
  | .map entries =>
    (entries.mapM fun (e : Node × Node) => do return (← e.1.text?, ← read e.2)).map Table.ofList
  | _ => none

end Node

namespace Schema

def names : List String :=
  ["$ref", "type", "format", "description", "items", "uniqueItems", "additionalProperties",
    "properties", "required", "enum"]

/-- Reads a schema that is nested less than the given number of times. -/
def ofNodeWithin : Nat → Node → Option Schema
  | 0, _ => none
  | depth + 1, n => do
    let r ← Record.of? names n
    return {
      reference := ← r.optional? "$ref" Node.text?
      type := ← r.optional? "type" Node.text?
      format := ← r.optional? "format" Node.text?
      description := ← r.optional? "description" Node.text?
      items := ← r.optional? "items" (ofNodeWithin depth)
      uniqueItems := ← r.field? "uniqueItems" false Node.bool?
      additionalProperties := ← r.optional? "additionalProperties" (ofNodeWithin depth)
      properties := ← r.optional? "properties" (Node.tableOf? (ofNodeWithin depth))
      required := ← r.optional? "required" Node.texts?
      enumValues := ← r.optional? "enum" Node.texts? }

def ofNode? (n : Node) : Option Schema := ofNodeWithin n.size n

mutual

def toValue : Schema → Value
  | ⟨reference, type, format, description, items, uniqueItems, additional, properties, required,
      enumValues⟩ =>
    .object (fieldOpt "$ref" .string reference ++ fieldOpt "type" .string type ++
      fieldOpt "format" .string format ++ fieldOpt "description" .string description ++
      fieldOf "items" items ++ fieldFlag "uniqueItems" uniqueItems ++
      fieldOf "additionalProperties" additional ++ fieldTable properties ++
      fieldOpt "required" strings required ++ fieldOpt "enum" strings enumValues)

def fieldOf (name : String) : Option Schema → List (String × Value)
  | none => []
  | some s => [(name, s.toValue)]

def fieldTable : Option (Table Schema) → List (String × Value)
  | none => []
  | some ⟨entries⟩ => [("properties", .object (entryValues entries))]

def entryValues : List (String × Schema) → List (String × Value)
  | [] => []
  | (k, s) :: rest => (k, s.toValue) :: entryValues rest

end

end Schema

namespace Info

def ofNode? (n : Node) : Option Info := do
  let r ← Record.of? ["title", "version", "description"] n
  return {
    title := ← r.required? "title" Node.text?
    version := ← r.required? "version" Node.text?
    description := ← r.optional? "description" Node.text? }

def toValue (i : Info) : Value :=
  .object ([("title", .string i.title), ("version", .string i.version)] ++
    fieldOpt "description" .string i.description)

end Info

namespace Tag

def ofNode? (n : Node) : Option Tag := do
  let r ← Record.of? ["name", "description"] n
  return {
    name := ← r.required? "name" Node.text?
    description := ← r.optional? "description" Node.text? }

def toValue (t : Tag) : Value :=
  .object (("name", .string t.name) :: fieldOpt "description" .string t.description)

end Tag

namespace Location

def ofNode? : Node → Option Location :=
  Node.choice? false (every.map Location.name) ofName?

end Location

namespace Parameter

def names : List String :=
  ["name", "in", "description", "required", "schema", "type", "format", "items",
    "collectionFormat", "default", "enum", "pattern"]

def ofNode? (n : Node) : Option Parameter := do
  let r ← Record.of? names n
  return {
    name := ← r.required? "name" Node.text?
    location := ← r.required? "in" Location.ofNode?
    description := ← r.optional? "description" Node.text?
    required := ← r.required? "required" Node.bool?
    schema := ← r.optional? "schema" Schema.ofNode?
    type := ← r.optional? "type" Node.text?
    format := ← r.optional? "format" Node.text?
    items := ← r.optional? "items" Schema.ofNode?
    collectionFormat := ← r.optional? "collectionFormat" Node.text?
    default := ← r.optional? "default" Node.text?
    enumValues := ← r.optional? "enum" Node.texts?
    pattern := ← r.optional? "pattern" Node.text? }

def toValue (p : Parameter) : Value :=
  .object ([("name", .string p.name), ("in", .string p.location.name)] ++
    fieldOpt "description" .string p.description ++ [("required", .bool p.required)] ++
    fieldOpt "schema" Schema.toValue p.schema ++ fieldOpt "type" .string p.type ++
    fieldOpt "format" .string p.format ++ fieldOpt "items" Schema.toValue p.items ++
    fieldOpt "collectionFormat" .string p.collectionFormat ++
    fieldOpt "default" .string p.default ++ fieldOpt "enum" strings p.enumValues ++
    fieldOpt "pattern" .string p.pattern)

end Parameter

namespace Response

def ofNode? (n : Node) : Option Response := do
  let r ← Record.of? ["description", "schema", "headers"] n
  return {
    description := ← r.required? "description" Node.text?
    schema := ← r.optional? "schema" Schema.ofNode?
    headers := ← r.optional? "headers" (Node.tableOf? Schema.ofNode?) }

def toValue (x : Response) : Value :=
  .object (("description", .string x.description) :: fieldOpt "schema" Schema.toValue x.schema ++
    fieldOpt "headers" (ofTable Schema.toValue) x.headers)

end Response

def SecurityRequirement.ofNode? : Node → Option SecurityRequirement :=
  Node.tableOf? Node.texts?

def SecurityRequirement.toValue (r : SecurityRequirement) : Value := ofTable strings r

namespace Operation

def names : List String :=
  ["tags", "summary", "description", "operationId", "schemes", "consumes", "produces",
    "parameters", "responses", "security", "deprecated"]

def ofNode? (n : Node) : Option Operation := do
  let (r, others) ← Record.openOf? names n
  return {
    tags := ← r.field? "tags" [] Node.texts?
    summary := ← r.optional? "summary" Node.text?
    description := ← r.optional? "description" Node.text?
    operationId := ← r.required? "operationId" Node.text?
    schemes := ← r.field? "schemes" [] Node.texts?
    consumes := ← r.optional? "consumes" Node.texts?
    produces := ← r.optional? "produces" Node.texts?
    parameters := ← r.field? "parameters" [] (Node.listOf? Parameter.ofNode?)
    responses := ← r.field? "responses" {} (Node.tableOf? Response.ofNode?)
    security := ← r.field? "security" [] (Node.listOf? SecurityRequirement.ofNode?)
    deprecated := ← r.field? "deprecated" false Node.bool?
    extensions := ← (Json.fieldsOf? others).map Table.ofList }

def toValue (o : Operation) : Value :=
  .object (fieldList "tags" .string o.tags ++ fieldOpt "summary" .string o.summary ++
    fieldOpt "description" .string o.description ++ [("operationId", .string o.operationId)] ++
    fieldList "schemes" .string o.schemes ++ fieldOpt "consumes" strings o.consumes ++
    fieldOpt "produces" strings o.produces ++
    fieldList "parameters" Parameter.toValue o.parameters ++
    [("responses", ofTable Response.toValue o.responses)] ++
    fieldList "security" SecurityRequirement.toValue o.security ++
    fieldFlag "deprecated" o.deprecated ++ o.extensions.entries)

end Operation

namespace PathItem

def ofNode? (n : Node) : Option PathItem := do
  let r ← Record.of? (Verb.every.map Verb.name) n
  return {
    get := ← r.optional? "get" Operation.ofNode?
    put := ← r.optional? "put" Operation.ofNode?
    post := ← r.optional? "post" Operation.ofNode?
    delete := ← r.optional? "delete" Operation.ofNode?
    options := ← r.optional? "options" Operation.ofNode?
    head := ← r.optional? "head" Operation.ofNode?
    patch := ← r.optional? "patch" Operation.ofNode? }

def toValue (p : PathItem) : Value :=
  .object (Verb.every.flatMap fun v => fieldOpt v.name Operation.toValue (p.operation? v))

end PathItem

namespace Document

def names : List String :=
  ["swagger", "info", "host", "basePath", "schemes", "consumes", "produces", "tags", "paths",
    "definitions"]

def ofNode? (n : Node) : Option Document := do
  let r ← Record.of? names n
  return {
    version := ← r.required? "swagger" Node.text?
    info := ← r.required? "info" Info.ofNode?
    host := ← r.optional? "host" Node.text?
    basePath := ← r.optional? "basePath" Node.text?
    schemes := ← r.field? "schemes" [] Node.texts?
    consumes := ← r.field? "consumes" [] Node.texts?
    produces := ← r.field? "produces" [] Node.texts?
    tags := ← r.field? "tags" [] (Node.listOf? Tag.ofNode?)
    paths := ← r.field? "paths" {} (Node.tableOf? PathItem.ofNode?)
    definitions := ← r.field? "definitions" {} (Node.tableOf? Schema.ofNode?) }

def toValue (d : Document) : Value :=
  .object ([("swagger", .string d.version), ("info", d.info.toValue)] ++
    fieldOpt "host" .string d.host ++ fieldOpt "basePath" .string d.basePath ++
    fieldList "schemes" .string d.schemes ++ fieldList "consumes" .string d.consumes ++
    fieldList "produces" .string d.produces ++ fieldList "tags" Tag.toValue d.tags ++
    [("paths", ofTable PathItem.toValue d.paths)] ++
    (if d.definitions.isEmpty then [] else
      [("definitions", ofTable Schema.toValue d.definitions)]))

end Document

end Apidoc
