import Apidoc.Resource
import Apidoc.Schema
import Apidoc.Value

namespace Apidoc

/-- Where a parameter travels. -/
inductive Location where
  | path
  | query
  | header
  | body
  | form
  | cookie
  deriving DecidableEq

namespace Location

def name : Location → String
  | path => "path"
  | query => "query"
  | header => "header"
  | body => "body"
  | form => "formData"
  | cookie => "cookie"

def every : List Location := [path, query, header, body, form, cookie]

/-- The location of exactly this name. -/
def ofName? (name : String) : Option Location :=
  every.find? (·.name == name)

/-- The location that a text declares; the case of letters and the blanks around are ignored. -/
def parse? (text : String) : Option Location :=
  let word := Text.lowerAscii (Text.trim text)
  if word = "path" then some path
  else if word = "query" then some query
  else if word = "header" then some header
  else if word = "body" then some body
  else if word = "form" ∨ word = "formdata" then some form
  else if word = "cookie" then some cookie
  else none

theorem ofName?_name (l : Location) : ofName? l.name = some l := by cases l <;> decide

end Location

structure Info where
  title : String := "Generated API"
  version : String := "1.0.0"
  description : Option String := none

structure Tag where
  name : String
  description : Option String := none
  deriving DecidableEq

/-- A tag with a description, unless the text is empty. -/
def Tag.describe (t : Tag) (text : String) : Tag :=
  if text = "" then t else { t with description := some text }

/-- The scopes that are asked of each scheme. -/
abbrev SecurityRequirement := Table (List String)

structure Parameter where
  name : String
  location : Location
  description : Option String := none
  required : Bool
  schema : Option Schema := none
  type : Option String := none
  format : Option String := none
  items : Option Schema := none
  collectionFormat : Option String := none
  default : Option String := none
  enumValues : Option (List String) := none
  pattern : Option String := none

/-- A parameter of which only name and location are known. Those in the path are required. -/
def Parameter.at (location : Location) (name : String) : Parameter :=
  { name, location, required := location == .path }

/-- Whether two parameters have the same name and travel in the same place. -/
def Parameter.sameKey (p q : Parameter) : Bool :=
  p.name == q.name && p.location == q.location

structure Response where
  description : String := ""
  schema : Option Schema := none
  headers : Option (Table Schema) := none

structure Operation where
  tags : List String := []
  summary : Option String := none
  description : Option String := none
  operationId : String := ""
  schemes : List String := []
  consumes : Option (List String) := none
  produces : Option (List String) := none
  parameters : List Parameter := []
  responses : Table Response := {}
  security : List SecurityRequirement := []
  deprecated : Bool := false
  extensions : Table Value := {}

namespace Operation

def addTag (o : Operation) (tag : String) : Operation :=
  if tag ∈ o.tags then o else { o with tags := o.tags ++ [tag] }

def addSecurity (o : Operation) (r : SecurityRequirement) : Operation :=
  if o.security.any (Table.same · r) then o else { o with security := o.security ++ [r] }

/-- Adds a parameter unless one of its name and location is there. -/
def addParameter (o : Operation) (p : Parameter) : Operation :=
  if o.parameters.any (·.sameKey p) then o else { o with parameters := o.parameters ++ [p] }

end Operation

/-- The operations of one path, one for each verb at most. -/
structure PathItem where
  get : Option Operation := none
  put : Option Operation := none
  post : Option Operation := none
  delete : Option Operation := none
  options : Option Operation := none
  head : Option Operation := none
  patch : Option Operation := none

namespace PathItem

def operation? (p : PathItem) : Verb → Option Operation
  | .get => p.get
  | .put => p.put
  | .post => p.post
  | .delete => p.delete
  | .options => p.options
  | .head => p.head
  | .patch => p.patch

def set (p : PathItem) (o : Operation) : Verb → PathItem
  | .get => { p with get := some o }
  | .put => { p with put := some o }
  | .post => { p with post := some o }
  | .delete => { p with delete := some o }
  | .options => { p with options := some o }
  | .head => { p with head := some o }
  | .patch => { p with patch := some o }

/-- The verbs that have an operation. -/
def verbs (p : PathItem) : List Verb :=
  Verb.every.filter fun v => (p.operation? v).isSome

theorem operation?_set (p : PathItem) (o : Operation) (v w : Verb) :
    (p.set o v).operation? w = if v = w then some o else p.operation? w := by
  cases v <;> cases w <;> rfl

end PathItem

structure Document where
  version : String := "2.0"
  info : Info := {}
  host : Option String := none
  basePath : Option String := none
  schemes : List String := []
  consumes : List String := []
  produces : List String := []
  tags : List Tag := []
  paths : Table PathItem := {}
  definitions : Table Schema := {}

/-- Adds a tag; one of its name that has no description takes its. -/
def Tag.addTo (tag : Tag) : List Tag → List Tag
  | [] => [tag]
  | t :: ts =>
    if t.name = tag.name then { t with description := t.description.or tag.description } :: ts
    else t :: tag.addTo ts

/-- Gives the first tag of this name a description, if it has none. -/
def TagDefinition.describeIn (d : TagDefinition) : List Tag → List Tag
  | [] => []
  | t :: ts =>
    if t.name = d.name then { t with description := t.description.or (some d.description) } :: ts
    else t :: d.describeIn ts

namespace Document

def operation? (d : Document) (path : String) (verb : Verb) : Option Operation :=
  (d.paths.get? path).bind (·.operation? verb)

def tag? (d : Document) (name : String) : Option Tag :=
  d.tags.find? (·.name == name)

def addOperation (d : Document) (path : String) (verb : Verb) (o : Operation) : Document :=
  { d with paths := d.paths.put path (((d.paths.get? path).getD {}).set o verb) }

def addModel (d : Document) (name : String) (model : Schema) : Document :=
  { d with definitions := d.definitions.putNew name model }

def addTag (d : Document) (tag : Tag) : Document :=
  { d with tags := tag.addTo d.tags }

/-- Describes the declared tags that have no description. Definitions without a name or a
description say nothing. -/
def describeTags (d : Document) (definitions : List TagDefinition) : Document :=
  { d with
    tags := (definitions.filter fun t => t.name ≠ "" ∧ t.description ≠ "").foldl
      (fun tags t => t.describeIn tags) d.tags }

end Document

/-- One change of a document. -/
inductive Edit where
  | operation (path : String) (verb : Verb) (o : Operation)
  | model (name : String) (schema : Schema)
  | tag (tag : Tag)
  | describeTags (definitions : List TagDefinition)

def Document.apply (d : Document) : Edit → Document
  | .operation path verb o => d.addOperation path verb o
  | .model name schema => d.addModel name schema
  | .tag tag => d.addTag tag
  | .describeTags definitions => d.describeTags definitions

/-- The document after a sequence of edits. -/
def Document.applyAll (d : Document) (edits : List Edit) : Document :=
  edits.foldl Document.apply d

end Apidoc
