import Apidoc.Table
import Apidoc.Text.Blank
import Apidoc.TypeRef

namespace Apidoc

/-- Shape of a value. A schema is a reference to a model, a scalar with an optional format, an array
with items, a map with the shape of its values, or an object with properties. -/
structure Schema where
  reference : Option String := none
  type : Option String := none
  format : Option String := none
  description : Option String := none
  items : Option Schema := none
  uniqueItems : Bool := false
  additionalProperties : Option Schema := none
  properties : Option (Table Schema) := none
  required : Option (List String) := none
  enumValues : Option (List String) := none

namespace Schema

def scalar (type : String) (format : Option String) : Schema :=
  { type := some type, format }

def object : Schema := { type := some "object" }

/-- What every reference to a model begins with. -/
def modelsPrefix : String := "#/definitions/"

/-- The schema that names a model. -/
def ofModel (name : String) : Schema :=
  { reference := some (modelsPrefix ++ name) }

def array (items : Schema) : Schema :=
  { type := some "array", items := some items }

def mapOf (values : Schema) : Schema :=
  { type := some "object", additionalProperties := some values }

/-- Sets the description unless the text is empty. -/
def withDescription (s : Schema) (text : String) : Schema :=
  if text = "" then s else { s with description := some text }

/-- Whether the schema can stand for a body by itself: a scalar or an array. -/
def isScalarLike (s : Schema) : Bool :=
  match s.type with
  | some t => ["integer", "string", "number", "boolean", "array", "file"].contains t
  | none => false

end Schema

namespace Container

/-- The container that an annotation names; the case of letters and the blanks around do not
count. -/
def ofHint? (hint : String) : Option Container :=
  let word := Text.lowerAscii (Text.trim hint)
  if word = "list" ∨ word = "array" then some .list
  else if word = "set" then some .set
  else if word = "map" then some .map
  else none

def wrap : Container → Schema → Schema
  | .list, s => .array s
  | .set, s => { Schema.array s with uniqueItems := true }
  | .map, s => .mapOf s

/-- Wraps a schema in a container, if there is one. -/
def wrapIn (kind : Option Container) (s : Schema) : Schema :=
  match kind with
  | some k => k.wrap s
  | none => s

end Container

end Apidoc
