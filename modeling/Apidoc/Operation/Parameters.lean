import Apidoc.Annotation
import Apidoc.Logged
import Apidoc.ResourceSet

namespace Apidoc

/-- What building an operation notes: a model to define, or a warning. -/
inductive Note where
  | model (name : String) (schema : Schema)
  | warning (w : Warning)

abbrev Build (α : Type) := Logged Note Error α

def Build.models (table : Table Schema) : Build Unit :=
  Logged.noteAll (table.entries.map fun e => .model e.1 e.2)

def Build.lift {α : Type} (x : Except Error α) : Build α := Logged.ofExcept x

namespace ParamAnnotation

def isContext : ParamAnnotation → Bool
  | context => true
  | _ => false

def isBean : ParamAnnotation → Bool
  | bean => true
  | _ => false

def info? : ParamAnnotation → Option ParameterInfo
  | api info => some info
  | _ => none

def location? : ParamAnnotation → Option (Location × String)
  | path name => some (.path, name)
  | query name => some (.query, name)
  | header name => some (.header, name)
  | form name => some (.form, name)
  | cookie name => some (.cookie, name)
  | _ => none

def default? : ParamAnnotation → Option String
  | defaultValue value => some value
  | _ => none

end ParamAnnotation

/-- The schema of a type name that documentation uses. -/
def documentedType? (name : String) : Option Schema :=
  if name = "string" then some (.scalar "string" none)
  else if name = "integer" ∨ name = "int" then some (.scalar "integer" (some "int32"))
  else if name = "long" then some (.scalar "integer" (some "int64"))
  else if name = "number" ∨ name = "float" then some (.scalar "number" (some "float"))
  else if name = "double" then some (.scalar "number" (some "double"))
  else if name = "boolean" then some (.scalar "boolean" none)
  else if name = "date" then some (.scalar "string" (some "date"))
  else if name = "dateTime" ∨ name = "date-time" then some (.scalar "string" (some "date-time"))
  else if name = "file" then some (.scalar "file" none)
  else none

/-- The values that a comma-separated list allows; a range lists none. -/
def allowedValues? (text : String) : Option (List String) :=
  if Text.startsWith "range" (Text.trim text) then none
  else match Text.commaItems text with
    | [] => none
    | values => some values

namespace Parameter

/-- Takes over what a schema says about a value that is not a body. -/
def describe (p : Parameter) (s : Schema) : Parameter :=
  { p with
    type := s.type
    format := s.format
    items := s.items
    enumValues := p.enumValues.or s.enumValues }

def isArray (p : Parameter) : Bool := p.type == some "array"

/-- How the items of an array are written when nothing is declared. -/
def defaultCollectionFormat : Location → String
  | .query | .form => "multi"
  | _ => "csv"

/-- Takes over the documentation of a declared parameter. -/
def document (p : Parameter) (info : ParameterInfo) : Parameter :=
  { p with
    description := Text.nonEmpty? info.description
    required := p.required || info.required
    format := (Text.nonEmpty? info.format).or p.format
    default := (Text.nonEmpty? info.default).or p.default
    enumValues := (allowedValues? info.allowed).or p.enumValues
    collectionFormat :=
      if p.isArray then Text.nonEmpty? info.collectionFormat else p.collectionFormat }

/-- An array says how its items are written. -/
def completeArray (p : Parameter) : Parameter :=
  if p.isArray ∧ p.collectionFormat.isNone then
    { p with collectionFormat := some (defaultCollectionFormat p.location) }
  else p

end Parameter

namespace Models

/-- The schema of a parameter that is not a body: a choice of names is spelled out, and any other
model is sent as a string. -/
def parameterSchema (m : Models) (t : TypeRef) : Except Error (Option Schema) :=
  match documentedType? t.name with
  | some s => .ok (some s)
  | none => do
    match ← m.property t with
    | none => return none
    | some s =>
      if s.reference.isNone then return some s
      let models ← m.own t
      return some ((models.values.find? (·.enumValues.isSome)).getD (.scalar "string" none))

end Models

/-- The type that a parameter is documented to have: a schema, or a type reference. -/
def documented (info : Option ParameterInfo) (declared : TypeRef) :
    Except Error (Option Schema × TypeRef) :=
  match info.bind fun i => Text.nonEmpty? (Text.trim i.type) with
  | none => .ok (none, declared)
  | some name =>
    match documentedType? name with
    | some s => .ok (some s, declared)
    | none => (TypeRef.read name).map fun t => (none, t)

/-- The body parameter of a schema or, without one, of a type; the empty type has no body. -/
def bodyParameter (m : Models) (schema : Option Schema) (t : TypeRef)
    (info : Option ParameterInfo) : Build (Option Parameter) := do
  let schema ← match schema with
    | some s => pure (some s)
    | none =>
      match ← Build.lift (m.property t) with
      | none => pure none
      | some s => do
        Build.models (← Build.lift (m.reachable t))
        pure (some s)
  return schema.map fun s =>
    let name := (info.bind fun i => Text.nonEmpty? i.name).getD "body"
    { Parameter.at .body name with
      schema := some s
      description := info.bind fun i => Text.nonEmpty? i.description
      required := (info.map (·.required)).getD false }

/-- The parameter of a declared type with the annotations that say where it travels; without such
an annotation it is the body. -/
def leafParameter (m : Models) (t : TypeRef) (annotations : List ParamAnnotation) :
    Build (Option Parameter) := do
  let info := annotations.findSome? (·.info?)
  let (schema, t) ← Build.lift (documented info t)
  match annotations.findSome? (·.location?) with
  | none => bodyParameter m schema t info
  | some (location, name) =>
    let schema ← match schema with
      | some s => pure (some s)
      | none => Build.lift (m.parameterSchema t)
    let p := Parameter.at location name
    let p := match schema with
      | some s => p.describe s
      | none => p
    let p := { p with default := annotations.findSome? ParamAnnotation.default? }
    let p := match info with
      | some i => p.document i
      | none => p
    return some p.completeArray

/-- What a declared parameter stands for, before any type is looked at: parameters, and warnings
about beans that cannot be expanded. -/
inductive Leaf where
  | warning (w : Warning)
  | parameter (type : TypeRef) (annotations : List ParamAnnotation)

/-- Whether annotations keep a parameter out of the document. -/
def isSkipped (annotations : List ParamAnnotation) : Bool :=
  annotations.any (·.isContext) ||
    match annotations.findSome? (·.info?) with
    | some info => info.hidden
    | none => false

namespace ResourceSet

/-- How many beans are not open. -/
def closedBeans (s : ResourceSet) (openNames : List String) : Nat :=
  (s.beans.filter fun b => !openNames.contains b.name).length

theorem closedBeans_lt {s : ResourceSet} {openNames : List String} {t : TypeRef} {b : Bean}
    (hb : s.bean? t = some b) (ho : openNames.contains b.name = false) :
    s.closedBeans (openNames ++ [b.name]) < s.closedBeans openNames := by
  apply Models.length_filter_lt (x := b) _ _ _ _ (List.mem_of_find?_eq_some hb)
  · intro c hc
    simp only [List.contains_eq_mem, List.mem_append, List.mem_singleton, Bool.not_eq_true',
      decide_eq_false_iff_not, not_or] at *
    exact hc.1
  · simpa using ho
  · simp

mutual

/-- What a parameter of a type stands for while the beans of `openNames` are being expanded. -/
def leaves (s : ResourceSet) (openNames : List String) (t : TypeRef)
    (annotations : List ParamAnnotation) : List Leaf :=
  if isSkipped annotations then []
  else if annotations.any (·.isBean) then
    match hb : s.bean? t with
    | none => [.warning (.unknownBean t)]
    | some b =>
      if ho : openNames.contains b.name then [.warning (.recursiveBean b.name)]
      else
        have := closedBeans_lt hb (Bool.eq_false_iff.2 ho)
        s.fieldLeaves (openNames ++ [b.name]) b.fields
  else [.parameter t annotations]
termination_by (s.closedBeans openNames, 0)

/-- What the annotated fields of a bean stand for, in order. -/
def fieldLeaves (s : ResourceSet) (openNames : List String) (fields : List BeanField) : List Leaf :=
  match fields with
  | [] => []
  | f :: fs =>
    (if f.annotations.isEmpty then [] else s.leaves openNames f.type f.annotations) ++
      s.fieldLeaves openNames fs
termination_by (s.closedBeans openNames, fields.length + 1)

end

end ResourceSet

/-- The parameters of the leaves, up to the first that fails. -/
def leafParameters (m : Models) : List Leaf → Build (List Parameter)
  | [] => pure []
  | .warning w :: rest => do
    Logged.note (.warning w)
    leafParameters m rest
  | .parameter t annotations :: rest => do
    let p ← leafParameter m t annotations
    let ps ← leafParameters m rest
    return p.toList ++ ps

/-- The parameters of an operation that a declared parameter stands for. -/
def declaredParameters (m : Models) (s : ResourceSet) (t : TypeRef)
    (annotations : List ParamAnnotation) : Build (List Parameter) :=
  leafParameters m (s.leaves [] t annotations)

/-- The schema of an implicit parameter. -/
def implicitSchema (m : Models) (location : Location) (type : String) : Build (Option Schema) := do
  if type = "" then return some (.scalar "string" none)
  match documentedType? type with
  | some s => return some s
  | none =>
    let t ← Build.lift (TypeRef.read type)
    if location = .body then
      Build.models (← Build.lift (m.reachable t))
      Build.lift (m.property t)
    else Build.lift (m.parameterSchema t)

/-- The parameter that a method documents without declaring it; one that travels nowhere is left
out. -/
def implicitParameter (m : Models) (i : ImplicitParameter) : Build (Option Parameter) :=
  match Location.parse? i.location with
  | none => pure none
  | some location => do
    let p := Parameter.at location i.name
    let p := { p with
      description := Text.nonEmpty? i.description
      required := p.required || i.required
      default := Text.nonEmpty? i.default
      enumValues := allowedValues? i.allowed }
    let schema ← implicitSchema m location (Text.trim i.type)
    let schema := schema.map fun s => if i.multiple then .array s else s
    if location = .body then return some { p with schema }
    let p := match schema with
      | some s =>
        let p := p.describe s
        if i.multiple then { p with collectionFormat := some "multi" } else p
      | none => p
    return some { p with format := (Text.nonEmpty? i.format).or p.format }

/-- Gives the path parameters the patterns that the path constrains them by. -/
def applyPatterns (patterns : Table String) (ps : List Parameter) : List Parameter :=
  ps.map fun p =>
    if p.location = .path then { p with pattern := (patterns.get? p.name).or p.pattern } else p

end Apidoc
