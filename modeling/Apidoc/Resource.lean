import Apidoc.TypeRef
import Apidoc.Verb

namespace Apidoc

/-- A security scheme with the scopes that it asks for. -/
structure Authorization where
  scheme : String := ""
  scopes : List String := []

/-- What marks a class as a resource. -/
structure ApiInfo where
  value : String := ""
  description : String := ""
  tags : List String := []
  hidden : Bool := false
  authorizations : List Authorization := []

/-- An annotation that is not known by name, with the verb that it says it stands for. -/
structure CustomAnnotation where
  name : String := ""
  verb : Option String := none

structure HeaderInfo where
  name : String := ""
  description : String := ""
  type : Option TypeRef := none
  container : String := ""

structure ExtensionProperty where
  name : String := ""
  value : String := ""

/-- Vendor properties; those of an unnamed extension stand by themselves. -/
structure Extension where
  name : String := ""
  properties : List ExtensionProperty := []

/-- What marks a method as an operation. -/
structure OperationInfo where
  summary : String := ""
  notes : String := ""
  nickname : String := ""
  tags : List String := []
  verb : String := ""
  response : Option TypeRef := none
  container : String := ""
  code : UInt16 := 200
  headers : List HeaderInfo := []
  authorizations : List Authorization := []
  extensions : List Extension := []
  protocols : String := ""
  hidden : Bool := false

/-- An explicit response; code 0 stands for the default response. -/
structure ResponseInfo where
  code : UInt16 := 0
  message : String := ""
  type : Option TypeRef := none
  container : String := ""
  headers : List HeaderInfo := []

/-- A parameter that a method documents without declaring it. -/
structure ImplicitParameter where
  name : String := ""
  description : String := ""
  required : Bool := false
  type : String := ""
  location : String := ""
  default : String := ""
  allowed : String := ""
  multiple : Bool := false
  format : String := ""

/-- Documentation of one declared parameter. -/
structure ParameterInfo where
  name : String := ""
  description : String := ""
  required : Bool := false
  hidden : Bool := false
  type : String := ""
  format : String := ""
  collectionFormat : String := ""
  allowed : String := ""
  default : String := ""

/-- Annotations of a declared parameter: where it travels, or what else it is. -/
inductive ParamAnnotation where
  | path (name : String)
  | query (name : String)
  | header (name : String)
  | form (name : String)
  | cookie (name : String)
  | bean
  | context
  | defaultValue (value : String)
  | api (info : ParameterInfo)

/-- What one declaration of a method says about it. -/
structure Declaration where
  operation : Option OperationInfo := none
  path : Option String := none
  verb : Option Verb := none
  customAnnotations : List CustomAnnotation := []
  consumes : Option (List String) := none
  produces : Option (List String) := none
  responses : Option (List ResponseInfo) := none
  implicitParameters : Option (List ImplicitParameter) := none
  deprecated : Bool := false

/-- A declaration that a method overrides, with the annotations of its parameters by position. -/
structure Overridden where
  declaration : Declaration := {}
  parameterAnnotations : List (List ParamAnnotation) := []

structure ParameterDecl where
  type : TypeRef
  annotations : List ParamAnnotation := []

/-- A method, with the declarations it overrides from the base to the nearest. -/
structure Method where
  name : String
  returnType : TypeRef := .void
  parameters : List ParameterDecl := []
  declaration : Declaration := {}
  overridden : List Overridden := []

structure Resource where
  name : String := ""
  api : Option ApiInfo := none
  path : Option String := none
  consumes : List String := []
  produces : List String := []
  methods : List Method := []

structure BeanField where
  name : String
  type : TypeRef
  annotations : List ParamAnnotation := []

structure Bean where
  name : String := ""
  fields : List BeanField := []

structure TagDefinition where
  name : String := ""
  description : String := ""
  deriving DecidableEq

/-- Resources, beans and tag definitions that are declared together. -/
structure Bundle where
  resources : List Resource := []
  subResources : List Resource := []
  beans : List Bean := []
  tags : List TagDefinition := []

namespace Method

/-- The declarations of a method, its own first, then the overridden ones from the nearest to the
base. -/
def declarations (m : Method) : List Declaration :=
  m.declaration :: m.overridden.reverse.map (·.declaration)

/-- What the nearest declaration says that says anything. -/
def effective {α : Type} (m : Method) (select : Declaration → Option α) : Option α :=
  m.declarations.findSome? select

def operation? (m : Method) : Option OperationInfo := m.effective (·.operation)

def path? (m : Method) : Option String := m.effective (·.path)

def verb? (m : Method) : Option Verb := m.effective (·.verb)

def consumes? (m : Method) : Option (List String) := m.effective (·.consumes)

def produces? (m : Method) : Option (List String) := m.effective (·.produces)

def responses (m : Method) : Option (List ResponseInfo) := m.effective (·.responses)

def implicitParameters (m : Method) : Option (List ImplicitParameter) :=
  m.effective (·.implicitParameters)

/-- A method is deprecated when any of its declarations says so. -/
def isDeprecated (m : Method) : Bool :=
  m.declarations.any (·.deprecated)

/-- The annotations of the parameter at position `i` in the overridden declarations, base first. -/
def inheritedAnnotations (m : Method) (i : Nat) : List ParamAnnotation :=
  m.overridden.flatMap fun o => o.parameterAnnotations[i]?.getD []

/-- The annotations of each parameter: those of the overridden declarations, base first, then its
own. -/
def parameterAnnotations (m : Method) : List (List ParamAnnotation) :=
  m.parameters.mapIdx fun i p => m.inheritedAnnotations i ++ p.annotations

end Method

end Apidoc
