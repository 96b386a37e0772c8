import Apidoc.Operation.Parameters

namespace Apidoc

/-- How a type stands for a response body. -/
inductive Classification where
  | ignored
  | scalar (s : Schema)
  | models (entries : Table Schema)
  | inline (s : Option Schema)

/-- Whether a type describes no body: the empty type, a whole response, or a resource. -/
def isIgnored (s : ResourceSet) (t : TypeRef) : Bool :=
  let t := t.unwrapped
  t.isVoid || t.isResponse || (s.routable? t).isSome

def classify (m : Models) (s : ResourceSet) (t : TypeRef) : Except Error Classification := do
  if isIgnored s t then return .ignored
  let property ← m.property t
  match property.filter (·.isScalarLike) with
  | some schema => return .scalar schema
  | none =>
    let models ← m.own t
    return if models.isEmpty then .inline property else .models models

/-- The models that a response body of this type refers to. -/
def bodyModels (m : Models) (s : ResourceSet) (t : TypeRef) : Except Error (Table Schema) :=
  if isIgnored s t then .ok {} else m.reachable t

/-- The key under which a response stands: its code, or `default` for code 0. -/
def responseKey (code : UInt16) : String :=
  if code = 0 then "default" else toString code.toNat

/-- The response of a method that succeeds. -/
def successful (headers : Option (Table Schema)) (schema : Option Schema) : Response :=
  { description := "successful operation", schema, headers }

/-- The primary response, unless the type of the body is ignored. -/
def primaryResponse (m : Models) (s : ResourceSet) (t : TypeRef) (container : Option Container)
    (headers : Option (Table Schema)) : Build (Option Response) := do
  match ← Build.lift (classify m s t) with
  | .ignored => return none
  | .scalar schema => return some (successful headers (some (Container.wrapIn container schema)))
  | .inline schema => return some (successful headers schema)
  | .models entries =>
    Build.models entries
    return entries.keys.getLast?.map fun name =>
      successful headers (some (Container.wrapIn container (.ofModel name)))

/-- Adds an explicit response. Without a type it keeps the schema that its code has so far. -/
def addResponse (m : Models) (responses : Table Response) (r : ResponseInfo) :
    Build (Table Response) := do
  let key := responseKey r.code
  let container := Container.ofHint? r.container
  let headers ← Build.lift (responseHeaders m r.headers)
  let schema ← match r.type.filter (!·.isVoid) with
    | none => pure ((responses.get? key).bind (·.schema))
    | some t => do
      let own ← Build.lift (m.own t)
      Build.models own
      Build.models (← Build.lift (m.reachable t))
      match own.keys.getLast? with
      | some name => pure (some (Container.wrapIn container (.ofModel name)))
      | none => do
        let property ← Build.lift (m.property t)
        pure (property.map (Container.wrapIn container))
  return responses.put key { description := r.message, schema, headers }

def addResponses (m : Models) (responses : Table Response) :
    List ResponseInfo → Build (Table Response)
  | [] => pure responses
  | r :: rs => do addResponses m (← addResponse m responses r) rs

/-- The parameters that the declared parameters of a method stand for. -/
def methodParameters (m : Models) (s : ResourceSet) :
    List (TypeRef × List ParamAnnotation) → Build (List Parameter)
  | [] => pure []
  | (t, annotations) :: rest => do
    let ps ← declaredParameters m s t annotations
    return ps ++ (← methodParameters m s rest)

def implicitParameters (m : Models) : List ImplicitParameter → Build (List Parameter)
  | [] => pure []
  | i :: rest => do
    let p ← implicitParameter m i
    return p.toList ++ (← implicitParameters m rest)

/-- The documentation of an operation that its annotation gives. -/
def Operation.document (o : Operation) (info : OperationInfo) : Operation :=
  let extensions := (extensionEntries info.extensions).flatMap fun t =>
    t.entries.map fun e => (vendorKey e.1, e.2)
  (securityRequirements info.authorizations).foldl Operation.addSecurity
    { o with
      summary := Text.nonEmpty? info.summary
      description := Text.nonEmpty? info.notes
      extensions := o.extensions.putAll extensions }

/-- The operation of a method; a hidden method has none. -/
def buildOperation (m : Models) (s : ResourceSet) (method : Method) : Build (Option Operation) := do
  let info := method.operation?
  if (info.map (·.hidden)).getD false then return none
  let headers ← match info with
    | some i => Build.lift (responseHeaders m i.headers)
    | none => pure none
  let o : Operation := { operationId := method.operationId info }
  let o := match info with
    | some i => o.document i
    | none => o
  let type := method.responseType info
  let code := responseKey ((info.map (·.code)).getD 200)
  let primary ← primaryResponse m s type (responseContainer info) headers
  let responses := match primary with
    | some r => ({} : Table Response).put code r
    | none => {}
  Build.models (← Build.lift (bodyModels m s type))
  let responses ← addResponses m responses (method.responses.getD [])
  let declared ← methodParameters m s
    ((method.parameters.map (·.type)).zip method.parameterAnnotations)
  let responses :=
    if responses.isEmpty then responses.put "default" (successful headers none) else responses
  let implicit ← implicitParameters m (method.implicitParameters.getD [])
  return some { o with
    consumes := method.consumes?
    produces := method.produces?
    parameters := declared ++ implicit
    responses
    deprecated := method.isDeprecated }

end Apidoc
