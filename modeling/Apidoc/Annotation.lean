import Apidoc.Document
import Apidoc.Model

namespace Apidoc

/-- One requirement for each authorization with a scheme, with its scopes that are not empty. -/
def securityRequirements (authorizations : List Authorization) : List SecurityRequirement :=
  (authorizations.filter (·.scheme ≠ "")).map fun a =>
    ⟨[(a.scheme, a.scopes.filter (· ≠ ""))]⟩

/-- The items without their repetitions. -/
def distinct {α : Type} [DecidableEq α] (xs : List α) : List α :=
  xs.foldl (fun kept x => if x ∈ kept then kept else kept ++ [x]) []

/-- The tags of a resource: its non-empty tags, or else one made from its value without slashes and
described by its description. -/
def ApiInfo.documentTags (api : ApiInfo) : List Tag :=
  match distinct (api.tags.filter (· ≠ "")) with
  | [] =>
    let name := String.ofList (api.value.toList.filter (· ≠ '/'))
    if name = "" then [] else [Tag.describe ⟨name, none⟩ api.description]
  | names => names.map fun name => ⟨name, none⟩

/-- The schema of a header, if the header has a name and a type that is not empty. -/
def HeaderInfo.schema? (models : Models) (h : HeaderInfo) : Except Error (Option Schema) :=
  if h.name = "" then .ok none
  else match h.type.filter (!·.isVoid) with
    | some t => do
      let s ← models.property t
      return s.map fun s =>
        (Container.wrapIn (Container.ofHint? h.container) s).withDescription h.description
    | none => .ok none

def headerSchemas (models : Models) : List HeaderInfo → Except Error (List (String × Schema))
  | [] => .ok []
  | h :: hs => do
    let s ← h.schema? models
    let rest ← headerSchemas models hs
    return (s.map fun s => (h.name, s)).toList ++ rest

/-- The headers of a response; `none` when there are none to describe. -/
def responseHeaders (models : Models) (hs : List HeaderInfo) :
    Except Error (Option (Table Schema)) := do
  let entries ← headerSchemas models hs
  return if entries.isEmpty then none else some (Table.ofList entries)

namespace Extension

/-- The named properties. -/
def namedProperties (e : Extension) : Table String :=
  Table.ofList ((e.properties.filter (·.name ≠ "")).map fun p => (p.name, p.value))

/-- Whether two extensions say the same, in any order. -/
def same (a b : Extension) : Bool :=
  a.name == b.name && a.namedProperties.same b.namedProperties

/-- What an extension adds to an operation: one object under its name, or its properties one by one
if it has no name. -/
def entries (e : Extension) : Table Value :=
  let properties := e.namedProperties.map Value.string
  if e.name = "" then properties else ⟨[(e.name, .object properties.entries)]⟩

end Extension

/-- The entries of each extension; those that say what an earlier one says are left out. -/
def extensionEntries (es : List Extension) : List (Table Value) :=
  (es.foldl (fun kept e => if kept.any (·.same e) then kept else kept ++ [e]) []).map (·.entries)

/-- The name of a vendor extension, which begins with `x-`. -/
def vendorKey (key : String) : String :=
  if Text.startsWith "x-" key then key else "x-" ++ key

/-- The type of the primary response: the declared one unless it is empty, else the type that the
method returns. -/
def Method.responseType (m : Method) (info : Option OperationInfo) : TypeRef :=
  match (info.bind (·.response)).filter (!·.isVoid) with
  | some t => t
  | none => m.returnType

def responseContainer (info : Option OperationInfo) : Option Container :=
  info.bind fun i => Container.ofHint? i.container

/-- The nickname of the operation if it has one, else the name of the method. -/
def Method.operationId (m : Method) (info : Option OperationInfo) : String :=
  match info.bind fun i => Text.nonEmpty? (Text.trim i.nickname) with
  | some nickname => nickname
  | none => m.name

/-- The schemes of a comma-separated list. -/
def OperationInfo.schemes (info : OperationInfo) : List String :=
  Text.commaItems info.protocols

end Apidoc
