import Apidoc.Operation.Build
import Apidoc.Path
import Apidoc.VerbChain

namespace Apidoc

/-- What reading does on its way. -/
inductive Event where
  | edit (e : Edit)
  | warning (w : Warning)

abbrev Reading (α : Type) := Logged Event Error α

/-- What building notes, as part of a reading. -/
def Event.ofNote : Note → Event
  | .model name schema => .edit (.model name schema)
  | .warning w => .warning w

def Reading.edit (e : Edit) : Reading Unit := Logged.note (.edit e)

/-- The edits among the events. -/
def Event.edits (es : List Event) : List Edit :=
  es.filterMap fun
    | .edit e => some e
    | .warning _ => none

def Event.warnings (es : List Event) : List Warning :=
  es.filterMap fun
    | .edit _ => none
    | .warning w => some w

/-- What a resource inherits from the method that returned it. -/
structure Context where
  path : String := ""
  verb : Option Verb := none
  consumes : List String := []
  produces : List String := []
  tags : Table Tag := {}
  parameters : List Parameter := []
  readHidden : Bool := false

/-- A resource is read when it is marked as one and not hidden, or when a method returned it. -/
def Resource.isReadable (r : Resource) (context : Context) : Bool :=
  context.readHidden ||
    match r.api with
    | some api => !api.hidden
    | none => false

/-- The tags of a resource after those it inherits. -/
def Resource.tagsIn (r : Resource) (context : Context) : Table Tag :=
  match r.api with
  | some api => context.tags.putAll (api.documentTags.map fun t => (t.name, t))
  | none => context.tags

def Resource.security (r : Resource) : List SecurityRequirement :=
  match r.api with
  | some api => securityRequirements api.authorizations
  | none => []

/-- The media types of a class, those it inherits and those of a method, without repetitions. -/
def mergeMediaTypes (cls inherited : List String) (method : Option (List String)) : List String :=
  distinct (cls ++ inherited ++ method.getD [])

/-- Fills in what an operation does not say itself: media types, the tags of its class, and the
security of its class. -/
def Operation.complete (o : Operation) (consumes produces : List String) (tags : List String)
    (security : List SecurityRequirement) : Operation :=
  let o := { o with
    consumes := o.consumes.or (if consumes.isEmpty then none else some consumes)
    produces := o.produces.or (if produces.isEmpty then none else some produces) }
  let o := if o.tags.isEmpty then tags.foldl Operation.addTag o else o
  security.foldl Operation.addSecurity o

/-- A method that is to be read: its annotation, its path, and the patterns in the path. -/
structure Route where
  info : OperationInfo
  path : String
  patterns : Table String

/-- A method without an annotation, a hidden one, and one without a path is not read; only the last
of them counts as visited. -/
def route? (context : Context) (r : Resource) (m : Method) : Option (Option Route) :=
  match m.operation? with
  | none => none
  | some info =>
    if info.hidden then none
    else some <| (Path.compose context.path r.path m.path?).map fun composed =>
      let (path, patterns) := Path.extract composed
      ⟨info, path, patterns⟩

/-- The operation of a method in a context, before anything is filled in. -/
def buildRoute (models : Models) (s : ResourceSet) (context : Context) (route : Route)
    (m : Method) : Reading (Option Operation) := do
  let o ← (buildOperation models s m).mapNotes Event.ofNote
  return o.map fun o =>
    let o := context.parameters.foldl Operation.addParameter o
    { o with
      parameters := applyPatterns route.patterns o.parameters
      schemes := route.info.schemes }

/-- The context of the resource that a method returns. -/
def Context.descend (r : Resource) (context : Context) (route : Route) (verb : Option Verb)
    (o : Operation) : Context where
  path := route.path
  verb := verb
  consumes := mergeMediaTypes r.consumes context.consumes o.consumes
  produces := mergeMediaTypes r.produces context.produces o.produces
  tags := r.tagsIn context
  parameters := o.parameters
  readHidden := true

/-- Declares the tags of an operation, fills in what it does not say, and registers it under its
verb, if it has one. -/
def registerRoute (r : Resource) (context : Context) (route : Route) (verb : Option Verb)
    (o : Operation) : Reading Unit := do
  let names := route.info.tags.filter (· ≠ "")
  Logged.noteAll (names.map fun name => .edit (.tag ⟨name, none⟩))
  let inner := Context.descend r context route verb o
  let o := (names.foldl Operation.addTag o).complete inner.consumes inner.produces inner.tags.keys
    r.security
  match verb.or context.verb with
  | some v => Reading.edit (.operation route.path v o)
  | none => pure ()

namespace ResourceSet

/-- How many resources are not open. -/
def closedResources (s : ResourceSet) (openNames : List String) : Nat :=
  (s.resources.filter fun r => !openNames.contains r.name).length

theorem closedResources_lt_of_mem {s : ResourceSet} {openNames : List String} {r : Resource}
    (hm : r ∈ s.resources) (ho : openNames.contains r.name = false) :
    s.closedResources (openNames ++ [r.name]) < s.closedResources openNames := by
  apply Models.length_filter_lt (x := r) _ _ _ _ hm
  · intro c hc
    simp only [List.contains_eq_mem, List.mem_append, List.mem_singleton, Bool.not_eq_true',
      decide_eq_false_iff_not, not_or] at *
    exact hc.1
  · simpa using ho
  · simp

theorem mem_of_resource? {s : ResourceSet} {name : String} {r : Resource}
    (h : s.resource? name = some r) : r ∈ s.resources :=
  List.mem_of_find?_eq_some h

theorem closedResources_lt {s : ResourceSet} {openNames : List String} {t : TypeRef} {r : Resource}
    (hr : s.routable? t = some r) (ho : openNames.contains r.name = false) :
    s.closedResources (openNames ++ [r.name]) < s.closedResources openNames :=
  closedResources_lt_of_mem (mem_of_resource? (Option.filter_eq_some_iff.1 hr).1) ho

end ResourceSet

mutual

/-- Reads the methods of an open resource; `openNames` ends with its name. -/
def readMethods (models : Models) (s : ResourceSet) (chain : VerbChain) (openNames : List String)
    (r : Resource) (context : Context) (methods : List Method) : Reading Unit :=
  match methods with
  | [] => pure ()
  | m :: rest => do
    match route? context r m with
    | none => pure ()
    | some none => Reading.edit (.describeTags s.tags)
    | some (some route) =>
      let answer := chain.resolve m
      Logged.noteAll (answer.warnings.map .warning)
      match ← buildRoute models s context route m with
      | none => pure ()
      | some o =>
        match hr : s.routable? m.returnType with
        | none => pure ()
        | some sub =>
          if ho : openNames.contains sub.name then
            Logged.note (.warning (.resourceCycle openNames sub.name))
          else
            have := ResourceSet.closedResources_lt hr (Bool.eq_false_iff.2 ho)
            readOpened models s chain (openNames ++ [sub.name]) sub
              (Context.descend r context route answer.verb o)
        registerRoute r context route answer.verb o
        Reading.edit (.describeTags s.tags)
    readMethods models s chain openNames r context rest
termination_by (s.closedResources openNames, methods.length)

/-- Reads a resource that has just been opened. -/
def readOpened (models : Models) (s : ResourceSet) (chain : VerbChain) (openNames : List String)
    (r : Resource) (context : Context) : Reading Unit := do
  Logged.noteAll ((r.tagsIn context).values.map fun t => .edit (.tag t))
  readMethods models s chain openNames r context r.methods
  Reading.edit (.describeTags s.tags)
termination_by (s.closedResources openNames, r.methods.length + 1)

end

/-- Reads one resource as a root. -/
def readRoot (models : Models) (s : ResourceSet) (chain : VerbChain) (r : Resource) :
    Reading Unit :=
  if r.isReadable {} then readOpened models s chain [r.name] r {} else pure ()

/-- Reads roots in order, up to the first that fails. -/
def readRoots (models : Models) (s : ResourceSet) (chain : VerbChain) : List Resource → Reading Unit
  | [] => pure ()
  | r :: rest => do
    readRoot models s chain r
    readRoots models s chain rest

/-- Reads every root of a set. -/
def readSet (models : Models) (s : ResourceSet) (chain : VerbChain) : Reading Unit :=
  readRoots models s chain s.rootResources

/-- The document that a reading leaves, whether it fails or not. -/
def Document.after {α : Type} (d : Document) (x : Reading α) : Document :=
  d.applyAll (Event.edits x.notes)

/-- Builds the operation of a method. The models that it refers to are added to a document, also
when building fails later on. -/
def Document.build (d : Document) (models : Models) (s : ResourceSet) (m : Method) :
    Document × Except Error (Option Operation) :=
  let x : Reading (Option Operation) := (buildOperation models s m).mapNotes Event.ofNote
  (d.after x, x.result)

/-- Reads every root of a set into a document. A failed reading leaves what it did until then. -/
def Document.read (d : Document) (models : Models) (s : ResourceSet) (chain : VerbChain) :
    Document × Except Error Unit :=
  let x := readSet models s chain
  (d.after x, x.result)

end Apidoc
