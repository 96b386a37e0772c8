import Apidoc.Proofs.Distinct
import Apidoc.Proofs.Reading.Keys
import Mathlib

namespace Apidoc

/-- A parameter without the pattern that paths give it. -/
def Parameter.plain (p : Parameter) : Parameter :=
  if p.location = .path then { p with pattern := none } else p

/-- The parameters that the method of a visit is built with, before it inherits any. -/
def Visit.ownParameters (models : Models) (s : ResourceSet) (v : Visit) : List Parameter :=
  match (buildOperation models s v.method).result with
  | .ok (some built) => built.parameters
  | _ => []

/-- The method behind these locators is built to an operation with what they hand down. -/
def BuildsThrough (models : Models) (s : ResourceSet) (chain : VerbChain) (locators : List Visit)
    (last : Visit) (o : Operation) : Prop :=
  ∃ context route built, trailContext? models s chain locators = some context ∧
    route? context last.resource last.method = some (some route) ∧
    (buildOperation models s last.method).result = .ok (some built) ∧
    o = built.inContext context route

/-- What locators hand down: the parameters of the operation of the last one. -/
inductive HandsDown (models : Models) (s : ResourceSet) (chain : VerbChain) :
    List Visit → List Parameter → Prop
  | root : HandsDown models s chain [] []
  | locator {before : List Visit} {u : Visit} {o : Operation}
    (h : BuildsThrough models s chain before u o) :
    HandsDown models s chain (before ++ [u]) o.parameters

/-- The first parameter of a key that the last of the visits to declare one declares. -/
def nearestParameter? (models : Models) (s : ResourceSet) (visits : List Visit)
    (key : String × Location) : Option Parameter :=
  visits.reverse.findSome? fun v => (v.ownParameters models s).find? (·.key == key)

/-- An operation has the parameters of its own method, then the first of each other key that the
locators hand down; each that a visit declares is there as the nearest visit declares it. -/
structure InheritsParameters (models : Models) (s : ResourceSet) (chain : VerbChain)
    (locators : List Visit) (last : Visit) (o : Operation) : Prop where
  list : ∃ inherited, HandsDown models s chain locators inherited ∧
    let own := last.ownParameters models s
    o.parameters.map (·.plain) = own ++
      (firstsBy (·.key) (inherited.filter fun p => p.key ∉ own.map (·.key))).map (·.plain)
  nearest : ∀ v ∈ locators ++ [last], ∀ p ∈ v.ownParameters models s,
    ∃ q ∈ o.parameters, q.key = p.key ∧
      nearestParameter? models s (locators ++ [last]) p.key = some q.plain

variable {models : Models} {s : ResourceSet} {chain : VerbChain} {context : Context}
  {route : Route} {locators visits : List Visit} {v last : Visit} {path : String} {verb : Verb}
  {o o' built : Operation} {p : Parameter} {ps : List Parameter} {key : String × Location}

section Plain

theorem Parameter.plain_key (p : Parameter) : p.plain.key = p.key := by
  rw [plain]
  split <;> rfl

theorem map_plain_of_unpatterned (h : Unpatterned ps) : ps.map (·.plain) = ps := by
  conv_rhs => rw [← List.map_id ps]
  apply List.map_congr_left
  intro p hp
  have hpattern := h p hp
  obtain ⟨⟩ := p
  cases hpattern
  simp [Parameter.plain]

theorem applyPatterns_plain {patterns : Table String} :
    (applyPatterns patterns ps).map (·.plain) = ps.map (·.plain) := by
  rw [applyPatterns, List.map_map]
  apply List.map_congr_left
  intro p _
  by_cases hp : p.location = .path
  · simp [Parameter.plain, hp]
  · simp [hp]

theorem find?_map_plain :
    (ps.map (·.plain)).find? (·.key == key) = (ps.find? (·.key == key)).map (·.plain) := by
  rw [List.find?_map]
  congr 2
  funext p
  exact congrArg (· == key) p.plain_key

end Plain

theorem find?_filter_new {kept : List Parameter} (h : kept.find? (·.key == key) = none) :
    (ps.filter fun p => p.key ∉ kept.map (·.key)).find? (·.key == key) =
      ps.find? (·.key == key) := by
  have hkept : key ∉ kept.map (·.key) := by
    intro hmem
    obtain ⟨q, hq, hk⟩ := List.mem_map.1 hmem
    have hne := List.find?_eq_none.1 h q hq
    simp [hk] at hne
  rw [List.find?_filter]
  congr 1
  funext p
  by_cases hp : p.key = key
  · simp only [hp]
    simpa using hkept
  · simp [hp]

namespace Operation

theorem parameters_addParameters :
    (ps.foldl addParameter o).parameters =
      o.parameters ++ firstsBy (·.key) (ps.filter fun p => p.key ∉ o.parameters.map (·.key)) := by
  have hfold : (ps.foldl addParameter o).parameters = ps.foldl (fun kept p =>
      if p.key ∈ kept.map (·.key) then kept else kept ++ [p]) o.parameters := by
    induction ps generalizing o with
    | nil => rfl
    | cons p ps ih =>
      refine ih.trans ?_
      rw [List.foldl_cons, parameters_addParameter]
  exact hfold.trans (foldl_addNew (fun p : Parameter => p.key) _ _)

/-- In a context an operation keeps its parameters and takes those of the other keys over. -/
theorem plain_parameters_inContext (h : Unpatterned o.parameters) :
    (o.inContext context route).parameters.map (·.plain) = o.parameters ++
      (firstsBy (·.key) (context.parameters.filter fun p =>
        p.key ∉ o.parameters.map (·.key))).map (·.plain) := by
  rw [inContext, applyPatterns_plain, parameters_addParameters, List.map_append,
    map_plain_of_unpatterned h]

end Operation

theorem Visit.ownParameters_eq
    (h : (buildOperation models s v.method).result = .ok (some built)) :
    v.ownParameters models s = built.parameters := by
  rw [ownParameters, h]

theorem handsDown_of_trailContext? (h : trailContext? models s chain locators = some context) :
    HandsDown models s chain locators context.parameters := by
  cases descends_iff.2 h with
  | root => exact .root
  | @locator before u outer route built houter hr hbuilt =>
    exact .locator ⟨outer, route, built, descends_iff.1 houter, hr, hbuilt, rfl⟩

theorem nearestParameter?_append_singleton :
    nearestParameter? models s (visits ++ [v]) key =
      ((v.ownParameters models s).find? (·.key == key)).or
        (nearestParameter? models s visits key) := by
  rw [nearestParameter?, List.reverse_concat, List.findSome?_cons]
  cases (v.ownParameters models s).find? (·.key == key) <;> rfl

/-- Looking a key up in an operation finds what its own method declares, or else what it
inherits. -/
theorem find?_plain_inContext
    (hbuilt : (buildOperation models s v.method).result = .ok (some built)) :
    ((built.inContext context route).parameters.find? (·.key == key)).map (·.plain) =
      ((v.ownParameters models s).find? (·.key == key)).or
        ((context.parameters.find? (·.key == key)).map (·.plain)) := by
  rw [← find?_map_plain, Operation.plain_parameters_inContext (buildOperation_unpatterned hbuilt),
    List.find?_append, find?_map_plain, find?_firstsBy, Visit.ownParameters_eq hbuilt]
  cases hown : built.parameters.find? (·.key == key) with
  | some p => rfl
  | none => rw [find?_filter_new hown]

theorem nearest_of_trailContext? (h : trailContext? models s chain locators = some context) :
    (context.parameters.find? (·.key == key)).map (·.plain) =
      nearestParameter? models s locators key := by
  replace h := descends_iff.2 h
  -- Every locator puts its own parameters before those it inherits.
  induction h with
  | root => rfl
  | locator _ _ hbuilt ih =>
    rw [nearestParameter?_append_singleton, ← ih]
    exact find?_plain_inContext hbuilt

theorem exists_nearestParameter? (hv : v ∈ visits) (hp : p ∈ v.ownParameters models s) :
    (nearestParameter? models s visits p.key).isSome := by
  rw [nearestParameter?, List.findSome?_isSome_iff]
  refine ⟨v, List.mem_reverse.2 hv, ?_⟩
  rw [List.find?_isSome]
  exact ⟨p, hp, by simp⟩

theorem InheritsParameters.congr (h : InheritsParameters models s chain locators last o)
    (ho : o'.parameters = o.parameters) :
    InheritsParameters models s chain locators last o' where
  list := by
    rw [ho]
    exact h.list
  nearest := by
    rw [ho]
    exact h.nearest

theorem BuildsThrough.inherits (h : BuildsThrough models s chain locators last o) :
    InheritsParameters models s chain locators last o := by
  obtain ⟨context, route, built, hcontext, hr, hbuilt, rfl⟩ := h
  refine ⟨⟨context.parameters, handsDown_of_trailContext? hcontext, ?_⟩, ?_⟩
  · rw [Visit.ownParameters_eq hbuilt]
    exact Operation.plain_parameters_inContext (buildOperation_unpatterned hbuilt)
  · intro v hv p hp
    have hfind : ((built.inContext context route).parameters.find? (·.key == p.key)).map
        (·.plain) = nearestParameter? models s (locators ++ [last]) p.key := by
      rw [nearestParameter?_append_singleton, ← nearest_of_trailContext? hcontext]
      exact find?_plain_inContext hbuilt
    obtain ⟨nearest, hnearest⟩ := Option.isSome_iff_exists.1 (exists_nearestParameter? hv hp)
    rw [hnearest] at hfind ⊢
    obtain ⟨q, hq, rfl⟩ := Option.map_eq_some_iff.1 hfind
    have hkey := List.find?_some hq
    exact ⟨q, List.mem_of_find?_eq_some hq, by simpa using hkey, rfl⟩

/-- Registering an operation leaves the parameters that it is built with. -/
theorem WritesThrough.exists_buildsThrough
    (h : WritesThrough models s chain locators last path verb o) :
    ∃ o', BuildsThrough models s chain locators last o' ∧ o.parameters = o'.parameters := by
  obtain ⟨context, hcontext, _, route, built, hr, hbuilt, _, rfl⟩ := h.registers
  exact ⟨_, ⟨context, route, built, hcontext, hr, hbuilt, rfl⟩, Operation.parameters_registered⟩

/-- The operations that methods are built to and those that a reading registers inherit the
parameters of the locators before them. -/
theorem inherits_parameters (h : BuildsThrough models s chain locators last o ∨
      ∃ path verb, WritesThrough models s chain locators last path verb o) :
    InheritsParameters models s chain locators last o := by
  rcases h with hbuilds | ⟨path, verb, hwrites⟩
  · exact hbuilds.inherits
  · obtain ⟨built, hbuilds, ho⟩ := hwrites.exists_buildsThrough
    exact hbuilds.inherits.congr ho

section Aviary

def cageLocator : Method where
  name := "cages"
  returnType := ⟨"Cages", []⟩
  parameters := [⟨⟨"i64", []⟩, [.path "id"]⟩, ⟨⟨"i64", []⟩, [.query "limit"]⟩]
  declaration := {
    operation := some {}
    path := some "/cages"
    consumes := some ["text/plain"] }

def birdLocator : Method where
  name := "birds"
  returnType := ⟨"Birds", []⟩
  parameters := [⟨⟨"String", []⟩, [.query "limit"]⟩]
  declaration := { operation := some {}, path := some "/birds" }

def birdList : Method where
  name := "list"
  parameters := [⟨⟨"i64", []⟩, [.query "page"]⟩]
  declaration := {
    operation := some {}
    path := some "/all"
    verb := some .get
    produces := some [] }

def aviaryVisit : Visit where
  resource := {
    name := "Aviaries"
    api := some {}
    path := some "/aviaries/{id: [0-9]+}"
    consumes := ["application/json", "text/plain"]
    methods := [cageLocator] }
  method := cageLocator

def cageVisit : Visit where
  resource := {
    name := "Cages"
    api := some {}
    consumes := ["application/xml"]
    produces := ["text/html"]
    methods := [birdLocator] }
  method := birdLocator

def birdVisit : Visit where
  resource := {
    name := "Birds"
    api := some {}
    consumes := ["application/json"]
    methods := [birdList] }
  method := birdList

/-- Two locators that declare the same query parameter, and media types at every level. -/
def aviarySet : ResourceSet :=
  ((({} : ResourceSet).addRoot aviaryVisit.resource).addSubResource
    cageVisit.resource).addSubResource birdVisit.resource

def birdPage : Parameter where
  name := "page"
  location := .query
  required := false
  type := some "integer"
  format := some "int64"

def aviaryContext : Context where
  path := "/aviaries/{id}/cages/birds"
  consumes := ["application/xml", "application/json", "text/plain"]
  produces := ["text/html"]
  parameters := [
    { name := "limit", location := .query, required := false, type := some "string" },
    { name := "id", location := .path, required := true, type := some "integer",
      format := some "int64", pattern := some "[0-9]+" }]
  readHidden := true

theorem aviarySet_context :
    trailContext? {} aviarySet .standard [aviaryVisit, cageVisit] = some aviaryContext := by
  cbv

theorem aviarySet_trail : IsTrail aviarySet ([aviaryVisit, cageVisit] ++ [birdVisit]) where
  start v hv := by
    cases hv
    exact ⟨List.mem_singleton_self _, {}, rfl, rfl⟩
  documented v hv := by
    simp only [List.cons_append, List.nil_append, List.mem_cons, List.not_mem_nil, or_false] at hv
    rcases hv with rfl | rfl | rfl <;> exact ⟨List.mem_singleton_self _, {}, rfl, rfl⟩
  linked := .cons_cons rfl (.cons_cons rfl (.singleton _))
  distinct := by decide

theorem aviarySet_writes : ∃ o, WritesThrough {} aviarySet .standard [aviaryVisit, cageVisit]
    birdVisit "/aviaries/{id}/cages/birds/all" .get o ∧
      o.parameters = birdPage :: aviaryContext.parameters := by
  have hread : (readSet {} aviarySet .standard).result = .ok () := by cbv
  have hpath : trailPath? ([aviaryVisit, cageVisit] ++ [birdVisit]) =
      some "/aviaries/{id}/cages/birds/all" := by cbv
  obtain ⟨o, ho⟩ := (exists_writesThrough_iff hread aviarySet_trail hpath).2 (by cbv)
  refine ⟨o, ho, ?_⟩
  obtain ⟨context, hcontext, _, route, built, hr, hb, _, rfl⟩ := ho.registers
  obtain rfl := Option.some.inj (hcontext.symm.trans aviarySet_context)
  have hroute : route? aviaryContext birdVisit.resource birdVisit.method =
      some (some ⟨{}, "/aviaries/{id}/cages/birds/all", {}⟩) := by cbv
  obtain rfl := Option.some.inj (Option.some.inj (hr.symm.trans hroute))
  have hbuilt : (buildOperation {} aviarySet birdVisit.method).result = .ok (some {
      operationId := "list"
      produces := some []
      parameters := [birdPage]
      responses := ⟨[("default", successful none none)]⟩ }) := by cbv
  obtain rfl := Option.some.inj (Except.ok.inj (hb.symm.trans hbuilt))
  rw [Operation.parameters_registered]
  cbv

/-- The limit of the nearer locator is the one that stays. -/
theorem aviarySet_inherits : ∃ o, WritesThrough {} aviarySet .standard [aviaryVisit, cageVisit]
    birdVisit "/aviaries/{id}/cages/birds/all" .get o ∧
      o.parameters = birdPage :: aviaryContext.parameters ∧
      InheritsParameters {} aviarySet .standard [aviaryVisit, cageVisit] birdVisit o := by
  obtain ⟨o, ho, hparameters⟩ := aviarySet_writes
  exact ⟨o, ho, hparameters, inherits_parameters (.inr ⟨_, _, ho⟩)⟩

end Aviary

end Apidoc
