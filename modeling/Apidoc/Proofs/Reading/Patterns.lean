import Apidoc.Proofs.Operation.Outline
import Apidoc.Proofs.Path.Templates
import Apidoc.Proofs.Reading.Registered
import Apidoc.Proofs.Reading.Writes
import Apidoc.Proofs.Table

namespace Apidoc

namespace Visit

/-- The constraints in the paths that a visit declares: that of its resource, then its own. -/
def constraints (v : Visit) : List (String × String) :=
  (v.resource.path.toList ++ v.method.path?.toList).flatMap Path.constraints

def Constrains (v : Visit) (name : String) : Prop :=
  name ∈ v.constraints.map (·.1)

structure IsTemplated (v : Visit) : Prop where
  resource : ∀ path ∈ v.resource.path, Path.IsTemplated path
  method : ∀ path ∈ v.method.path?, Path.IsTemplated path

/-- Whether the operation of the method, before it inherits anything, has a path parameter of this
name. -/
def Declares (models : Models) (s : ResourceSet) (v : Visit) (name : String) : Prop :=
  ∃ o, (buildOperation models s v.method).result = .ok (some o) ∧
    ∃ p ∈ o.parameters, p.location = .path ∧ p.name = name

end Visit

/-- Some visit constrains a parameter that none of the later ones declares. -/
def KeepsConstraint (models : Models) (s : ResourceSet) (visits : List Visit) (name : String) :
    Prop :=
  ∃ before v after, visits = before ++ v :: after ∧ v.Constrains name ∧
    ∀ w ∈ after, ¬w.Declares models s name

def Parameter.CarriesConstraint (p : Parameter) (visits : List Visit) : Prop :=
  ∃ regex, p.pattern = some regex ∧ ∃ v ∈ visits, (p.name, regex) ∈ v.constraints

variable {models : Models} {s : ResourceSet} {chain : VerbChain} {r : Resource}
  {context : Context} {route : Route} {visits locators : List Visit} {v last : Visit}
  {name path : String} {verb : Verb} {o built : Operation} {p : Parameter}

theorem keepsConstraint_append_singleton :
    KeepsConstraint models s (visits ++ [v]) name ↔
      v.Constrains name ∨ KeepsConstraint models s visits name ∧ ¬v.Declares models s name := by
  constructor
  · rintro ⟨before, w, after, hvisits, hw, hafter⟩
    rcases List.eq_nil_or_concat after with rfl | ⟨after, u, rfl⟩
    · obtain ⟨-, hv⟩ := List.append_inj' hvisits rfl
      cases hv
      exact .inl hw
    · rw [List.concat_eq_append] at hvisits hafter
      have hsplit : visits ++ [v] = before ++ w :: after ++ [u] := by simpa using hvisits
      obtain ⟨hbefore, hv⟩ := List.append_inj' hsplit rfl
      cases hv
      exact .inr ⟨⟨before, w, after, hbefore, hw, fun x hx => hafter x (by simp [hx])⟩,
        hafter v (by simp)⟩
  · rintro (hv | ⟨⟨before, w, after, rfl, hw, hafter⟩, hv⟩)
    · exact ⟨visits, v, [], rfl, hv, by simp⟩
    · refine ⟨before, w, after ++ [v], by simp, hw, fun x hx => ?_⟩
      rcases List.mem_append.1 hx with hx | hx
      · exact hafter x hx
      · rw [List.mem_singleton.1 hx]
        exact hv

/-- A path parameter is the method's own or an inherited one that the method does not declare. Its
pattern is that of the route, or else the one that it has already. -/
theorem exists_of_mem_inContext (h : p ∈ (built.inContext context route).parameters)
    (hp : p.location = .path) :
    ∃ q, p = { q with pattern := (route.patterns.get? q.name).or q.pattern } ∧
      q.location = .path ∧ (q ∈ built.parameters ∨ q ∈ context.parameters ∧
        ∀ q' ∈ built.parameters, q'.sameKey q = false) := by
  obtain ⟨q, hq, rfl⟩ := List.mem_map.1 h
  by_cases hlocation : q.location = .path
  · rw [if_pos hlocation]
    exact ⟨q, rfl, hlocation, Operation.mem_addParameters hq⟩
  · rw [if_neg hlocation] at hp
    exact (hlocation hp).elim

/-- The patterns of a route are the constraints of its visit: the inherited path has none left. -/
theorem patterns_of_route? (hpath : Path.Templated context.path.toList []) (hv : v.IsTemplated)
    (hr : route? context v.resource v.method = some (some route)) :
    route.patterns = Table.ofList v.constraints ∧ Path.Templated route.path.toList [] := by
  obtain ⟨info, composed, _, _, hcompose, rfl⟩ := route?_eq_iff.1 hr
  obtain ⟨hconstraints, htemplated⟩ :=
    Path.constraints_compose hpath hv.resource hv.method hcompose
  refine ⟨?_, htemplated⟩
  change Table.ofList (Path.constraints composed) = _
  rw [hconstraints]
  rfl

theorem constrains_iff_get? : v.Constrains name ↔
    ((Table.ofList v.constraints).get? name).isSome := by
  change _ ↔ (Table.ofList v.constraints).contains name = true
  rw [Table.contains_iff, Table.mem_keys_ofList]
  rfl

theorem mem_constraints_of_get? {regex : String}
    (h : (Table.ofList v.constraints).get? name = some regex) : (name, regex) ∈ v.constraints :=
  Table.mem_entries_ofList (Table.mem_entries_of_get? h)

/-- The path parameters carry patterns of the visits, those and only those that keep one. -/
structure CarriesConstraints (models : Models) (s : ResourceSet) (visits : List Visit)
    (ps : List Parameter) : Prop where
  kept : ∀ p ∈ ps, p.location = .path →
    (p.pattern.isSome ↔ KeepsConstraint models s visits p.name)
  origin : ∀ p ∈ ps, p.location = .path → ∀ regex, p.pattern = some regex →
    ∃ v ∈ visits, (p.name, regex) ∈ v.constraints

theorem CarriesConstraints.inContext (h : CarriesConstraints models s visits context.parameters)
    (hpatterns : route.patterns = Table.ofList v.constraints)
    (hbuilt : (buildOperation models s v.method).result = .ok (some built)) :
    CarriesConstraints models s (visits ++ [v]) (built.inContext context route).parameters where
  kept p hp hl := by
    obtain ⟨q, rfl, hq, hmem⟩ := exists_of_mem_inContext hp hl
    have hpattern : ((route.patterns.get? q.name).or q.pattern).isSome ↔
        v.Constrains q.name ∨ q.pattern.isSome := by
      rw [hpatterns, Option.isSome_or, Bool.or_eq_true, constrains_iff_get?]
    rw [keepsConstraint_append_singleton]
    refine hpattern.trans (or_congr_right ?_)
    -- The method's own parameter has no pattern yet; an inherited one is none that it declares.
    rcases hmem with hmem | ⟨hmem, hnew⟩
    · have hdeclares : v.Declares models s q.name := ⟨built, hbuilt, q, hmem, hq, rfl⟩
      simp [buildOperation_unpatterned hbuilt q hmem, hdeclares]
    · have hdeclares : ¬v.Declares models s q.name := by
        rintro ⟨o, ho, q', hq', hl', hn'⟩
        cases hbuilt.symm.trans ho
        have hkey := hnew q' hq'
        simp [Parameter.sameKey, hl', hn', hq] at hkey
      rw [h.kept q hmem hq, and_iff_left hdeclares]
  origin p hp hl regex hregex := by
    obtain ⟨q, rfl, hq, hmem⟩ := exists_of_mem_inContext hp hl
    rcases Option.or_eq_some_iff.1 hregex with hregex | ⟨_, hregex⟩
    · rw [hpatterns] at hregex
      exact ⟨v, by simp, mem_constraints_of_get? hregex⟩
    · rcases hmem with hmem | ⟨hmem, _⟩
      · rw [buildOperation_unpatterned hbuilt q hmem] at hregex
        cases hregex
      · obtain ⟨u, hu, hc⟩ := h.origin q hmem hq regex hregex
        exact ⟨u, List.mem_append_left _ hu, hc⟩

theorem carriesConstraints_of_trailContext?
    (h : trailContext? models s chain locators = some context)
    (ht : ∀ v ∈ locators, v.IsTemplated) :
    Path.Templated context.path.toList [] ∧
      CarriesConstraints models s locators context.parameters := by
  replace h := descends_iff.2 h
  -- Every locator hands down a rewritten path, and the parameters with the patterns they have.
  induction h with
  | root =>
    refine ⟨.nil, ?_, ?_⟩ <;>
    · intro p hp
      cases hp
  | @locator before u _ _ _ _ hr hbuilt ih =>
    obtain ⟨hpath, hcarries⟩ := ih fun v hv => ht v (List.mem_append_left _ hv)
    obtain ⟨hpatterns, hroute⟩ := patterns_of_route? hpath (ht u (by simp)) hr
    exact ⟨hroute, hcarries.inContext hpatterns hbuilt⟩

/-- A path parameter of an operation that a reading writes carries a constraint of its name exactly
when the constraint stands at or after the last method that declares the parameter. -/
theorem carries_constraint_iff (hw : WritesThrough models s chain locators last path verb o)
    (ht : ∀ v ∈ locators ++ [last], v.IsTemplated) (hp : p ∈ o.parameters)
    (hl : p.location = .path) :
    p.CarriesConstraint (locators ++ [last]) ↔
      KeepsConstraint models s (locators ++ [last]) p.name := by
  obtain ⟨_, ⟨context, hcontext, _, route, built, hr, hbuilt, rfl, rfl⟩, _⟩ := hw
  rw [Operation.parameters_registered] at hp
  obtain ⟨hpath, hinherited⟩ := carriesConstraints_of_trailContext? hcontext
    fun v hv => ht v (List.mem_append_left _ hv)
  obtain ⟨hpatterns, _⟩ := patterns_of_route? hpath (ht last (by simp)) hr
  have hcarries := hinherited.inContext hpatterns hbuilt
  rw [← hcarries.kept p hp hl, Option.isSome_iff_exists]
  constructor
  · rintro ⟨regex, hregex, _⟩
    exact ⟨regex, hregex⟩
  · rintro ⟨regex, hregex⟩
    exact ⟨regex, hregex, hcarries.origin p hp hl regex hregex⟩

section Photos

def petPhotos : Method where
  name := "photos"
  returnType := ⟨"Photos", []⟩
  declaration := { operation := some {}, path := some "/photos" }

def namedPhoto : Method where
  name := "list"
  parameters := [⟨⟨"i64", []⟩, [.path "id"]⟩, ⟨⟨"String", []⟩, [.path "name"]⟩]
  declaration := { operation := some {}, path := some "/{name: [a-z]+}", verb := some .get }

def petVisit : Visit where
  resource := {
    name := "Pets"
    api := some {}
    path := some "/pets/{id: [0-9]+}"
    methods := [petPhotos] }
  method := petPhotos

def namedPhotoVisit : Visit where
  resource := { name := "Photos", api := some {}, methods := [namedPhoto] }
  method := namedPhoto

/-- The path of the root constrains a parameter that the method behind the locator declares. -/
def photoSet : ResourceSet :=
  (({} : ResourceSet).addRoot petVisit.resource).addSubResource namedPhotoVisit.resource

theorem read_photoSet : (({} : Document).read {} photoSet .standard).2 = .ok () := by
  cbv

theorem photoSet_trail : IsTrail photoSet ([petVisit] ++ [namedPhotoVisit]) where
  start v hv := by
    cases hv
    exact ⟨List.mem_singleton_self _, {}, rfl, rfl⟩
  documented v hv := by
    rcases List.mem_pair.1 hv with rfl | rfl <;> exact ⟨List.mem_singleton_self _, {}, rfl, rfl⟩
  linked := .cons_cons rfl (.singleton _)
  distinct := by decide

theorem photoSet_path :
    trailPath? ([petVisit] ++ [namedPhotoVisit]) = some "/pets/{id}/photos/{name}" := by
  cbv

theorem photoSet_templated : ∀ v ∈ [petVisit] ++ [namedPhotoVisit], v.IsTemplated := by
  have hroot : Path.IsTemplated "/pets/{id: [0-9]+}" := Path.isTemplated_iff.1 (by cbv)
  have hphotos : Path.IsTemplated "/photos" := Path.isTemplated_iff.1 (by cbv)
  have hnamed : Path.IsTemplated "/{name: [a-z]+}" := Path.isTemplated_iff.1 (by cbv)
  intro v hv
  rcases List.mem_pair.1 hv with rfl | rfl
  · refine ⟨fun path hpath => ?_, fun path hpath => ?_⟩
    · cases hpath
      exact hroot
    · cases hpath
      exact hphotos
  · refine ⟨fun path hpath => ?_, fun path hpath => ?_⟩
    · cases hpath
    · cases hpath
      exact hnamed

def photoId : Parameter where
  name := "id"
  location := .path
  required := true
  type := some "integer"
  format := some "int64"

def photoName : Parameter where
  name := "name"
  location := .path
  required := true
  type := some "string"

theorem photoSet_writes : ∃ o, WritesThrough {} photoSet .standard [petVisit] namedPhotoVisit
    "/pets/{id}/photos/{name}" .get o ∧
      o.parameters = [photoId, { photoName with pattern := some "[a-z]+" }] := by
  obtain ⟨o, ho⟩ := (exists_writesThrough_iff read_photoSet photoSet_trail photoSet_path).2 (by cbv)
  refine ⟨o, ho, ?_⟩
  obtain ⟨context, hcontext, _, route, built, hr, hb, _, rfl⟩ := ho.registers
  have hinherited : trailContext? {} photoSet .standard [petVisit] =
      some { path := "/pets/{id}/photos", readHidden := true } := by cbv
  obtain rfl := Option.some.inj (hcontext.symm.trans hinherited)
  have hroute : route? { path := "/pets/{id}/photos", readHidden := true }
      namedPhotoVisit.resource namedPhoto =
        some (some ⟨{}, "/pets/{id}/photos/{name}", ⟨[("name", "[a-z]+")]⟩⟩) := by cbv
  obtain rfl := Option.some.inj (Option.some.inj (hr.symm.trans hroute))
  have hbuilt : (buildOperation {} photoSet namedPhoto).result = .ok (some {
      operationId := "list"
      parameters := [photoId, photoName]
      responses := ⟨[("default", successful none none)]⟩ }) := by cbv
  obtain rfl := Option.some.inj (Except.ok.inj (hb.symm.trans hbuilt))
  rw [Operation.parameters_registered]
  cbv

theorem namedPhoto_carries_iff : ∃ o, WritesThrough {} photoSet .standard [petVisit]
    namedPhotoVisit "/pets/{id}/photos/{name}" .get o ∧
      (∀ v ∈ [petVisit] ++ [namedPhotoVisit], v.IsTemplated) ∧ photoId ∈ o.parameters ∧
        photoId.location = .path ∧ (photoId.CarriesConstraint ([petVisit] ++ [namedPhotoVisit]) ↔
          KeepsConstraint {} photoSet ([petVisit] ++ [namedPhotoVisit]) "id") := by
  obtain ⟨o, ho, hparameters⟩ := photoSet_writes
  have hid : photoId ∈ o.parameters := by
    rw [hparameters]
    exact List.mem_cons_self
  exact ⟨o, ho, photoSet_templated, hid, rfl, carries_constraint_iff ho photoSet_templated hid rfl⟩

/-- The constraint in the path of the root does not reach the parameter. -/
theorem photoSet_constraint_lost :
    (({} : Document).read {} photoSet .standard).2 = .ok () ∧
      ¬∀ (locators : List Visit) (last v : Visit) (path : String) (verb : Verb) (o : Operation)
        (p : Parameter), WritesThrough {} photoSet .standard locators last path verb o →
        (∀ v ∈ locators ++ [last], v.IsTemplated) → p ∈ o.parameters → p.location = .path →
        v ∈ locators ++ [last] → v.Constrains p.name →
        p.CarriesConstraint (locators ++ [last]) := by
  refine ⟨read_photoSet, fun h => ?_⟩
  obtain ⟨o, ho, hparameters⟩ := photoSet_writes
  have hid : photoId ∈ o.parameters := by
    rw [hparameters]
    exact List.mem_cons_self
  have hconstrains : petVisit.Constrains photoId.name := by
    have hall : petVisit.constraints = [("id", "[0-9]+")] := by cbv
    rw [Visit.Constrains, hall]
    exact List.mem_cons_self
  obtain ⟨regex, hregex, _⟩ := h _ _ petVisit _ _ o photoId ho photoSet_templated hid rfl
    List.mem_cons_self hconstrains
  cases hregex

end Photos

end Apidoc
