import Apidoc.Proofs.Logged
import Apidoc.Proofs.Operation.Alike
import Apidoc.Proofs.Operation.Parameters
import Mathlib

namespace Apidoc

namespace ImplicitParameter

/-- The documentation of a declared parameter that says what an implicit one says. -/
def info (i : ImplicitParameter) : ParameterInfo where
  description := i.description
  required := i.required
  type := i.type
  format := i.format
  allowed := i.allowed
  default := i.default

/-- Annotations under which a declared parameter travels under the name of an implicit one and is
documented like it, by nothing else. -/
structure IsDeclaredBy (i : ImplicitParameter) (location : Location)
    (annotations : List ParamAnnotation) : Prop where
  shown : isSkipped annotations = false
  single : annotations.any (·.isBean) = false
  located : annotations.findSome? (·.location?) = some (location, i.name)
  undefaulted : annotations.findSome? (·.default?) = none
  documented : ∃ name, annotations.findSome? (·.info?) = some { i.info with name }

/-- The parameter that an implicit one describes outside the body, by the schema of its type. -/
def parameter (i : ImplicitParameter) (location : Location) (schema : Option Schema) :
    Parameter where
  name := i.name
  location := location
  description := Text.nonEmpty? i.description
  required := location == .path || i.required
  type := schema.bind (·.type)
  format := (Text.nonEmpty? i.format).or (schema.bind (·.format))
  items := schema.bind (·.items)
  default := Text.nonEmpty? i.default
  enumValues := (allowedValues? i.allowed).or (schema.bind (·.enumValues))

end ImplicitParameter

variable {m : Models} {s : ResourceSet} {t : TypeRef} {annotations : List ParamAnnotation}
  {i : ImplicitParameter} {location : Location} {type : String}

theorem isDeclaredBy_info {a : ParamAnnotation} (h : a.location? = some (location, i.name)) :
    i.IsDeclaredBy location [a, .api i.info] := by
  cases a <;> cases h <;> exact ⟨rfl, rfl, rfl, rfl, "", rfl⟩

section Schema

theorem implicitSchema_of_type (hb : location ≠ .body) (ht : type ≠ "") :
    implicitSchema m location type =
      match documentedType? type with
      | some schema => pure (some schema)
      | none => Build.lift ((TypeRef.read type).bind m.parameterSchema) := by
  unfold implicitSchema
  simp only [if_neg ht, if_neg hb, Logged.bind_eq]
  cases documentedType? type with
  | some schema => rfl
  | none => cases TypeRef.read type <;> rfl

/-- The schema that a declared parameter takes from its documentation or, without one, from the
type that it is documented to have. -/
theorem documented_schema {α : Type} (hb : location ≠ .body) (ht : Text.trim i.type ≠ "")
    (name : String) (f : Option Schema → Build α) :
    ((Build.lift (documented (some { i.info with name }) t)).bind fun answer =>
      match answer.1 with
      | some schema => (pure (some schema) : Build (Option Schema)).bind f
      | none => (Build.lift (m.parameterSchema answer.2)).bind f) =
      (implicitSchema m location (Text.trim i.type)).bind f := by
  have htype : Text.nonEmpty? (Text.trim i.type) = some (Text.trim i.type) := if_neg ht
  rw [implicitSchema_of_type hb ht]
  simp only [documented, ImplicitParameter.info, Option.bind_some, htype]
  cases documentedType? (Text.trim i.type) with
  | some schema => rfl
  | none => cases TypeRef.read (Text.trim i.type) <;> rfl

end Schema

theorem implicitParameter_eq (hl : Location.parse? i.location = some location)
    (hb : location ≠ .body) (hm : i.multiple = false) :
    implicitParameter m i = (implicitSchema m location (Text.trim i.type)).bind fun schema =>
      pure (some (i.parameter location schema)) := by
  unfold implicitParameter
  simp only [hl, hm, if_neg hb, Logged.bind_eq]
  unfold ImplicitParameter.parameter
  refine congrArg (Logged.bind _) (funext fun schema => ?_)
  -- What the list of values says does not matter, so it need not be looked into.
  generalize allowedValues? i.allowed = values
  cases schema with
  | none => simp [Parameter.at]
  | some x => simp [Parameter.at, Parameter.describe]

theorem document_info (i : ImplicitParameter) (location : Location) (name : String)
    (schema : Option Schema) :
    ({ (match schema with
        | some x => (Parameter.at location i.name).describe x
        | none => Parameter.at location i.name) with default := none }.document
      { i.info with name }) = i.parameter location schema := by
  unfold ImplicitParameter.parameter Parameter.document ImplicitParameter.info
  generalize allowedValues? i.allowed = values
  cases schema with
  | none => simp [Parameter.at, Parameter.isArray]
  | some x => simp [Parameter.at, Parameter.describe, Text.nonEmpty?]

theorem leafParameter_eq (h : i.IsDeclaredBy location annotations) (ht : Text.trim i.type ≠ "") :
    leafParameter m t annotations =
      (implicitSchema m location (Text.trim i.type)).bind fun schema =>
        pure (some (i.parameter location schema).completeArray) := by
  obtain ⟨name, hinfo⟩ := h.documented
  have hbody : location ≠ .body := location?_ne_body h.located
  rw [← documented_schema (t := t) hbody ht name]
  unfold leafParameter
  simp only [Logged.bind_eq, hinfo, h.located, h.undefaulted]
  have hcompleted (schema : Option Schema) := congrArg
    (fun p : Parameter => (pure (some p.completeArray) : Build (Option Parameter)))
    (document_info i location name schema)
  refine congrArg (Logged.bind _) (funext fun answer => ?_)
  obtain ⟨schema, u⟩ := answer
  cases schema with
  | some x => exact hcompleted (some x)
  | none => exact congrArg (Logged.bind _) (funext hcompleted)

theorem declaredParameters_eq (h : i.IsDeclaredBy location annotations)
    (ht : Text.trim i.type ≠ "") :
    declaredParameters m s t annotations =
      (implicitSchema m location (Text.trim i.type)).bind fun schema =>
        pure [(i.parameter location schema).completeArray] := by
  rw [declaredParameters_single h.shown h.single, leafParameter_eq h ht, Logged.bind_assoc]
  rfl

theorem Parameter.completeArray_eq_self_iff {p : Parameter} (h : p.collectionFormat = none) :
    p.completeArray = p ↔ p.isArray = false := by
  unfold completeArray
  cases harray : p.isArray with
  | false => simp
  | true =>
    rw [if_pos ⟨rfl, by rw [h]; rfl⟩]
    simp only [Bool.true_eq_false, iff_false]
    intro hp
    have hformat := congrArg Parameter.collectionFormat hp
    rw [h] at hformat
    cases hformat

/-- An implicit parameter and a declared one that says the same fail with one error. Where they
succeed, the declared one is the implicit one with its array completed: the two agree exactly when
there is no array. -/
theorem declared_agrees_iff (hl : Location.parse? i.location = some location)
    (hm : i.multiple = false) (ht : Text.trim i.type ≠ "")
    (h : i.IsDeclaredBy location annotations) :
    declaredParameters m s t annotations = ((implicitParameter m i).bind fun p =>
      pure (p.map (·.completeArray)).toList) ∧
    (declaredParameters m s t annotations = ((implicitParameter m i).bind fun p =>
      pure p.toList) ↔
        ∀ p, (implicitParameter m i).result = .ok (some p) → p.isArray = false) := by
  have himplicit : implicitParameter m i =
      (implicitSchema m location (Text.trim i.type)).bind fun schema =>
        pure (some (i.parameter location schema)) :=
    implicitParameter_eq hl (location?_ne_body h.located) hm
  have hcompleted : declaredParameters m s t annotations =
      (implicitParameter m i).bind fun p => pure (p.map (·.completeArray)).toList := by
    rw [declaredParameters_eq h ht, himplicit, Logged.bind_assoc]
    rfl
  have hunsaid (p : Parameter) (hp : (implicitParameter m i).result = .ok (some p)) :
      p.collectionFormat = none := by
    rw [himplicit] at hp
    obtain ⟨schema, -, hp⟩ := Logged.result_bind_eq_ok.1 hp
    cases hp
    rfl
  refine ⟨hcompleted, ?_⟩
  rw [hcompleted, Logged.bind_pure_inj]
  constructor
  · intro hsame p hp
    rw [← Parameter.completeArray_eq_self_iff (hunsaid p hp)]
    exact List.head_eq_of_cons_eq (hsame (some p) hp)
  · intro hsingle p hp
    cases p with
    | none => rfl
    | some p =>
      have hself := (Parameter.completeArray_eq_self_iff (hunsaid p hp)).2 (hsingle p hp)
      rw [Option.map_some, hself]

section Tags

/-- A list of texts in the query that a method documents. -/
def tags : ImplicitParameter where
  name := "tags"
  type := "Vec<String>"
  location := "query"

def tagsAnnotations : List ParamAnnotation :=
  [.query "tags", .api tags.info]

theorem isDeclaredBy_tagsAnnotations : tags.IsDeclaredBy .query tagsAnnotations :=
  isDeclaredBy_info rfl

theorem tags_schema : implicitSchema {} .query (Text.trim tags.type) =
    pure (some (.array (.scalar "string" none))) := by
  have htrim : Text.trim tags.type = "Vec<String>" := by cbv
  have hdocumented : documentedType? "Vec<String>" = none := by cbv
  have hread : TypeRef.read "Vec<String>" = .ok ⟨"Vec", [⟨"String", []⟩]⟩ := rfl
  have hschema : ({} : Models).parameterSchema ⟨"Vec", [⟨"String", []⟩]⟩ =
      .ok (some (.array (.scalar "string" none))) := by cbv
  have hquery : Location.query ≠ .body := by decide
  rw [htrim, implicitSchema_of_type hquery (by decide), hdocumented, hread]
  exact congrArg Build.lift hschema

theorem tags_agree_iff : Location.parse? tags.location = some .query ∧ tags.multiple = false ∧
    Text.trim tags.type ≠ "" ∧ tags.IsDeclaredBy .query tagsAnnotations ∧
    declaredParameters {} {} ⟨"String", []⟩ tagsAnnotations =
      ((implicitParameter {} tags).bind fun p => pure (p.map (·.completeArray)).toList) ∧
    (declaredParameters {} {} ⟨"String", []⟩ tagsAnnotations =
      ((implicitParameter {} tags).bind fun p => pure p.toList) ↔
        ∀ p, (implicitParameter {} tags).result = .ok (some p) → p.isArray = false) := by
  have hl : Location.parse? tags.location = some .query := by cbv
  have ht : Text.trim tags.type ≠ "" := by cbv
  exact ⟨hl, rfl, ht, isDeclaredBy_tagsAnnotations,
    declared_agrees_iff hl rfl ht isDeclaredBy_tagsAnnotations⟩

/-- Only the declared list says that the parameter is repeated for its items. -/
theorem tags_documented_apart : Location.parse? tags.location = some .query ∧
    tags.multiple = false ∧ Text.trim tags.type ≠ "" ∧
    tags.IsDeclaredBy .query tagsAnnotations ∧
    ∃ declared implicit,
      declaredParameters {} {} ⟨"String", []⟩ tagsAnnotations = pure [declared] ∧
      implicitParameter {} tags = pure (some implicit) ∧
      declared.collectionFormat = some "multi" ∧ implicit.collectionFormat = none := by
  have hl : Location.parse? tags.location = some .query := by cbv
  have ht : Text.trim tags.type ≠ "" := by cbv
  have hquery : Location.query ≠ .body := by decide
  let list := tags.parameter .query (some (.array (.scalar "string" none)))
  refine ⟨hl, rfl, ht, isDeclaredBy_tagsAnnotations, list.completeArray, list, ?_, ?_, rfl, rfl⟩
  · rw [declaredParameters_eq isDeclaredBy_tagsAnnotations ht, tags_schema, Logged.pure_bind]
  · rw [implicitParameter_eq hl hquery rfl, tags_schema, Logged.pure_bind]

end Tags

end Apidoc
