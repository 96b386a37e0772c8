import Apidoc.Proofs.Operation.Parameters

namespace Apidoc

/-- An array says what its items are, and nothing else has items. -/
def Schema.Itemized (s : Schema) : Prop :=
  s.items.isSome ↔ s.type = some "array"

namespace Parameter

structure WellShaped (p : Parameter) : Prop where
  body : p.location = .body → p.type = none ∧ p.format = none ∧ p.items = none ∧
    p.collectionFormat = none ∧ p.pattern = none
  elsewhere : p.location ≠ .body → p.schema = none
  path : p.location = .path → p.required = true
  pattern : p.pattern.isSome → p.location = .path
  items : p.items.isSome ↔ p.type = some "array"
  collectionFormat : p.collectionFormat.isSome → p.type = some "array"

end Parameter

def AllWellShaped (ps : List Parameter) : Prop :=
  ∀ p ∈ ps, p.WellShaped

variable {m : Models} {s : ResourceSet} {t : TypeRef} {schema : Schema} {p : Parameter}
  {ps qs : List Parameter} {method : Method} {annotations : List ParamAnnotation}

section Schemas

theorem Schema.itemized_scalar {type : String} {format : Option String} (h : type ≠ "array") :
    (scalar type format).Itemized := by
  constructor
  · intro hitems
    cases hitems
  · intro htype
    exact (h (Option.some.inj htype)).elim

theorem Schema.itemized_array : (array schema).Itemized := by
  constructor
  · intro _
    rfl
  · intro _
    rfl

theorem Schema.itemized_ofModel {name : String} : (ofModel name).Itemized := by
  constructor
  · intro hitems
    cases hitems
  · intro htype
    cases htype

theorem Container.itemized_wrap {c : Container} : (c.wrap schema).Itemized := by
  cases c with
  | list => exact Schema.itemized_array
  | set => exact Schema.itemized_array
  | map =>
    constructor
    · intro hitems
      cases hitems
    · intro htype
      have hname : "object" = "array" := Option.some.inj htype
      exact absurd hname (by decide)

theorem Primitive.itemized (p : Primitive) : p.schema.Itemized := by
  cases p <;> exact Schema.itemized_scalar (by decide)

theorem documentedType?_itemized {name : String} (h : documentedType? name = some schema) :
    schema.Itemized := by
  unfold documentedType? at h
  repeat' split at h
  all_goals cases h
  all_goals exact Schema.itemized_scalar (by decide)

namespace Models

theorem itemized_named {name : String} (h : m.named? name = some schema) : schema.Itemized := by
  obtain ⟨resolved, _, rfl⟩ := Option.map_eq_some_iff.1 h
  cases resolved with
  | primitive p => exact p.itemized
  | model d => exact Schema.itemized_ofModel

theorem itemized_wrapAll {kinds : List Container} (h : schema.Itemized) :
    (wrapAll kinds schema).Itemized := by
  cases kinds with
  | nil => exact h
  | cons kind kinds => exact Container.itemized_wrap

theorem itemized_property (h : m.property t = .ok (some schema)) : schema.Itemized := by
  rw [property_eq] at h
  split at h
  · cases h
  · split at h
    · rename_i named hnamed
      cases h
      exact itemized_wrapAll (itemized_named hnamed)
    · cases h

theorem itemized_schemaOf (d : Definition) : (m.schemaOf d).Itemized := by
  obtain ⟨name, kind⟩ := d
  cases kind with
  | record fields =>
    constructor
    · intro hitems
      cases hitems
    · intro htype
      have hname : "object" = "array" := Option.some.inj htype
      exact absurd hname (by decide)
  | choice variants =>
    constructor
    · intro hitems
      cases hitems
    · intro htype
      have hname : "string" = "array" := Option.some.inj htype
      exact absurd hname (by decide)

theorem itemized_of_own {own : Table Schema} (h : m.own t = .ok own)
    (hs : schema ∈ own.values) : schema.Itemized := by
  rcases own_eq_ok h with rfl | ⟨d, _, _, rfl⟩
  · cases hs
  · rw [List.mem_singleton.1 hs]
    exact itemized_schemaOf d

theorem describesWith_itemized : m.DescribesWith Schema.Itemized where
  documented := documentedType?_itemized
  property := itemized_property
  own := itemized_of_own

end Models

end Schemas

section Steps

namespace Parameter

theorem wellShaped_at {location : Location} {name : String} :
    (Parameter.at location name).WellShaped where
  body _ := ⟨rfl, rfl, rfl, rfl, rfl⟩
  elsewhere _ := rfl
  path h := by
    rw [Parameter.at, beq_iff_eq]
    exact h
  pattern h := by cases h
  items := by
    constructor
    · intro hitems
      cases hitems
    · intro htype
      cases htype
  collectionFormat h := by cases h

/-- Most of what documents a parameter is no part of its shape. -/
theorem WellShaped.annotate (h : p.WellShaped) (description default : Option String)
    (enumValues : Option (List String)) {required : Bool}
    (hr : p.required = true → required = true) :
    { p with description, required, default, enumValues }.WellShaped where
  body := h.body
  elsewhere := h.elsewhere
  path hl := hr (h.path hl)
  pattern := h.pattern
  items := h.items
  collectionFormat := h.collectionFormat

theorem WellShaped.withSchema (h : p.WellShaped) (hl : p.location = .body)
    (schema : Option Schema) : { p with schema }.WellShaped where
  body := h.body
  elsewhere hne := (hne hl).elim
  path := h.path
  pattern := h.pattern
  items := h.items
  collectionFormat := h.collectionFormat

theorem WellShaped.withFormat (h : p.WellShaped) (hl : p.location ≠ .body)
    (format : Option String) : { p with format }.WellShaped where
  body hbody := (hl hbody).elim
  elsewhere := h.elsewhere
  path := h.path
  pattern := h.pattern
  items := h.items
  collectionFormat := h.collectionFormat

theorem WellShaped.withPattern (h : p.WellShaped) (hl : p.location = .path)
    (pattern : Option String) : { p with pattern }.WellShaped where
  body hbody := by
    have hne : Location.path = Location.body := hl.symm.trans hbody
    cases hne
  elsewhere := h.elsewhere
  path := h.path
  pattern _ := hl
  items := h.items
  collectionFormat := h.collectionFormat

theorem WellShaped.withCollectionFormat (h : p.WellShaped) (hl : p.location ≠ .body)
    (hp : p.type = some "array") (collectionFormat : Option String) :
    { p with collectionFormat }.WellShaped where
  body hbody := (hl hbody).elim
  elsewhere := h.elsewhere
  path := h.path
  pattern := h.pattern
  items := h.items
  collectionFormat _ := hp

theorem WellShaped.describe (h : p.WellShaped) (hl : p.location ≠ .body)
    (hp : p.collectionFormat = none) (hs : schema.Itemized) : (p.describe schema).WellShaped where
  body hbody := (hl hbody).elim
  elsewhere := h.elsewhere
  path := h.path
  pattern := h.pattern
  items := hs
  collectionFormat hsome := by
    have hnone : (p.describe schema).collectionFormat = none := hp
    rw [hnone] at hsome
    cases hsome

theorem isArray_iff : p.isArray = true ↔ p.type = some "array" := by
  rw [isArray, beq_iff_eq]

theorem WellShaped.document (h : p.WellShaped) (hl : p.location ≠ .body) (info : ParameterInfo) :
    (p.document info).WellShaped where
  body hbody := (hl hbody).elim
  elsewhere := h.elsewhere
  path hpath := by
    have hrequired : (p.required || info.required) = true := by
      rw [h.path hpath, Bool.true_or]
    exact hrequired
  pattern := h.pattern
  items := h.items
  collectionFormat hsome := by
    unfold Parameter.document at hsome ⊢
    by_cases harray : p.isArray = true
    · exact isArray_iff.1 harray
    · simp only [if_neg harray] at hsome
      exact h.collectionFormat hsome

theorem WellShaped.completeArray (h : p.WellShaped) (hl : p.location ≠ .body) :
    p.completeArray.WellShaped := by
  unfold Parameter.completeArray
  split
  · rename_i harray
    exact h.withCollectionFormat hl (isArray_iff.1 harray.1) _
  · exact h

end Parameter

end Steps

theorem allWellShaped_nil : AllWellShaped [] := by
  intro p hp
  cases hp

theorem allWellShaped_some (h : p.WellShaped) : AllWellShaped (some p).toList := by
  intro q hq
  rw [List.mem_singleton.1 hq]
  exact h

theorem applyPatterns_wellShaped {patterns : Table String} (h : AllWellShaped ps) :
    AllWellShaped (applyPatterns patterns ps) := by
  intro p hp
  obtain ⟨q, hq, rfl⟩ := List.mem_map.1 hp
  by_cases hl : q.location = .path
  · rw [if_pos hl]
    exact (h q hq).withPattern hl _
  · rw [if_neg hl]
    exact h q hq

theorem Parameter.wellShaped_body {name : String} {schema : Option Schema}
    {description : Option String} {required : Bool} :
    { Parameter.at .body name with schema, description, required }.WellShaped := by
  have hat : (Parameter.at .body name).WellShaped := wellShaped_at
  have hoptional : (Parameter.at .body name).required = true → required = true := by
    intro hrequired
    cases hrequired
  exact (hat.annotate description none none hoptional).withSchema rfl schema

theorem bodyParameter_wellShaped {schema : Option Schema} {info : Option ParameterInfo} :
    (bodyParameter m schema t info).Answers fun p => AllWellShaped p.toList := by
  unfold bodyParameter
  simp only [Logged.bind_eq]
  cases schema with
  | some s => exact .pure (allWellShaped_some Parameter.wellShaped_body)
  | none =>
    apply Logged.Answers.after
    intro property
    cases property with
    | none => exact .pure allWellShaped_nil
    | some s =>
      apply Logged.Answers.after
      intro _
      apply Logged.Answers.after
      intro _
      exact .pure (allWellShaped_some Parameter.wellShaped_body)

theorem Parameter.WellShaped.complete (h : p.WellShaped) (hl : p.location ≠ .body)
    (info : Option ParameterInfo) :
    (match info with
      | some i => p.document i
      | none => p).completeArray.WellShaped := by
  cases info with
  | none => exact h.completeArray hl
  | some i => exact (h.document hl i).completeArray hl

theorem leafParameter_wellShaped : (leafParameter m t annotations).Answers fun p =>
    AllWellShaped p.toList := by
  unfold leafParameter
  simp only [Logged.bind_eq]
  have hm : m.DescribesWith Schema.Itemized := Models.describesWith_itemized
  refine hm.answers_documented.bind fun answer hanswer => ?_
  obtain ⟨schema, u⟩ := answer
  cases hplace : annotations.findSome? (·.location?) with
  | none => exact bodyParameter_wellShaped
  | some place =>
    obtain ⟨location, name⟩ := place
    have hl : location ≠ .body := location?_ne_body hplace
    have hat : (Parameter.at location name).WellShaped := Parameter.wellShaped_at
    have hdescribed (schema : Schema) (hs : schema.Itemized) := hat.describe hl rfl hs
    cases schema with
    | some s =>
      apply Logged.Answers.pure
      exact allWellShaped_some (((hdescribed s (hanswer s rfl)).annotate _ _ _ id).complete hl _)
    | none =>
      have hschema := Build.answers_lift_some fun _ => hm.parameterSchema (t := u)
      refine hschema.bind fun schema hitemized => ?_
      apply Logged.Answers.pure
      apply allWellShaped_some
      cases schema with
      | none => exact (hat.annotate _ _ _ id).complete hl _
      | some s => exact ((hdescribed s (hitemized s rfl)).annotate _ _ _ id).complete hl _

theorem implicitParameter_wellShaped {i : ImplicitParameter} :
    (implicitParameter m i).Answers fun p => AllWellShaped p.toList := by
  unfold implicitParameter
  cases Location.parse? i.location with
  | none => exact .pure allWellShaped_nil
  | some location =>
    simp only [Logged.bind_eq]
    refine Models.describesWith_itemized.answers_implicitSchema.bind fun schema hschema => ?_
    have hat : (Parameter.at location i.name).WellShaped := Parameter.wellShaped_at
    have hrequired : (Parameter.at location i.name).required = true →
        ((Parameter.at location i.name).required || i.required) = true := by
      intro h
      rw [h, Bool.true_or]
    -- What the annotations say does not matter, so it need not be looked into.
    generalize Text.nonEmpty? i.description = description, Text.nonEmpty? i.default = default,
      allowedValues? i.allowed = enumValues, Text.nonEmpty? i.format = format
    have hannotated := hat.annotate description default enumValues hrequired
    by_cases hbody : location = .body
    · rw [if_pos hbody]
      apply Logged.Answers.pure
      apply allWellShaped_some
      exact hannotated.withSchema hbody _
    · rw [if_neg hbody]
      apply Logged.Answers.pure
      apply allWellShaped_some
      cases schema with
      | none => exact hannotated.withFormat hbody _
      | some s =>
        cases hmultiple : i.multiple with
        | false =>
          have hdescribed := hannotated.describe hbody rfl (hschema s rfl)
          exact hdescribed.withFormat hbody _
        | true =>
          have hs : s.array.Itemized := Schema.itemized_array
          have hdescribed := hannotated.describe hbody rfl hs
          exact (hdescribed.withCollectionFormat hbody rfl (some "multi")).withFormat hbody _

theorem operationParameters_wellShaped :
    (operationParameters m s method).Answers AllWellShaped :=
  operationParameters_forall (fun _ _ => leafParameter_wellShaped) fun _ =>
    implicitParameter_wellShaped

theorem buildOperation_wellShaped {o : Operation}
    (h : (buildOperation m s method).result = .ok (some o)) : AllWellShaped o.parameters :=
  buildOperation_parameters operationParameters_wellShaped h

end Apidoc
