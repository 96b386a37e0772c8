import Apidoc.Proofs.Operation.Responses
import Apidoc.Proofs.Operation.Shape
import Apidoc.Proofs.Record.Document

namespace Apidoc

variable {m : Models} {s : ResourceSet} {t : TypeRef} {schema : Schema} {p : Parameter}
  {method : Method}

section Schemas

namespace Schema

theorem keyed_of_no_properties (hitems : ∀ t, schema.items = some t → t.Keyed)
    (hvalues : ∀ t, schema.additionalProperties = some t → t.Keyed)
    (hproperties : schema.properties = none) : schema.Keyed := by
  apply Keyed.intro hitems hvalues
  · intro t ht
    cases hproperties.symm.trans ht
  · intro t ht
    cases hproperties.symm.trans ht

theorem keyed_bare (hitems : schema.items = none) (hvalues : schema.additionalProperties = none)
    (hproperties : schema.properties = none) : schema.Keyed := by
  apply keyed_of_no_properties _ _ hproperties
  · intro t ht
    cases hitems.symm.trans ht
  · intro t ht
    cases hvalues.symm.trans ht

theorem Keyed.items (h : schema.Keyed) : ∀ t, schema.items = some t → t.Keyed := by
  cases h
  assumption

theorem keyed_scalar {type : String} {format : Option String} : (scalar type format).Keyed :=
  keyed_bare rfl rfl rfl

theorem keyed_object : object.Keyed :=
  keyed_bare rfl rfl rfl

theorem keyed_ofModel {name : String} : (ofModel name).Keyed :=
  keyed_bare rfl rfl rfl

/-- Descriptions and the marks of a set name nothing. -/
theorem Keyed.annotate (h : schema.Keyed) (description : Option String) (uniqueItems : Bool) :
    { schema with description, uniqueItems }.Keyed := by
  cases h with
  | intro items values names properties => exact .intro items values names properties

theorem Keyed.withDescription (h : schema.Keyed) (text : String) :
    (schema.withDescription text).Keyed := by
  unfold Schema.withDescription
  split
  · exact h
  · exact h.annotate _ _

theorem Keyed.array (h : schema.Keyed) : (array schema).Keyed := by
  apply keyed_of_no_properties _ _ rfl
  · intro t ht
    cases ht
    exact h
  · intro t ht
    cases ht

theorem Keyed.mapOf (h : schema.Keyed) : (mapOf schema).Keyed := by
  apply keyed_of_no_properties _ _ rfl
  · intro t ht
    cases ht
  · intro t ht
    cases ht
    exact h

theorem Keyed.wrap (h : schema.Keyed) (c : Container) : (c.wrap schema).Keyed := by
  cases c with
  | list => exact h.array
  | set => exact h.array.annotate _ _
  | map => exact h.mapOf

theorem Keyed.wrapIn (h : schema.Keyed) (kind : Option Container) :
    (Container.wrapIn kind schema).Keyed := by
  cases kind with
  | none => exact h
  | some c => exact h.wrap c

end Schema

theorem Primitive.keyed (p : Primitive) : p.schema.Keyed := by
  cases p <;> exact Schema.keyed_scalar

theorem documentedType?_keyed {name : String} (h : documentedType? name = some schema) :
    schema.Keyed := by
  unfold documentedType? at h
  repeat' split at h
  all_goals cases h
  all_goals exact Schema.keyed_scalar

namespace Models

theorem keyed_named {name : String} (h : m.named? name = some schema) : schema.Keyed := by
  obtain ⟨resolved, _, rfl⟩ := Option.map_eq_some_iff.1 h
  cases resolved with
  | primitive p => exact p.keyed
  | model d => exact Schema.keyed_ofModel

theorem keyed_wrapAll (h : schema.Keyed) (kinds : List Container) :
    (wrapAll kinds schema).Keyed := by
  induction kinds with
  | nil => exact h
  | cons kind kinds ih => exact ih.wrap kind

theorem keyed_property (h : m.property t = .ok (some schema)) : schema.Keyed := by
  rw [property_eq] at h
  split at h
  · cases h
  · split at h
    · rename_i named hnamed
      cases h
      exact keyed_wrapAll (keyed_named hnamed) _
    · cases h

theorem keyed_fieldSchema {f : Field} : (m.fieldSchema f).Keyed := by
  unfold fieldSchema
  split
  · exact Schema.keyed_object
  · simp only
    split
    · exact Schema.keyed_object
    · apply keyed_wrapAll
      cases hnamed : m.named? _ with
      | none => exact Schema.keyed_object
      | some named => exact keyed_named hnamed

theorem keyed_schemaOf (d : Definition) : (m.schemaOf d).Keyed := by
  obtain ⟨name, kind⟩ := d
  cases kind with
  | choice variants => exact Schema.keyed_bare rfl rfl rfl
  | record fields =>
    constructor
    · intro t ht
      cases ht
    · intro t ht
      cases ht
    · intro t ht
      cases ht
      exact Table.nodup_keys_ofList
    · intro t ht e he
      cases ht
      obtain ⟨f, _, rfl⟩ := List.mem_map.1 (Table.mem_entries_ofList he)
      exact keyed_fieldSchema

theorem keyed_of_own {own : Table Schema} (h : m.own t = .ok own) (hs : schema ∈ own.values) :
    schema.Keyed := by
  rcases own_eq_ok h with rfl | ⟨d, _, _, rfl⟩
  · cases hs
  · rw [List.mem_singleton.1 hs]
    exact keyed_schemaOf d

theorem describesWith_keyed : m.DescribesWith Schema.Keyed where
  documented := documentedType?_keyed
  property := keyed_property
  own := keyed_of_own

end Models

theorem HeaderInfo.keyed_schema? {h : HeaderInfo} (hs : h.schema? m = .ok (some schema)) :
    schema.Keyed := by
  unfold HeaderInfo.schema? at hs
  split at hs
  · cases hs
  · split at hs
    · rename_i t ht
      obtain ⟨property, hp, hs⟩ := Except.bind_eq_ok.1 hs
      cases property with
      | none => cases hs
      | some described =>
        cases hs
        exact ((Models.keyed_property hp).wrapIn _).withDescription _
    · cases hs

theorem headerSchemas_keyed {hs : List HeaderInfo} {entries : List (String × Schema)}
    (h : headerSchemas m hs = .ok entries) : ∀ e ∈ entries, e.2.Keyed := by
  induction hs generalizing entries with
  | nil =>
    cases h
    intro e he
    cases he
  | cons header hs ih =>
    rw [headerSchemas] at h
    obtain ⟨described, hheader, h⟩ := Except.bind_eq_ok.1 h
    obtain ⟨rest, hrest, h⟩ := Except.bind_eq_ok.1 h
    cases h
    intro e he
    rcases List.mem_append.1 he with he | he
    · obtain ⟨schema, hschema, rfl⟩ := Option.map_eq_some_iff.1 (Option.mem_toList.1 he)
      exact HeaderInfo.keyed_schema? (hschema ▸ hheader)
    · exact ih hrest e he

/-- The headers of a response are named apart and keyed. -/
structure KeyedHeaders (headers : Option (Table Schema)) : Prop where
  names : ∀ t, headers = some t → t.keys.Nodup
  schemas : ∀ t, headers = some t → ∀ e ∈ t.entries, e.2.Keyed

theorem keyedHeaders_none : KeyedHeaders none where
  names := nofun
  schemas := nofun

theorem responseHeaders_keyed {hs : List HeaderInfo} {headers : Option (Table Schema)}
    (h : responseHeaders m hs = .ok headers) : KeyedHeaders headers := by
  unfold responseHeaders at h
  obtain ⟨entries, hentries, h⟩ := Except.bind_eq_ok.1 h
  cases hempty : entries.isEmpty with
  | true =>
    rw [hempty] at h
    cases h
    exact keyedHeaders_none
  | false =>
    rw [hempty] at h
    cases h
    constructor
    · intro t ht
      cases ht
      exact Table.nodup_keys_ofList
    · intro t ht e he
      cases ht
      exact headerSchemas_keyed hentries e (Table.mem_entries_ofList he)

end Schemas

section Parameters

/-- The schemas of some parameters are keyed. -/
def AllKeyed (ps : List Parameter) : Prop :=
  ∀ p ∈ ps, p.Keyed

variable {ps qs : List Parameter} {annotations : List ParamAnnotation}

theorem Parameter.keyed_at {location : Location} {name : String} :
    (Parameter.at location name).Keyed where
  schema := nofun
  items := nofun

/-- Whether a parameter is keyed only depends on its schemas. -/
theorem Parameter.Keyed.congr {q : Parameter} (h : p.Keyed) (hs : q.schema = p.schema)
    (hi : q.items = p.items) : q.Keyed where
  schema := hs ▸ h.schema
  items := hi ▸ h.items

theorem Parameter.Keyed.describe (h : p.Keyed) (hs : schema.Keyed) : (p.describe schema).Keyed where
  schema := h.schema
  items := hs.items

theorem Parameter.Keyed.completeArray (h : p.Keyed) : p.completeArray.Keyed := by
  unfold Parameter.completeArray
  split
  · exact h.congr rfl rfl
  · exact h

theorem Parameter.Keyed.complete (h : p.Keyed) (info : Option ParameterInfo) :
    (match info with
      | some i => p.document i
      | none => p).completeArray.Keyed := by
  cases info with
  | none => exact h.completeArray
  | some i =>
    have hdocument : (p.document i).Keyed := h.congr rfl rfl
    exact hdocument.completeArray

theorem allKeyed_nil : AllKeyed [] := by
  intro p hp
  cases hp

theorem allKeyed_some (h : p.Keyed) : AllKeyed (some p).toList := by
  intro q hq
  rw [List.mem_singleton.1 hq]
  exact h

theorem AllKeyed.append (hp : AllKeyed ps) (hq : AllKeyed qs) : AllKeyed (ps ++ qs) := by
  intro p h
  rcases List.mem_append.1 h with h | h
  · exact hp p h
  · exact hq p h

theorem Parameter.keyed_body {name : String} {description : Option String} {required : Bool}
    (h : schema.Keyed) :
    { Parameter.at .body name with schema := some schema, description, required }.Keyed where
  schema s hs := by
    cases hs
    exact h
  items := nofun

theorem bodyParameter_keyed {schema : Option Schema} {info : Option ParameterInfo}
    (hs : ∀ s, schema = some s → s.Keyed) :
    (bodyParameter m schema t info).Answers fun p => AllKeyed p.toList := by
  unfold bodyParameter
  simp only [Logged.bind_eq]
  cases schema with
  | some s => exact .pure (allKeyed_some (Parameter.keyed_body (hs s rfl)))
  | none =>
    have hproperty := Build.answers_lift_some fun _ => Models.keyed_property (m := m) (t := t)
    refine hproperty.bind fun property hkeyed => ?_
    cases property with
    | none => exact .pure allKeyed_nil
    | some s =>
      apply Logged.Answers.after
      intro _
      apply Logged.Answers.after
      intro _
      exact .pure (allKeyed_some (Parameter.keyed_body (hkeyed s rfl)))

theorem leafParameter_keyed : (leafParameter m t annotations).Answers fun p =>
    AllKeyed p.toList := by
  unfold leafParameter
  simp only [Logged.bind_eq]
  have hm : m.DescribesWith Schema.Keyed := Models.describesWith_keyed
  refine hm.answers_documented.bind fun answer hanswer => ?_
  obtain ⟨schema, u⟩ := answer
  cases annotations.findSome? (·.location?) with
  | none => exact bodyParameter_keyed hanswer
  | some place =>
    obtain ⟨location, name⟩ := place
    have hat : (Parameter.at location name).Keyed := Parameter.keyed_at
    have hdescribed (s : Schema) (hs : s.Keyed) := hat.describe hs
    cases schema with
    | some s =>
      apply Logged.Answers.pure
      apply allKeyed_some
      apply Parameter.Keyed.complete
      exact (hdescribed s (hanswer s rfl)).congr rfl rfl
    | none =>
      have hschema := Build.answers_lift_some fun _ => hm.parameterSchema (t := u)
      refine hschema.bind fun schema hkeyed => ?_
      apply Logged.Answers.pure
      apply allKeyed_some
      apply Parameter.Keyed.complete
      cases schema with
      | none => exact hat.congr rfl rfl
      | some s => exact (hdescribed s (hkeyed s rfl)).congr rfl rfl

theorem implicitParameter_keyed {i : ImplicitParameter} :
    (implicitParameter m i).Answers fun p => AllKeyed p.toList := by
  unfold implicitParameter
  cases Location.parse? i.location with
  | none => exact .pure allKeyed_nil
  | some location =>
    simp only [Logged.bind_eq]
    refine Models.describesWith_keyed.answers_implicitSchema.bind fun schema hschema => ?_
    have hat : (Parameter.at location i.name).Keyed := Parameter.keyed_at
    have hmultiple : ∀ s, (schema.map fun s => if i.multiple then s.array else s) = some s →
        s.Keyed := by
      intro s hs
      obtain ⟨t, ht, rfl⟩ := Option.map_eq_some_iff.1 hs
      split
      · exact (hschema t ht).array
      · exact hschema t ht
    -- What the annotations say does not matter, so it need not be looked into.
    generalize Text.nonEmpty? i.description = description, Text.nonEmpty? i.default = default,
      allowedValues? i.allowed = enumValues, Text.nonEmpty? i.format = format
    by_cases hbody : location = .body
    · rw [if_pos hbody]
      apply Logged.Answers.pure
      apply allKeyed_some
      exact ⟨hmultiple, hat.items⟩
    · rw [if_neg hbody]
      apply Logged.Answers.pure
      apply allKeyed_some
      cases schema with
      | none => exact hat.congr rfl rfl
      | some s =>
        have hs := hmultiple _ rfl
        cases hmany : i.multiple with
        | false =>
          rw [hmany] at hs
          exact (hat.describe hs).congr rfl rfl
        | true =>
          rw [hmany] at hs
          exact (hat.describe hs).congr rfl rfl

theorem operationParameters_keyed : (operationParameters m s method).Answers AllKeyed :=
  operationParameters_forall (fun _ _ => leafParameter_keyed) fun _ => implicitParameter_keyed

end Parameters

section Responses

/-- Responses that are named apart and keyed. -/
structure KeyedResponses (responses : Table Response) : Prop where
  codes : responses.keys.Nodup
  keyed : ∀ e ∈ responses.entries, e.2.Keyed

variable {headers : Option (Table Schema)} {responses : Table Response} {key : String}
  {r : Response}

theorem keyedResponses_empty : KeyedResponses {} where
  codes := List.nodup_nil
  keyed := nofun

theorem KeyedResponses.put (h : KeyedResponses responses) (hr : r.Keyed) :
    KeyedResponses (responses.put key r) where
  codes := Table.nodup_keys_put h.codes
  keyed e he := by
    rcases Table.mem_entries_put he with rfl | he
    · exact hr
    · exact h.keyed e he

theorem keyed_response {description : String} {schema : Option Schema}
    (hs : ∀ s, schema = some s → s.Keyed) (hh : KeyedHeaders headers) :
    ({ description, schema, headers } : Response).Keyed where
  schema := hs
  names := hh.names
  headers := hh.schemas

theorem KeyedResponses.orDefault (h : KeyedResponses responses) (hh : KeyedHeaders headers) :
    KeyedResponses
      (if responses.isEmpty then responses.put "default" (successful headers none)
        else responses) := by
  split
  · exact h.put (keyed_response nofun hh)
  · exact h

theorem primaryHeaders_keyed : (primaryHeaders m method).Answers KeyedHeaders := by
  unfold primaryHeaders
  split
  · intro headers h
    exact responseHeaders_keyed h
  · exact .pure keyedHeaders_none

theorem classify_keyed {c : Classification} {container : Option Container}
    (hc : classify m s t = .ok c) (hh : KeyedHeaders headers) :
    ∀ r, c.response? container headers = some r → r.Keyed := by
  intro r hr
  cases hi : isIgnored s t with
  | true =>
    rw [classify_ignored hi] at hc
    cases hc
    cases hr
  | false =>
    rcases classify_eq_ok hi hc with ⟨schema, rfl, hp⟩ | ⟨schema, rfl, hp⟩ | ⟨own, rfl, _⟩
    · cases hr
      apply keyed_response _ hh
      intro s hs
      cases hs
      exact (Models.keyed_property hp).wrapIn container
    · cases hr
      apply keyed_response _ hh
      intro s hs
      cases hs
      exact Models.keyed_property hp
    · obtain ⟨name, _, rfl⟩ := Option.map_eq_some_iff.1 hr
      apply keyed_response _ hh
      intro s hs
      cases hs
      exact Schema.keyed_ofModel.wrapIn container

theorem primaryResponses_keyed (hh : KeyedHeaders headers) :
    (primaryResponses m s method headers).Answers KeyedResponses := by
  simp only [primaryResponses, primaryResponse_eq, Logged.bind_eq, Logged.bind_assoc,
    Logged.pure_bind]
  have hclassify : (Build.lift (classify m s method.primaryType)).Answers
      fun c => classify m s method.primaryType = .ok c := fun _ h => h
  refine hclassify.bind fun c hc => ?_
  apply Logged.Answers.after
  intro _
  apply Logged.Answers.after
  intro _
  apply Logged.Answers.after
  intro _
  apply Logged.Answers.pure
  cases hr : c.response? (responseContainer method.operation?) headers with
  | none => exact keyedResponses_empty
  | some r => exact keyedResponses_empty.put (classify_keyed hc hh r hr)

theorem addResponse_keyed {info : ResponseInfo} (h : KeyedResponses responses) :
    (addResponse m responses info).Answers KeyedResponses := by
  unfold addResponse
  simp only [Logged.bind_eq]
  have hheaders : (Build.lift (responseHeaders m info.headers)).Answers KeyedHeaders :=
    fun _ h => responseHeaders_keyed h
  refine hheaders.bind fun headers hh => ?_
  cases info.type.filter (!·.isVoid) with
  | none =>
    apply Logged.Answers.pure
    apply h.put
    apply keyed_response _ hh
    intro s hs
    obtain ⟨r, hr, hs⟩ := Option.bind_eq_some_iff.1 hs
    exact (h.keyed _ (Table.mem_entries_of_get? hr)).schema s hs
  | some t =>
    apply Logged.Answers.after
    intro own
    apply Logged.Answers.after
    intro _
    apply Logged.Answers.after
    intro _
    apply Logged.Answers.after
    intro _
    -- The name of the model is not looked into.
    generalize Container.ofHint? info.container = container, own.keys.getLast? = last
    cases last with
    | some name =>
      apply Logged.Answers.pure
      apply h.put
      apply keyed_response _ hh
      intro s hs
      cases hs
      exact Schema.keyed_ofModel.wrapIn _
    | none =>
      have hproperty := Build.answers_lift_some fun _ => Models.keyed_property (m := m) (t := t)
      refine hproperty.bind fun property hkeyed => ?_
      apply Logged.Answers.pure
      apply h.put
      apply keyed_response _ hh
      intro s hs
      obtain ⟨schema, hschema, rfl⟩ := Option.map_eq_some_iff.1 hs
      exact (hkeyed schema hschema).wrapIn _

theorem addResponses_keyed {infos : List ResponseInfo} (h : KeyedResponses responses) :
    (addResponses m responses infos).Answers KeyedResponses := by
  induction infos generalizing responses with
  | nil => exact .pure h
  | cons info infos ih => exact (addResponse_keyed h).bind fun responses h => ih h

end Responses

section Operations

variable {o : Operation} {requirements : List SecurityRequirement} {tags : List String}
  {extension : Extension}

theorem vendorKey_not_mem_names (key : String) : vendorKey key ∉ Operation.names := by
  have hprefix : Text.startsWith "x-" (vendorKey key) = true := by
    unfold vendorKey
    split
    · assumption
    · simp [Text.startsWith]
  intro hmem
  have hall : ∀ name ∈ Operation.names, Text.startsWith "x-" name = false := by decide
  rw [hall _ hmem] at hprefix
  cases hprefix

theorem Table.keys_map {α β : Type} {f : α → β} {t : Table α} : (t.map f).keys = t.keys := by
  rw [keys, map, List.map_map]
  rfl

theorem Extension.keyed_entries : ∀ e ∈ extension.entries.entries, e.2.Keyed := by
  intro e he
  unfold Extension.entries at he
  split at he
  · obtain ⟨property, _, rfl⟩ := List.mem_map.1 he
    exact .string _
  · rw [List.mem_singleton.1 he]
    have hnames : (extension.namedProperties.map Value.string).keys.Nodup := by
      rw [Table.keys_map]
      exact Table.nodup_keys_ofList
    apply Value.Keyed.object hnames
    intro property hproperty
    obtain ⟨p, _, rfl⟩ := List.mem_map.1 hproperty
    exact .string _

theorem mem_extensionEntries {extensions : List Extension} {t : Table Value}
    (h : t ∈ extensionEntries extensions) : ∃ extension : Extension, t = extension.entries := by
  obtain ⟨extension, _, rfl⟩ := List.mem_map.1 h
  exact ⟨extension, rfl⟩

theorem keyed_securityRequirements {authorizations : List Authorization} :
    ∀ r ∈ securityRequirements authorizations, r.keys.Nodup := by
  intro r hr
  obtain ⟨a, _, rfl⟩ := List.mem_map.1 hr
  exact List.nodup_cons.2 ⟨List.not_mem_nil, List.nodup_nil⟩

namespace Operation

theorem Keyed.addSecurity (h : o.Keyed) {requirement : SecurityRequirement}
    (hr : requirement.keys.Nodup) : (o.addSecurity requirement).Keyed := by
  unfold Operation.addSecurity
  split
  · exact h
  · have hsecurity : ∀ r ∈ o.security ++ [requirement], r.keys.Nodup := by
      intro r hmem
      rcases List.mem_append.1 hmem with hmem | hmem
      · exact h.security r hmem
      · rw [List.mem_singleton.1 hmem]
        exact hr
    exact { h with security := hsecurity }

/-- What one step keeps, any number of them does. -/
theorem Keyed.foldl {α : Type} {f : Operation → α → Operation} {as : List α} (h : o.Keyed)
    (hf : ∀ o, o.Keyed → ∀ a ∈ as, (f o a).Keyed) : (as.foldl f o).Keyed := by
  induction as generalizing o with
  | nil => exact h
  | cons a as ih =>
    have hhead := hf o h a List.mem_cons_self
    exact ih hhead fun o ho a' ha' => hf o ho a' (List.mem_cons_of_mem _ ha')

theorem Keyed.addSecurities (h : o.Keyed) (hr : ∀ r ∈ requirements, r.keys.Nodup) :
    (requirements.foldl Operation.addSecurity o).Keyed :=
  h.foldl fun _ ho r hmem => ho.addSecurity (hr r hmem)

theorem Keyed.document (h : o.Keyed) (info : OperationInfo) : (o.document info).Keyed := by
  unfold Operation.document
  have hentries : ∀ e ∈ (extensionEntries info.extensions).flatMap
      (fun t => t.entries.map fun e => (vendorKey e.1, e.2)),
      e.1 ∉ names ∧ e.2.Keyed := by
    intro e he
    obtain ⟨t, ht, he⟩ := List.mem_flatMap.1 he
    obtain ⟨extension, rfl⟩ := mem_extensionEntries ht
    obtain ⟨e', he', rfl⟩ := List.mem_map.1 he
    exact ⟨vendorKey_not_mem_names _, extension.keyed_entries e' he'⟩
  generalize (extensionEntries info.extensions).flatMap _ = entries at hentries
  apply Keyed.addSecurities _ keyed_securityRequirements
  constructor
  · exact h.parameters
  · exact h.codes
  · exact h.responses
  · exact h.security
  · exact Table.nodup_keys_putAll h.extensionNames
  · intro e he
    rcases Table.mem_entries_putAll he with he | he
    · exact (hentries e he).2
    · exact h.extensions e he
  · intro k hk
    rcases Table.mem_keys_putAll.1 hk with hk | hk
    · exact h.apart k hk
    · obtain ⟨e, he, rfl⟩ := List.mem_map.1 hk
      exact (hentries e he).1

theorem keyed_empty {operationId : String} : ({ operationId } : Operation).Keyed where
  parameters _ hp := (List.not_mem_nil hp).elim
  codes := List.nodup_nil
  responses _ he := (List.not_mem_nil he).elim
  security _ hr := (List.not_mem_nil hr).elim
  extensionNames := List.nodup_nil
  extensions _ he := (List.not_mem_nil he).elim
  apart _ hk := (List.not_mem_nil hk).elim

theorem Keyed.fill (h : o.Keyed) (consumes produces : Option (List String)) (deprecated : Bool)
    {parameters : List Parameter} {responses : Table Response} (hp : AllKeyed parameters)
    (hr : KeyedResponses responses) :
    { o with consumes, produces, deprecated, parameters, responses }.Keyed :=
  { h with parameters := hp, codes := hr.codes, responses := hr.keyed }

end Operation

theorem keyed_operationWith {headers : Option (Table Schema)} {responses : Table Response}
    {parameters : List Parameter} (hh : KeyedHeaders headers) (hr : KeyedResponses responses)
    (hp : AllKeyed parameters) : (method.operationWith headers responses parameters).Keyed := by
  have hresponses := hr.orDefault hh
  unfold Method.operationWith
  generalize method.operationId method.operation? = operationId
  cases method.operation? with
  | none => exact Operation.keyed_empty.fill _ _ _ hp hresponses
  | some info => exact (Operation.keyed_empty.document info).fill _ _ _ hp hresponses

theorem buildVisible_keyed : (buildVisible m s method).Answers Operation.Keyed := by
  unfold buildVisible
  simp only [Logged.bind_eq]
  exact primaryHeaders_keyed.bind fun _ hh =>
    (primaryResponses_keyed hh).bind fun _ hprimary =>
      (addResponses_keyed hprimary).bind fun _ hr =>
        operationParameters_keyed.bind fun _ hp => .pure (keyed_operationWith hh hr hp)

end Operations

end Apidoc
