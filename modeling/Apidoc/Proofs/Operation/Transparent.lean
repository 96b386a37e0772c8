import Apidoc.Proofs.Operation.Optional
import Mathlib

namespace Apidoc

namespace Method

/-- A method that returns a text, but documents what it answers by another type. -/
def answering (t : TypeRef) : Method where
  name := "find"
  returnType := ⟨"String", []⟩
  declaration := { operation := some { response := some t } }

/-- A method that returns a text and explains its response by another type. -/
def explaining (t : TypeRef) : Method where
  name := "find"
  returnType := ⟨"String", []⟩
  declaration := { responses := some [{ code := 200, type := some t }] }

def taking (annotations : List ParamAnnotation) (t : TypeRef) : Method where
  name := "find"
  parameters := [{ type := t, annotations }]

end Method

variable {P : TypePlace → TypeRef → Prop} {t : TypeRef} {annotations : List ParamAnnotation}
  {models : Models} {s : ResourceSet}

section Responses

theorem answering_wraps (h : P .response t) :
    (Method.answering t).Wraps P (.answering t.optional) where
  name := rfl
  returnType := .same
  parameters := .nil
  declarations := .cons ⟨_, none, .some ⟨_, [], .some (.optional h), .nil, rfl⟩, .none, rfl⟩ .nil

theorem explaining_wraps (h : P .explicit t) :
    (Method.explaining t).Wraps P (.explaining t.optional) where
  name := rfl
  returnType := .same
  parameters := .nil
  declarations := .cons ⟨none, _, .none,
    .some (.cons ⟨_, [], .some (.optional h), .nil, rfl⟩ .nil), rfl⟩ .nil

theorem classify_text :
    classify {} {} ⟨"String", []⟩ = .ok (.scalar (.scalar "string" none)) := by
  cbv

theorem bodyModels_text : bodyModels {} {} ⟨"String", []⟩ = .ok {} := by
  have hleaf : TypeRef.leaf ⟨"String", []⟩ = ⟨"String", []⟩ := rfl
  have hresolve : ({} : Models).resolve? "String" = some (.primitive .string) := by cbv
  have hreach : ({} : Models).reach [⟨"String", []⟩] {} = {} := by
    rw [Models.reach_cons, hleaf, hresolve]
    exact Models.reach_nil {}
  rw [bodyModels, Models.reachable, hleaf, hresolve, hreach]
  rfl

/-- An empty response gives way to the type that the method returns. -/
theorem build_answering (h : t.isVoid = true) :
    (buildOperation {} {} (.answering t)).result = .ok (some {
      operationId := "find"
      responses := ⟨[("200", successful none (some (.scalar "string" none)))]⟩ }) := by
  have hinfo : (Method.answering t).operation? = some { response := some t } := rfl
  have htype : (Method.answering t).responseType (some { response := some t }) =
      ⟨"String", []⟩ := by
    simp only [Method.responseType, Option.bind_some, TypeRef.filter_of_isVoid h]
    rfl
  unfold buildOperation primaryResponse
  simp only [hinfo, htype, classify_text, bodyModels_text]
  cbv

/-- An optional one does not, and is ignored. -/
theorem build_answering_optional (h : t.isVoid = true) :
    (buildOperation {} {} (.answering t.optional)).result = .ok (some {
      operationId := "find"
      responses := ⟨[("default", successful none none)]⟩ }) := by
  have hinfo : (Method.answering t.optional).operation? = some { response := some t.optional } :=
    rfl
  have htype : (Method.answering t.optional).responseType (some { response := some t.optional }) =
      t.optional := rfl
  have hignored : isIgnored {} t.optional = true := by
    rw [isIgnored_optional, isIgnored_of_isVoid _ h]
  unfold buildOperation primaryResponse
  simp only [hinfo, htype, classify_ignored hignored, bodyModels, hignored]
  cbv

/-- An empty explicit response keeps the schema of the primary one. -/
theorem build_explaining (h : t.isVoid = true) :
    (buildOperation {} {} (.explaining t)).result = .ok (some {
      operationId := "find"
      responses := ⟨[("200", {
        description := ""
        schema := some (.scalar "string" none) })]⟩ }) := by
  have hinfo : (Method.explaining t).operation? = none := rfl
  have htype : (Method.explaining t).responseType none = ⟨"String", []⟩ := rfl
  have hresponses : (Method.explaining t).responses = some [{ code := 200, type := some t }] := rfl
  unfold buildOperation primaryResponse
  simp only [hinfo, htype, classify_text, bodyModels_text, hresponses, addResponses, addResponse,
    Option.getD_some, TypeRef.filter_of_isVoid h]
  cbv

/-- An optional one puts nothing in its place. -/
theorem build_explaining_optional (h : t.isVoid = true) :
    (buildOperation {} {} (.explaining t.optional)).result = .ok (some {
      operationId := "find"
      responses := ⟨[("200", { description := "", schema := none })]⟩ }) := by
  have hinfo : (Method.explaining t.optional).operation? = none := rfl
  have htype : (Method.explaining t.optional).responseType none = ⟨"String", []⟩ := rfl
  have hresponses : (Method.explaining t.optional).responses =
      some [{ code := 200, type := some t.optional }] := rfl
  unfold buildOperation primaryResponse
  simp only [hinfo, htype, classify_text, bodyModels_text, hresponses, addResponses, addResponse,
    Option.getD_some, TypeRef.filter_optional, Models.own_optional, Models.own_of_isVoid h,
    Models.reachable_optional, Models.reachable_of_isVoid h, Models.property_optional,
    Models.property_of_isVoid h]
  cbv

end Responses

section Parameters

theorem taking_wraps (h : P (.parameter annotations) t) :
    (Method.taking annotations t).Wraps P (.taking annotations t.optional) where
  name := rfl
  returnType := .same
  parameters := .cons ⟨.optional h, rfl⟩ .nil
  declarations := .cons ⟨none, none, .none, .none, rfl⟩ .nil

/-- Where nothing else documents a parameter, only the schema of its type can stop it. -/
theorem DescribesDeclared.error?_leafParameter (h : DescribesDeclared annotations) :
    (leafParameter models t annotations).error? =
      (Build.lift (models.parameterSchema t)).error? := by
  obtain ⟨⟨location, name⟩, hplace⟩ := Option.isSome_iff_exists.1 h.located
  unfold leafParameter
  simp only [Logged.bind_eq, lift_documented h.undocumented, Logged.pure_bind, hplace]
  rw [Logged.error?_bind_none fun _ => rfl]

theorem DescribesDeclared.error?_taking (h : DescribesDeclared annotations) :
    (buildOperation {} {} (.taking annotations t)).error? =
      (Build.lift (({} : Models).parameterSchema t)).error? := by
  have hhidden : ¬(Method.taking annotations t).IsHidden := by
    rintro ⟨info, hinfo, _⟩
    cases hinfo
  have hheaders : primaryHeaders {} (.taking annotations t) = pure none := rfl
  have hprimary : primaryResponses {} {} (.taking annotations t) none = pure {} := by
    have htype : (Method.taking annotations t).primaryType = .void := rfl
    have hignored : isIgnored {} .void = true := isIgnored_of_isVoid _ rfl
    rw [primaryResponses, htype, primaryResponse_eq, classify_ignored hignored, bodyModels,
      if_pos hignored]
    rfl
  have hresponses : addResponses {} {} ((Method.taking annotations t).responses.getD []) =
      pure {} := rfl
  have hdeclared : (declaredParameters {} {} t annotations).error? =
      (Build.lift (({} : Models).parameterSchema t)).error? := by
    rw [declaredParameters_single h.shown h.single, Logged.error?_bind_none fun _ => rfl,
      h.error?_leafParameter]
  have hparameters : (operationParameters {} {} (.taking annotations t)).error? =
      (Build.lift (({} : Models).parameterSchema t)).error? := by
    change (Logged.bind (Logged.bind (declaredParameters {} {} t annotations) _) _).error? = _
    rw [Logged.error?_bind_none fun _ => rfl, Logged.error?_bind_none fun _ => rfl, hdeclared]
  rw [buildOperation_visible hhidden, buildVisible, hheaders]
  simp only [Logged.bind_eq, Logged.pure_bind, hprimary, hresponses]
  rw [Logged.error?_bind_none fun _ => rfl, Logged.error?_bind_none fun _ => rfl, hparameters]

/-- The names that documentation uses for types. -/
def documentedNames : List String :=
  ["string", "integer", "int", "long", "number", "float", "double", "boolean", "date", "dateTime",
    "date-time", "file"]

theorem mem_documentedNames {name : String} (h : (documentedType? name).isSome) :
    name ∈ documentedNames := by
  by_contra hname
  simp only [documentedNames, List.mem_cons, List.not_mem_nil, or_false, not_or] at hname
  simp [documentedType?, hname] at h

/-- They stand for nothing where types are declared. -/
theorem documentedNames_undeclared : ∀ name ∈ documentedNames, name ≠ "Option" ∧
    Container.ofTypeName? name = none ∧ Primitive.ofName? name = none ∧
    TypeRef.isVoid ⟨name, []⟩ = false := by
  decide

theorem error?_parameterSchema (h : (documentedType? t.name).isSome) :
    (Build.lift (models.parameterSchema t)).error? = none := by
  obtain ⟨schema, hschema⟩ := Option.isSome_iff_exists.1 h
  rw [Models.parameterSchema, hschema]
  rfl

theorem error?_parameterSchema_optional (h : (documentedType? t.name).isSome) :
    (Build.lift (({} : Models).parameterSchema t.optional)).error? = some (.unresolved t) := by
  obtain ⟨hoption, hcontainer, hprimitive, hvoid⟩ :=
    documentedNames_undeclared _ (mem_documentedNames h)
  have hleaf : t.leaf = t := by rw [TypeRef.leaf, TypeRef.core_of_name hoption hcontainer]
  have hnamed : ({} : Models).named? t.name = none := by
    rw [Models.named?, Models.resolve?, hprimitive]
    rfl
  have hproperty : ({} : Models).property t = .error (.unresolved t) := by
    rw [Models.property_eq, hleaf, hnamed]
    exact if_neg (Bool.eq_false_iff.1 hvoid)
  have hundocumented : documentedType? t.optional.name = none := by
    change documentedType? "Option" = none
    decide
  rw [Models.parameterSchema, hundocumented]
  simp only [Models.property_optional, hproperty]
  rfl

end Parameters

theorem result_build (d : Document) (m : Method) :
    (d.build models s m).2 = (buildOperation models s m).result :=
  rfl

/-- An optional layer around types shows in no method exactly if no place looks at its type. -/
theorem transparent_iff :
    (∀ (d : Document) models s m m', m.Wraps P m' → d.build models s m' = d.build models s m) ↔
      ∀ place t, P place t → ¬place.Looks t := by
  constructor
  · intro h place t ht hlooks
    have hresult {m m' : Method} (hw : m.Wraps P m') :
        (buildOperation {} {} m').result = (buildOperation {} {} m).result := by
      rw [← result_build {}, ← result_build {}, h {} {} {} m m' hw]
    cases place with
    | returned => exact hlooks
    | header => exact hlooks
    | response =>
      have hsame := hresult (answering_wraps ht)
      rw [build_answering hlooks, build_answering_optional hlooks] at hsame
      exact absurd hsame (by simp)
    | explicit =>
      have hsame := hresult (explaining_wraps ht)
      rw [build_explaining hlooks, build_explaining_optional hlooks] at hsame
      cases hsame
    | parameter annotations =>
      obtain ⟨hdescribes, hname⟩ := hlooks
      have hknown := hdescribes.error?_taking (t := t)
      have hunknown := hdescribes.error?_taking (t := t.optional)
      rw [error?_parameterSchema hname] at hknown
      rw [Logged.error?, hresult (taking_wraps ht),
        error?_parameterSchema_optional hname] at hunknown
      exact absurd (hknown.symm.trans hunknown) (by simp)
  · intro h d models s m m' hw
    exact hw.build h d

/-- Without the optional layer the empty response is documented by the text that the method returns,
with it by nothing. -/
theorem optional_empty_response :
    (Method.answering .void).Wraps (fun _ _ => True) (.answering TypeRef.void.optional) ∧
      ∃ o o', (({} : Document).build {} {} (.answering .void)).2 = .ok (some o) ∧
        (({} : Document).build {} {} (.answering TypeRef.void.optional)).2 = .ok (some o') ∧
        o.responses.keys = ["200"] ∧ o'.responses.keys = ["default"] := by
  have hvoid : TypeRef.void.isVoid = true := rfl
  rw [result_build, result_build]
  exact ⟨answering_wraps trivial, _, _, build_answering hvoid, build_answering_optional hvoid, rfl,
    rfl⟩

end Apidoc
