import Apidoc.Proofs.Model.Optional
import Apidoc.Proofs.Operation.Alike
import Apidoc.Reading
import Mathlib.Data.List.Forall2

namespace Apidoc

/-- Where a method declares a type. A parameter stands under all its annotations. -/
inductive TypePlace where
  | returned
  | response
  | explicit
  | header
  | parameter (annotations : List ParamAnnotation)

/-- Annotations under which a parameter travels outside the body as what it is declared to be. -/
structure DescribesDeclared (annotations : List ParamAnnotation) : Prop where
  shown : isSkipped annotations = false
  single : annotations.any (·.isBean) = false
  located : (annotations.findSome? (·.location?)).isSome
  undocumented : ((annotations.findSome? (·.info?)).bind fun i =>
    Text.nonEmpty? (Text.trim i.type)) = none

/-- Whether a place goes by the name of the type itself: responses where it is the empty type, and
parameters outside the body where it is a name that documentation uses. -/
def TypePlace.Looks : TypePlace → TypeRef → Prop
  | response, t => t.isVoid = true
  | explicit, t => t.isVoid = true
  | parameter annotations, t => DescribesDeclared annotations ∧ (documentedType? t.name).isSome
  | returned, _ => False
  | header, _ => False

/-- A type, or an optional one of a type that `p` holds of. -/
inductive TypeRef.Wraps (p : TypeRef → Prop) (t : TypeRef) : TypeRef → Prop
  | same : Wraps p t t
  | optional (h : p t) : Wraps p t t.optional

variable {P : TypePlace → TypeRef → Prop}

def HeaderInfo.Wraps (P : TypePlace → TypeRef → Prop) (h h' : HeaderInfo) : Prop :=
  ∃ type, Option.Rel (TypeRef.Wraps (P .header)) h.type type ∧ h' = { h with type }

def ResponseInfo.Wraps (P : TypePlace → TypeRef → Prop) (r r' : ResponseInfo) : Prop :=
  ∃ type headers, Option.Rel (TypeRef.Wraps (P .explicit)) r.type type ∧
    List.Forall₂ (HeaderInfo.Wraps P) r.headers headers ∧ r' = { r with type, headers }

def OperationInfo.Wraps (P : TypePlace → TypeRef → Prop) (i i' : OperationInfo) : Prop :=
  ∃ response headers, Option.Rel (TypeRef.Wraps (P .response)) i.response response ∧
    List.Forall₂ (HeaderInfo.Wraps P) i.headers headers ∧ i' = { i with response, headers }

def Declaration.Wraps (P : TypePlace → TypeRef → Prop) (d d' : Declaration) : Prop :=
  ∃ operation responses, Option.Rel (OperationInfo.Wraps P) d.operation operation ∧
    Option.Rel (List.Forall₂ (ResponseInfo.Wraps P)) d.responses responses ∧
    d' = { d with operation, responses }

/-- The types of the declared parameters with all their annotations. -/
def Method.declaredTypes (m : Method) : List (TypeRef × List ParamAnnotation) :=
  (m.parameters.map (·.type)).zip m.parameterAnnotations

/-- The second method is the first one with an optional layer around some of the types that `P`
allows, wherever its declarations and those it overrides declare them. -/
structure Method.Wraps (P : TypePlace → TypeRef → Prop) (m m' : Method) : Prop where
  name : m'.name = m.name
  returnType : m.returnType.Wraps (P .returned) m'.returnType
  parameters : List.Forall₂ (fun p p' => p.1.Wraps (P (.parameter p.2)) p'.1 ∧ p'.2 = p.2)
    m.declaredTypes m'.declaredTypes
  declarations : List.Forall₂ (Declaration.Wraps P) m.declarations m'.declarations

variable {α : Type} {models : Models} {s : ResourceSet} {m m' : Method} {t t' : TypeRef}
  {p : TypeRef → Prop} {annotations : List ParamAnnotation}

theorem TypeRef.Wraps.mono {q : TypeRef → Prop} (h : t.Wraps p t') (hpq : ∀ u, p u → q u) :
    t.Wraps q t' := by
  cases h with
  | same => exact .same
  | optional ht => exact .optional (hpq t ht)

theorem TypeRef.Wraps.eq (h : t.Wraps p t') {f : TypeRef → α} (hf : ∀ u, f u.optional = f u) :
    f t' = f t := by
  cases h with
  | same => rfl
  | optional _ => exact hf t

section Headers

theorem HeaderInfo.Wraps.schema? {h h' : HeaderInfo} (hw : h.Wraps P h') :
    h'.schema? models = h.schema? models := by
  obtain ⟨type, htype, rfl⟩ := hw
  obtain ⟨name, description, declared, container⟩ := h
  cases htype with
  | none => rfl
  | @some t t' ht =>
    cases ht with
    | same => rfl
    | optional _ =>
      unfold HeaderInfo.schema?
      by_cases hname : name = ""
      · rw [if_pos hname, if_pos hname]
      · rw [if_neg hname, if_neg hname]
        simp only [TypeRef.filter_optional, Models.property_optional]
        cases hvoid : t.isVoid with
        | true =>
          rw [TypeRef.filter_of_isVoid hvoid, Models.property_of_isVoid hvoid]
          rfl
        | false => rw [TypeRef.filter_of_not_isVoid hvoid]

theorem responseHeaders_wraps {hs hs' : List HeaderInfo}
    (h : List.Forall₂ (HeaderInfo.Wraps P) hs hs') :
    responseHeaders models hs' = responseHeaders models hs := by
  have hschemas : headerSchemas models hs' = headerSchemas models hs := by
    induction h with
    | nil => rfl
    | cons hw _ ih =>
      rw [headerSchemas, headerSchemas, hw.schema?, ih]
      obtain ⟨type, _, rfl⟩ := hw
      rfl
  rw [responseHeaders, responseHeaders, hschemas]

end Headers

section Responses

/-- Where the empty type is left alone, the type that a response declares counts as before. -/
theorem filter_wraps {type type' : Option TypeRef} (h : Option.Rel (TypeRef.Wraps p) type type')
    (hp : ∀ t, p t → t.isVoid = false) :
    Option.Rel (TypeRef.Wraps p) (type.filter (!·.isVoid)) (type'.filter (!·.isVoid)) := by
  cases h with
  | none => exact .none
  | @some t t' ht =>
    cases ht with
    | same =>
      cases hvoid : t.isVoid with
      | true =>
        rw [TypeRef.filter_of_isVoid hvoid]
        exact .none
      | false =>
        rw [TypeRef.filter_of_not_isVoid hvoid]
        exact .some .same
    | optional hpt =>
      rw [TypeRef.filter_of_not_isVoid (hp t hpt), TypeRef.filter_optional]
      exact .some (.optional hpt)

theorem addResponse_wraps {responses : Table Response} {r r' : ResponseInfo}
    (hw : r.Wraps P r') (hp : ∀ t, P .explicit t → t.isVoid = false) :
    addResponse models responses r' = addResponse models responses r := by
  obtain ⟨type, headers, htype, hheaders, rfl⟩ := hw
  have hfilter := filter_wraps htype hp
  unfold addResponse
  simp only [responseHeaders_wraps hheaders]
  generalize r.type.filter (!·.isVoid) = declared, type.filter (!·.isVoid) = declared' at hfilter ⊢
  cases hfilter with
  | none => rfl
  | @some t t' ht =>
    cases ht with
    | same => rfl
    | optional _ =>
      simp only [Models.own_optional, Models.reachable_optional, Models.property_optional]

theorem addResponses_wraps {responses : Table Response} {rs rs' : List ResponseInfo}
    (h : List.Forall₂ (ResponseInfo.Wraps P) rs rs')
    (hp : ∀ t, P .explicit t → t.isVoid = false) :
    addResponses models responses rs' = addResponses models responses rs := by
  induction h generalizing responses with
  | nil => rfl
  | cons hw _ ih =>
    rw [addResponses, addResponses, addResponse_wraps hw hp]
    congr 1
    funext added
    exact ih

end Responses

section Parameters

/-- Notes that make the same edits; their warnings may differ. -/
def SameEdits (ns ns' : List Note) : Prop :=
  Event.edits (ns'.map Event.ofNote) = Event.edits (ns.map Event.ofNote)

theorem SameEdits.refl (ns : List Note) : SameEdits ns ns :=
  rfl

theorem SameEdits.append {a b c d : List Note} (h : SameEdits a b) (h' : SameEdits c d) :
    SameEdits (a ++ c) (b ++ d) := by
  unfold SameEdits Event.edits at *
  rw [List.map_append, List.map_append, List.filterMap_append, List.filterMap_append, h, h']

theorem alongside_of_eq {x y : Build α} (h : y = x) : Logged.Alongside SameEdits x y := by
  rw [h]
  exact ⟨.refl _, rfl⟩

/-- Leaves that differ in the types of warnings, or of the one parameter that they are. -/
inductive LeavesWrap (p : TypeRef → Prop) (annotations : List ParamAnnotation) :
    List Leaf → List Leaf → Prop
  | same (leaves : List Leaf) : LeavesWrap p annotations leaves leaves
  | warning (w w' : Warning) : LeavesWrap p annotations [.warning w] [.warning w']
  | parameter (t : TypeRef) (h : p t) (hshown : isSkipped annotations = false)
    (hsingle : annotations.any (·.isBean) = false) :
    LeavesWrap p annotations [.parameter t annotations] [.parameter t.optional annotations]

theorem leaves_wraps (h : t.Wraps p t') :
    LeavesWrap p annotations (s.leaves [] t annotations) (s.leaves [] t' annotations) := by
  cases h with
  | same => exact .same _
  | optional hp =>
    rw [ResourceSet.leaves_eq, ResourceSet.leaves_eq]
    cases hskipped : isSkipped annotations with
    | true => exact .same _
    | false =>
      cases hbean : annotations.any (·.isBean) with
      | false => exact .parameter t hp hskipped hbean
      | true =>
        simp only [ResourceSet.bean?_optional]
        cases s.bean? t with
        | none => exact .warning _ _
        | some b => exact .same _

theorem parameterSchema_optional (h : documentedType? t.name = none) :
    models.parameterSchema t.optional = models.parameterSchema t := by
  have hoption : documentedType? t.optional.name = none := by
    change documentedType? "Option" = none
    decide
  rw [Models.parameterSchema, Models.parameterSchema, h, hoption]
  simp only [Models.property_optional, Models.own_optional]

theorem bodyParameter_optional {schema : Option Schema} {info : Option ParameterInfo} :
    bodyParameter models schema t.optional info = bodyParameter models schema t info := by
  unfold bodyParameter
  simp only [Models.property_optional, Models.reachable_optional]

/-- Without documentation of its type, a parameter is described by the type itself. -/
theorem lift_documented {info : Option ParameterInfo}
    (h : (info.bind fun i => Text.nonEmpty? (Text.trim i.type)) = none) :
    Build.lift (documented info t) = pure (none, t) := by
  rw [documented, h]
  rfl

theorem leafParameter_optional (h : ¬TypePlace.Looks (.parameter annotations) t)
    (hshown : isSkipped annotations = false) (hsingle : annotations.any (·.isBean) = false) :
    leafParameter models t.optional annotations = leafParameter models t annotations := by
  unfold leafParameter
  simp only [Logged.bind_eq]
  cases htype : (annotations.findSome? (·.info?)).bind fun i =>
      Text.nonEmpty? (Text.trim i.type) with
  | none =>
    rw [lift_documented htype, lift_documented htype, Logged.pure_bind, Logged.pure_bind]
    cases hplace : annotations.findSome? (·.location?) with
    | none => exact bodyParameter_optional
    | some place =>
      have hname : documentedType? t.name = none := by
        by_contra hname
        have hlocated : (annotations.findSome? (·.location?)).isSome := by rw [hplace]; rfl
        exact h ⟨⟨hshown, hsingle, hlocated, htype⟩, Option.isSome_iff_ne_none.2 hname⟩
      simp only [parameterSchema_optional hname]
  | some name =>
    cases hschema : documentedType? name with
    | none =>
      have hdocumented (u : TypeRef) : documented (annotations.findSome? (·.info?)) u =
          (TypeRef.read name).map fun t => (none, t) := by
        simp only [documented, htype, hschema]
      rw [hdocumented, hdocumented]
    | some schema =>
      have hdocumented (u : TypeRef) : Build.lift (documented (annotations.findSome? (·.info?)) u) =
          pure (some schema, u) := by
        simp only [documented, htype, hschema]
        rfl
      rw [hdocumented, hdocumented, Logged.pure_bind, Logged.pure_bind]
      cases annotations.findSome? (·.location?) with
      | none => exact bodyParameter_optional
      | some place => rfl

theorem declaredParameters_wraps (h : t.Wraps p t')
    (hp : ∀ t, p t → ¬TypePlace.Looks (.parameter annotations) t) :
    Logged.Alongside SameEdits (declaredParameters models s t annotations)
      (declaredParameters models s t' annotations) := by
  have hleaves : LeavesWrap p annotations (s.leaves [] t annotations)
      (s.leaves [] t' annotations) := leaves_wraps h
  unfold declaredParameters
  generalize s.leaves [] t annotations = leaves, s.leaves [] t' annotations = leaves' at hleaves ⊢
  cases hleaves with
  | same => exact alongside_of_eq rfl
  | warning w w' => exact ⟨rfl, rfl⟩
  | parameter t ht hshown hsingle =>
    apply alongside_of_eq
    simp only [leafParameters, leafParameter_optional (hp t ht) hshown hsingle]

theorem methodParameters_wraps {declared declared' : List (TypeRef × List ParamAnnotation)}
    (h : List.Forall₂ (fun a a' => a.1.Wraps (P (.parameter a.2)) a'.1 ∧ a'.2 = a.2)
      declared declared')
    (hp : ∀ annotations t, P (.parameter annotations) t →
      ¬TypePlace.Looks (.parameter annotations) t) :
    Logged.Alongside SameEdits (methodParameters models s declared)
      (methodParameters models s declared') := by
  induction h with
  | nil => exact alongside_of_eq rfl
  | @cons a a' _ _ ha _ ih =>
    obtain ⟨t, annotations⟩ := a
    obtain ⟨t', annotations'⟩ := a'
    obtain ⟨hwraps, rfl⟩ := ha
    exact Logged.Alongside.bind SameEdits.append (declaredParameters_wraps hwraps (hp _))
      fun ps _ => Logged.Alongside.bind SameEdits.append ih fun qs _ => alongside_of_eq rfl

end Parameters

section Methods

theorem effective_wraps (h : m.Wraps P m') {select : Declaration → Option α}
    (hselect : ∀ d d', d.Wraps P d' → select d' = select d) :
    m'.effective select = m.effective select := by
  have hdeclarations := h.declarations
  unfold Method.effective
  generalize m.declarations = ds, m'.declarations = ds' at hdeclarations ⊢
  induction hdeclarations with
  | nil => rfl
  | cons hd _ ih => rw [List.findSome?_cons, List.findSome?_cons, hselect _ _ hd, ih]

theorem effective_rel (h : m.Wraps P m') {select : Declaration → Option α} {R : α → α → Prop}
    (hselect : ∀ d d', d.Wraps P d' → Option.Rel R (select d) (select d')) :
    Option.Rel R (m.effective select) (m'.effective select) := by
  have hdeclarations := h.declarations
  unfold Method.effective
  generalize m.declarations = ds, m'.declarations = ds' at hdeclarations ⊢
  induction hdeclarations with
  | nil => exact .none
  | @cons d d' _ _ hd _ ih =>
    have hrel := hselect d d' hd
    rw [List.findSome?_cons, List.findSome?_cons]
    generalize select d = a, select d' = a' at hrel ⊢
    cases hrel with
    | none => exact ih
    | some ha => exact .some ha

namespace Method.Wraps

theorem operation? (h : m.Wraps P m') :
    Option.Rel (OperationInfo.Wraps P) m.operation? m'.operation? := by
  apply effective_rel h
  rintro d _ ⟨operation, responses, hoperation, _, rfl⟩
  exact hoperation

theorem responses (h : m.Wraps P m') :
    Option.Rel (List.Forall₂ (ResponseInfo.Wraps P)) m.responses m'.responses := by
  apply effective_rel h
  rintro d _ ⟨operation, responses, _, hresponses, rfl⟩
  exact hresponses

theorem consumes? (h : m.Wraps P m') : m'.consumes? = m.consumes? := by
  apply effective_wraps h
  rintro d _ ⟨operation, responses, _, _, rfl⟩
  rfl

theorem produces? (h : m.Wraps P m') : m'.produces? = m.produces? := by
  apply effective_wraps h
  rintro d _ ⟨operation, responses, _, _, rfl⟩
  rfl

theorem implicitParameters (h : m.Wraps P m') : m'.implicitParameters = m.implicitParameters := by
  apply effective_wraps h
  rintro d _ ⟨operation, responses, _, _, rfl⟩
  rfl

theorem isDeprecated (h : m.Wraps P m') : m'.isDeprecated = m.isDeprecated := by
  have hdeclarations := h.declarations
  unfold Method.isDeprecated
  generalize m.declarations = ds, m'.declarations = ds' at hdeclarations ⊢
  induction hdeclarations with
  | nil => rfl
  | cons hd _ ih =>
    obtain ⟨operation, responses, _, _, rfl⟩ := hd
    rw [List.any_cons, List.any_cons, ih]

/-- The type of the primary response is the same, or an optional one of it. -/
theorem primaryType (h : m.Wraps P m') (hp : ∀ t, P .response t → t.isVoid = false) :
    m.primaryType.Wraps (fun _ => True) m'.primaryType := by
  have hdeclared : Option.Rel (TypeRef.Wraps (P .response)) (m.operation?.bind (·.response))
      (m'.operation?.bind (·.response)) := by
    have hinfo := h.operation?
    generalize m.operation? = info, m'.operation? = info' at hinfo ⊢
    cases hinfo with
    | none => exact .none
    | some hw =>
      obtain ⟨response, headers, hresponse, _, rfl⟩ := hw
      exact hresponse
  have hresponse := filter_wraps hdeclared hp
  rw [Method.primaryType, Method.primaryType, Method.responseType, Method.responseType]
  generalize (m.operation?.bind (·.response)).filter (!·.isVoid) = response,
    (m'.operation?.bind (·.response)).filter (!·.isVoid) = response' at hresponse ⊢
  cases hresponse with
  | none => exact h.returnType.mono fun _ _ => trivial
  | some ht => exact ht.mono fun _ _ => trivial

theorem primaryHeaders (h : m.Wraps P m') :
    primaryHeaders models m' = primaryHeaders models m := by
  have hinfo := h.operation?
  unfold Apidoc.primaryHeaders
  generalize m.operation? = info, m'.operation? = info' at hinfo ⊢
  cases hinfo with
  | none => rfl
  | some hw =>
    obtain ⟨response, headers, _, hheaders, rfl⟩ := hw
    simp only [responseHeaders_wraps hheaders]

/-- What building reads of the operation annotation apart from its types. -/
theorem annotated (h : m.Wraps P m') {f : Option OperationInfo → α}
    (hf : ∀ (i : OperationInfo) response headers,
      f (some { i with response, headers }) = f (some i)) :
    f m'.operation? = f m.operation? := by
  have hinfo := h.operation?
  generalize m.operation? = info, m'.operation? = info' at hinfo ⊢
  cases hinfo with
  | none => rfl
  | some hw =>
    obtain ⟨response, headers, _, _, rfl⟩ := hw
    exact hf _ _ _

theorem primaryResponses (h : m.Wraps P m') (hp : ∀ t, P .response t → t.isVoid = false)
    {headers : Option (Table Schema)} :
    primaryResponses models s m' headers = primaryResponses models s m headers := by
  have htype := h.primaryType hp
  have hclassify : classify models s m'.primaryType = classify models s m.primaryType := by
    apply htype.eq
    intro t
    rw [classify, classify, isIgnored_optional, Models.property_optional, Models.own_optional]
  have hbodies : bodyModels models s m'.primaryType = bodyModels models s m.primaryType := by
    apply htype.eq
    intro t
    rw [bodyModels, bodyModels, isIgnored_optional, Models.reachable_optional]
  have hcontainer : responseContainer m'.operation? = responseContainer m.operation? :=
    h.annotated fun _ _ _ => rfl
  have hcode : m'.operation?.map (·.code) = m.operation?.map (·.code) :=
    h.annotated (f := Option.map (·.code)) fun _ _ _ => rfl
  rw [Apidoc.primaryResponses, Apidoc.primaryResponses, primaryResponse_eq, primaryResponse_eq,
    hclassify, hbodies, hcontainer, hcode]

theorem explicitResponses (h : m.Wraps P m') (hp : ∀ t, P .explicit t → t.isVoid = false)
    {responses : Table Response} :
    addResponses models responses (m'.responses.getD []) =
      addResponses models responses (m.responses.getD []) := by
  have hresponses := h.responses
  generalize m.responses = rs, m'.responses = rs' at hresponses ⊢
  cases hresponses with
  | none => rfl
  | some hrs => exact addResponses_wraps hrs hp

theorem operationParameters (h : m.Wraps P m')
    (hp : ∀ annotations t, P (.parameter annotations) t →
      ¬TypePlace.Looks (.parameter annotations) t) :
    Logged.Alongside SameEdits (operationParameters models s m)
      (operationParameters models s m') := by
  rw [Apidoc.operationParameters, Apidoc.operationParameters, h.implicitParameters]
  exact Logged.Alongside.bind SameEdits.append (methodParameters_wraps h.parameters hp)
    fun _ _ => alongside_of_eq rfl

theorem operationWith (h : m.Wraps P m') : m'.operationWith = m.operationWith := by
  have hid : m'.operationId m'.operation? = m.operationId m.operation? := by
    have hnickname : (m'.operation?.bind fun i => Text.nonEmpty? (Text.trim i.nickname)) =
        m.operation?.bind fun i => Text.nonEmpty? (Text.trim i.nickname) :=
      h.annotated (f := fun info => info.bind _) fun _ _ _ => rfl
    rw [Method.operationId, Method.operationId, hnickname, h.name]
  have hinfo := h.operation?
  funext headers responses parameters
  unfold Method.operationWith
  generalize m.operation? = info, m'.operation? = info' at hinfo hid ⊢
  cases hinfo with
  | none => simp only [hid, h.consumes?, h.produces?, h.isDeprecated]
  | some hw =>
    obtain ⟨response, headers, _, _, rfl⟩ := hw
    simp only [hid, h.consumes?, h.produces?, h.isDeprecated]
    rfl

theorem buildVisible (h : m.Wraps P m') (hp : ∀ place t, P place t → ¬place.Looks t) :
    Logged.Alongside SameEdits (buildVisible models s m) (buildVisible models s m') := by
  have hresponse (t : TypeRef) (ht : P .response t) : t.isVoid = false :=
    Bool.eq_false_iff.2 (hp _ t ht)
  have hexplicit (t : TypeRef) (ht : P .explicit t) : t.isVoid = false :=
    Bool.eq_false_iff.2 (hp _ t ht)
  unfold Apidoc.buildVisible
  rw [h.primaryHeaders, h.operationWith]
  simp only [h.primaryResponses hresponse, h.explicitResponses hexplicit]
  refine Logged.Alongside.bind SameEdits.append (alongside_of_eq rfl) fun headers _ => ?_
  refine Logged.Alongside.bind SameEdits.append (alongside_of_eq rfl) fun responses _ => ?_
  refine Logged.Alongside.bind SameEdits.append (alongside_of_eq rfl) fun responses _ => ?_
  exact Logged.Alongside.bind SameEdits.append
    (h.operationParameters fun annotations => hp (.parameter annotations))
    fun parameters _ => alongside_of_eq rfl

theorem isHidden (h : m.Wraps P m') : m'.IsHidden ↔ m.IsHidden := by
  have hhidden : m'.operation?.map (·.hidden) = m.operation?.map (·.hidden) :=
    h.annotated (f := Option.map (·.hidden)) fun _ _ _ => rfl
  have hiff (method : Method) : method.IsHidden ↔ method.operation?.map (·.hidden) = some true :=
    Option.map_eq_some_iff.symm
  rw [hiff, hiff, hhidden]

theorem buildOperation (h : m.Wraps P m') (hp : ∀ place t, P place t → ¬place.Looks t) :
    Logged.Alongside SameEdits (buildOperation models s m) (buildOperation models s m') := by
  by_cases hidden : m.IsHidden
  · rw [buildOperation_hidden hidden, buildOperation_hidden (h.isHidden.2 hidden)]
    exact alongside_of_eq rfl
  · rw [buildOperation_visible hidden, buildOperation_visible (mt h.isHidden.1 hidden)]
    exact Logged.Alongside.bind SameEdits.append (h.buildVisible hp) fun _ _ => alongside_of_eq rfl

/-- Optional layers around types that their places do not look at change nothing in what a method is
built to. -/
theorem build (h : m.Wraps P m') (hp : ∀ place t, P place t → ¬place.Looks t) (d : Document) :
    d.build models s m' = d.build models s m := by
  have hbuilt : Logged.Alongside SameEdits (Apidoc.buildOperation models s m)
      (Apidoc.buildOperation models s m') := h.buildOperation hp
  obtain ⟨hnotes, hresult⟩ := hbuilt
  rw [Document.build, Document.build, Document.after, Document.after]
  simp only [Logged.mapNotes, hnotes.symm, hresult]

end Method.Wraps

end Methods

end Apidoc
