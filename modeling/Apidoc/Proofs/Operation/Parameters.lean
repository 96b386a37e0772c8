import Apidoc.Proofs.Document.Mentions
import Apidoc.Proofs.Operation.Build
import Apidoc.Proofs.Operation.Defines

namespace Apidoc

/-- The type of a declared parameter that is the body, unless it is documented inline. -/
def Leaf.bodyTypes : Leaf → List TypeRef
  | .warning _ => []
  | .parameter t annotations =>
    match annotations.findSome? (·.location?), documented (annotations.findSome? (·.info?)) t with
    | none, .ok (none, t) => [t]
    | _, _ => []

/-- The type of an implicit parameter that is the body, unless it is documented inline. -/
def ImplicitParameter.bodyTypes (i : ImplicitParameter) : List TypeRef :=
  let type := Text.trim i.type
  if Location.parse? i.location = some .body ∧ type ≠ "" ∧ documentedType? type = none then
    (TypeRef.read type).toOption.toList
  else []

def Method.leaves (s : ResourceSet) (method : Method) : List Leaf :=
  ((method.parameters.map (·.type)).zip method.parameterAnnotations).flatMap fun p =>
    s.leaves [] p.1 p.2

variable {m : Models} {s : ResourceSet} {t : TypeRef} {ts us : List TypeRef}
  {ps : List Parameter} {p : Parameter} {method : Method}

section Sequential

variable {α : Type} {C : List α → Build (List Parameter) → Prop}

def Build.listed (x : Build (Option Parameter)) : Build (List Parameter) :=
  x.bind fun p => Logged.pure p.toList

/-- A statement on building the parameters of some items that holds when there are no items, and of
items after others if it holds of both. Warnings do not matter to it. -/
structure Sequential (C : List α → Build (List Parameter) → Prop) : Prop where
  nil : C [] (Logged.pure [])
  warning {as : List α} {x : Build (List Parameter)} {w : Warning} (h : C as x) :
    C as ((Logged.note (.warning w)).bind fun _ => x)
  append {as bs : List α} {x y : Build (List Parameter)} (hx : C as x) (hy : C bs y) :
    C (as ++ bs) (x.bind fun ps => y.bind fun qs => Logged.pure (ps ++ qs))

theorem Build.listed_bind {β : Type} {x : Build (Option Parameter)}
    {f : List Parameter → Build β} : x.listed.bind f = x.bind fun p => f p.toList :=
  Logged.bind_assoc _ _ _

theorem leafParameters_sequential (hC : Sequential C) {f : Leaf → List α} {leaves : List Leaf}
    (hwarning : ∀ w, f (.warning w) = [])
    (hleaf : ∀ t annotations,
      C (f (.parameter t annotations)) (Build.listed (leafParameter m t annotations))) :
    C (leaves.flatMap f) (leafParameters m leaves) := by
  induction leaves with
  | nil => exact hC.nil
  | cons leaf rest ih =>
    rw [List.flatMap_cons]
    cases leaf with
    | warning w =>
      rw [hwarning, List.nil_append]
      exact hC.warning ih
    | parameter t annotations =>
      have happend := hC.append (hleaf t annotations) ih
      rw [Build.listed_bind] at happend
      exact happend

theorem methodParameters_sequential (hC : Sequential C) {f : Leaf → List α}
    {declared : List (TypeRef × List ParamAnnotation)} (hwarning : ∀ w, f (.warning w) = [])
    (hleaf : ∀ t annotations,
      C (f (.parameter t annotations)) (Build.listed (leafParameter m t annotations))) :
    C ((declared.flatMap fun p => s.leaves [] p.1 p.2).flatMap f)
      (methodParameters m s declared) := by
  induction declared with
  | nil => exact hC.nil
  | cons p rest ih =>
    rw [List.flatMap_cons, List.flatMap_append]
    exact hC.append (leafParameters_sequential hC hwarning hleaf) ih

theorem implicitParameters_sequential (hC : Sequential C) {g : ImplicitParameter → List α}
    {is : List ImplicitParameter}
    (himplicit : ∀ i, C (g i) (Build.listed (implicitParameter m i))) :
    C (is.flatMap g) (implicitParameters m is) := by
  induction is with
  | nil => exact hC.nil
  | cons i rest ih =>
    have happend := hC.append (himplicit i) ih
    rw [Build.listed_bind] at happend
    exact happend

theorem operationParameters_sequential (hC : Sequential C) {f : Leaf → List α}
    {g : ImplicitParameter → List α} (hwarning : ∀ w, f (.warning w) = [])
    (hleaf : ∀ t annotations,
      C (f (.parameter t annotations)) (Build.listed (leafParameter m t annotations)))
    (himplicit : ∀ i, C (g i) (Build.listed (implicitParameter m i))) :
    C ((method.leaves s).flatMap f ++ (method.implicitParameters.getD []).flatMap g)
      (operationParameters m s method) :=
  hC.append (methodParameters_sequential hC hwarning hleaf)
    (implicitParameters_sequential hC himplicit)

theorem Build.answers_listed {x : Build (Option Parameter)} {R : List Parameter → Prop}
    (h : x.Answers fun p => R p.toList) : x.listed.Answers R :=
  h.bind fun _ hp => .pure hp

theorem sequential_answers {R : List α → List Parameter → Prop} (hnil : R [] [])
    (happend : ∀ {as bs ps qs}, R as ps → R bs qs → R (as ++ bs) (ps ++ qs)) :
    Sequential fun as (x : Build (List Parameter)) => x.Answers (R as) where
  nil := .pure hnil
  warning h := .after fun _ => h
  append hx hy := hx.bind fun _ hps => hy.bind fun _ hqs => .pure (happend hps hqs)

/-- If the parameters of leaves and the implicit parameters satisfy `P`, those of an operation do. -/
theorem operationParameters_forall {P : Parameter → Prop}
    (hleaf : ∀ t annotations,
      (leafParameter m t annotations).Answers fun p => ∀ q ∈ p.toList, P q)
    (himplicit : ∀ i, (implicitParameter m i).Answers fun p => ∀ q ∈ p.toList, P q) :
    (operationParameters m s method).Answers fun ps => ∀ p ∈ ps, P p := by
  have hC : Sequential fun (_ : List Unit) (x : Build (List Parameter)) =>
      x.Answers fun ps => ∀ p ∈ ps, P p :=
    sequential_answers (fun _ hp => (List.not_mem_nil hp).elim) fun hps hqs =>
      List.forall_mem_append.2 ⟨hps, hqs⟩
  have hlisted {x : Build (Option Parameter)} (h : x.Answers fun p => ∀ q ∈ p.toList, P q) :
      x.listed.Answers fun ps => ∀ p ∈ ps, P p :=
    Build.answers_listed (R := fun ps => ∀ p ∈ ps, P p) h
  exact operationParameters_sequential hC (f := fun _ => []) (g := fun _ => []) (fun _ => rfl)
    (fun t annotations => hlisted (hleaf t annotations)) fun i => hlisted (himplicit i)

end Sequential

def ParametersFrom (m : Models) (ts : List TypeRef) (ps : List Parameter) : Prop :=
  ∀ p ∈ ps, ∀ name, p.BodyMentions name → m.ReachedFrom ts name

theorem documentedType?_not_mentions {type name : String} {s : Schema}
    (h : documentedType? type = some s) : ¬s.Mentions name := by
  unfold documentedType? at h
  repeat' split at h
  all_goals cases h
  all_goals exact Schema.not_mentions_scalar

/-- Outside the body a type is described by its documented name, inline, or, when it is a model, by
the names that it is a choice of. -/
theorem Models.parameterSchema_cases {schema : Schema}
    (h : m.parameterSchema t = .ok (some schema)) :
    documentedType? t.name = some schema ∨
      (m.property t = .ok (some schema) ∧ schema.reference.isNone = true) ∨
      ∃ own, m.own t = .ok own ∧
        schema = (own.values.find? (·.enumValues.isSome)).getD (.scalar "string" none) := by
  unfold Models.parameterSchema at h
  cases hd : documentedType? t.name with
  | some s =>
    rw [hd] at h
    cases h
    exact .inl rfl
  | none =>
    rw [hd] at h
    obtain ⟨property, hp, h⟩ := Except.bind_eq_ok.1 h
    cases property with
    | none => cases h
    | some s =>
      simp only at h
      split at h
      · rename_i hs
        cases h
        exact .inr (.inl ⟨hp, hs⟩)
      · obtain ⟨own, ho, h⟩ := Except.bind_eq_ok.1 h
        cases h
        exact .inr (.inr ⟨own, ho, rfl⟩)

/-- Documentation describes a parameter itself only by a documented name. -/
theorem documentedType?_of_documented {info : Option ParameterInfo} {schema : Schema} {u : TypeRef}
    (h : documented info t = .ok (some schema, u)) :
    ∃ name, documentedType? name = some schema := by
  unfold documented at h
  split at h
  · cases h
  · rename_i name _
    split at h
    · rename_i s hs
      cases h
      exact ⟨name, hs⟩
    · cases hr : TypeRef.read name with
      | error e =>
        rw [hr] at h
        cases h
      | ok u' =>
        rw [hr] at h
        cases h

theorem documented_not_mentions {info : Option ParameterInfo} {schema : Option Schema}
    {u : TypeRef} (h : documented info t = .ok (schema, u)) : SchemaFrom m [] schema := by
  intro s hs name hn
  subst hs
  obtain ⟨_, hdocumented⟩ := documentedType?_of_documented h
  exact (documentedType?_not_mentions hdocumented hn).elim

/-- All schemas that a type is described by, by its name, inline or as a model, satisfy `P`. -/
structure Models.DescribesWith (m : Models) (P : Schema → Prop) : Prop where
  documented {name : String} {schema : Schema} (h : documentedType? name = some schema) : P schema
  property {t : TypeRef} {schema : Schema} (h : m.property t = .ok (some schema)) : P schema
  own {t : TypeRef} {own : Table Schema} {schema : Schema} (h : m.own t = .ok own)
    (hs : schema ∈ own.values) : P schema

namespace Models.DescribesWith

variable {P : Schema → Prop}

theorem parameterSchema {schema : Schema} (hm : m.DescribesWith P)
    (h : m.parameterSchema t = .ok (some schema)) : P schema := by
  rcases parameterSchema_cases h with hdocumented | ⟨hproperty, _⟩ | ⟨own, hown, rfl⟩
  · exact hm.documented hdocumented
  · exact hm.property hproperty
  · cases hfind : own.values.find? (·.enumValues.isSome) with
    | none =>
      have hstring : documentedType? "string" = some (.scalar "string" none) := rfl
      exact hm.documented hstring
    | some choice => exact hm.own hown (List.mem_of_find?_eq_some hfind)

theorem answers_documented (hm : m.DescribesWith P) {info : Option ParameterInfo} :
    (Build.lift (Apidoc.documented info t)).Answers fun answer =>
      ∀ schema, answer.1 = some schema → P schema := by
  intro answer hanswer schema hschema
  obtain ⟨described, u⟩ := answer
  cases hschema
  obtain ⟨_, hdocumented⟩ := documentedType?_of_documented hanswer
  exact hm.documented hdocumented

theorem answers_implicitSchema (hm : m.DescribesWith P) {location : Location} {type : String} :
    (implicitSchema m location type).Answers fun schema => ∀ s, schema = some s → P s := by
  unfold implicitSchema
  simp only [Logged.bind_eq]
  split
  · apply Logged.Answers.pure
    intro s hs
    cases hs
    have hstring : documentedType? "string" = some (.scalar "string" none) := rfl
    exact hm.documented hstring
  · split
    · rename_i described hdescribed
      apply Logged.Answers.pure
      intro s hs
      cases hs
      exact hm.documented hdescribed
    · apply Logged.Answers.after
      intro t
      split
      · apply Logged.Answers.after
        intro models
        apply Logged.Answers.after
        intro _
        exact Build.answers_lift_some fun _ => hm.property
      · exact Build.answers_lift_some fun _ => hm.parameterSchema

end Models.DescribesWith

theorem parametersFrom_body {schema : Option Schema} {f : Schema → Parameter}
    (h : SchemaFrom m ts schema) (hf : ∀ s, (f s).schema = some s) :
    ParametersFrom m ts (schema.map f).toList := by
  intro p hp name hn
  obtain ⟨s, rfl, rfl⟩ := Option.map_eq_some_iff.1 (Option.mem_toList.1 hp)
  obtain ⟨_, s', hs', hn⟩ := hn
  rw [hf] at hs'
  exact h s' hs' name hn

theorem bodyParameter_documented {schema : Schema} {info : Option ParameterInfo}
    (h : SchemaFrom m [] (some schema)) :
    Defines m [] (bodyParameter m (some schema) t info) fun p => ParametersFrom m [] p.toList :=
  .pure (parametersFrom_body h fun _ => rfl)

theorem bodyParameter_typed {info : Option ParameterInfo} :
    Defines m [t] (bodyParameter m none t info) fun p => ParametersFrom m [t] p.toList := by
  unfold bodyParameter
  simp only [Logged.bind_eq]
  refine Defines.bind_none (R := fun s => m.property t = .ok s) (.lift fun _ h => h)
    fun property _ hp => ?_
  cases property with
  | none =>
    refine Defines.of_not_reaches (.pure ?_) fun d hd =>
      Models.not_reaches_of_isVoid (Models.isVoid_of_property hp) hd
    exact parametersFrom_body (schemaFrom_property hp) fun _ => rfl
  | some s =>
    exact defines_reachable_then
      (.pure (parametersFrom_body (schemaFrom_property hp) fun _ => rfl))

theorem parametersFrom_elsewhere (h : p.location ≠ .body) : ParametersFrom m ts [p] := by
  intro q hq name hn
  cases List.mem_singleton.1 hq
  exact (h hn.1).elim

theorem location?_ne_body {annotations : List ParamAnnotation} {location : Location} {name : String}
    (h : annotations.findSome? (·.location?) = some (location, name)) : location ≠ .body := by
  obtain ⟨a, _, ha⟩ := List.exists_of_findSome?_eq_some h
  cases a <;> cases ha <;> nofun

theorem Parameter.completeArray_location (p : Parameter) :
    p.completeArray.location = p.location := by
  unfold completeArray
  split <;> rfl

theorem leafParameter_elsewhere {annotations : List ParamAnnotation} {location : Location}
    {name : String} (h : annotations.findSome? (·.location?) = some (location, name)) :
    Defines m [] (leafParameter m t annotations) fun p => ParametersFrom m [] p.toList := by
  unfold leafParameter
  simp only [Logged.bind_eq, h]
  refine Defines.bind_none (R := fun _ => True) (.lift fun _ _ => trivial) fun answer _ _ => ?_
  obtain ⟨schema, u⟩ := answer
  cases schema with
  | some s =>
    refine .pure (parametersFrom_elsewhere ?_)
    rw [Parameter.completeArray_location]
    cases annotations.findSome? (·.info?) <;> exact location?_ne_body h
  | none =>
    refine Defines.bind_none (R := fun _ => True) (.lift fun _ _ => trivial) fun schema _ _ => ?_
    refine .pure (parametersFrom_elsewhere ?_)
    rw [Parameter.completeArray_location]
    cases schema <;> cases annotations.findSome? (·.info?) <;> exact location?_ne_body h

theorem leafParameter_body {annotations : List ParamAnnotation}
    (h : annotations.findSome? (·.location?) = none) :
    Defines m (Leaf.parameter t annotations).bodyTypes (leafParameter m t annotations) fun p =>
      ParametersFrom m (Leaf.parameter t annotations).bodyTypes p.toList := by
  unfold leafParameter Leaf.bodyTypes
  simp only [Logged.bind_eq, h]
  refine Defines.bind_none (.lift fun answer ha => ha) fun answer _ hdoc => ?_
  obtain ⟨schema, u⟩ := answer
  rw [hdoc]
  cases schema with
  | none => exact bodyParameter_typed
  | some s => exact bodyParameter_documented (documented_not_mentions hdoc)

theorem leafParameter_defines {annotations : List ParamAnnotation} :
    Defines m (Leaf.parameter t annotations).bodyTypes (leafParameter m t annotations) fun p =>
      ParametersFrom m (Leaf.parameter t annotations).bodyTypes p.toList := by
  cases h : annotations.findSome? (·.location?) with
  | none => exact leafParameter_body h
  | some l =>
    have hts : (Leaf.parameter t annotations).bodyTypes = [] := by
      simp only [Leaf.bodyTypes, h]
    rw [hts]
    exact leafParameter_elsewhere h

theorem ParametersFrom.append {qs : List Parameter} (hp : ParametersFrom m ts ps)
    (hq : ParametersFrom m us qs) : ParametersFrom m (ts ++ us) (ps ++ qs) := by
  intro p h name hn
  rcases List.mem_append.1 h with h | h
  · exact (hp p h name hn).mono fun _ => List.mem_append_left _
  · exact (hq p h name hn).mono fun _ => List.mem_append_right _

theorem parametersFrom_nil : ParametersFrom m ts [] := by
  intro p hp
  cases hp

theorem sequential_defines : Sequential fun ts x => Defines m ts x (ParametersFrom m ts) where
  nil := .pure parametersFrom_nil
  warning h := Defines.bind_none (R := fun _ => True) (.warning trivial) fun _ _ _ => h
  append hx hy := hx.bind fun _ _ hps => hy.bind_last fun _ _ hqs => .pure (hps.append hqs)

theorem Build.defines_listed {x : Build (Option Parameter)}
    (h : Defines m ts x fun p => ParametersFrom m ts p.toList) :
    Defines m ts x.listed (ParametersFrom m ts) :=
  h.bind_last fun _ _ hp => .pure hp

theorem implicitSchema_body_defines {i : ImplicitParameter}
    (h : Location.parse? i.location = some .body) :
    Defines m i.bodyTypes (implicitSchema m .body (Text.trim i.type))
      (SchemaFrom m i.bodyTypes) := by
  unfold implicitSchema ImplicitParameter.bodyTypes
  simp only [Logged.bind_eq, h, true_and]
  by_cases hempty : Text.trim i.type = ""
  · simp only [hempty, if_true, ne_eq, not_true, false_and, if_false]
    refine .pure fun s hs name hn => ?_
    cases hs
    exact (Schema.not_mentions_scalar hn).elim
  · simp only [hempty, if_false, ne_eq, not_false_eq_true, true_and]
    cases hdoc : documentedType? (Text.trim i.type) with
    | some s =>
      simp only [if_false, reduceCtorEq]
      refine .pure fun s' hs name hn => ?_
      cases hs
      exact (documentedType?_not_mentions hdoc hn).elim
    | none =>
      simp only [if_true]
      refine Defines.bind_none (.lift fun t ht => ht) fun t _ ht => ?_
      rw [ht]
      exact defines_reachable_then (.lift fun schema hs => schemaFrom_property hs)

theorem implicitSchema_elsewhere_defines {location : Location} {type : String}
    (h : location ≠ .body) :
    Defines m [] (implicitSchema m location type) fun _ => True := by
  unfold implicitSchema
  simp only [Logged.bind_eq, h, if_false]
  split
  · exact .pure trivial
  · split
    · exact .pure trivial
    · exact Defines.bind_none (R := fun _ => True) (.lift fun _ _ => trivial) fun _ _ _ =>
        .lift fun _ _ => trivial

theorem SchemaFrom.repeated {schema : Option Schema} (h : SchemaFrom m ts schema)
    (multiple : Bool) :
    SchemaFrom m ts (schema.map fun s => if multiple then .array s else s) := by
  intro s hs name hn
  obtain ⟨s', hs', rfl⟩ := Option.map_eq_some_iff.1 hs
  cases multiple with
  | true => exact h s' hs' name ((Schema.mentions_wrap (c := .list)).1 hn)
  | false => exact h s' hs' name hn

theorem implicitParameter_defines {i : ImplicitParameter} :
    Defines m i.bodyTypes (implicitParameter m i) fun p =>
      ParametersFrom m i.bodyTypes p.toList := by
  have helsewhere (h : Location.parse? i.location ≠ some .body) : i.bodyTypes = [] := by
    simp [ImplicitParameter.bodyTypes, h]
  unfold implicitParameter
  cases hl : Location.parse? i.location with
  | none =>
    rw [helsewhere (by simp [hl])]
    exact .pure parametersFrom_nil
  | some location =>
    simp only [Logged.bind_eq]
    by_cases hbody : location = .body
    · subst hbody
      refine (implicitSchema_body_defines hl).bind_last fun schema _ hschema => ?_
      rw [if_pos rfl]
      refine .pure fun p hp name hn => ?_
      cases List.mem_singleton.1 hp
      obtain ⟨_, s, hs, hn⟩ := hn
      exact hschema.repeated i.multiple s hs name hn
    · rw [helsewhere (by simpa [hl] using hbody)]
      refine (implicitSchema_elsewhere_defines hbody).bind_last fun schema _ _ => ?_
      rw [if_neg hbody]
      refine .pure (parametersFrom_elsewhere ?_)
      cases schema with
      | none => exact hbody
      | some s => cases i.multiple <;> exact hbody

theorem operationParameters_defines :
    let ts := (method.leaves s).flatMap (·.bodyTypes) ++
      (method.implicitParameters.getD []).flatMap (·.bodyTypes)
    Defines m ts (operationParameters m s method) (ParametersFrom m ts) :=
  operationParameters_sequential sequential_defines (fun _ => rfl)
    (fun _ _ => Build.defines_listed leafParameter_defines) fun _ =>
      Build.defines_listed implicitParameter_defines

end Apidoc
