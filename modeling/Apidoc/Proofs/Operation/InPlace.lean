import Apidoc.Proofs.Distinct
import Apidoc.Proofs.Operation.Alike
import Apidoc.Proofs.Operation.Build
import Apidoc.Reading

namespace Apidoc

/-- A computation that holds a document, and leaves one also when it fails. -/
abbrev InPlace (α : Type) := ExceptT Error (StateM Document) α

namespace InPlace

def lift {α : Type} (x : Except Error α) : InPlace α := fun d => (x, d)

/-- Defines models one after another. -/
def define (models : Table Schema) : InPlace Unit :=
  models.entries.forM fun e => modify fun d => d.addModel e.1 e.2

def primaryResponse (m : Models) (s : ResourceSet) (t : TypeRef) (container : Option Container)
    (headers : Option (Table Schema)) : InPlace (Option Response) := do
  match ← lift (classify m s t) with
  | .ignored => return none
  | .scalar schema => return some (successful headers (some (Container.wrapIn container schema)))
  | .inline schema => return some (successful headers schema)
  | .models entries =>
    define entries
    return entries.keys.getLast?.map fun name =>
      successful headers (some (Container.wrapIn container (.ofModel name)))

def primaryResponses (m : Models) (s : ResourceSet) (method : Method)
    (headers : Option (Table Schema)) : InPlace (Table Response) := do
  let primary ← primaryResponse m s method.primaryType (responseContainer method.operation?) headers
  define (← lift (bodyModels m s method.primaryType))
  return match primary with
    | some r =>
      ({} : Table Response).put (responseKey ((method.operation?.map (·.code)).getD 200)) r
    | none => {}

def addResponse (m : Models) (responses : Table Response) (r : ResponseInfo) :
    InPlace (Table Response) := do
  let key := responseKey r.code
  let container := Container.ofHint? r.container
  let headers ← lift (responseHeaders m r.headers)
  let schema ← match r.type.filter (!·.isVoid) with
    | none => pure ((responses.get? key).bind (·.schema))
    | some t => do
      let own ← lift (m.own t)
      define own
      define (← lift (m.reachable t))
      match own.keys.getLast? with
      | some name => pure (some (Container.wrapIn container (.ofModel name)))
      | none => do
        let property ← lift (m.property t)
        pure (property.map (Container.wrapIn container))
  return responses.put key { description := r.message, schema, headers }

def addResponses (m : Models) (responses : Table Response) :
    List ResponseInfo → InPlace (Table Response)
  | [] => pure responses
  | r :: rs => do addResponses m (← addResponse m responses r) rs

def bodyParameter (m : Models) (schema : Option Schema) (t : TypeRef)
    (info : Option ParameterInfo) : InPlace (Option Parameter) := do
  let schema ← match schema with
    | some s => pure (some s)
    | none =>
      match ← lift (m.property t) with
      | none => pure none
      | some s => do
        define (← lift (m.reachable t))
        pure (some s)
  return schema.map fun s =>
    let name := (info.bind fun i => Text.nonEmpty? i.name).getD "body"
    { Parameter.at .body name with
      schema := some s
      description := info.bind fun i => Text.nonEmpty? i.description
      required := (info.map (·.required)).getD false }

def leafParameter (m : Models) (t : TypeRef) (annotations : List ParamAnnotation) :
    InPlace (Option Parameter) := do
  let info := annotations.findSome? (·.info?)
  let (schema, t) ← lift (documented info t)
  match annotations.findSome? (·.location?) with
  | none => bodyParameter m schema t info
  | some (location, name) =>
    let schema ← match schema with
      | some s => pure (some s)
      | none => lift (m.parameterSchema t)
    let p := Parameter.at location name
    let p := match schema with
      | some s => p.describe s
      | none => p
    let p := { p with default := annotations.findSome? ParamAnnotation.default? }
    let p := match info with
      | some i => p.document i
      | none => p
    return some p.completeArray

mutual

/-- The parameters that a parameter of a type stands for while the beans of `openNames` are being
expanded, each built as soon as it is met. -/
def extract (m : Models) (s : ResourceSet) (openNames : List String) (t : TypeRef)
    (annotations : List ParamAnnotation) : InPlace (List Parameter) :=
  if isSkipped annotations then pure []
  else if annotations.any (·.isBean) then
    match hb : s.bean? t with
    | none => pure []
    | some b =>
      if ho : openNames.contains b.name then pure []
      else
        have := ResourceSet.closedBeans_lt hb (Bool.eq_false_iff.2 ho)
        extractFields m s (openNames ++ [b.name]) b.fields
  else do
    let p ← leafParameter m t annotations
    return p.toList
termination_by (s.closedBeans openNames, 0)

def extractFields (m : Models) (s : ResourceSet) (openNames : List String)
    (fields : List BeanField) : InPlace (List Parameter) :=
  match fields with
  | [] => pure []
  | f :: fs => do
    let ps ← if f.annotations.isEmpty then pure [] else extract m s openNames f.type f.annotations
    return ps ++ (← extractFields m s openNames fs)
termination_by (s.closedBeans openNames, fields.length + 1)

end

def methodParameters (m : Models) (s : ResourceSet) :
    List (TypeRef × List ParamAnnotation) → InPlace (List Parameter)
  | [] => pure []
  | (t, annotations) :: rest => do
    let ps ← extract m s [] t annotations
    return ps ++ (← methodParameters m s rest)

def implicitSchema (m : Models) (location : Location) (type : String) :
    InPlace (Option Schema) := do
  if type = "" then return some (.scalar "string" none)
  match documentedType? type with
  | some s => return some s
  | none =>
    let t ← lift (TypeRef.read type)
    if location = .body then
      define (← lift (m.reachable t))
      lift (m.property t)
    else lift (m.parameterSchema t)

def implicitParameter (m : Models) (i : ImplicitParameter) : InPlace (Option Parameter) :=
  match Location.parse? i.location with
  | none => pure none
  | some location => do
    let p := Parameter.at location i.name
    let p := { p with
      description := Text.nonEmpty? i.description
      required := p.required || i.required
      default := Text.nonEmpty? i.default
      enumValues := allowedValues? i.allowed }
    let schema ← implicitSchema m location (Text.trim i.type)
    let schema := schema.map fun s => if i.multiple then .array s else s
    if location = .body then return some { p with schema }
    let p := match schema with
      | some s =>
        let p := p.describe s
        if i.multiple then { p with collectionFormat := some "multi" } else p
      | none => p
    return some { p with format := (Text.nonEmpty? i.format).or p.format }

def implicitParameters (m : Models) : List ImplicitParameter → InPlace (List Parameter)
  | [] => pure []
  | i :: rest => do
    let p ← implicitParameter m i
    return p.toList ++ (← implicitParameters m rest)

def primaryHeaders (m : Models) (method : Method) : InPlace (Option (Table Schema)) :=
  match method.operation? with
  | some info => lift (responseHeaders m info.headers)
  | none => pure none

def buildVisible (m : Models) (s : ResourceSet) (method : Method) : InPlace Operation := do
  let headers ← primaryHeaders m method
  let responses ← primaryResponses m s method headers
  let responses ← addResponses m responses (method.responses.getD [])
  let declared ← methodParameters m s
    ((method.parameters.map (·.type)).zip method.parameterAnnotations)
  let implicit ← implicitParameters m (method.implicitParameters.getD [])
  return method.operationWith headers responses (declared ++ implicit)

/-- Builds the operation of a method; a hidden method has none. -/
def build (m : Models) (s : ResourceSet) (method : Method) : InPlace (Option Operation) :=
  if (method.operation?.map (·.hidden)).getD false then pure none
  else do
    let o ← buildVisible m s method
    return some o

end InPlace

/-- The model that a note defines. -/
def Note.model? : Note → Option (String × Schema)
  | .model name schema => some (name, schema)
  | .warning _ => none

/-- A document with more models; those whose names it defines are left out. -/
def Document.withModels (d : Document) (models : List (String × Schema)) : Document :=
  { d with definitions := d.definitions.putAllNew models }

/-- A computation in place answers what building answers, and defines the models that it notes. -/
def InPlace.Does {α : Type} (x : InPlace α) (y : Build α) : Prop :=
  ∀ d, x d = (y.result, d.withModels (y.notes.filterMap (·.model?)))

variable {α β : Type} {m : Models} {s : ResourceSet} {t : TypeRef} {method : Method}
  {annotations : List ParamAnnotation} {openNames : List String}

theorem Document.withModels_append {d : Document} {es es' : List (String × Schema)} :
    d.withModels (es ++ es') = (d.withModels es).withModels es' := by
  simp only [withModels, Table.putAllNew, List.foldl_append]

theorem Table.entries_putAllNew (t : Table Schema) (es : List (String × Schema)) :
    (t.putAllNew es).entries =
      t.entries ++ firstsBy (·.1) (es.filter fun e => e.1 ∉ t.keys) := by
  have hfold (t : Table Schema) : (t.putAllNew es).entries = es.foldl
      (fun kept e => if e.1 ∈ kept.map (·.1) then kept else kept ++ [e]) t.entries := by
    induction es generalizing t with
    | nil => rfl
    | cons e es ih =>
      refine (ih (t.putNew e.1 e.2)).trans ?_
      rw [List.foldl_cons, Table.putNew]
      by_cases hk : e.1 ∈ t.entries.map (·.1)
      · rw [if_pos (Table.contains_iff.2 hk), if_pos hk]
      · rw [if_neg fun hc => hk (Table.contains_iff.1 hc), if_neg hk]
  rw [hfold, foldl_addNew]
  rfl

theorem Document.applyAll_models {d : Document} {notes : List Note} :
    d.applyAll (Event.edits (notes.map Event.ofNote)) =
      d.withModels (notes.filterMap (·.model?)) := by
  induction notes generalizing d with
  | nil => rfl
  | cons n notes ih =>
    cases n with
    | model name schema => exact ih (d := d.addModel name schema)
    | warning w => exact ih

namespace InPlace

theorem bind_apply (x : InPlace α) (f : α → InPlace β) (d : Document) :
    (x >>= f) d = match x d with
      | (.ok a, d') => f a d'
      | (.error e, d') => (.error e, d') := by
  change StateT.bind x (ExceptT.bindCont f) d = _
  unfold StateT.bind
  cases x d with
  | mk result d' => cases result <;> rfl

theorem Does.bind {x : InPlace α} {f : α → InPlace β} {y : Build α} {g : α → Build β}
    (hx : Does x y) (hf : ∀ a, Does (f a) (g a)) : Does (x >>= f) (y.bind g) := by
  intro d
  obtain ⟨notes, result⟩ := y
  rw [bind_apply, hx d]
  cases result with
  | error e => rfl
  | ok a =>
    simp only [Logged.bind_ok, List.filterMap_append, Document.withModels_append]
    exact hf a _

theorem Does.pure (a : α) : Does (Pure.pure a) (Pure.pure a) :=
  fun _ => rfl

theorem Does.lift (x : Except Error α) : Does (lift x) (Build.lift x) :=
  fun _ => rfl

theorem Does.define (models : Table Schema) : Does (define models) (Build.models models) := by
  have hall : ∀ (es : List (String × Schema)) (d : Document),
      (es.forM fun e => modify fun d => d.addModel e.1 e.2 : InPlace Unit) d =
        (.ok (), d.withModels es) := by
    intro es
    induction es with
    | nil => exact fun _ => rfl
    | cons e es ih => exact fun d => ih (d.addModel e.1 e.2)
  intro d
  have hnotes : (models.entries.map fun e => Note.model e.1 e.2).filterMap (·.model?) =
      models.entries := by
    have hmodel : (Note.model? ∘ fun e : String × Schema => Note.model e.1 e.2) = some := rfl
    rw [List.filterMap_map, hmodel, List.filterMap_some]
  rw [Build.models, Logged.noteAll, hnotes]
  exact hall models.entries d

theorem primaryResponses_does {headers : Option (Table Schema)} :
    Does (primaryResponses m s method headers) (Apidoc.primaryResponses m s method headers) := by
  have hprimary {hint : Option Container} {t : TypeRef} :
      Does (primaryResponse m s t hint headers) (Apidoc.primaryResponse m s t hint headers) := by
    refine .bind (.lift _) fun c => ?_
    cases c with
    | ignored => exact .pure _
    | scalar schema => exact .pure _
    | inline schema => exact .pure _
    | models entries => exact .bind (.define entries) fun _ => .pure _
  exact .bind hprimary fun _ => .bind (.lift _) fun _ => .bind (.define _) fun _ => .pure _

theorem addResponse_does {responses : Table Response} {r : ResponseInfo} :
    Does (addResponse m responses r) (Apidoc.addResponse m responses r) := by
  refine .bind (.lift _) fun headers => ?_
  cases r.type.filter (!·.isVoid) with
  | none => exact .pure _
  | some t =>
    refine .bind (.lift _) fun own => .bind (.define own) fun _ => .bind (.lift _) fun _ =>
      .bind (.define _) fun _ => ?_
    cases own.keys.getLast? with
    | some name => exact .pure _
    | none => exact .bind (.lift _) fun _ => .pure _

theorem addResponses_does {responses : Table Response} {rs : List ResponseInfo} :
    Does (addResponses m responses rs) (Apidoc.addResponses m responses rs) := by
  induction rs generalizing responses with
  | nil => exact .pure _
  | cons r rs ih => exact .bind addResponse_does fun _ => ih

theorem bodyParameter_does {schema : Option Schema} {info : Option ParameterInfo} :
    Does (bodyParameter m schema t info) (Apidoc.bodyParameter m schema t info) := by
  cases schema with
  | some schema => exact .pure _
  | none =>
    refine .bind (.lift _) fun property => ?_
    cases property with
    | none => exact .pure _
    | some schema => exact .bind (.lift _) fun _ => .bind (.define _) fun _ => .pure _

theorem leafParameter_does :
    Does (leafParameter m t annotations) (Apidoc.leafParameter m t annotations) := by
  refine .bind (.lift _) fun documented => ?_
  cases annotations.findSome? (·.location?) with
  | none => exact bodyParameter_does
  | some place =>
    obtain ⟨schema, t⟩ := documented
    cases schema with
    | some schema => exact .pure _
    | none => exact .bind (.lift _) fun _ => .pure _

theorem leafParameters_append {xs ys : List Leaf} : leafParameters m (xs ++ ys) =
    (leafParameters m xs).bind fun ps => (leafParameters m ys).bind fun qs => pure (ps ++ qs) := by
  induction xs with
  | nil =>
    rw [List.nil_append, leafParameters, Logged.pure_bind]
    rcases leafParameters m ys with ⟨_, e | qs⟩ <;> simp
  | cons x xs ih =>
    cases x <;> simp only [List.cons_append, leafParameters, ih, Logged.bind_eq, Logged.bind_assoc,
      Logged.pure_bind, List.append_assoc]

theorem extract_eq : extract m s openNames t annotations =
    if isSkipped annotations then pure []
    else if annotations.any (·.isBean) then
      match s.bean? t with
      | none => pure []
      | some b =>
        if openNames.contains b.name then pure []
        else extractFields m s (openNames ++ [b.name]) b.fields
    else do
      let p ← leafParameter m t annotations
      return p.toList := by
  rw [extract]
  split
  · rfl
  · split
    · split
      · rename_i hb
        rw [hb]
      · rename_i b hb
        simp only [hb]
        by_cases ho : openNames.contains b.name = true
        · rw [dif_pos ho, if_pos ho]
        · rw [dif_neg ho, if_neg ho]
    · rfl

theorem leaf_does : Does (do
      let p ← leafParameter m t annotations
      return p.toList) (leafParameters m [.parameter t annotations]) := by
  rw [leafParameters_single]
  exact .bind leafParameter_does fun p => .pure _

theorem extractFields_does {fields : List BeanField}
    (h : ∀ t annotations, Does (extract m s openNames t annotations)
      (leafParameters m (s.leaves openNames t annotations))) :
    Does (extractFields m s openNames fields)
      (leafParameters m (s.fieldLeaves openNames fields)) := by
  induction fields with
  | nil =>
    rw [extractFields, ResourceSet.fieldLeaves]
    exact .pure _
  | cons f fields ih =>
    rw [extractFields, ResourceSet.fieldLeaves, leafParameters_append]
    by_cases hempty : f.annotations.isEmpty = true
    · simp only [if_pos hempty]
      exact .bind (.pure _) fun ps => .bind ih fun qs => .pure _
    · simp only [if_neg hempty]
      exact .bind (h _ _) fun ps => .bind ih fun qs => .pure _

theorem extract_does : Does (extract m s openNames t annotations)
    (leafParameters m (s.leaves openNames t annotations)) := by
  -- Every bean that is expanded takes one from those that are not open.
  induction hn : s.closedBeans openNames using Nat.strongRecOn
    generalizing openNames t annotations with
  | _ n ih =>
    rw [extract_eq, ResourceSet.leaves_eq]
    split
    · exact .pure _
    · split
      · cases hb : s.bean? t with
        | none => exact fun _ => rfl
        | some b =>
          by_cases ho : openNames.contains b.name = true
          · simp only [ho, if_true]
            exact fun _ => rfl
          · have hlt := ResourceSet.closedBeans_lt hb (Bool.eq_false_iff.2 ho)
            simp only [if_neg ho]
            exact extractFields_does fun t annotations => ih _ (hn ▸ hlt) rfl
      · exact leaf_does

theorem methodParameters_does {declared : List (TypeRef × List ParamAnnotation)} :
    Does (methodParameters m s declared) (Apidoc.methodParameters m s declared) := by
  induction declared with
  | nil => exact .pure _
  | cons p rest ih => exact .bind extract_does fun _ => .bind ih fun _ => .pure _

theorem implicitSchema_does {location : Location} {type : String} :
    Does (implicitSchema m location type) (Apidoc.implicitSchema m location type) := by
  unfold implicitSchema Apidoc.implicitSchema
  by_cases htype : type = ""
  · simp only [if_pos htype]
    exact .pure _
  · simp only [if_neg htype]
    cases documentedType? type with
    | some schema => exact .pure _
    | none =>
      refine .bind (.lift _) fun t => ?_
      by_cases hbody : location = .body
      · simp only [if_pos hbody]
        exact .bind (.lift _) fun _ => .bind (.define _) fun _ => .lift _
      · simp only [if_neg hbody]
        exact .lift _

theorem implicitParameter_does {i : ImplicitParameter} :
    Does (implicitParameter m i) (Apidoc.implicitParameter m i) := by
  unfold implicitParameter Apidoc.implicitParameter
  cases Location.parse? i.location with
  | none => exact .pure _
  | some location =>
    refine .bind implicitSchema_does fun schema => ?_
    by_cases hbody : location = .body
    · simp only [if_pos hbody]
      exact .pure _
    · simp only [if_neg hbody]
      exact .pure _

theorem implicitParameters_does {is : List ImplicitParameter} :
    Does (implicitParameters m is) (Apidoc.implicitParameters m is) := by
  induction is with
  | nil => exact .pure _
  | cons i rest ih =>
    rw [implicitParameters, Apidoc.implicitParameters]
    exact .bind implicitParameter_does fun p => .bind ih fun _ => .pure _

theorem buildVisible_does : Does (buildVisible m s method) (Apidoc.buildVisible m s method) := by
  simp only [buildVisible, Apidoc.buildVisible, operationParameters, Logged.bind_eq,
    Logged.bind_assoc, Logged.pure_bind]
  have hheaders : Does (primaryHeaders m method) (Apidoc.primaryHeaders m method) := by
    unfold primaryHeaders Apidoc.primaryHeaders
    cases method.operation? with
    | none => exact .pure _
    | some info => exact .lift _
  exact .bind hheaders fun _ => .bind primaryResponses_does fun _ =>
    .bind addResponses_does fun _ => .bind methodParameters_does fun _ =>
    .bind implicitParameters_does fun _ => .pure _

theorem build_does : Does (build m s method) (buildOperation m s method) := by
  unfold build
  by_cases hidden : method.IsHidden
  · rw [if_pos (Method.isHidden_iff.1 hidden), buildOperation_hidden hidden]
    exact .pure _
  · rw [if_neg (mt Method.isHidden_iff.2 hidden), buildOperation_visible hidden]
    exact .bind buildVisible_does fun _ => .pure _

/-- Whatever the document holds, a method builds to the same operation or fails with the same error.
The definitions keep what they hold and append, of one sequence of models, the first of each name
that they do not hold yet; nothing else changes. -/
theorem build_appends_models (m : Models) (s : ResourceSet) (method : Method) :
    ∃ (models : List (String × Schema)) (result : Except Error (Option Operation)), ∀ d : Document,
      let d' := { d with definitions := ⟨d.definitions.entries ++
        firstsBy (·.1) (models.filter fun e => e.1 ∉ d.definitions.keys)⟩ }
      build m s method d = (result, d') ∧ d.build m s method = (d', result) := by
  refine ⟨(buildOperation m s method).notes.filterMap Note.model?,
    (buildOperation m s method).result, fun d => ?_⟩
  intro d'
  have hd' : d' = d.withModels ((buildOperation m s method).notes.filterMap Note.model?) := by
    simp only [d', Document.withModels, ← Table.entries_putAllNew]
  rw [hd']
  exact ⟨build_does d, congrArg (·, _) Document.applyAll_models⟩

end InPlace

end Apidoc
