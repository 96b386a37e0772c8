import Apidoc.Proofs.Record.Written
import Apidoc.Proofs.Source.Type
import Apidoc.Record.Resource

namespace Apidoc

open Value

section Bare

@[simp] theorem Value.word?_toNode (code : UInt16) :
    (Value.int code.toNat).toNode.word? = some code := by
  have hbound : code.toNat < 65536 := code.toNat_lt
  have hcode : UInt16.ofNat code.toNat = code := UInt16.ofNat_toNat
  rw [Value.toNode, Node.word?, if_pos (by omega), Int.toNat_natCast, hcode]

@[simp] theorem Value.optional?_text (o : Option String) :
    (orNull Value.string o).toNode.optional? Node.text? = some o :=
  Reads.orNull fun s _ => .text s

@[simp] theorem Value.texts?_toNode (as : List String) : (strings as).toNode.texts? = some as :=
  (Reads.texts as).back

theorem Verb.reads (v : Verb) : Reads ofNode? toValue v where
  back := v.ofName?_name
  present := nofun

theorem Authorization.reads (a : Authorization) : Reads ofNode? toValue a where
  back := by
    rw [toValue, ofNode?, Record.of?_object (by simp)]
    simp [Table.find]
  present := nofun

theorem ApiInfo.reads (a : ApiInfo) : Reads ofNode? toValue a where
  back := by
    have hauthorizations := (Reads.list fun b (_ : b ∈ a.authorizations) => b.reads).back
    rw [toValue, ofNode?, Record.of?_object (by simp)]
    simp [Table.find, hauthorizations]
  present := nofun

theorem CustomAnnotation.reads (a : CustomAnnotation) : Reads ofNode? toValue a where
  back := by
    rw [toValue, ofNode?, Record.of?_object (by simp)]
    simp [Table.find]
  present := nofun

theorem ExtensionProperty.reads (p : ExtensionProperty) : Reads ofNode? toValue p where
  back := by
    rw [toValue, ofNode?, Record.of?_object (by simp)]
    simp [Table.find]
  present := nofun

theorem Extension.reads (e : Extension) : Reads ofNode? toValue e where
  back := by
    have hproperties := (Reads.list fun p (_ : p ∈ e.properties) => p.reads).back
    rw [toValue, ofNode?, Record.of?_object (by simp)]
    simp [Table.find, hproperties]
  present := nofun

theorem ImplicitParameter.reads (i : ImplicitParameter) : Reads ofNode? toValue i where
  back := by
    rw [toValue, ofNode?, Record.of?_object (by simp)]
    simp [Table.find]
  present := nofun

theorem TagDefinition.reads (t : TagDefinition) : Reads ofNode? toValue t where
  back := by
    rw [toValue, ofNode?, Record.of?_object (by simp)]
    simp [Table.find]
  present := nofun

theorem ParamAnnotation.reads (a : ParamAnnotation) : Reads ofNode? toValue a where
  back := by
    cases a <;> rfl
  present := by cases a <;> nofun

end Bare

section Types

def HeaderInfo.types (h : HeaderInfo) : List TypeRef := h.type.toList

def OperationInfo.types (o : OperationInfo) : List TypeRef :=
  o.response.toList ++ o.headers.flatMap HeaderInfo.types

def ResponseInfo.types (x : ResponseInfo) : List TypeRef :=
  x.type.toList ++ x.headers.flatMap HeaderInfo.types

def Declaration.types (d : Declaration) : List TypeRef :=
  d.operation.toList.flatMap OperationInfo.types ++
    d.responses.toList.flatMap (·.flatMap ResponseInfo.types)

def Overridden.types (o : Overridden) : List TypeRef := o.declaration.types

def ParameterDecl.types (p : ParameterDecl) : List TypeRef := [p.type]

def Method.types (m : Method) : List TypeRef :=
  m.returnType :: (m.parameters.flatMap ParameterDecl.types ++ m.declaration.types ++
    m.overridden.flatMap Overridden.types)

def Resource.types (x : Resource) : List TypeRef := x.methods.flatMap Method.types

def BeanField.types (f : BeanField) : List TypeRef := [f.type]

def Bean.types (b : Bean) : List TypeRef := b.fields.flatMap BeanField.types

/-- The type references of a bundle, wherever its parts declare them. -/
def Bundle.types (b : Bundle) : List TypeRef :=
  (b.resources ++ b.subResources).flatMap Resource.types ++ b.beans.flatMap Bean.types

end Types

section Back

variable {α : Type} {read : Node → Option α} {write : α → Value} {typesOf : α → List TypeRef}

/-- A type reference is read back from its text. -/
def TypeRef.Back (t : TypeRef) : Prop := ofNode? t.toValue.toNode = some t

/-- What is written is read back exactly when its type references are. -/
def BackWith (read : Node → Option α) (write : α → Value) (typesOf : α → List TypeRef) : Prop :=
  ∀ a, read (write a).toNode = some a ↔ ∀ t ∈ typesOf a, t.Back

theorem TypeRef.back : BackWith ofNode? toValue fun t => [t] :=
  fun t => by simp [Back]

theorem BackWith.list (h : BackWith read write typesOf) :
    BackWith (Node.listOf? read) (fun as => .list (as.map write)) (·.flatMap typesOf) := by
  intro as
  rw [toNode, toNodes_eq, Node.listOf?, Node.items?, Option.bind_some, List.map_map, List.mapM_map]
  induction as with
  | nil => simp
  | cons a as ih => simp [Option.bind_eq_some_iff, ih, h a, or_imp, forall_and]

theorem BackWith.orNull (h : BackWith read write typesOf) (hnull : ∀ a, write a ≠ .null) :
    BackWith (Node.optional? read) (orNull write) (·.toList.flatMap typesOf) := by
  intro o
  cases o with
  | none => simp [Value.orNull, toNode, Node.optional?]
  | some a => simp [Value.orNull, Reads.optional?_toNode (hnull a), h a]

theorem HeaderInfo.back : BackWith ofNode? toValue types := by
  rintro ⟨name, description, type, container⟩
  have htype := TypeRef.back.orNull (fun _ => nofun) type
  rw [toValue, ofNode?, Record.of?_object (by simp)]
  simp only [bind_eq_some, pure_eq_some]
  simp [Table.find, htype, types]

theorem OperationInfo.back : BackWith ofNode? toValue types := by
  rintro ⟨summary, notes, nickname, tags, verb, response, container, code, headers, authorizations,
    extensions, protocols, hidden⟩
  have hresponse := TypeRef.back.orNull (fun _ => nofun) response
  have hheaders := HeaderInfo.back.list headers
  have hauthorizations := (Reads.list fun a (_ : a ∈ authorizations) => a.reads).back
  have hextensions := (Reads.list fun e (_ : e ∈ extensions) => e.reads).back
  rw [toValue, ofNode?, Record.of?_object (by simp)]
  simp only [bind_eq_some, pure_eq_some]
  simp [Table.find, hresponse, hheaders, hauthorizations, hextensions, types, or_imp, forall_and,
    -Bool.exists_bool]

theorem ResponseInfo.back : BackWith ofNode? toValue types := by
  rintro ⟨code, message, type, container, headers⟩
  have htype := TypeRef.back.orNull (fun _ => nofun) type
  have hheaders := HeaderInfo.back.list headers
  rw [toValue, ofNode?, Record.of?_object (by simp)]
  simp only [bind_eq_some, pure_eq_some]
  simp [Table.find, htype, hheaders, types, or_imp, forall_and]

/-- The fields of a declaration are read wherever they stand. -/
theorem Declaration.back (d : Declaration) :
    ofEntries? (toEntries d.fields) = some d ↔ ∀ t ∈ d.types, t.Back := by
  obtain ⟨operation, path, verb, customAnnotations, consumes, produces, responses,
    implicitParameters, deprecated⟩ := d
  have hoperation := OperationInfo.back.orNull (fun _ => nofun) operation
  have hresponses := ResponseInfo.back.list.orNull (fun _ => nofun) responses
  have hverb := Reads.orNull fun v (_ : verb = some v) => v.reads
  have hcustom := (Reads.list fun a (_ : a ∈ customAnnotations) => a.reads).back
  have hconsumes := Reads.orNull fun as (_ : consumes = some as) => Reads.texts as
  have hproduces := Reads.orNull fun as (_ : produces = some as) => Reads.texts as
  have himplicit := Reads.orNull fun is (_ : implicitParameters = some is) =>
    Reads.list fun i (_ : i ∈ is) => i.reads
  have hrecord : Record.of? names (.map (toEntries (fields ⟨operation, path, verb,
      customAnnotations, consumes, produces, responses, implicitParameters, deprecated⟩))) = _ :=
    Record.of?_object (by simp [fields])
  rw [ofEntries?, hrecord]
  simp only [bind_eq_some, pure_eq_some]
  simp [Table.find, names, fields, hoperation, hresponses, hverb, hcustom, hconsumes, hproduces,
    himplicit, types, or_imp, forall_and, -Bool.exists_bool]

theorem Overridden.back : BackWith ofNode? toValue types := by
  rintro ⟨declaration, parameterAnnotations⟩
  have hannotations := (Reads.list fun as (_ : as ∈ parameterAnnotations) =>
    Reads.list fun a (_ : a ∈ as) => a.reads).back
  have hdeclaration := declaration.back
  rw [Declaration.fields] at hdeclaration
  have hothers : (declaration.fields ++ [("parameter_annotations", Value.list
      (parameterAnnotations.map fun as => .list (as.map ParamAnnotation.toValue)))]).filter
        (fun e => ! ["parameter_annotations"].contains e.1) = declaration.fields := by
    simp [Declaration.fields]
  rw [toValue, ofNode?, Record.openOf?_object (by simp [Declaration.fields]), hothers]
  simp only [bind_eq_some, pure_eq_some]
  simp [Table.find, Declaration.fields, hannotations, hdeclaration, types]

/-- A record of a type and annotations, among others, is read back exactly when the type is. -/
theorem Record.back_annotated {names : List String} {type : TypeRef}
    {annotations : List ParamAnnotation} (before : List (String × Value))
    (make : TypeRef → List ParamAnnotation → α) (hnames : "type" ∈ names ∧ "annotations" ∈ names)
    (hbefore : Table.find "type" before = none ∧ Table.find "annotations" before = none)
    (hmake : ∀ t as, make t as = make type annotations → t = type) :
    let r := ofFields names (before ++ [("type", type.toValue),
      ("annotations", .list (annotations.map ParamAnnotation.toValue))])
    (do
      return make (← r.required? "type" TypeRef.ofNode?)
        (← r.field? "annotations" [] (Node.listOf? ParamAnnotation.ofNode?))) =
      some (make type annotations) ↔ type.Back := by
  intro r
  have hannotations := (Reads.list fun a (_ : a ∈ annotations) => a.reads).back
  have htype : r.required? "type" TypeRef.ofNode? = TypeRef.ofNode? type.toValue.toNode := by
    rw [required?_ofFields hnames.1, Table.find_append, hbefore.1]
    rfl
  have hread : r.field? "annotations" [] (Node.listOf? ParamAnnotation.ofNode?) =
      some annotations := by
    rw [field?_ofFields hnames.2, Table.find_append, hbefore.2]
    exact hannotations
  simp only [htype, hread, bind_eq_some, pure_eq_some, Option.some.injEq, exists_eq_left']
  constructor
  · rintro ⟨t, ht, hmade⟩
    rw [TypeRef.Back, ht, hmake t annotations hmade]
  · intro hback
    exact ⟨type, hback, rfl⟩

theorem ParameterDecl.back : BackWith ofNode? toValue types := by
  rintro ⟨type, annotations⟩
  rw [toValue, ofNode?, Record.of?_object (by simp), types, List.forall_mem_singleton]
  refine Record.back_annotated [] mk (by simp) ⟨rfl, rfl⟩ fun t as h => ?_
  cases h
  rfl

theorem Method.back : BackWith ofNode? toValue types := by
  rintro ⟨name, returnType, parameters, declaration, overridden⟩
  have hparameters := ParameterDecl.back.list parameters
  have hdeclaration := declaration.back
  rw [Declaration.fields] at hdeclaration
  have hoverridden := Overridden.back.list overridden
  have hothers : ([("name", Value.string name), ("return_type", returnType.toValue),
      ("parameters", Value.list (parameters.map ParameterDecl.toValue))] ++ declaration.fields ++
      [("overridden", Value.list (overridden.map Overridden.toValue))]).filter
        (fun e => ! ["name", "return_type", "parameters", "overridden"].contains e.1) =
          declaration.fields := by
    simp [Declaration.fields]
  rw [toValue, ofNode?, Record.openOf?_object (by simp [Declaration.fields]), hothers]
  simp only [bind_eq_some, pure_eq_some]
  simp [Table.find, Declaration.fields, hparameters, hdeclaration, hoverridden, TypeRef.Back, types,
    or_imp, forall_and]

theorem Resource.back : BackWith ofNode? toValue types := by
  rintro ⟨name, api, path, consumes, produces, methods⟩
  have hapi := Reads.orNull fun a (_ : api = some a) => a.reads
  have hmethods := Method.back.list methods
  rw [toValue, ofNode?, Record.of?_object (by simp)]
  simp only [bind_eq_some, pure_eq_some]
  simp [Table.find, hapi, hmethods, types]

theorem BeanField.back : BackWith ofNode? toValue types := by
  rintro ⟨name, type, annotations⟩
  rw [toValue, ofNode?, Record.of?_object (by simp), types, List.forall_mem_singleton]
  refine Record.back_annotated [("name", .string name)] (mk name) (by simp) ⟨rfl, rfl⟩
    fun t as h => ?_
  cases h
  rfl

theorem Bean.back : BackWith ofNode? toValue types := by
  rintro ⟨name, fields⟩
  have hfields := BeanField.back.list fields
  rw [toValue, ofNode?, Record.of?_object (by simp)]
  simp only [bind_eq_some, pure_eq_some]
  simp [Table.find, hfields, types]

/-- A bundle is read back exactly when its type references are. -/
theorem Bundle.back : BackWith ofNode? toValue types := by
  rintro ⟨resources, subResources, beans, tags⟩
  have hresources := Resource.back.list resources
  have hsubResources := Resource.back.list subResources
  have hbeans := Bean.back.list beans
  have htags := (Reads.list fun t (_ : t ∈ tags) => t.reads).back
  rw [toValue, ofNode?, Record.of?_object (by simp)]
  simp only [bind_eq_some, pure_eq_some]
  simp [Table.find, hresources, hsubResources, hbeans, htags, types, or_imp, forall_and]

end Back

end Apidoc
