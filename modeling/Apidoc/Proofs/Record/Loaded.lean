import Apidoc.Format
import Apidoc.Proofs.Record.Resource

namespace Apidoc

open Source

section Yielding

variable {α : Type} {read : Node → Option α} {P : α → Prop} {n : Node} {r : Record} {name : String}
  {default a : α} {as : List α}

/-- Everything that is read has the property. -/
def Yields (read : Node → Option α) (P : α → Prop) : Prop :=
  ∀ n a, read n = some a → P a

theorem Yields.mapM {ns : List Node} (h : Yields read P) (has : ns.mapM read = some as) :
    ∀ a ∈ as, P a := by
  induction ns generalizing as with
  | nil =>
    cases has
    exact List.forall_mem_nil _
  | cons n ns ih =>
    simp only [List.mapM_cons, bind, pure, Option.bind_eq_some_iff, Option.some.injEq] at has
    obtain ⟨a, ha, as, has, rfl⟩ := has
    exact List.forall_mem_cons.2 ⟨h n a ha, ih has⟩

theorem Yields.listOf (h : Yields read P) :
    Yields (Node.listOf? read) (fun as => ∀ a ∈ as, P a) := by
  intro n as has
  obtain ⟨items, _, hitems⟩ := Option.bind_eq_some_iff.1 has
  exact h.mapM hitems

theorem Yields.optional (h : Yields read P) :
    Yields (Node.optional? read) (fun o => ∀ a ∈ o, P a) := by
  intro n o ho
  have hnone (ho : some none = some o) : ∀ a ∈ o, P a := by
    cases ho
    intro a ha
    cases ha
  have hsome (ho : (read n).map some = some o) : ∀ a ∈ o, P a := by
    obtain ⟨a, ha, rfl⟩ := Option.map_eq_some_iff.1 ho
    intro b hb
    cases hb
    exact h n a ha
  -- Nothing and what stands for nothing is no value, and everything else is read.
  unfold Node.optional? at ho
  split at ho
  · exact hnone ho
  · split at ho
    · exact hsome ho
    · split at ho
      · split at ho
        · exact hnone ho
        · exact hsome ho
      · split at ho
        · split at ho
          · exact hnone ho
          · cases ho
        · exact hsome ho
  · exact hsome ho

theorem Yields.field (h : Yields read P) (hdefault : P default)
    (ha : r.field? name default read = some a) : P a := by
  unfold Record.field? at ha
  split at ha
  · exact h _ _ ha
  · cases ha
    exact hdefault

theorem Yields.required (h : Yields read P) (ha : r.required? name read = some a) : P a := by
  obtain ⟨n, _, hread⟩ := Option.bind_eq_some_iff.1 ha
  exact h n a hread

theorem TypeRef.yields : Yields ofNode? Reduced := by
  intro n t h
  obtain ⟨text, _, hparse⟩ := Option.bind_eq_some_iff.1 h
  cases hresult : parse text with
  | error fault =>
    rw [hresult] at hparse
    cases hparse
  | ok t' =>
    rw [hresult] at hparse
    cases hparse
    exact reduced_of_parse hresult

theorem HeaderInfo.yields : Yields ofNode? fun h => ∀ t ∈ h.types, Reduced t := by
  intro n x h
  simp only [ofNode?, bind_eq_some, pure_eq_some] at h
  obtain ⟨r, -, name, -, description, -, type, htype, container, -, rfl⟩ := h
  have hreduced := TypeRef.yields.optional.field (by simp) htype
  simpa [types] using hreduced

theorem OperationInfo.yields : Yields ofNode? fun i => ∀ t ∈ i.types, Reduced t := by
  intro n x h
  simp only [ofNode?, bind_eq_some, pure_eq_some] at h
  obtain ⟨r, -, summary, -, notes, -, nickname, -, tags, -, verb, -, response, hresponse,
    container, -, code, -, headers, hheaders, authorizations, -, extensions, -, protocols, -,
    hidden, -, rfl⟩ := h
  have hresponse := TypeRef.yields.optional.field (by simp) hresponse
  have hheaders := HeaderInfo.yields.listOf.field (by simp) hheaders
  simp only [types, List.forall_mem_append, List.forall_mem_flatMap]
  exact ⟨by simpa using hresponse, by simpa using hheaders⟩

theorem ResponseInfo.yields : Yields ofNode? fun x => ∀ t ∈ x.types, Reduced t := by
  intro n x h
  simp only [ofNode?, bind_eq_some, pure_eq_some] at h
  obtain ⟨r, -, code, -, message, -, type, htype, container, -, headers, hheaders, rfl⟩ := h
  have htype := TypeRef.yields.optional.field (by simp) htype
  have hheaders := HeaderInfo.yields.listOf.field (by simp) hheaders
  simp only [types, List.forall_mem_append, List.forall_mem_flatMap]
  exact ⟨by simpa using htype, hheaders⟩

theorem Declaration.reduced {entries : List (Node × Node)} {d : Declaration}
    (h : ofEntries? entries = some d) : ∀ t ∈ d.types, Reduced t := by
  simp only [ofEntries?, bind_eq_some, pure_eq_some] at h
  obtain ⟨r, -, operation, hoperation, path, -, verb, -, customAnnotations, -, consumes, -,
    produces, -, responses, hresponses, implicitParameters, -, deprecated, -, rfl⟩ := h
  have hoperation := OperationInfo.yields.optional.field (by simp) hoperation
  have hresponses := ResponseInfo.yields.listOf.optional.field (by simp) hresponses
  simp only [types, List.forall_mem_append, List.forall_mem_flatMap]
  exact ⟨by simpa using hoperation, by simpa using hresponses⟩

theorem Overridden.yields : Yields ofNode? fun o => ∀ t ∈ o.types, Reduced t := by
  intro n o h
  simp only [ofNode?, bind_eq_some, pure_eq_some] at h
  obtain ⟨⟨r, others⟩, -, declaration, hdeclaration, parameterAnnotations, -, rfl⟩ := h
  exact Declaration.reduced hdeclaration

theorem ParameterDecl.yields : Yields ofNode? fun p => ∀ t ∈ p.types, Reduced t := by
  intro n p h
  simp only [ofNode?, bind_eq_some, pure_eq_some] at h
  obtain ⟨r, -, type, htype, annotations, -, rfl⟩ := h
  exact List.forall_mem_singleton.2 (TypeRef.yields.required htype)

theorem Method.yields : Yields ofNode? fun m => ∀ t ∈ m.types, Reduced t := by
  intro n m h
  simp only [ofNode?, bind_eq_some, pure_eq_some] at h
  obtain ⟨⟨r, others⟩, -, name, -, returnType, hreturn, parameters, hparameters, declaration,
    hdeclaration, overridden, hoverridden, rfl⟩ := h
  have hreturn := TypeRef.yields.field .void hreturn
  have hparameters := ParameterDecl.yields.listOf.field (List.forall_mem_nil _) hparameters
  have hdeclaration := Declaration.reduced hdeclaration
  have hoverridden := Overridden.yields.listOf.field (List.forall_mem_nil _) hoverridden
  simp only [types, List.forall_mem_cons, List.forall_mem_append, List.forall_mem_flatMap]
  exact ⟨hreturn, ⟨hparameters, hdeclaration⟩, hoverridden⟩

theorem Resource.yields : Yields ofNode? fun x => ∀ t ∈ x.types, Reduced t := by
  intro n x h
  simp only [ofNode?, bind_eq_some, pure_eq_some] at h
  obtain ⟨r, -, name, -, api, -, path, -, consumes, -, produces, -, methods, hmethods, rfl⟩ := h
  have hmethods := Method.yields.listOf.field (List.forall_mem_nil _) hmethods
  simpa only [types, List.forall_mem_flatMap] using hmethods

theorem BeanField.yields : Yields ofNode? fun f => ∀ t ∈ f.types, Reduced t := by
  intro n f h
  simp only [ofNode?, bind_eq_some, pure_eq_some] at h
  obtain ⟨r, -, name, -, type, htype, annotations, -, rfl⟩ := h
  exact List.forall_mem_singleton.2 (TypeRef.yields.required htype)

theorem Bean.yields : Yields ofNode? fun b => ∀ t ∈ b.types, Reduced t := by
  intro n b h
  simp only [ofNode?, bind_eq_some, pure_eq_some] at h
  obtain ⟨r, -, name, -, fields, hfields, rfl⟩ := h
  have hfields := BeanField.yields.listOf.field (List.forall_mem_nil _) hfields
  simpa only [types, List.forall_mem_flatMap] using hfields

/-- The type references of a bundle that was read are reduced. -/
theorem Bundle.yields : Yields ofNode? fun b => ∀ t ∈ b.types, Reduced t := by
  intro n b h
  simp only [ofNode?, bind_eq_some, pure_eq_some] at h
  obtain ⟨r, -, resources, hresources, subResources, hsubResources, beans, hbeans, tags, -, rfl⟩ :=
    h
  have hresources := Resource.yields.listOf.field (List.forall_mem_nil _) hresources
  have hsubResources := Resource.yields.listOf.field (List.forall_mem_nil _) hsubResources
  have hbeans := Bean.yields.listOf.field (List.forall_mem_nil _) hbeans
  simp only [types, List.forall_mem_append, List.forall_mem_flatMap]
  exact ⟨⟨hresources, hsubResources⟩, hbeans⟩

end Yielding

theorem TypeRef.back_iff {t : TypeRef} (h : Reduced t) : t.Back ↔ "try" ∉ t.names := by
  have hback : t.Back ↔ (parse t.text).toOption = some t := Iff.rfl
  rw [hback, parse_text_of_reduced h]
  split
  · rename_i htry
    exact iff_of_false nofun (not_not_intro htry)
  · rename_i htry
    exact iff_of_true rfl htry

namespace Bundle

variable {format : Format} {text : String} {b : Bundle}

/-- A bundle that was loaded is read back from what it is written as, with equal parts in the same
order, exactly when the word `try` is no name in its type references. -/
theorem read_back_iff (h : load? format text = some b) :
    ofNode? b.toValue.toNode = some b ↔ ∀ t ∈ b.types, "try" ∉ t.names := by
  obtain ⟨n, _, hread⟩ := Option.bind_eq_some_iff.1 h
  have hreduced := yields n b hread
  rw [back b]
  exact forall₂_congr fun t ht => TypeRef.back_iff (hreduced t ht)

/-- A bundle of a method that overrides two declarations, of which one is routed and annotates a
parameter, and of the bean that another parameter is. Everything else is left out. -/
def pagingText : String :=
  "\x7b\"resources\": [\x7b\"methods\": [\x7b\"name\": \"list\"," ++
  "\"return_type\": \"vec::Vec<&Pet>\", \"parameters\": [" ++
  "\x7b\"type\": \"Paging\", \"annotations\": [\x7b\"kind\": \"bean\"\x7d]\x7d," ++
  "\x7b\"type\": \"Option<Owner>\"\x7d], \"overridden\": [" ++
  "\x7b\"operation\": \x7b\"response\": \"Pet\"\x7d, \"path\": \"/pets\"," ++
  "\"parameter_annotations\":" ++
  "[[], [\x7b\"kind\": \"query\", \"name\": \"owner\"\x7d]]\x7d," ++
  "\x7b\"verb\": \"get\"\x7d]\x7d]\x7d]," ++
  "\"beans\": [\x7b\"name\": \"Paging\", \"fields\": [" ++
  "\x7b\"name\": \"size\", \"type\": \"&u32\"\x7d]\x7d]\x7d"

theorem pagingText_loads : (load? .json pagingText).map (fun b =>
    (b.types, b.resources.flatMap fun r => r.methods.map fun m =>
      (m.path?, m.parameterAnnotations.map (·.length)))) =
    some ([⟨"Vec", [⟨"Pet", []⟩]⟩, ⟨"Paging", []⟩, ⟨"Option", [⟨"Owner", []⟩]⟩, ⟨"Pet", []⟩,
      ⟨"u32", []⟩], [(some "/pets", [1, 1])]) := by
  -- Evaluating the characters of one literal takes time quadratic in its length.
  unfold load? Format.read Json.read pagingText
  simp only [String.toList_append]
  decide +kernel

theorem pagingText_read_back :
    ∃ b, load? .json pagingText = some b ∧ ofNode? b.toValue.toNode = some b := by
  obtain ⟨b, hload, hparts⟩ := Option.map_eq_some_iff.1 pagingText_loads
  have htypes := (Prod.mk.inj hparts).1
  refine ⟨b, hload, (read_back_iff hload).2 ?_⟩
  rw [htypes]
  decide

/-- A bundle of one bean, whose field has the type that a path to the word `try` stands for. -/
def tryText : String :=
  "beans:
- name: Paging
  fields:
  - name: page
    type: a::try
"

theorem tryText_types : (load? .yaml tryText).map types = some [⟨"try", []⟩] := by
  decide +kernel

theorem tryText_not_read_back :
    ∃ b, load? .yaml tryText = some b ∧ ofNode? b.toValue.toNode ≠ some b := by
  obtain ⟨b, hload, htypes⟩ := Option.map_eq_some_iff.1 tryText_types
  refine ⟨b, hload, fun hback => ?_⟩
  have htry : (TypeRef.mk "try" []).Back := (back b).1 hback _ (htypes ▸ List.mem_cons_self)
  have hnone : TypeRef.ofNode? (TypeRef.mk "try" []).toValue.toNode = none := rfl
  rw [TypeRef.Back, hnone] at htry
  cases htry

end Bundle

end Apidoc
