import Apidoc.Proofs.Document.Edits

namespace Apidoc

section Answers

variable {α β γ : Type} {f : β → Option γ} {g : α → List β}

theorem findSome?_flatMap (as : List α) :
    (as.flatMap g).findSome? f = as.findSome? fun a => (g a).findSome? f := by
  induction as with
  | nil => rfl
  | cons a as ih =>
    rw [List.flatMap_cons, List.findSome?_append, ih, List.findSome?_cons]
    cases (g a).findSome? f <;> rfl

theorem findSome?_eq_of_agree {bs bs' : List β} (hmem : ∀ b, b ∈ bs ↔ b ∈ bs')
    (hagree : ∀ b ∈ bs, ∀ b' ∈ bs, ∀ c c', f b = some c → f b' = some c' → c = c') :
    bs.findSome? f = bs'.findSome? f := by
  cases h' : bs'.findSome? f with
  | none =>
    have hnone := List.findSome?_eq_none_iff.1 h'
    exact List.findSome?_eq_none_iff.2 fun b hb => hnone b ((hmem b).1 hb)
  | some c' =>
    obtain ⟨b', hb', hc'⟩ := List.exists_of_findSome?_eq_some h'
    cases h : bs.findSome? f with
    | none =>
      have hnone := List.findSome?_eq_none_iff.1 h b' ((hmem b').2 hb')
      rw [hnone] at hc'
      cases hc'
    | some c =>
      obtain ⟨b, hb, hc⟩ := List.exists_of_findSome?_eq_some h
      rw [hagree b hb b' ((hmem b').2 hb') c c' hc hc']

end Answers

namespace Edit

def modelNamed? (name : String) : Edit → Option Schema
  | model name' schema => if name' = name then some schema else none
  | _ => none

variable {e : Edit} {name : String} {schema : Schema}

theorem modelNamed?_eq_some_iff : e.modelNamed? name = some schema ↔ e = model name schema := by
  cases e with
  | model name' schema' => simp [modelNamed?]
  | operation | tag | describeTags => simp [modelNamed?]

end Edit

theorem Tag.mem_names_addTo {t : Tag} {ts : List Tag} {name : String} :
    name ∈ (t.addTo ts).map (·.name) ↔ name ∈ ts.map (·.name) ∨ t.name = name := by
  induction ts with
  | nil => simp [Tag.addTo, eq_comm]
  | cons u ts ih =>
    by_cases hu : u.name = t.name
    · rw [Tag.addTo, if_pos hu]
      constructor
      · exact .inl
      · rintro (h | h)
        · exact h
        · exact List.mem_cons.2 (.inl (h.symm.trans hu.symm))
    · rw [Tag.addTo, if_neg hu, List.map_cons, List.map_cons, List.mem_cons, List.mem_cons, ih,
        or_assoc]

theorem TagDefinition.names_describeIn {x : TagDefinition} {ts : List Tag} :
    (x.describeIn ts).map (·.name) = ts.map (·.name) := by
  induction ts with
  | nil => rfl
  | cons u ts ih =>
    by_cases hu : u.name = x.name
    · rw [TagDefinition.describeIn, if_pos hu]
      rfl
    · rw [TagDefinition.describeIn, if_neg hu, List.map_cons, List.map_cons, ih]

theorem TagDefinition.names_describeAll {xs : List TagDefinition} {ts : List Tag} :
    (xs.foldl (fun ts x => x.describeIn ts) ts).map (·.name) = ts.map (·.name) := by
  induction xs generalizing ts with
  | nil => rfl
  | cons x xs ih => exact ih.trans names_describeIn

namespace Document

variable {d : Document} {e : Edit} {es : List Edit} {path name : String} {verb : Verb}

def tagNames (d : Document) : List String :=
  d.tags.map (·.name)

theorem get?_definitions_apply :
    (d.apply e).definitions.get? name = (d.definitions.get? name).or (e.modelNamed? name) := by
  cases e with
  | model name' schema => exact Table.get?_putNew _ _ _ _
  | operation | tag | describeTags => exact (Option.or_none).symm

/-- A name is defined by what it had before, or else by what it was given first. -/
theorem get?_definitions_applyAll : (d.applyAll es).definitions.get? name =
    (d.definitions.get? name).or (es.findSome? (·.modelNamed? name)) := by
  induction es generalizing d with
  | nil => exact (Option.or_none).symm
  | cons e es ih =>
    have hfirst := ih (d := d.apply e)
    rw [get?_definitions_apply, Option.or_assoc] at hfirst
    refine hfirst.trans ?_
    cases h : e.modelNamed? name <;> simp [h]

theorem mem_tagNames_apply : name ∈ (d.apply e).tagNames ↔
    name ∈ d.tagNames ∨ ∃ t, e = .tag t ∧ t.name = name := by
  cases e with
  | tag t => exact Tag.mem_names_addTo.trans (by simp [tagNames])
  | describeTags definitions =>
    have hkept : (d.apply (.describeTags definitions)).tagNames = d.tagNames :=
      TagDefinition.names_describeAll
    simp [hkept]
  | operation path verb o => simp [tagNames, apply, addOperation]
  | model name schema => simp [tagNames, apply, addModel]

theorem mem_tagNames_applyAll : name ∈ (d.applyAll es).tagNames ↔
    name ∈ d.tagNames ∨ ∃ t, .tag t ∈ es ∧ t.name = name := by
  induction es generalizing d with
  | nil => simp [applyAll]
  | cons e es ih =>
    refine ih.trans ?_
    rw [mem_tagNames_apply, or_assoc]
    refine or_congr Iff.rfl ?_
    constructor
    · rintro (⟨t, rfl, ht⟩ | ⟨t, he, ht⟩)
      · exact ⟨t, List.mem_cons_self, ht⟩
      · exact ⟨t, List.mem_cons_of_mem _ he, ht⟩
    · rintro ⟨t, he, ht⟩
      rcases List.mem_cons.1 he with rfl | he
      · exact .inl ⟨t, rfl, ht⟩
      · exact .inr ⟨t, he, ht⟩

/-- Documents with operations in the same slots, the same definitions and the same names of tags. -/
structure Alike (d d' : Document) : Prop where
  slots : ∀ path verb, (d.operation? path verb).isSome ↔ (d'.operation? path verb).isSome
  definitions : ∀ name, d.definitions.get? name = d'.definitions.get? name
  tags : ∀ name, name ∈ d.tagNames ↔ name ∈ d'.tagNames

theorem alike_applyAll {es' : List Edit} (hmem : ∀ e, e ∈ es ↔ e ∈ es')
    (hmodels : ∀ name schema schema', .model name schema ∈ es → .model name schema' ∈ es →
      schema = schema') :
    (d.applyAll es).Alike (d.applyAll es') where
  slots path verb := by
    rw [operation?_applyAll_isSome_iff, operation?_applyAll_isSome_iff]
    exact or_congr Iff.rfl (exists_congr fun o => hmem _)
  definitions name := by
    rw [get?_definitions_applyAll, get?_definitions_applyAll]
    congr 1
    refine findSome?_eq_of_agree hmem fun e he e' he' schema schema' hs hs' => ?_
    rw [Edit.modelNamed?_eq_some_iff] at hs hs'
    exact hmodels name schema schema' (hs ▸ he) (hs' ▸ he')
  tags name := by
    rw [mem_tagNames_applyAll, mem_tagNames_applyAll]
    exact or_congr Iff.rfl (exists_congr fun t => and_congr_left' (hmem _))

/-- Groups of edits may change places where at most one of them writes a slot. -/
theorem operation?_applyAll_flatMap {α : Type} {as as' : List α} {edits : α → List Edit}
    (hmem : ∀ a, a ∈ as ↔ a ∈ as')
    (hone : ∀ a ∈ as, ∀ a' ∈ as, (∃ o, .operation path verb o ∈ edits a) →
      (∃ o, .operation path verb o ∈ edits a') → a = a') :
    (d.applyAll (as.flatMap edits)).operation? path verb =
      (d.applyAll (as'.flatMap edits)).operation? path verb := by
  have hwrites {a : α} {o : Operation}
      (ho : (edits a).reverse.findSome? (·.writtenAt? path verb) = some o) :
      ∃ o, .operation path verb o ∈ edits a := by
    obtain ⟨e, he, hw⟩ := List.exists_of_findSome?_eq_some ho
    exact ⟨o, Edit.writtenAt?_eq_some_iff.1 hw ▸ List.mem_reverse.1 he⟩
  rw [operation?_applyAll_eq, operation?_applyAll_eq, List.reverse_flatMap, List.reverse_flatMap,
    findSome?_flatMap, findSome?_flatMap]
  congr 1
  refine findSome?_eq_of_agree (fun a => ?_) fun a ha a' ha' o o' ho ho' => ?_
  · rw [List.mem_reverse, List.mem_reverse]
    exact hmem a
  · have heq := hone a (List.mem_reverse.1 ha) a' (List.mem_reverse.1 ha') (hwrites ho)
      (hwrites ho')
    rw [heq] at ho
    exact Option.some.inj (ho.symm.trans ho')

end Document

end Apidoc
