import Apidoc.Document
import Apidoc.Proofs.Table

namespace Apidoc

namespace Edit

variable {e : Edit} {path : String} {verb : Verb} {o : Operation}

def writtenAt? (path : String) (verb : Verb) : Edit → Option Operation
  | operation path' verb' o => if path' = path ∧ verb' = verb then some o else none
  | _ => none

theorem writtenAt?_eq_some_iff : e.writtenAt? path verb = some o ↔ e = operation path verb o := by
  cases e with
  | operation path' verb' o' =>
    simp only [writtenAt?, Option.ite_none_right_eq_some, Option.some.injEq, operation.injEq]
    exact and_assoc
  | model | tag | describeTags => simp [writtenAt?]

end Edit

namespace Document

variable {d : Document} {e : Edit} {edits : List Edit} {path : String} {verb : Verb} {o : Operation}

theorem operation?_addOperation (d : Document) (path path' : String) (verb verb' : Verb)
    (o : Operation) : (d.addOperation path verb o).operation? path' verb' =
      if path = path' ∧ verb = verb' then some o else d.operation? path' verb' := by
  simp only [operation?, addOperation, Table.get?_put]
  by_cases hp : path = path'
  · subst hp
    simp only [if_true, Option.bind_some, PathItem.operation?_set, true_and]
    split
    · rfl
    · cases d.paths.get? path <;> simp [PathItem.operation?]
      cases verb' <;> rfl
  · simp only [hp, false_and, if_false]

theorem operation?_apply_eq :
    (d.apply e).operation? path verb = (e.writtenAt? path verb).or (d.operation? path verb) := by
  cases e with
  | operation path' verb' o =>
    rw [apply, operation?_addOperation, Edit.writtenAt?]
    split <;> rfl
  | model | tag | describeTags => rfl

/-- A slot holds what was written in it last. -/
theorem operation?_applyAll_eq : (d.applyAll edits).operation? path verb =
    (edits.reverse.findSome? (·.writtenAt? path verb)).or (d.operation? path verb) := by
  induction edits generalizing d with
  | nil => rfl
  | cons e edits ih =>
    have hlast := ih (d := d.apply e)
    rw [operation?_apply_eq] at hlast
    rw [List.reverse_cons, List.findSome?_append, Option.or_assoc]
    refine hlast.trans ?_
    cases h : e.writtenAt? path verb <;> simp [h]

theorem operation?_applyAll (h : (d.applyAll edits).operation? path verb = some o) :
    .operation path verb o ∈ edits ∨ d.operation? path verb = some o := by
  rw [operation?_applyAll_eq] at h
  rcases Option.or_eq_some_iff.1 h with h | ⟨_, h⟩
  · obtain ⟨e, he, hw⟩ := List.exists_of_findSome?_eq_some h
    exact .inl (Edit.writtenAt?_eq_some_iff.1 hw ▸ List.mem_reverse.1 he)
  · exact .inr h

/-- A slot is occupied after a sequence of edits if it was before or one of them writes it. -/
theorem operation?_applyAll_isSome_iff :
    ((d.applyAll edits).operation? path verb).isSome ↔
      (d.operation? path verb).isSome ∨ ∃ o, .operation path verb o ∈ edits := by
  rw [operation?_applyAll_eq, Option.isSome_or, Bool.or_eq_true, or_comm,
    List.findSome?_isSome_iff]
  refine or_congr Iff.rfl ?_
  constructor
  · rintro ⟨e, he, hw⟩
    obtain ⟨o, ho⟩ := Option.isSome_iff_exists.1 hw
    exact ⟨o, Edit.writtenAt?_eq_some_iff.1 ho ▸ List.mem_reverse.1 he⟩
  · rintro ⟨o, ho⟩
    refine ⟨_, List.mem_reverse.2 ho, ?_⟩
    rw [Edit.writtenAt?_eq_some_iff.2 rfl]
    rfl

theorem mem_definitions_apply {entry : String × Schema}
    (h : entry ∈ (d.apply e).definitions.entries) :
    e = .model entry.1 entry.2 ∨ entry ∈ d.definitions.entries := by
  cases e with
  | model name schema =>
    rcases Table.mem_entries_putNew h with rfl | h
    · exact .inl rfl
    · exact .inr h
  | operation path verb o => exact .inr h
  | tag t => exact .inr h
  | describeTags definitions => exact .inr h

theorem mem_definitions_applyAll {entry : String × Schema}
    (h : entry ∈ (d.applyAll edits).definitions.entries) :
    .model entry.1 entry.2 ∈ edits ∨ entry ∈ d.definitions.entries := by
  induction edits generalizing d with
  | nil => exact .inr h
  | cons e edits ih =>
    rcases ih h with h | h
    · exact .inl (List.mem_cons_of_mem _ h)
    · rcases mem_definitions_apply h with rfl | h
      · exact .inl List.mem_cons_self
      · exact .inr h

theorem mem_keys_definitions_apply {name : String} :
    name ∈ (d.apply e).definitions.keys ↔
      name ∈ d.definitions.keys ∨ ∃ schema, e = .model name schema := by
  cases e with
  | model name' schema =>
    refine Table.mem_keys_putNew.trans (or_congr Iff.rfl ?_)
    constructor
    · rintro rfl
      exact ⟨schema, rfl⟩
    · rintro ⟨_, h⟩
      cases h
      rfl
  | operation path verb o => exact ⟨.inl, fun h => h.elim id nofun⟩
  | tag t => exact ⟨.inl, fun h => h.elim id nofun⟩
  | describeTags definitions => exact ⟨.inl, fun h => h.elim id nofun⟩

/-- The names that are defined after a sequence of edits. -/
theorem mem_keys_definitions_applyAll {name : String} :
    name ∈ (d.applyAll edits).definitions.keys ↔
      name ∈ d.definitions.keys ∨ ∃ schema, .model name schema ∈ edits := by
  induction edits generalizing d with
  | nil => simp [applyAll]
  | cons e edits ih =>
    refine ih.trans ?_
    rw [mem_keys_definitions_apply]
    constructor
    · rintro ((h | ⟨schema, rfl⟩) | ⟨schema, h⟩)
      · exact .inl h
      · exact .inr ⟨schema, List.mem_cons_self⟩
      · exact .inr ⟨schema, List.mem_cons_of_mem _ h⟩
    · rintro (h | ⟨schema, h⟩)
      · exact .inl (.inl h)
      · rcases List.mem_cons.1 h with rfl | h
        · exact .inl (.inr ⟨schema, rfl⟩)
        · exact .inr ⟨schema, h⟩

end Document

end Apidoc
