import Apidoc.Proofs.Document.Edits

namespace Apidoc

structure Tag.KeptAs (t t' : Tag) : Prop where
  name : t'.name = t.name
  description : ∀ text, t.description = some text → t'.description = some text

/-- The tags stand at the beginning of others, each with its name and the description it has. -/
inductive TagsKept : List Tag → List Tag → Prop where
  | nil {ts : List Tag} : TagsKept [] ts
  | cons {t t' : Tag} {ts ts' : List Tag} :
    t.KeptAs t' → TagsKept ts ts' → TagsKept (t :: ts) (t' :: ts')

section Tags

variable {t : Tag} {x : TagDefinition} {ts ts' us : List Tag}

theorem Tag.keptAs_refl (t : Tag) : t.KeptAs t :=
  ⟨rfl, fun _ h => h⟩

theorem Tag.keptAs_or (t : Tag) (other : Option String) :
    t.KeptAs { t with description := t.description.or other } where
  name := rfl
  description text h := by
    rw [h]
    rfl

theorem TagsKept.refl (ts : List Tag) : TagsKept ts ts := by
  induction ts with
  | nil => exact .nil
  | cons t ts ih => exact .cons t.keptAs_refl ih

theorem TagsKept.trans (h : TagsKept ts ts') (h' : TagsKept ts' us) : TagsKept ts us := by
  induction h generalizing us with
  | nil => exact .nil
  | cons ht hts ih =>
    cases h' with
    | cons ht' hts' =>
      have hkept : Tag.KeptAs _ _ :=
        ⟨ht'.name.trans ht.name, fun text h => ht'.description text (ht.description text h)⟩
      exact .cons hkept (ih hts')

theorem Tag.kept_addTo : TagsKept ts (t.addTo ts) := by
  induction ts with
  | nil => exact .nil
  | cons u ts ih =>
    by_cases hu : u.name = t.name
    · rw [addTo, if_pos hu]
      exact .cons (u.keptAs_or _) (.refl ts)
    · rw [addTo, if_neg hu]
      exact .cons u.keptAs_refl ih

theorem TagDefinition.kept_describeIn : TagsKept ts (x.describeIn ts) := by
  induction ts with
  | nil => exact .nil
  | cons u ts ih =>
    by_cases hu : u.name = x.name
    · rw [describeIn, if_pos hu]
      exact .cons (u.keptAs_or _) (.refl ts)
    · rw [describeIn, if_neg hu]
      exact .cons u.keptAs_refl ih

theorem TagDefinition.kept_describeAll {xs : List TagDefinition} :
    TagsKept ts (xs.foldl (fun ts x => x.describeIn ts) ts) := by
  induction xs generalizing ts with
  | nil => exact .refl ts
  | cons x xs ih => exact kept_describeIn.trans ih

end Tags

namespace Document

/-- What a document holds is kept, in its order, by one that it grows to. -/
structure GrowsTo (d d' : Document) : Prop where
  frame : d' = { d with tags := d'.tags, paths := d'.paths, definitions := d'.definitions }
  definitions : d.definitions.entries <+: d'.definitions.entries
  paths : d.paths.keys <+: d'.paths.keys
  slots : ∀ path verb, (d.operation? path verb).isSome → (d'.operation? path verb).isSome
  tags : TagsKept d.tags d'.tags

variable {d d' d'' : Document} {e : Edit} {es : List Edit}

theorem GrowsTo.refl (d : Document) : d.GrowsTo d :=
  ⟨rfl, List.prefix_rfl, List.prefix_rfl, fun _ _ h => h, .refl d.tags⟩

theorem GrowsTo.trans (h : d.GrowsTo d') (h' : d'.GrowsTo d'') : d.GrowsTo d'' where
  frame := by
    rw [h'.frame, h.frame]
  definitions := h.definitions.trans h'.definitions
  paths := h.paths.trans h'.paths
  slots path verb hs := h'.slots path verb (h.slots path verb hs)
  tags := h.tags.trans h'.tags

theorem slot_apply {path : String} {verb : Verb} (h : (d.operation? path verb).isSome) :
    ((d.apply e).operation? path verb).isSome := by
  rw [operation?_apply_eq, Option.isSome_or, h, Bool.or_true]

theorem grows_apply : d.GrowsTo (d.apply e) := by
  cases e with
  | operation path verb o =>
    exact ⟨rfl, List.prefix_rfl, Table.keys_prefix_put, fun _ _ => slot_apply, .refl d.tags⟩
  | model name schema =>
    exact ⟨rfl, Table.entries_prefix_putNew, List.prefix_rfl, fun _ _ => slot_apply, .refl d.tags⟩
  | tag t =>
    exact ⟨rfl, List.prefix_rfl, List.prefix_rfl, fun _ _ => slot_apply, Tag.kept_addTo⟩
  | describeTags definitions =>
    exact ⟨rfl, List.prefix_rfl, List.prefix_rfl, fun _ _ => slot_apply,
      TagDefinition.kept_describeAll⟩

theorem grows_applyAll : d.GrowsTo (d.applyAll es) := by
  induction es generalizing d with
  | nil => exact .refl d
  | cons e es ih => exact grows_apply.trans ih

end Document

end Apidoc
