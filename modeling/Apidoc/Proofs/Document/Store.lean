import Apidoc.Proofs.Distinct
import Apidoc.Proofs.Document.Order
import Apidoc.Proofs.Document.Replay

namespace Apidoc

/-- The description that a definition gives to the tags of a name. -/
def TagDefinition.descriptionOf? (name : String) (x : TagDefinition) : Option String :=
  if x.name = name ∧ x.name ≠ "" ∧ x.description ≠ "" then some x.description else none

namespace Edit

def path? : Edit → Option String
  | operation path _ _ => some path
  | _ => none

def modelName? : Edit → Option String
  | model name _ => some name
  | _ => none

def tagName? : Edit → Option String
  | tag t => some t.name
  | _ => none

/-- The first description that an edit gives to the tags of a name. -/
def descriptionOf? (name : String) : Edit → Option String
  | tag t => if t.name = name then t.description else none
  | describeTags xs => xs.findSome? (·.descriptionOf? name)
  | _ => none

def declares (name : String) (e : Edit) : Bool :=
  e.tagName? == some name

end Edit

/-- The edits that find a tag of this name, or declare it. -/
def Document.editsOfTag (d : Document) (name : String) (es : List Edit) : List Edit :=
  if name ∈ d.tagNames then es else es.dropWhile fun e => !e.declares name

/-- What a document holds after edits of another one. -/
structure Document.Stores (d : Document) (es : List Edit) (d' : Document) : Prop where
  operations : ∀ path verb, d'.operation? path verb =
    (es.reverse.findSome? (·.writtenAt? path verb)).or (d.operation? path verb)
  definitions : ∀ name, d'.definitions.get? name =
    (d.definitions.get? name).or (es.findSome? (·.modelNamed? name))
  paths : d'.paths.keys =
    d.paths.keys ++ ((es.filterMap (·.path?)).removeAll d.paths.keys).eraseDups
  models : d'.definitions.keys =
    d.definitions.keys ++ ((es.filterMap (·.modelName?)).removeAll d.definitions.keys).eraseDups
  tags : d'.tagNames = d.tagNames ++ ((es.filterMap (·.tagName?)).removeAll d.tagNames).eraseDups
  distinct : d'.tagNames.Nodup
  descriptions : ∀ t ∈ d'.tags, t.description = ((d.tag? t.name).bind (·.description)).or
    ((d.editsOfTag t.name es).findSome? (·.descriptionOf? t.name))

variable {d : Document} {e : Edit} {es : List Edit} {t : Tag} {ts : List Tag} {name : String}

section Names

theorem Tag.names_addTo : (t.addTo ts).map (·.name) =
    if t.name ∈ ts.map (·.name) then ts.map (·.name) else ts.map (·.name) ++ [t.name] := by
  induction ts with
  | nil => rfl
  | cons u ts ih =>
    by_cases hu : u.name = t.name
    · have hmem : t.name ∈ (u :: ts).map (·.name) := by simp [hu]
      rw [addTo, if_pos hu, if_pos hmem]
      rfl
    · rw [addTo, if_neg hu, List.map_cons, ih, List.map_cons]
      by_cases ht : t.name ∈ ts.map (·.name)
      · rw [if_pos ht, if_pos (List.mem_cons_of_mem _ ht)]
      · have hnot : t.name ∉ u.name :: ts.map (·.name) := by
          intro h
          rcases List.mem_cons.1 h with h | h
          · exact hu h.symm
          · exact ht h
        rw [if_neg ht, if_neg hnot]
        rfl

namespace Document

/-- Names that each edit adds at most one to, unless it is there, stand in the order of their first
appearance. -/
theorem names_applyAll (names : Document → List String) {name? : Edit → Option String}
    (hstep : ∀ d e, names (d.apply e) = (name? e).elim (names d) fun k =>
      if k ∈ names d then names d else names d ++ [k]) :
    names (d.applyAll es) =
      names d ++ ((es.filterMap name?).removeAll (names d)).eraseDups := by
  have hfold : names (d.applyAll es) = (es.filterMap name?).foldl
      (fun kept k => if k ∈ kept then kept else kept ++ [k]) (names d) := by
    induction es generalizing d with
    | nil => rfl
    | cons e es ih =>
      have hrest := ih (d := d.apply e)
      rw [hstep] at hrest
      refine hrest.trans ?_
      cases h : name? e with
      | none => rw [List.filterMap_cons_none h]; rfl
      | some k => rw [List.filterMap_cons_some h]; rfl
  rw [hfold, foldl_addNew_self]

theorem keys_paths_apply (d : Document) (e : Edit) :
    (d.apply e).paths.keys = e.path?.elim d.paths.keys fun k =>
      if k ∈ d.paths.keys then d.paths.keys else d.paths.keys ++ [k] := by
  cases e with
  | operation path verb o => exact Table.keys_put _ _ _
  | model => rfl
  | tag => rfl
  | describeTags => rfl

theorem mem_keys_paths_applyAll {path : String} : path ∈ (d.applyAll es).paths.keys ↔
    path ∈ d.paths.keys ∨ ∃ verb o, .operation path verb o ∈ es := by
  have hwritten : path ∈ es.filterMap (·.path?) ↔ ∃ verb o, .operation path verb o ∈ es := by
    rw [List.mem_filterMap]
    constructor
    · rintro ⟨e, he, hpath⟩
      cases e with
      | operation path' verb o =>
        cases hpath
        exact ⟨verb, o, he⟩
      | model => cases hpath
      | tag => cases hpath
      | describeTags => cases hpath
    · rintro ⟨verb, o, he⟩
      exact ⟨_, he, rfl⟩
  rw [names_applyAll (fun d => d.paths.keys) keys_paths_apply, List.mem_append,
    List.mem_eraseDups, ← hwritten]
  by_cases hd : path ∈ d.paths.keys <;> simp [List.removeAll, hd]

theorem keys_definitions_apply (d : Document) (e : Edit) :
    (d.apply e).definitions.keys = e.modelName?.elim d.definitions.keys fun k =>
      if k ∈ d.definitions.keys then d.definitions.keys else d.definitions.keys ++ [k] := by
  cases e with
  | model name schema => exact Table.keys_putNew _ _ _
  | operation => rfl
  | tag => rfl
  | describeTags => rfl

theorem tagNames_apply (d : Document) (e : Edit) :
    (d.apply e).tagNames = e.tagName?.elim d.tagNames fun k =>
      if k ∈ d.tagNames then d.tagNames else d.tagNames ++ [k] := by
  cases e with
  | tag t => exact Tag.names_addTo
  | describeTags xs => exact TagDefinition.names_describeAll
  | operation => rfl
  | model => rfl

end Document

end Names

section Descriptions

theorem firstTag?_eq_none_iff : firstTag? name ts = none ↔ name ∉ ts.map (·.name) := by
  simp [firstTag?]

theorem firstTag?_of_mem (hn : (ts.map (·.name)).Nodup) (ht : t ∈ ts) :
    firstTag? t.name ts = some t := by
  induction ts with
  | nil => cases ht
  | cons u ts ih =>
    obtain ⟨hu, hts⟩ := List.nodup_cons.1 hn
    rw [firstTag?_cons]
    rcases List.mem_cons.1 ht with rfl | ht
    · rw [if_pos rfl]
    · have hne : u.name ≠ t.name := by
        intro h
        exact hu (List.mem_map.2 ⟨t, ht, h.symm⟩)
      rw [if_neg hne, ih hts ht]

/-- A tag after all the definitions that say something. -/
theorem firstTag?_describeAll {xs : List TagDefinition} :
    firstTag? name ((xs.filter fun x => x.name ≠ "" ∧ x.description ≠ "").foldl
        (fun ts x => x.describeIn ts) ts) =
      (firstTag? name ts).map fun t =>
        { t with description := t.description.or (xs.findSome? (·.descriptionOf? name)) } := by
  induction xs generalizing ts with
  | nil => simp
  | cons x xs ih =>
    rw [List.findSome?_cons]
    by_cases hx : x.name ≠ "" ∧ x.description ≠ ""
    · rw [List.filter_cons_of_pos (by simpa using hx), List.foldl_cons, ih, firstTag?_describeIn,
        Option.map_map]
      congr 1
      funext t
      by_cases hn : name = x.name
      · simp [TagDefinition.descriptionOf?, hn, hx]
      · simp [TagDefinition.descriptionOf?, hn, Ne.symm hn]
    · rw [List.filter_cons_of_neg (by simpa using hx), ih]
      have hnone : x.descriptionOf? name = none := if_neg fun h => hx h.2
      rw [hnone]

namespace Edit

theorem firstTag?_inTags_of_some (h : firstTag? name ts = some t) :
    firstTag? name (e.inTags ts) =
      some { t with description := t.description.or (e.descriptionOf? name) } := by
  cases e with
  | tag u =>
    rw [inTags, firstTag?_addTo, descriptionOf?]
    by_cases hu : u.name = name
    · rw [if_pos hu, if_pos hu, h]
    · rw [if_neg hu, if_neg hu, h, Option.or_none]
  | describeTags xs =>
    rw [inTags, firstTag?_describeAll, h]
    rfl
  | operation path verb o => simpa [inTags, descriptionOf?] using h
  | model name' schema => simpa [inTags, descriptionOf?] using h

theorem firstTag?_inTags_of_none (h : firstTag? name ts = none) :
    firstTag? name (e.inTags ts) =
      if e.declares name then some ⟨name, e.descriptionOf? name⟩ else none := by
  cases e with
  | tag u =>
    rw [inTags, firstTag?_addTo, h]
    by_cases hu : u.name = name
    · obtain ⟨uname, description⟩ := u
      cases hu
      simp [declares, tagName?, descriptionOf?]
    · simp [declares, tagName?, hu]
  | describeTags xs =>
    rw [inTags, firstTag?_describeAll, h]
    rfl
  | operation => exact h
  | model => exact h

theorem firstTag?_foldIn_of_some (h : firstTag? name ts = some t) :
    firstTag? name (foldIn inTags es ts) =
      some { t with description := t.description.or (es.findSome? (·.descriptionOf? name)) } := by
  induction es generalizing t ts with
  | nil => simpa [foldIn] using h
  | cons e es ih =>
    refine (ih (firstTag?_inTags_of_some (e := e) h)).trans ?_
    rw [List.findSome?_cons, Option.or_assoc]
    cases e.descriptionOf? name <;> rfl

/-- A tag that is not there yet is declared by the first edit of its name. -/
theorem firstTag?_foldIn_of_none (h : firstTag? name ts = none)
    (ht : firstTag? name (foldIn inTags es ts) = some t) :
    t.description =
      (es.dropWhile fun e => !e.declares name).findSome? (·.descriptionOf? name) := by
  induction es generalizing ts with
  | nil =>
    rw [foldIn, List.foldl_nil, h] at ht
    cases ht
  | cons e es ih =>
    have hfirst := firstTag?_inTags_of_none (e := e) h
    cases hd : e.declares name with
    | false =>
      rw [hd] at hfirst
      rw [List.dropWhile_cons_of_pos (by simp [hd])]
      exact ih hfirst ht
    | true =>
      rw [hd] at hfirst
      rw [List.dropWhile_cons_of_neg (by simp [hd]), List.findSome?_cons]
      cases Option.some.inj ((firstTag?_foldIn_of_some hfirst).symm.trans ht)
      cases e.descriptionOf? name <;> rfl

end Edit

end Descriptions

namespace Document

theorem description_applyAll (hd : (d.applyAll es).tagNames.Nodup) (ht : t ∈ (d.applyAll es).tags) :
    t.description = ((d.tag? t.name).bind (·.description)).or
      ((d.editsOfTag t.name es).findSome? (·.descriptionOf? t.name)) := by
  have htags : (d.applyAll es).tags = Edit.foldIn Edit.inTags es d.tags := by rw [applyAll_eq]
  have hfirst : firstTag? t.name (Edit.foldIn Edit.inTags es d.tags) = some t :=
    htags ▸ firstTag?_of_mem hd ht
  rw [tag?_eq]
  cases hbefore : firstTag? t.name d.tags with
  | none =>
    have hnew : t.name ∉ d.tagNames := firstTag?_eq_none_iff.1 hbefore
    rw [editsOfTag, if_neg hnew, Option.bind_none, Option.none_or]
    exact Edit.firstTag?_foldIn_of_none hbefore hfirst
  | some u =>
    have hknown : t.name ∈ d.tagNames := by
      by_contra hnew
      rw [firstTag?_eq_none_iff.2 hnew] at hbefore
      cases hbefore
    rw [editsOfTag, if_pos hknown, Option.bind_some]
    have hlast := (Edit.firstTag?_foldIn_of_some hbefore).symm.trans hfirst
    exact (congrArg Tag.description (Option.some.inj hlast)).symm

theorem tagNames_applyAll : (d.applyAll es).tagNames =
    d.tagNames ++ ((es.filterMap (·.tagName?)).removeAll d.tagNames).eraseDups :=
  names_applyAll tagNames tagNames_apply

theorem nodup_tagNames_applyAll (hd : d.tagNames.Nodup) : (d.applyAll es).tagNames.Nodup := by
  rw [tagNames_applyAll]
  exact nodup_append_eraseDups hd

/-- A document after any edits, where the tags have distinct names. -/
theorem stores_applyAll (hd : d.tagNames.Nodup) : d.Stores es (d.applyAll es) := by
  have hdistinct : (d.applyAll es).tagNames.Nodup := nodup_tagNames_applyAll hd
  exact {
    operations := fun _ _ => operation?_applyAll_eq
    definitions := fun _ => get?_definitions_applyAll
    paths := names_applyAll (fun d => d.paths.keys) keys_paths_apply
    models := names_applyAll (fun d => d.definitions.keys) keys_definitions_apply
    tags := tagNames_applyAll
    distinct := hdistinct
    descriptions := fun _ => description_applyAll hdistinct }

end Document

section Kennel

def kennelDocument : Document where
  tags := [⟨"dogs", none⟩, ⟨"staff", some "Who works here"⟩]

/-- A definition before its tag is declared, one without a description, one that is repeated, and a
slot and a model that are given twice. -/
def kennelEdits : List Edit := [
  .describeTags [⟨"cats", "Too early"⟩, ⟨"dogs", ""⟩],
  .tag ⟨"cats", none⟩,
  .operation "/dogs" .get { operationId := "first" },
  .model "Dog" (.scalar "string" none),
  .describeTags [⟨"cats", "Cats"⟩, ⟨"cats", "Again"⟩, ⟨"staff", "Staff"⟩],
  .tag ⟨"dogs", some "Dogs"⟩,
  .operation "/dogs" .get { operationId := "last" },
  .model "Dog" (.scalar "integer" none)]

theorem kennelDocument_stores : kennelDocument.tagNames.Nodup ∧
    kennelDocument.Stores kennelEdits (kennelDocument.applyAll kennelEdits) ∧
    (kennelDocument.applyAll kennelEdits).tags =
      [⟨"dogs", some "Dogs"⟩, ⟨"staff", some "Who works here"⟩, ⟨"cats", some "Cats"⟩] :=
  ⟨by decide, Document.stores_applyAll (by decide), by decide⟩

end Kennel

end Apidoc
