import Apidoc.Proofs.Document.Edits
import Mathlib.Data.List.Induction

namespace Apidoc

namespace Edit

def inPaths : Edit → Table PathItem → Table PathItem
  | .operation path verb o, t => t.put path (((t.get? path).getD {}).set o verb)
  | _, t => t

def inDefinitions : Edit → Table Schema → Table Schema
  | .model name schema, t => t.putNew name schema
  | _, t => t

def inTags : Edit → List Tag → List Tag
  | .tag t, ts => t.addTo ts
  | .describeTags definitions, ts =>
    (definitions.filter fun t => t.name ≠ "" ∧ t.description ≠ "").foldl
      (fun ts t => t.describeIn ts) ts
  | _, ts => ts

variable {e : Edit} {es : List Edit}

/-- What edits do to one part of a document. -/
def foldIn {α : Type} (part : Edit → α → α) (es : List Edit) (a : α) : α :=
  es.foldl (fun a e => part e a) a

variable {α : Type} {part : Edit → α → α} {a : α}

theorem foldIn_append_singleton : foldIn part (es ++ [e]) a = part e (foldIn part es a) := by
  simp [foldIn]

theorem foldIn_fixed (h : ∀ e ∈ es, part e a = a) : foldIn part es a = a := by
  induction es with
  | nil => rfl
  | cons e es ih =>
    rw [foldIn, List.foldl_cons, h e List.mem_cons_self]
    exact ih fun e' h' => h e' (List.mem_cons_of_mem _ h')

end Edit

theorem Document.applyAll_eq (d : Document) (es : List Edit) :
    d.applyAll es = { d with
      paths := Edit.foldIn Edit.inPaths es d.paths
      definitions := Edit.foldIn Edit.inDefinitions es d.definitions
      tags := Edit.foldIn Edit.inTags es d.tags } := by
  induction es generalizing d with
  | nil => rfl
  | cons e es ih =>
    refine (ih (d.apply e)).trans ?_
    cases e <;> rfl

namespace Document

variable {d : Document} {e : Edit} {es : List Edit}

theorem tags_apply : (d.apply e).tags = e.inTags d.tags := by
  cases e <;> rfl

theorem inDefinitions_applyAll (h : e ∈ es) :
    e.inDefinitions (d.applyAll es).definitions = (d.applyAll es).definitions := by
  cases e with
  | model name schema =>
    exact Table.putNew_of_mem (mem_keys_definitions_applyAll.2 (.inr ⟨schema, h⟩))
  | operation => rfl
  | tag => rfl
  | describeTags => rfl

end Document

namespace Edit

section Paths

variable {path path' : String} {verb verb' : Verb} {o o' : Operation} {t u : Table PathItem}
  {e e' : Edit}

theorem set_set_same {p : PathItem} : (p.set o verb).set o' verb = p.set o' verb := by
  cases verb <;> rfl

theorem set_set_comm {p : PathItem} (h : verb ≠ verb') :
    (p.set o verb).set o' verb' = (p.set o' verb').set o verb := by
  cases verb <;> cases verb' <;> first | rfl | exact (h rfl).elim

theorem mem_keys_inPaths (h : path ∈ t.keys) : path ∈ (e.inPaths t).keys := by
  cases e with
  | operation other verb o => exact Table.mem_keys_put.2 (.inl h)
  | model => exact h
  | tag => exact h
  | describeTags => exact h

theorem inPaths_same_slot :
    (operation path verb o').inPaths ((operation path verb o).inPaths t) =
      (operation path verb o').inPaths t := by
  simp only [inPaths, Table.get?_put, if_true, Option.getD_some, set_set_same, Table.put_put_same]

theorem inPaths_other_slot (hp : path ∈ t.keys) (h : path = path' → verb ≠ verb') :
    (operation path' verb' o').inPaths ((operation path verb o).inPaths t) =
      (operation path verb o).inPaths ((operation path' verb' o').inPaths t) := by
  by_cases hpath : path = path'
  · subst hpath
    simp only [inPaths, Table.get?_put, if_true, Option.getD_some, Table.put_put_same,
      set_set_comm (h rfl)]
  · simp only [inPaths, Table.get?_put, hpath, Ne.symm hpath, if_false]
    exact (Table.put_put_comm hp hpath).symm

theorem inPaths_congr (h : (operation path verb o).inPaths t = (operation path verb o).inPaths u)
    (ht : ∀ path' verb' o', e = operation path' verb' o' → path' ∈ t.keys)
    (hu : ∀ path' verb' o', e = operation path' verb' o' → path' ∈ u.keys) :
    (operation path verb o).inPaths (e.inPaths t) =
      (operation path verb o).inPaths (e.inPaths u) := by
  cases e with
  | operation path' verb' o' =>
    by_cases hslot : path' = path ∧ verb' = verb
    · obtain ⟨rfl, rfl⟩ := hslot
      rw [inPaths_same_slot, inPaths_same_slot, h]
    · have hother : path' = path → verb' ≠ verb := fun hp hv => hslot ⟨hp, hv⟩
      rw [inPaths_other_slot (ht _ _ _ rfl) hother, inPaths_other_slot (hu _ _ _ rfl) hother, h]
  | model => exact h
  | tag => exact h
  | describeTags => exact h

theorem foldIn_inPaths_congr {es : List Edit}
    (h : (operation path verb o).inPaths t = (operation path verb o).inPaths u)
    (ht : ∀ path' verb' o', operation path' verb' o' ∈ es → path' ∈ t.keys)
    (hu : ∀ path' verb' o', operation path' verb' o' ∈ es → path' ∈ u.keys) :
    (operation path verb o).inPaths (foldIn inPaths es t) =
      (operation path verb o).inPaths (foldIn inPaths es u) := by
  induction es generalizing t u with
  | nil => exact h
  | cons e es ih =>
    refine ih (inPaths_congr h ?_ ?_) ?_ ?_
    · rintro path' verb' o' rfl
      exact ht _ _ _ List.mem_cons_self
    · rintro path' verb' o' rfl
      exact hu _ _ _ List.mem_cons_self
    · intro path' verb' o' he
      exact mem_keys_inPaths (ht _ _ _ (List.mem_cons_of_mem _ he))
    · intro path' verb' o' he
      exact mem_keys_inPaths (hu _ _ _ (List.mem_cons_of_mem _ he))

theorem mem_keys_foldIn_inPaths {es : List Edit} (h : operation path verb o ∈ es) :
    path ∈ (foldIn inPaths es t).keys := by
  induction es using List.reverseRecOn with
  | nil => cases h
  | append_singleton es e ih =>
    rw [foldIn_append_singleton]
    rcases List.mem_append.1 h with h | h
    · exact mem_keys_inPaths (ih h)
    · cases List.mem_singleton.1 h
      exact Table.mem_keys_put.2 (.inr rfl)

/-- Writing paths again changes nothing: what is overwritten does not show, and what is written last
is there. -/
theorem foldIn_inPaths_again {es : List Edit} :
    foldIn inPaths es (foldIn inPaths es t) = foldIn inPaths es t := by
  -- From the right: what the others do differently after the last write, the last write undoes.
  induction es using List.reverseRecOn with
  | nil => rfl
  | append_singleton es e ih =>
    rw [foldIn_append_singleton, foldIn_append_singleton]
    cases e with
    | operation path verb o =>
      have hknown {path' verb' o'} (he : operation path' verb' o' ∈ es) :
          path' ∈ (foldIn inPaths es t).keys := mem_keys_foldIn_inPaths he
      rw [foldIn_inPaths_congr inPaths_same_slot (fun _ _ _ he => mem_keys_inPaths (hknown he))
        (fun _ _ _ he => hknown he), ih]
    | model => exact ih
    | tag => exact ih
    | describeTags => exact ih

end Paths

end Edit

section Tags

variable {t u : Tag} {ts : List Tag} {x y : TagDefinition} {name : String}

def firstTag? (name : String) (ts : List Tag) : Option Tag :=
  ts.find? (·.name == name)

theorem Document.tag?_eq {d : Document} : d.tag? name = firstTag? name d.tags := rfl

theorem name_of_firstTag? (h : firstTag? name ts = some t) : t.name = name := by
  simpa using List.find?_some h

theorem firstTag?_cons : firstTag? name (t :: ts) =
    if t.name = name then some t else firstTag? name ts := by
  by_cases h : t.name = name <;> simp [firstTag?, h]

/-- A tag is settled when the first tag of its name has a description if it has one itself. -/
def Tag.Settled (t : Tag) (ts : List Tag) : Prop :=
  ∃ u, firstTag? t.name ts = some u ∧ (t.description.isSome → u.description.isSome)

/-- A definition is settled when the first tag of its name, if there is one, has a description. -/
def TagDefinition.Settled (x : TagDefinition) (ts : List Tag) : Prop :=
  ∀ u, firstTag? x.name ts = some u → u.description.isSome

theorem Tag.Settled.addTo (h : t.Settled ts) : t.addTo ts = ts := by
  obtain ⟨u, hu, hd⟩ := h
  induction ts with
  | nil => cases hu
  | cons v ts ih =>
    by_cases hv : v.name = t.name
    · have huv : v = u := by simpa [firstTag?, hv] using hu
      subst huv
      rw [Tag.addTo, if_pos hv]
      obtain ⟨name, description⟩ := v
      cases description with
      | some text => rfl
      | none =>
        cases ht : t.description with
        | none => rfl
        | some text => simp [ht] at hd
    · have hrest : firstTag? t.name ts = some u := by simpa [firstTag?, hv] using hu
      rw [Tag.addTo, if_neg hv, ih hrest]

theorem TagDefinition.Settled.describeIn (h : x.Settled ts) : x.describeIn ts = ts := by
  induction ts with
  | nil => rfl
  | cons v ts ih =>
    by_cases hv : v.name = x.name
    · have hd := h v (by simp [firstTag?, hv])
      obtain ⟨text, ht⟩ := Option.isSome_iff_exists.1 hd
      rw [TagDefinition.describeIn, if_pos hv, ht]
      obtain ⟨name, description⟩ := v
      cases ht
      rfl
    · have hrest : x.Settled ts := fun u hu => h u (by simpa [firstTag?, hv] using hu)
      rw [TagDefinition.describeIn, if_neg hv, ih hrest]

theorem firstTag?_addTo : firstTag? name (t.addTo ts) =
    if t.name = name then
      some (match firstTag? name ts with
        | some u => { u with description := u.description.or t.description }
        | none => t)
    else firstTag? name ts := by
  induction ts with
  | nil =>
    by_cases hn : t.name = name <;> simp [firstTag?, Tag.addTo, hn]
  | cons v ts ih =>
    by_cases hv : v.name = t.name
    · rw [Tag.addTo, if_pos hv, firstTag?_cons, firstTag?_cons]
      by_cases hn : t.name = name <;> simp [hv, hn]
    · rw [Tag.addTo, if_neg hv, firstTag?_cons, firstTag?_cons, ih]
      by_cases hn : v.name = name
      · have ht : t.name ≠ name := fun ht => hv (hn.trans ht.symm)
        simp [hn, ht]
      · simp [hn]

theorem firstTag?_describeIn : firstTag? name (x.describeIn ts) =
    (firstTag? name ts).map fun u =>
      if name = x.name then { u with description := u.description.or (some x.description) }
      else u := by
  induction ts with
  | nil => rfl
  | cons v ts ih =>
    by_cases hv : v.name = x.name
    · rw [TagDefinition.describeIn, if_pos hv, firstTag?_cons, firstTag?_cons]
      by_cases hn : v.name = name
      · have hx : name = x.name := hn.symm.trans hv
        simp [hn, hx]
      · have hx : name ≠ x.name := fun hx => hn (hv.trans hx.symm)
        simp [hn, hx]
    · rw [TagDefinition.describeIn, if_neg hv, firstTag?_cons, firstTag?_cons, ih]
      by_cases hn : v.name = name
      · have hx : name ≠ x.name := fun hx => hv (hn.trans hx)
        simp [hn, hx]
      · simp [hn]

theorem Tag.settled_addTo : t.Settled (t.addTo ts) := by
  unfold Settled
  rw [firstTag?_addTo, if_pos rfl]
  refine ⟨_, rfl, fun hd => ?_⟩
  cases firstTag? t.name ts with
  | none => exact hd
  | some u => cases hu : u.description <;> simp [hu, hd]

theorem Tag.Settled.after_addTo (h : t.Settled ts) : t.Settled (u.addTo ts) := by
  obtain ⟨v, hv, hd⟩ := h
  unfold Settled
  rw [firstTag?_addTo]
  split
  · rename_i hn
    rw [hv]
    refine ⟨_, rfl, fun ht => ?_⟩
    simp [Option.isSome_or, hd ht]
  · exact ⟨v, hv, hd⟩

theorem Tag.Settled.after_describeIn (h : t.Settled ts) : t.Settled (x.describeIn ts) := by
  obtain ⟨v, hv, hd⟩ := h
  unfold Settled
  rw [firstTag?_describeIn, hv]
  refine ⟨_, rfl, fun ht => ?_⟩
  split
  · simp
  · exact hd ht

theorem TagDefinition.settled_describeIn : x.Settled (x.describeIn ts) := by
  intro u hu
  rw [firstTag?_describeIn] at hu
  obtain ⟨v, _, rfl⟩ := Option.map_eq_some_iff.1 hu
  simp

theorem TagDefinition.Settled.after_describeIn (h : x.Settled ts) :
    x.Settled (y.describeIn ts) := by
  intro u hu
  rw [firstTag?_describeIn] at hu
  obtain ⟨v, hv, rfl⟩ := Option.map_eq_some_iff.1 hu
  split
  · simp
  · exact h v hv

theorem TagDefinition.settled_foldl {xs : List TagDefinition} :
    ∀ x ∈ xs, x.Settled (xs.foldl (fun ts x => x.describeIn ts) ts) := by
  induction xs using List.reverseRecOn with
  | nil => nofun
  | append_singleton xs y ih =>
    intro x hx
    rw [List.foldl_append, List.foldl_cons, List.foldl_nil]
    rcases List.mem_append.1 hx with hx | hx
    · exact (ih x hx).after_describeIn
    · cases List.mem_singleton.1 hx
      exact settled_describeIn

theorem Tag.Settled.after_describeAll {xs : List TagDefinition} (h : t.Settled ts) :
    t.Settled (xs.foldl (fun ts x => x.describeIn ts) ts) := by
  induction xs generalizing ts with
  | nil => exact h
  | cons x xs ih => exact ih h.after_describeIn

end Tags

namespace Edit

variable {t : Tag} {ts : List Tag} {es : List Edit} {definitions : List TagDefinition}

theorem settled_inTags {e : Edit} (h : t.Settled ts) : t.Settled (e.inTags ts) := by
  cases e with
  | tag u => exact h.after_addTo
  | describeTags definitions => exact h.after_describeAll
  | operation => exact h
  | model => exact h

theorem settled_foldIn_inTags (h : tag t ∈ es) : t.Settled (foldIn inTags es ts) := by
  induction es using List.reverseRecOn with
  | nil => cases h
  | append_singleton es e ih =>
    rw [foldIn_append_singleton]
    rcases List.mem_append.1 h with h | h
    · exact settled_inTags (ih h)
    · cases List.mem_singleton.1 h
      exact Tag.settled_addTo

theorem describeTags_again :
    (describeTags definitions).inTags ((describeTags definitions).inTags ts) =
      (describeTags definitions).inTags ts := by
  have hfixed (xs : List TagDefinition) (ts : List Tag) (h : ∀ x ∈ xs, x.Settled ts) :
      xs.foldl (fun ts x => x.describeIn ts) ts = ts := by
    induction xs with
    | nil => rfl
    | cons x xs ih =>
      rw [List.foldl_cons, (h x List.mem_cons_self).describeIn]
      exact ih fun y hy => h y (List.mem_cons_of_mem _ hy)
  exact hfixed _ _ TagDefinition.settled_foldl

theorem foldIn_inTags_again (hsame : ∀ ds, describeTags ds ∈ es → ds = definitions)
    (hlast : es = [] ∨ ∃ before, es = before ++ [describeTags definitions]) :
    foldIn inTags es (foldIn inTags es ts) = foldIn inTags es ts := by
  refine foldIn_fixed fun e he => ?_
  cases e with
  | tag t => exact (settled_foldIn_inTags he).addTo
  | describeTags ds =>
    cases hsame ds he
    rcases hlast with rfl | ⟨before, rfl⟩
    · cases he
    · rw [foldIn_append_singleton, describeTags_again]
  | operation => rfl
  | model => rfl

end Edit

/-- Edits that end by describing the tags change nothing when they are repeated. -/
theorem Document.applyAll_again {d : Document} {es : List Edit} {definitions : List TagDefinition}
    (hsame : ∀ ds, .describeTags ds ∈ es → ds = definitions)
    (hlast : es = [] ∨ ∃ before, es = before ++ [.describeTags definitions]) :
    (d.applyAll es).applyAll es = d.applyAll es := by
  have hdefinitions : Edit.foldIn Edit.inDefinitions es (d.applyAll es).definitions =
      (d.applyAll es).definitions := Edit.foldIn_fixed fun e he => inDefinitions_applyAll he
  rw [applyAll_eq (d.applyAll es), hdefinitions, applyAll_eq d]
  simp only [Edit.foldIn_inPaths_again, Edit.foldIn_inTags_again hsame hlast]

end Apidoc
