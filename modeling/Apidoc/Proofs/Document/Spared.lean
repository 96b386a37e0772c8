import Apidoc.Proofs.Document.Store
import Apidoc.Proofs.Without

namespace Apidoc

/-- Lists of tags that differ in descriptions only, and only in those of the first tag of a name.
The names in `seen` have gone before. -/
inductive AlikeBehindFirsts : List String → List Tag → List Tag → Prop where
  | nil {seen : List String} : AlikeBehindFirsts seen [] []
  | first {seen : List String} {t t' : Tag} {ts ts' : List Tag} : t.name = t'.name →
      t.name ∉ seen → AlikeBehindFirsts (t.name :: seen) ts ts' →
        AlikeBehindFirsts seen (t :: ts) (t' :: ts')
  | again {seen : List String} {t : Tag} {ts ts' : List Tag} : t.name ∈ seen →
      AlikeBehindFirsts seen ts ts' → AlikeBehindFirsts seen (t :: ts) (t :: ts')

/-- An edit that describes tags, is left out, and finds this tag without a description. -/
def Document.Spares (d : Document) (definitions : List TagDefinition) (es es' : List Edit)
    (name : String) : Prop :=
  ∃ before after before' after', es = before ++ .describeTags definitions :: after ∧
    es' = before' ++ after' ∧ Without (· = .describeTags definitions) before before' ∧
    Without (· = .describeTags definitions) after after' ∧
    (d.applyAll before).tag? name = some ⟨name, none⟩

variable {seen : List String} {t : Tag} {ts ts' : List Tag} {x : TagDefinition} {name : String}
  {definitions : List TagDefinition} {e : Edit} {es es' : List Edit} {d : Document}

namespace AlikeBehindFirsts

protected theorem refl : AlikeBehindFirsts seen ts ts := by
  induction ts generalizing seen with
  | nil => exact .nil
  | cons t ts ih =>
    by_cases ht : t.name ∈ seen
    · exact .again ht ih
    · exact .first rfl ht ih

theorem names (h : AlikeBehindFirsts seen ts ts') : ts.map (·.name) = ts'.map (·.name) := by
  induction h with
  | nil => rfl
  | first hname _ _ ih => rw [List.map_cons, List.map_cons, hname, ih]
  | again _ _ ih => rw [List.map_cons, List.map_cons, ih]

theorem symm (h : AlikeBehindFirsts seen ts ts') : AlikeBehindFirsts seen ts' ts := by
  induction h with
  | nil => exact .nil
  | first hname hnew _ ih =>
    rw [hname] at hnew ih
    exact .first hname.symm hnew ih
  | again hseen _ ih => exact .again hseen ih

theorem addTo (h : AlikeBehindFirsts seen ts ts') (ht : t.name ∉ seen) :
    AlikeBehindFirsts seen (t.addTo ts) (t.addTo ts') := by
  induction h with
  | nil => exact .first rfl ht .nil
  | @first seen u u' ts ts' hname hnew hrest ih =>
    rw [Tag.addTo, Tag.addTo, ← hname]
    by_cases hu : u.name = t.name
    · rw [if_pos hu, if_pos hu]
      exact .first rfl hnew hrest
    · rw [if_neg hu, if_neg hu]
      exact .first hname hnew (ih (List.not_mem_cons_of_ne_of_not_mem (Ne.symm hu) ht))
  | @again seen u ts ts' hseen hrest ih =>
    have hu : u.name ≠ t.name := fun hu => ht (hu ▸ hseen)
    rw [Tag.addTo, Tag.addTo, if_neg hu, if_neg hu]
    exact .again hseen (ih ht)

theorem describeIn (h : AlikeBehindFirsts seen ts ts') (hx : x.name ∉ seen) :
    AlikeBehindFirsts seen (x.describeIn ts) ts' := by
  induction h with
  | nil => exact .nil
  | @first seen u u' ts ts' hname hnew hrest ih =>
    rw [TagDefinition.describeIn]
    by_cases hu : u.name = x.name
    · rw [if_pos hu]
      exact .first hname hnew hrest
    · rw [if_neg hu]
      exact .first hname hnew (ih (List.not_mem_cons_of_ne_of_not_mem (Ne.symm hu) hx))
  | @again seen u ts ts' hseen hrest ih =>
    have hu : u.name ≠ x.name := fun hu => hx (hu ▸ hseen)
    rw [TagDefinition.describeIn, if_neg hu]
    exact .again hseen (ih hx)

theorem describeTags (h : AlikeBehindFirsts [] ts ts') :
    AlikeBehindFirsts [] ((Edit.describeTags definitions).inTags ts) ts' := by
  rw [Edit.inTags]
  generalize definitions.filter (fun x => x.name ≠ "" ∧ x.description ≠ "") = xs
  induction xs generalizing ts with
  | nil => exact h
  | cons x xs ih => exact ih (h.describeIn List.not_mem_nil)

theorem inTags (h : AlikeBehindFirsts [] ts ts') :
    AlikeBehindFirsts [] (e.inTags ts) (e.inTags ts') := by
  cases e with
  | tag t => exact h.addTo List.not_mem_nil
  | describeTags xs => exact h.describeTags.symm.describeTags.symm
  | operation => exact h
  | model => exact h

theorem foldIn (h : AlikeBehindFirsts [] ts ts')
    (hes : Without (· = .describeTags definitions) es es') :
    AlikeBehindFirsts [] (Edit.foldIn Edit.inTags es ts) (Edit.foldIn Edit.inTags es' ts') := by
  induction hes generalizing ts ts' with
  | nil => exact h
  | keep e _ ih => exact ih h.inTags
  | drop he _ ih =>
    subst he
    exact ih h.describeTags

theorem eq_of_firsts (h : AlikeBehindFirsts seen ts ts')
    (hfirst : ∀ name, name ∉ seen → firstTag? name ts = firstTag? name ts') : ts = ts' := by
  induction h with
  | nil => rfl
  | @first seen t t' ts ts' hname hnew _ ih =>
    have hhead := hfirst t.name hnew
    rw [firstTag?_cons, firstTag?_cons, if_pos rfl, if_pos hname.symm] at hhead
    cases hhead
    congr 1
    apply ih
    intro name hn
    have hne : t.name ≠ name := (List.ne_of_not_mem_cons hn).symm
    have htail := hfirst name (List.not_mem_of_not_mem_cons hn)
    rwa [firstTag?_cons, firstTag?_cons, if_neg hne, if_neg hne] at htail
  | @again seen t ts ts' hseen _ ih =>
    congr 1
    apply ih
    intro name hn
    have hne : t.name ≠ name := fun ht => hn (ht ▸ hseen)
    have htail := hfirst name hn
    rwa [firstTag?_cons, firstTag?_cons, if_neg hne, if_neg hne] at htail

end AlikeBehindFirsts

namespace Document

theorem tag?_apply_congr {d' : Document} (h : d.tag? name = d'.tag? name) :
    (d.apply e).tag? name = (d'.apply e).tag? name := by
  rw [tag?_eq, tag?_eq] at h
  rw [tag?_eq, tag?_eq, tags_apply, tags_apply]
  cases hfirst : firstTag? name d.tags with
  | none =>
    rw [Edit.firstTag?_inTags_of_none hfirst, Edit.firstTag?_inTags_of_none (h ▸ hfirst)]
  | some t =>
    rw [Edit.firstTag?_inTags_of_some hfirst, Edit.firstTag?_inTags_of_some (h ▸ hfirst)]

/-- Describing the tags changes the first tag of a name only if it has no description. -/
theorem tag?_describeTags (h : d.tag? name ≠ some ⟨name, none⟩ ∨
    definitions.findSome? (·.descriptionOf? name) = none) :
    (d.apply (.describeTags definitions)).tag? name = d.tag? name := by
  rw [tag?_eq] at h
  rw [tag?_eq, tag?_eq, tags_apply]
  cases hfirst : firstTag? name d.tags with
  | none => exact (Edit.firstTag?_inTags_of_none hfirst).trans (if_neg Bool.false_ne_true)
  | some t =>
    rw [Edit.firstTag?_inTags_of_some hfirst]
    obtain ⟨tname, description⟩ := t
    cases name_of_firstTag? hfirst
    cases description with
    | some text => rfl
    | none =>
      rcases h with h | h
      · exact (h hfirst).elim
      · rw [Edit.descriptionOf?, h, Option.or_none]

theorem Spares.keep (h : (d.apply e).Spares definitions es es' name) :
    d.Spares definitions (e :: es) (e :: es') name := by
  obtain ⟨before, after, before', after', rfl, rfl, hbefore, hafter, hbare⟩ := h
  exact ⟨e :: before, after, e :: before', after', rfl, rfl, .keep e hbefore, hafter, hbare⟩

theorem Spares.drop (h : (d.apply (.describeTags definitions)).Spares definitions es es' name) :
    d.Spares definitions (.describeTags definitions :: es) es' name := by
  obtain ⟨before, after, before', after', rfl, rfl, hbefore, hafter, hbare⟩ := h
  exact ⟨_ :: before, after, before', after', rfl, rfl, .drop rfl hbefore, hafter, hbare⟩

/-- Either nothing that is left out matters to a tag, or some of it was the first to describe it. -/
theorem tag?_spared {d' : Document} (hes : Without (· = .describeTags definitions) es es')
    (hd : d.tag? name = d'.tag? name) :
    (d.applyAll es).tag? name = (d'.applyAll es').tag? name ∨
      d.Spares definitions es es' name ∧
        ∃ text, definitions.findSome? (·.descriptionOf? name) = some text := by
  -- Up to the first describing that is left out and finds the tag bare, both documents agree on it.
  induction hes generalizing d d' with
  | nil => exact .inl hd
  | keep e _ ih => exact (ih (tag?_apply_congr hd)).imp_right (And.imp_left .keep)
  | @drop e rest rest' he hrest ih =>
    subst he
    cases htext : definitions.findSome? (·.descriptionOf? name) with
    | none =>
      have hsame : (d.apply (.describeTags definitions)).tag? name = d.tag? name :=
        tag?_describeTags (.inr htext)
      rcases ih (hsame.trans hd) with heq | ⟨_, text, hsome⟩
      · exact .inl heq
      · rw [htext] at hsome
        cases hsome
    | some text =>
      by_cases hbare : d.tag? name = some ⟨name, none⟩
      · exact .inr ⟨⟨[], rest, [], rest', rfl, rfl, .nil, hrest, hbare⟩, text, rfl⟩
      · have hsame : (d.apply (.describeTags definitions)).tag? name = d.tag? name :=
          tag?_describeTags (.inl hbare)
        rw [htext] at ih
        exact (ih (hsame.trans hd)).imp_right (And.imp_left Spares.drop)

theorem tag?_of_spares {text : String} (h : d.Spares definitions es es' name)
    (htext : definitions.findSome? (·.descriptionOf? name) = some text) :
    (d.applyAll es).tag? name = some ⟨name, some text⟩ := by
  obtain ⟨before, after, _, _, rfl, _, _, _, hbare⟩ := h
  have hsplit : d.applyAll (before ++ .describeTags definitions :: after) =
      (d.applyAll before).applyAll (.describeTags definitions :: after) := by
    simp only [applyAll, List.foldl_append]
  rw [tag?_eq] at hbare
  rw [hsplit, tag?_eq, applyAll_eq]
  refine (Edit.firstTag?_foldIn_of_some hbare).trans ?_
  rw [List.findSome?_cons, Edit.descriptionOf?, htext]
  rfl

variable (hes : Without (· = .describeTags definitions) es es')
include hes

theorem alikeBehindFirsts_spared :
    AlikeBehindFirsts [] (d.applyAll es).tags (d.applyAll es').tags := by
  rw [applyAll_eq d es, applyAll_eq d es']
  exact AlikeBehindFirsts.refl.foldIn hes

theorem tagNames_spared : (d.applyAll es).tagNames = (d.applyAll es').tagNames :=
  (alikeBehindFirsts_spared hes).names

/-- Describing the tags less often changes nothing but tags. -/
theorem applyAll_spared :
    d.applyAll es = { d.applyAll es' with tags := (d.applyAll es).tags } := by
  have hpaths : Edit.foldIn Edit.inPaths es d.paths = Edit.foldIn Edit.inPaths es' d.paths := by
    apply hes.foldl_eq
    rintro _ _ rfl
    rfl
  have hdefinitions : Edit.foldIn Edit.inDefinitions es d.definitions =
      Edit.foldIn Edit.inDefinitions es' d.definitions := by
    apply hes.foldl_eq
    rintro _ _ rfl
    rfl
  rw [applyAll_eq d es, applyAll_eq d es', hpaths, hdefinitions]

/-- Describing the tags less often changes nothing at all exactly when every tag that was described
by what is left out gets the same description in the end. -/
theorem applyAll_spared_iff : d.applyAll es = d.applyAll es' ↔
    ∀ name text, d.Spares definitions es es' name →
      definitions.findSome? (·.descriptionOf? name) = some text →
        ((d.applyAll es').tag? name).bind (·.description) = some text := by
  constructor
  · intro heq name text hspares htext
    rw [← heq, tag?_of_spares hspares htext]
    rfl
  · intro hdescribed
    have htags : (d.applyAll es).tags = (d.applyAll es').tags := by
      apply (alikeBehindFirsts_spared hes).eq_of_firsts
      intro name _
      have hsame : d.tag? name = d.tag? name := rfl
      rcases tag?_spared hes hsame with heq | ⟨hspares, text, htext⟩
      · exact heq
      · obtain ⟨t, ht, hdescription⟩ :=
          Option.bind_eq_some_iff.1 (hdescribed name text hspares htext)
        have hname := name_of_firstTag? ht
        obtain ⟨tname, description⟩ := t
        cases hname
        cases hdescription
        exact (tag?_of_spares hspares htext).trans ht.symm
    rw [applyAll_spared hes, htags]

end Document

end Apidoc
