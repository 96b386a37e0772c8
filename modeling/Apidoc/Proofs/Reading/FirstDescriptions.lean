import Apidoc.Proofs.Reading.DescribedTags
import Apidoc.Proofs.Reading.Opens
import Mathlib

namespace Apidoc

def Document.description? (d : Document) (name : String) : Option String :=
  (d.tag? name).bind (·.description)

/-- A resource describes the tag that is made from its value, where it has no tags of its own. -/
def Resource.Describes (r : Resource) (name text : String) : Prop :=
  ∃ api, r.api = some api ∧ (∀ tag ∈ api.tags, tag = "") ∧
    name = String.ofList (api.value.toList.filter (· ≠ '/')) ∧ name ≠ "" ∧
      text = api.description ∧ text ≠ ""

/-- The first resource that describes a tag, by the events before it is opened. -/
structure FirstDescribes (models : Models) (s : ResourceSet) (chain : VerbChain)
    (before : List Event) (r : Resource) (name text : String) : Prop where
  opens : ∃ openNames context, Opens models s chain before openNames r context
  describes : r.Describes name text
  first : ∀ before' openNames' r' context' text',
    Opens models s chain before' openNames' r' context' → r'.Describes name text' →
      before.length ≤ before'.length

variable {models : Models} {s : ResourceSet} {chain : VerbChain} {openNames : List String}
  {r : Resource} {context : Context} {before rest : List Event} {name text : String} {d : Document}
  {es : List Edit} {t : Tag} {ts : List Tag} {definitions : List TagDefinition}

section Resources

theorem distinct_eq_nil_iff {tags : List String} :
    distinct (tags.filter (· ≠ "")) = [] ↔ ∀ tag ∈ tags, tag = "" := by
  rw [distinct_eq_eraseDups]
  constructor
  · intro h tag htag
    by_contra hne
    have hmem : tag ∈ (tags.filter (· ≠ "")).eraseDups :=
      List.mem_eraseDups.2 (List.mem_filter.2 ⟨htag, by simpa using hne⟩)
    rw [h] at hmem
    cases hmem
  · intro h
    have hnone : tags.filter (· ≠ "") = [] :=
      List.filter_eq_nil_iff.2 fun tag htag => by simp [h tag htag]
    rw [hnone]
    rfl

theorem Resource.ownTags_of_describes (h : r.Describes name text) :
    r.ownTags = [⟨name, some text⟩] := by
  obtain ⟨api, hapi, htags, rfl, hname, rfl, htext⟩ := h
  rw [ownTags, hapi, Option.map_some, Option.getD_some, ApiInfo.documentTags,
    distinct_eq_nil_iff.2 htags]
  simp only [if_neg hname, Tag.describe, if_neg htext]

theorem Resource.describes_of_mem (h : ⟨name, some text⟩ ∈ r.ownTags) : r.Describes name text := by
  unfold ownTags at h
  cases hapi : r.api with
  | none =>
    rw [hapi] at h
    cases h
  | some api =>
    rw [hapi, Option.map_some, Option.getD_some, ApiInfo.documentTags] at h
    cases hnames : distinct (api.tags.filter (· ≠ "")) with
    | cons first others =>
      rw [hnames] at h
      obtain ⟨_, _, htag⟩ := List.mem_map.1 h
      cases htag
    | nil =>
      rw [hnames] at h
      simp only at h
      split at h
      · cases h
      · rename_i hname
        have htag := List.mem_singleton.1 h
        rw [Tag.describe] at htag
        split at htag
        · cases htag
        · rename_i htext
          cases htag
          exact ⟨api, hapi, distinct_eq_nil_iff.1 hnames, rfl, hname, rfl, htext⟩

theorem Resource.tagsIn_of_describes (h : r.Describes name text) :
    r.tagsIn context = context.tags.put name ⟨name, some text⟩ := by
  rw [tagsIn_eq, ownTags_of_describes h]
  rfl

theorem Resource.mem_values_of_describes (h : r.Describes name text) :
    ⟨name, some text⟩ ∈ (r.tagsIn context).values := by
  have hget : (r.tagsIn context).get? name = some ⟨name, some text⟩ := by
    rw [tagsIn_of_describes h, Table.get?_put, if_pos rfl]
  exact List.mem_map.2 ⟨_, Table.mem_entries_of_get? hget, rfl⟩

/-- A resource declares the tag that it describes once. -/
theorem Opens.eq_of_mem_values (h : Opens models s chain before openNames r context)
    (hr : r.Describes name text) (ht : t ∈ (r.tagsIn context).values) (hname : t.name = name) :
    t = ⟨name, some text⟩ := by
  obtain ⟨hmem, hnames, hdistinct⟩ := h.inherits
  obtain ⟨e, he, rfl⟩ := List.mem_map.1 ht
  have hkeys : (r.tagsIn context).keys.Nodup := by
    rw [Resource.keys_tagsIn]
    exact nodup_append_eraseDups hdistinct
  have hget : (r.tagsIn context).get? name = some ⟨name, some text⟩ := by
    rw [Resource.tagsIn_of_describes hr, Table.get?_put, if_pos rfl]
  have hkey : e.1 = name := (hnames.tagsIn hmem e he).1.symm.trans hname
  rw [List.inj_on_of_nodup_map hkeys he (Table.mem_entries_of_get? hget) hkey]

theorem edits_declarations :
    Event.edits (r.declarations context) = (r.tagsIn context).values.map .tag := by
  simp [Event.edits, Resource.declarations, List.filterMap_map]

end Resources

namespace Document

section Edits

theorem exists_tag_of_declares {e : Edit} (he : e ∈ es) (h : e.declares name = true) :
    ∃ t, .tag t ∈ es ∧ t.name = name := by
  cases e with
  | tag t => exact ⟨t, he, by simpa [Edit.declares, Edit.tagName?] using h⟩
  | operation | model | describeTags => simp [Edit.declares, Edit.tagName?] at h

theorem description?_applyAll : (d.applyAll es).description? name =
    (d.description? name).or ((d.editsOfTag name es).findSome? (·.descriptionOf? name)) := by
  have htags : (d.applyAll es).tag? name =
      firstTag? name (Edit.foldIn Edit.inTags es d.tags) := by
    rw [applyAll_eq, tag?_eq]
  rw [description?, description?, htags, tag?_eq]
  cases hbefore : firstTag? name d.tags with
  | some u =>
    have hknown : name ∈ d.tagNames := by
      by_contra hnew
      rw [firstTag?_eq_none_iff.2 hnew] at hbefore
      cases hbefore
    rw [editsOfTag, if_pos hknown, Edit.firstTag?_foldIn_of_some hbefore]
    rfl
  | none =>
    have hnew : name ∉ d.tagNames := firstTag?_eq_none_iff.1 hbefore
    rw [editsOfTag, if_neg hnew, Option.bind_none, Option.none_or]
    cases hafter : firstTag? name (Edit.foldIn Edit.inTags es d.tags) with
    | some u => exact Edit.firstTag?_foldIn_of_none hbefore hafter
    | none =>
      have hgone : name ∉ (d.applyAll es).tagNames := by
        rw [tagNames, applyAll_eq]
        exact firstTag?_eq_none_iff.1 hafter
      have hnothing : es.dropWhile (fun e => !e.declares name) = [] := by
        refine List.dropWhile_eq_nil_iff.2 fun e he => ?_
        by_contra hdeclares
        apply hgone
        exact mem_tagNames_applyAll.2 (.inr (exists_tag_of_declares he (by simpa using hdeclares)))
      rw [hnothing]
      rfl

theorem findSome?_editsOfTag_declared {later : List Edit} (ht : ⟨name, some text⟩ ∈ ts)
    (hsame : ∀ u ∈ ts, u.name = name → u = ⟨name, some text⟩) :
    (d.editsOfTag name (ts.map .tag ++ later)).findSome? (·.descriptionOf? name) = some text := by
  have hdeclared : (ts.map Edit.tag ++ later).findSome? (·.descriptionOf? name) = some text ∧
      ((ts.map Edit.tag ++ later).dropWhile fun e => !e.declares name).findSome?
        (·.descriptionOf? name) = some text := by
    induction ts with
    | nil => cases ht
    | cons u ts ih =>
      by_cases hu : u.name = name
      · cases hsame u List.mem_cons_self hu
        simp [Edit.declares, Edit.tagName?, Edit.descriptionOf?]
      · have hrest : ⟨name, some text⟩ ∈ ts := by
          rcases List.mem_cons.1 ht with rfl | ht
          · exact (hu rfl).elim
          · exact ht
        have hother : (Edit.tag u).descriptionOf? name = none := if_neg hu
        have hskip : (Edit.tag u).declares name = false := by
          simp [Edit.declares, Edit.tagName?, hu]
        rw [List.map_cons, List.cons_append, List.findSome?_cons, hother,
          List.dropWhile_cons_of_pos (by simp [hskip])]
        exact ih hrest fun v hv => hsame v (List.mem_cons_of_mem _ hv)
  rw [editsOfTag]
  split
  · exact hdeclared.1
  · exact hdeclared.2

theorem mem_editsOfTag_last {e : Edit} (h : name ∈ (d.applyAll es).tagNames) :
    e ∈ d.editsOfTag name (es ++ [e]) := by
  rw [editsOfTag]
  split
  · simp
  · rename_i hnew
    obtain ⟨t, ht, rfl⟩ := (mem_tagNames_applyAll.1 h).resolve_left hnew
    have hsome : es.dropWhile (fun e => !e.declares t.name) ≠ [] := by
      intro hnone
      have hplain := List.dropWhile_eq_nil_iff.1 hnone _ ht
      simp [Edit.declares, Edit.tagName?] at hplain
    rw [List.dropWhile_append, if_neg (by simpa using hsome)]
    simp

/-- Where only definitions describe a tag, they do so if the tags are described after it is
declared. -/
theorem description?_of_definitions (hd : d.description? name = none)
    (hes : ∀ e ∈ es, e.descriptionOf? name = none ∨ e = .describeTags definitions) :
    (.describeTags definitions ∈ d.editsOfTag name es →
        (d.applyAll es).description? name = definitions.findSome? (·.descriptionOf? name)) ∧
      (.describeTags definitions ∉ d.editsOfTag name es →
        (d.applyAll es).description? name = none) := by
  have hsub : ∀ e ∈ d.editsOfTag name es, e ∈ es := by
    rw [editsOfTag]
    split
    · exact fun _ h => h
    · exact fun _ h => (List.dropWhile_sublist _).subset h
  rw [description?_applyAll, hd, Option.none_or]
  constructor
  · intro hdescribed
    cases hfound : (d.editsOfTag name es).findSome? (·.descriptionOf? name) with
    | none => exact (List.findSome?_eq_none_iff.1 hfound _ hdescribed).symm
    | some g =>
      obtain ⟨e, he, hg⟩ := List.exists_of_findSome?_eq_some hfound
      rcases hes e (hsub e he) with hnone | rfl
      · rw [hnone] at hg
        cases hg
      · exact hg.symm
  · intro hnot
    refine List.findSome?_eq_none_iff.2 fun e he => ?_
    rcases hes e (hsub e he) with hnone | rfl
    · exact hnone
    · exact (hnot he).elim

end Edits

end Document

section Reading

/-- As long as no opened resource describes a tag, only the definitions do. -/
theorem descriptionOf?_of_undescribed (hlog : before <+: (readSet models s chain).notes)
    (hnone : ∀ earlier e later, before = earlier ++ e :: later → ∀ text,
      ¬DescribedBy models s chain earlier name text) :
    ∀ e ∈ Event.edits before, e.descriptionOf? name = none ∨ e = .describeTags s.tags := by
  intro e he
  have hmem : .edit e ∈ before := mem_edits.1 he
  cases e with
  | operation | model => exact .inl rfl
  | describeTags ds => exact .inr (by rw [describeTags_mem_readSet (hlog.subset hmem)])
  | tag t =>
    left
    rw [Edit.descriptionOf?]
    split
    · rename_i hname
      subst hname
      cases htext : t.description with
      | none => rfl
      | some text =>
        obtain ⟨earlier, later, hsplit⟩ := List.append_of_mem hmem
        obtain ⟨rest, hrest⟩ := hlog
        obtain ⟨name, description⟩ := t
        cases htext
        rw [hsplit, List.append_assoc, List.cons_append] at hrest
        exact (hnone earlier _ later hsplit text (describedBy_of_notes hrest.symm)).elim
    · rfl

theorem exists_firstDescribes (h : Opens models s chain before openNames r context)
    (hr : r.Describes name text) :
    ∃ before r text, FirstDescribes models s chain before r name text := by
  induction hn : before.length using Nat.strongRecOn
    generalizing before openNames r context text with
  | _ n ih =>
    by_cases hfirst : ∃ before' openNames' r' context' text',
        Opens models s chain before' openNames' r' context' ∧ r'.Describes name text' ∧
          before'.length < before.length
    · obtain ⟨before', openNames', r', context', text', h', hr', hlt⟩ := hfirst
      exact ih _ (hn ▸ hlt) h' hr' rfl
    · refine ⟨before, r, text, ⟨_, _, h⟩, hr, fun before' openNames' r' context' text' h' hr' => ?_⟩
      by_contra hlt
      exact hfirst ⟨before', openNames', r', context', text', h', hr', not_le.1 hlt⟩

theorem FirstDescribes.prefix_readSet
    (h : FirstDescribes models s chain before r name text) :
    before <+: (readSet models s chain).notes := by
  obtain ⟨_, _, hopens⟩ := h.opens
  exact (List.prefix_append _ _).trans hopens.prefix_readSet

theorem FirstDescribes.undescribed_before (h : FirstDescribes models s chain before r name text) :
    ∀ e ∈ Event.edits before, e.descriptionOf? name = none ∨ e = .describeTags s.tags := by
  apply descriptionOf?_of_undescribed h.prefix_readSet
  rintro earlier e later hsplit text' ⟨before', openNames', r', context', hopens, hb, hr⟩
  have hle := h.first _ _ _ _ _ hopens (Resource.describes_of_mem hr)
  have hlt := hb.length_le
  rw [hsplit, List.length_append, List.length_cons] at hle
  omega

/-- A tag keeps what it is described by when the first resource that describes it is opened, or else
has the description of that resource. -/
theorem FirstDescribes.description?_read (h : FirstDescribes models s chain before r name text) :
    (d.read models s chain).1.description? name =
      ((d.applyAll (Event.edits before)).description? name).or (some text) := by
  obtain ⟨openNames, context, hopens⟩ := h.opens
  have hdeclares : r.declarations context <+:
      (readOpened models s chain openNames r context).notes := declarations_prefix_readOpened
  obtain ⟨rest, hdeclared⟩ := hdeclares
  obtain ⟨later, hlog⟩ := hopens.prefix_readSet
  have hedits : (d.read models s chain).1 = (d.applyAll (Event.edits before)).applyAll
      ((r.tagsIn context).values.map .tag ++ Event.edits (rest ++ later)) := by
    change d.applyAll (Event.edits (readSet models s chain).notes) = _
    rw [← hlog, ← hdeclared, ← edits_declarations]
    simp only [edits_append, List.append_assoc, Document.applyAll, List.foldl_append]
  rw [hedits, Document.description?_applyAll, Document.findSome?_editsOfTag_declared
    (Resource.mem_values_of_describes h.describes) fun u hu =>
      hopens.eq_of_mem_values h.describes hu]

/-- A reading that succeeds describes every declared tag that no resource describes by the
definitions. -/
theorem Document.description?_read_of_undescribed (hd : d.tags = [])
    (h : (d.read models s chain).2 = .ok ())
    (hnone : ∀ before openNames r context text, Opens models s chain before openNames r context →
      ¬r.Describes name text)
    (hname : name ∈ (d.read models s chain).1.tagNames) :
    (d.read models s chain).1.description? name =
      s.tags.findSome? (·.descriptionOf? name) := by
  have hbare : d.description? name = none := by
    rw [description?, tag?_eq, hd]
    rfl
  have hundescribed : ∀ e ∈ Event.edits (readSet models s chain).notes,
      e.descriptionOf? name = none ∨ e = .describeTags s.tags := by
    apply descriptionOf?_of_undescribed List.prefix_rfl
    rintro earlier e later _ text ⟨before, openNames, r, context, hopens, _, hr⟩
    exact hnone _ _ _ _ _ hopens (Resource.describes_of_mem hr)
  have hends : EndsDescribed s (readSet models s chain) := endsDescribed_readRoots h
  change name ∈ (d.applyAll (Event.edits (readSet models s chain).notes)).tagNames at hname
  refine (description?_of_definitions hbare hundescribed).1 ?_
  rcases hends with hnotes | ⟨before, hnotes⟩
  · rw [hnotes] at hname
    change name ∈ d.tagNames at hname
    rw [tagNames, hd] at hname
    cases hname
  · rw [hnotes, edits_append] at hname ⊢
    refine mem_editsOfTag_last (mem_tagNames_applyAll.2 ?_)
    refine (mem_tagNames_applyAll.1 hname).imp_right ?_
    rintro ⟨t, ht, rfl⟩
    refine ⟨t, (List.mem_append.1 ht).resolve_right fun hlast => ?_, rfl⟩
    cases List.mem_singleton.1 hlast

/-- From a document without tags, the first resource that describes a tag gives its description, or
else a definition does if the tags are described between the declaration of the tag and the opening
of that resource. Tags that no resource describes have the description of a definition. -/
theorem Document.first_description_read (hd : d.tags = []) (name : String) :
    let d' := (d.read models s chain).1
    let global? := s.tags.findSome? (·.descriptionOf? name)
    (∀ before r text, FirstDescribes models s chain before r name text →
      (.describeTags s.tags ∈ d.editsOfTag name (Event.edits before) →
          d'.description? name = global?.or (some text)) ∧
        (.describeTags s.tags ∉ d.editsOfTag name (Event.edits before) →
          d'.description? name = some text)) ∧
      (∀ before openNames r context text, Opens models s chain before openNames r context →
        r.Describes name text →
          ∃ before r text, FirstDescribes models s chain before r name text) ∧
      ((d.read models s chain).2 = .ok () →
        (∀ before openNames r context text, Opens models s chain before openNames r context →
          ¬r.Describes name text) →
        name ∈ d'.tagNames → d'.description? name = global?) := by
  intro d' global?
  have hbare : d.description? name = none := by
    rw [description?, tag?_eq, hd]
    rfl
  refine ⟨fun before r text hfirst => ?_, fun before openNames r context text h hr =>
    exists_firstDescribes h hr, description?_read_of_undescribed hd⟩
  obtain ⟨hfilled, hopen⟩ := description?_of_definitions hbare hfirst.undescribed_before
  constructor
  · intro h
    rw [hfirst.description?_read, hfilled h]
  · intro h
    rw [hfirst.description?_read, hopen h, Option.none_or]

end Reading

section Perch

def birds : Resource where
  name := "Birds"
  api := some { value := "/birds", description := "Birds of an aviary" }

def feeders : Resource where
  name := "Feeders"
  api := some { tags := ["birds"] }

/-- Two roots with a tag that one of them describes, as a definition does. -/
def perchSet (first second : Resource) : ResourceSet :=
  ((({} : ResourceSet).addRoot first).addRoot second).addTag ⟨"birds", "All birds"⟩

theorem birds_describes : birds.Describes "birds" "Birds of an aviary" :=
  ⟨_, rfl, by simp, by decide, by decide, rfl, by decide⟩

theorem perchSet_described_first :
    let d' := (({} : Document).read {} (perchSet birds feeders) .standard).1
    ({} : Document).tags = [] ∧
      FirstDescribes {} (perchSet birds feeders) .standard [] birds "birds"
        "Birds of an aviary" ∧
      d'.description? "birds" = some "Birds of an aviary" := by
  intro d'
  have hfirst : FirstDescribes {} (perchSet birds feeders) .standard [] birds "birds"
      "Birds of an aviary" :=
    ⟨⟨_, _, @Opens.root _ _ _ [] [feeders] birds rfl rfl rfl⟩, birds_describes,
      fun _ _ _ _ _ _ _ => Nat.zero_le _⟩
  have hd : ({} : Document).tags = [] := rfl
  have hread := (Document.first_description_read hd "birds").1 [] birds _ hfirst
  exact ⟨hd, hfirst, hread.2 (by simp [Event.edits, Document.editsOfTag])⟩

/-- The tag is declared without a description first, and the definition has it by the time that the
resource comes that describes it. -/
theorem perchSet_described_late :
    let s := perchSet feeders birds
    (({} : Document).read {} s .standard).2 = .ok () ∧
      FirstDescribes {} s .standard (readRoots {} s .standard [feeders]).notes birds "birds"
        "Birds of an aviary" ∧
      (({} : Document).read {} s .standard).1.description? "birds" = some "All birds" := by
  intro s
  have hread : (({} : Document).read {} s .standard).2 = .ok () := by cbv
  have hglobal : (({} : Document).read {} s .standard).1.description? "birds" =
      some "All birds" := by cbv
  refine ⟨hread, ⟨⟨_, _, @Opens.root _ _ _ [feeders] [] birds rfl ?_ rfl⟩, birds_describes,
    fun before openNames r context text h hr => ?_⟩, hglobal⟩
  · cbv
  · have hset : s.resources = [feeders, birds] ∧ s.rootResources = [feeders, birds] := ⟨rfl, rfl⟩
    cases h with
    | @root earlier later r hroots hdone hread =>
      rw [hset.2] at hroots
      cases earlier with
      | nil =>
        cases hroots
        obtain ⟨api, hapi, htags, _⟩ := hr
        cases hapi
        exact absurd (htags "birds" (List.mem_singleton_self _)) (by decide)
      | cons first earlier =>
        obtain ⟨rfl, hrest⟩ := List.cons.inj hroots
        cases earlier with
        | nil => exact le_rfl
        | cons _ earlier => simp at hrest
    | @returned _ _ outer _ _ _ _ _ _ _ houter hmethods _ _ _ _ _ =>
      have hmem := houter.inherits.1
      rw [hset.1] at hmem
      have hnone : outer.methods = [] := by
        simp only [List.mem_cons, List.not_mem_nil, or_false] at hmem
        rcases hmem with rfl | rfl <;> rfl
      rw [hnone] at hmethods
      simp at hmethods

end Perch

end Apidoc
