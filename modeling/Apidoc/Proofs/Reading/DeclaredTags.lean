import Apidoc.Proofs.Document.Store
import Apidoc.Proofs.Reading.Tags
import Mathlib

namespace Apidoc

/-- A name that a resource gives to its methods, or a method to itself. -/
def ResourceSet.NamesTag (s : ResourceSet) (name : String) : Prop :=
  ∃ r ∈ s.resources, name ∈ r.tagNames ∨
    ∃ m ∈ r.methods, ∃ info, m.operation? = some info ∧ name ∈ info.tagNames

/-- Tags that stand under their own names, each of which the set gives. -/
def ResourceSet.NamesTags (s : ResourceSet) (tags : Table Tag) : Prop :=
  ∀ e ∈ tags.entries, e.2.name = e.1 ∧ s.NamesTag e.1

def Declares {α : Type} (x : Reading α) (name : String) : Prop :=
  ∃ t, .edit (.tag t) ∈ x.notes ∧ t.name = name

/-- Every tag of an operation that is written is known, or declared along with it. -/
def DeclaresTags {α : Type} (known : String → Prop) (x : Reading α) : Prop :=
  ∀ path verb o, .edit (.operation path verb o) ∈ x.notes →
    ∀ name ∈ o.tags, known name ∨ Declares x name

/-- Tags have names of their own, and those of the operations are declared. -/
structure Document.TagsDeclared (d : Document) : Prop where
  distinct : d.tagNames.Nodup
  declared : ∀ path verb o, d.operation? path verb = some o → ∀ name ∈ o.tags, name ∈ d.tagNames

variable {models : Models} {s : ResourceSet} {chain : VerbChain} {openNames : List String}
  {r : Resource} {context : Context} {route : Route} {m : Method} {info : OperationInfo}
  {o : Operation} {verb? : Option Verb} {name : String} {t : Tag}

section Names

theorem ApiInfo.name_ne_empty {api : ApiInfo} (h : t ∈ api.documentTags) : t.name ≠ "" := by
  rw [documentTags] at h
  cases hnames : distinct (api.tags.filter (· ≠ "")) with
  | nil =>
    rw [hnames] at h
    simp only at h
    split at h
    · cases h
    · rename_i hderived
      cases List.mem_singleton.1 h
      rw [Tag.describe]
      split <;> exact hderived
  | cons first rest =>
    have hmem : ∀ name ∈ first :: rest, name ≠ "" := by
      intro name hname
      rw [← hnames, distinct_eq_eraseDups] at hname
      simpa using (List.mem_filter.1 (List.mem_eraseDups.1 hname)).2
    rw [hnames] at h
    obtain ⟨name, hname, rfl⟩ := List.mem_map.1 h
    exact hmem name hname

theorem ResourceSet.NamesTag.ne_empty (h : s.NamesTag name) : name ≠ "" := by
  obtain ⟨r, _, hname | ⟨m, _, info, _, hname⟩⟩ := h
  · obtain ⟨t, ht, rfl⟩ := List.mem_map.1 hname
    unfold Resource.ownTags at ht
    cases hapi : r.api with
    | none =>
      rw [hapi] at ht
      cases ht
    | some api =>
      rw [hapi] at ht
      exact ApiInfo.name_ne_empty ht
  · simpa using (List.mem_filter.1 hname).2

theorem ResourceSet.namesTags_empty : s.NamesTags {} := by
  intro e he
  cases he

theorem ResourceSet.NamesTags.tagsIn (h : s.NamesTags context.tags) (hr : r ∈ s.resources) :
    s.NamesTags (r.tagsIn context) := by
  rw [Resource.tagsIn_eq]
  intro e he
  rcases Table.mem_entries_putAll he with hown | hinherited
  · obtain ⟨t, ht, rfl⟩ := List.mem_map.1 hown
    exact ⟨rfl, r, hr, .inl (List.mem_map.2 ⟨t, ht, rfl⟩)⟩
  · exact h e hinherited

theorem ResourceSet.mem_of_routable? {t : TypeRef} (h : s.routable? t = some r) :
    r ∈ s.resources :=
  mem_of_resource? (Option.filter_eq_some_iff.1 h).1

theorem ResourceSet.mem_of_mem_rootResources (h : r ∈ s.rootResources) : r ∈ s.resources := by
  obtain ⟨name, _, hname⟩ := List.mem_filterMap.1 h
  exact mem_of_resource? hname

/-- Whatever tag a reading declares, a resource or a method names it. -/
theorem namesTag_of_mem_readSet (h : .edit (.tag t) ∈ (readSet models s chain).notes) :
    s.NamesTag t.name := by
  have hmeets : (readSet models s chain).Meets (fun _ => True)
      (fun e => ∀ t, e = .edit (.tag t) → s.NamesTag t.name) fun _ => True := by
    refine readSet_meets (I := fun _ r context => r ∈ s.resources ∧ s.NamesTags context.tags)
      ?_ ?_ ?_ ?_ ?_
    · intro t ht
      cases ht
    · intro w t ht
      cases ht
    · rintro openNames r context ⟨hr, hcontext⟩ t ht u hu
      cases hu
      obtain ⟨e, he, rfl⟩ := List.mem_map.1 ht
      obtain ⟨hname, hnames⟩ := hcontext.tagsIn hr e he
      exact hname ▸ hnames
    · rintro openNames r context m route ⟨hr, hcontext⟩ hm hroute _
      refine ⟨fun e he t ht => ?_, fun built _ => ⟨fun e he t ht => ?_, fun sub hs _ => ?_⟩⟩
      · obtain ⟨n, _, rfl⟩ := List.mem_map.1 he
        cases n <;> cases ht
      · subst ht
        rw [notes_registerRoute] at he
        rcases List.mem_append.1 he with hown | hoperation
        · obtain ⟨name, hname, ht⟩ := List.mem_map.1 hown
          cases ht
          obtain ⟨info, _, hi, _, _, rfl⟩ := route?_eq_iff.1 hroute
          exact ⟨r, hr, .inr ⟨m, hm, info, hi, hname⟩⟩
        · obtain ⟨v, _, hv⟩ := Option.map_eq_some_iff.1 (Option.mem_toList.1 hoperation)
          cases hv
      · exact ⟨ResourceSet.mem_of_routable? hs, hcontext.tagsIn hr⟩
    · intro r hr _
      exact ⟨ResourceSet.mem_of_mem_rootResources hr, ResourceSet.namesTags_empty⟩
  exact (hmeets fun _ _ => trivial).1 _ h t rfl

end Names

section Declares

variable {α β : Type} {x : Reading α} {f : α → Reading β} {known known' : String → Prop}

theorem DeclaresTags.mono (h : DeclaresTags known x) (hk : ∀ name, known name → known' name) :
    DeclaresTags known' x := by
  intro path verb o ho name hname
  exact (h path verb o ho name hname).imp_left (hk name)

theorem declaresTags_of_none (h : ∀ path verb o, .edit (.operation path verb o) ∉ x.notes) :
    DeclaresTags known x := by
  intro path verb o ho
  exact (h path verb o ho).elim

theorem declaresTags_pure (a : α) : DeclaresTags known (pure a : Reading α) := by
  apply declaresTags_of_none
  intro path verb o h
  cases h

theorem declaresTags_describe (definitions : List TagDefinition) :
    DeclaresTags known (Reading.edit (.describeTags definitions)) := by
  apply declaresTags_of_none
  intro path verb o h
  cases List.mem_singleton.1 h

theorem declaresTags_warnings (ws : List Warning) :
    DeclaresTags known (Logged.noteAll (ws.map .warning) : Reading Unit) := by
  apply declaresTags_of_none
  intro path verb o h
  obtain ⟨w, _, hw⟩ := List.mem_map.1 h
  cases hw

/-- What comes later may use what is declared first. -/
theorem DeclaresTags.bind (hx : DeclaresTags known x)
    (hf : ∀ a, x.result = .ok a →
      DeclaresTags (fun name => known name ∨ Declares x name) (f a)) :
    DeclaresTags known (x.bind f) := by
  intro path verb o ho name hname
  have hfirst (h : Declares x name) : Declares (x.bind f) name := by
    obtain ⟨t, ht, hn⟩ := h
    exact ⟨t, Logged.mem_notes_bind.2 (.inl ht), hn⟩
  rcases Logged.mem_notes_bind.1 ho with ho | ⟨a, ha, ho⟩
  · exact (hx path verb o ho name hname).imp_right hfirst
  · rcases hf a ha path verb o ho name hname with (hknown | hdeclared) | ⟨t, ht, hn⟩
    · exact .inl hknown
    · exact .inr (hfirst hdeclared)
    · exact .inr ⟨t, Logged.mem_notes_bind.2 (.inr ⟨a, ha, ht⟩), hn⟩

theorem DeclaresTags.then (hx : DeclaresTags known x)
    (hf : ∀ a, x.result = .ok a → DeclaresTags known (f a)) : DeclaresTags known (x.bind f) :=
  hx.bind fun a ha => (hf a ha).mono fun _ => .inl

end Declares

section Visits

variable {known : String → Prop}

theorem declaresTags_registerRoute (ho : o.tags = [])
    (hknown : ∀ name ∈ (r.tagsIn context).keys, known name) :
    DeclaresTags known (registerRoute r context route verb? o) := by
  intro path verb o' ho' name hname
  obtain ⟨_, _, rfl⟩ := operation_mem_registerRoute.1 ho'
  rw [Operation.tags_registered ho] at hname
  by_cases hown : route.info.tagNames = []
  · rw [if_pos hown] at hname
    exact .inl (hknown name (List.mem_eraseDups.1 hname))
  · rw [if_neg hown] at hname
    have hmem : name ∈ route.info.tagNames := List.mem_eraseDups.1 hname
    refine .inr ⟨⟨name, none⟩, ?_, rfl⟩
    rw [notes_registerRoute]
    exact List.mem_append_left _ (List.mem_map.2 ⟨name, hmem, rfl⟩)

theorem declaresTags_readReturned {inner : Context}
    (hopened : ∀ sub, s.routable? m.returnType = some sub → sub.name ∉ openNames →
      DeclaresTags known (readOpened models s chain (openNames ++ [sub.name]) sub inner)) :
    DeclaresTags known (readReturned models s chain openNames m inner) := by
  rw [readReturned]
  split
  · exact declaresTags_pure ()
  · rename_i sub hs
    split
    · exact declaresTags_warnings [_]
    · rename_i ho
      exact hopened sub hs (mt List.contains_iff_mem.2 ho)

theorem declaresTags_visitMethod (hknown : ∀ name ∈ (r.tagsIn context).keys, known name)
    (hopened : ∀ sub route built, s.routable? m.returnType = some sub → sub.name ∉ openNames →
      DeclaresTags known (readOpened models s chain (openNames ++ [sub.name]) sub
        (Context.descend r context route (chain.resolve m).verb built))) :
    DeclaresTags known (visitMethod models s chain openNames r context m) := by
  rw [visitMethod]
  cases hr : route? context r m with
  | none => exact declaresTags_pure ()
  | some reached =>
    cases reached with
    | none => exact declaresTags_describe _
    | some route =>
      refine DeclaresTags.then (declaresTags_warnings _) fun _ _ => ?_
      refine DeclaresTags.then (declaresTags_of_none fun _ _ _ => operation_not_mem_buildVisible)
        fun built hbuilt => ?_
      have htags : (built.inContext context route).tags = [] :=
        Operation.tags_inContext.trans
          (labels_built hr ((buildOperation_result_iff hr).2 hbuilt)).1
      refine DeclaresTags.then (declaresTags_readReturned fun sub => hopened sub route _)
        fun _ _ => ?_
      exact (declaresTags_registerRoute htags hknown).then fun _ _ => declaresTags_describe _

end Visits

/-- A resource declares the tags that it hands down before its methods are read. -/
theorem declaresTags_readOpened (hr : r ∈ s.resources) (hcontext : s.NamesTags context.tags) :
    DeclaresTags (fun _ => False) (readOpened models s chain openNames r context) := by
  refine opened_induction (s := s) (C := fun openNames r context => r ∈ s.resources →
    s.NamesTags context.tags →
      DeclaresTags (fun _ => False) (readOpened models s chain openNames r context))
    ?_ openNames r context hr hcontext
  intro openNames r context ih hr hcontext
  have hnamed := hcontext.tagsIn hr
  let declared : Reading Unit :=
    Logged.noteAll ((r.tagsIn context).values.map fun t => .edit (.tag t))
  have hdeclared : ∀ name ∈ (r.tagsIn context).keys, Declares declared name := by
    intro name hname
    obtain ⟨e, he, rfl⟩ := List.mem_map.1 hname
    exact ⟨e.2, List.mem_map.2 ⟨e.2, List.mem_map.2 ⟨e, he, rfl⟩, rfl⟩, (hnamed e he).1⟩
  have hmethods (methods : List Method) :
      DeclaresTags (fun name => False ∨ Declares declared name)
        (readMethods models s chain openNames r context methods) := by
    induction methods with
    | nil =>
      rw [readMethods]
      exact declaresTags_pure ()
    | cons m rest ihrest =>
      rw [readMethods_cons]
      refine DeclaresTags.then (declaresTags_visitMethod
        (fun name hname => .inr (hdeclared name hname)) ?_) fun _ _ => ihrest
      intro sub route built hs hnew
      refine DeclaresTags.mono (ih _ sub _ hs hnew (ResourceSet.mem_of_routable? hs) ?_)
        fun _ h => h.elim
      exact hnamed
  have hwritten : DeclaresTags (fun _ => False) declared := by
    apply declaresTags_of_none
    intro path verb o h
    obtain ⟨t, _, ht⟩ := List.mem_map.1 h
    cases ht
  rw [readOpened]
  exact hwritten.bind fun _ _ => (hmethods r.methods).then fun _ _ => declaresTags_describe _

theorem declaresTags_readSet : DeclaresTags (fun _ => False) (readSet models s chain) := by
  have hroots (rs : List Resource) (h : ∀ r ∈ rs, r ∈ s.resources) :
      DeclaresTags (fun _ => False) (readRoots models s chain rs) := by
    induction rs with
    | nil => exact declaresTags_pure ()
    | cons r rs ih =>
      obtain ⟨hr, hrest⟩ := List.forall_mem_cons.1 h
      rw [readRoots]
      refine DeclaresTags.then ?_ fun _ _ => ih hrest
      rw [readRoot]
      split
      · exact declaresTags_readOpened hr ResourceSet.namesTags_empty
      · exact declaresTags_pure ()
  exact hroots _ fun _ => ResourceSet.mem_of_mem_rootResources

/-- Reading, whether it fails or not, keeps the tags of a document distinct and those of its
operations declared, and adds none without a name. -/
theorem Document.tags_declared_read {d : Document} (hd : d.TagsDeclared) :
    let d' := (d.read models s chain).1
    d'.TagsDeclared ∧ ∀ name ∈ d'.tagNames, name ∈ d.tagNames ∨ name ≠ "" := by
  intro d'
  have hdistinct : d'.tagNames.Nodup := nodup_tagNames_applyAll hd.distinct
  have hnames (name : String) : name ∈ d'.tagNames ↔
      name ∈ d.tagNames ∨ Declares (readSet models s chain) name := by
    refine mem_tagNames_applyAll.trans (or_congr Iff.rfl (exists_congr fun t => ?_))
    rw [mem_edits]
  refine ⟨⟨hdistinct, fun path verb o ho name hname => (hnames name).2 ?_⟩,
    fun name hname => ?_⟩
  · rcases operation?_applyAll ho with hwritten | hbefore
    · rcases declaresTags_readSet path verb o (mem_edits.1 hwritten) name hname with h | h
      · exact h.elim
      · exact .inr h
    · exact .inl (hd.declared path verb o hbefore name hname)
  · rcases (hnames name).1 hname with hbefore | ⟨t, ht, rfl⟩
    · exact .inl hbefore
    · exact .inr (namesTag_of_mem_readSet ht).ne_empty

section Harbour

def harbourDocument : Document where
  tags := [⟨"staff", none⟩]
  paths := ⟨[("/staff", { get := some { tags := ["staff"] } })]⟩

/-- The second method returns a type that is not known. -/
def harbourSet : ResourceSet :=
  let list : Method := {
    name := "list"
    declaration := {
      operation := some { tags := ["boats", "", "boats"] }
      path := some ""
      verb := some .get } }
  let cargo : Method := {
    name := "cargo"
    returnType := ⟨"Cargo", []⟩
    declaration := { operation := some {}, path := some "/cargo", verb := some .get } }
  ({} : ResourceSet).addRoot {
    name := "Harbours"
    api := some { value := "/harbours" }
    path := some "/harbours"
    methods := [list, cargo] }

theorem harbourDocument_tagsDeclared : harbourDocument.TagsDeclared where
  distinct := by decide
  declared path verb o ho name hname := by
    by_cases hpath : "/staff" = path
    · subst hpath
      cases verb <;> cases ho
      exact hname
    · simp [Document.operation?, harbourDocument, Table.get?, Table.find, hpath] at ho

/-- The reading fails after it has declared and used a tag. -/
theorem harbourSet_tags_declared :
    let d' := (harbourDocument.read {} harbourSet .standard).1
    harbourDocument.TagsDeclared ∧
      (harbourDocument.read {} harbourSet .standard).2 = .error (.unresolved ⟨"Cargo", []⟩) ∧
      d'.tagNames = ["staff", "harbours", "boats"] ∧ d'.TagsDeclared ∧
      ∀ name ∈ d'.tagNames, name ∈ harbourDocument.tagNames ∨ name ≠ "" :=
  ⟨harbourDocument_tagsDeclared, by cbv, by cbv,
    Document.tags_declared_read harbourDocument_tagsDeclared⟩

end Harbour

end Apidoc
