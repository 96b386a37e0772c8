import Apidoc.Proofs.Distinct
import Apidoc.Proofs.Reading.Registered
import Apidoc.Proofs.Reading.Writes
import Mathlib

namespace Apidoc

def Resource.ownTags (r : Resource) : List Tag :=
  (r.api.map (·.documentTags)).getD []

def Resource.tagNames (r : Resource) : List String :=
  r.ownTags.map (·.name)

/-- The tags of the classes that the visits go through. -/
def classTags (visits : List Visit) : List String :=
  visits.flatMap (·.resource.tagNames)

def OperationInfo.tagNames (info : OperationInfo) : List String :=
  info.tags.filter (· ≠ "")

/-- A requirement that names one scheme, as those of annotations do. -/
def SecurityRequirement.HasOneScheme (x : SecurityRequirement) : Prop :=
  ∃ scheme scopes, x = ⟨[(scheme, scopes)]⟩

variable {models : Models} {s : ResourceSet} {chain : VerbChain} {context : Context}
  {route : Route} {r : Resource} {locators visits : List Visit} {v last : Visit} {path : String}
  {verb : Verb} {verb? : Option Verb} {o built : Operation} {m : Method} {info : OperationInfo}
  {x y : SecurityRequirement} {xs : List SecurityRequirement}

section Classes

theorem Resource.tagsIn_eq :
    r.tagsIn context = context.tags.putAll (r.ownTags.map fun t => (t.name, t)) := by
  unfold tagsIn ownTags
  cases r.api <;> rfl

theorem Resource.keys_tagsIn : (r.tagsIn context).keys =
    context.tags.keys ++ (r.tagNames.removeAll context.tags.keys).eraseDups := by
  have hnames : (r.ownTags.map fun t => (t.name, t)).map (·.1) = r.tagNames := by
    rw [List.map_map]
    rfl
  rw [tagsIn_eq, Table.keys_putAll, hnames, foldl_addNew_self]

theorem classTags_append_singleton :
    classTags (visits ++ [v]) = classTags visits ++ v.resource.tagNames := by
  simp [classTags]

theorem tags_of_trailContext? (h : trailContext? models s chain locators = some context) :
    context.tags.keys = (classTags locators).eraseDups := by
  replace h := descends_iff.2 h
  induction h with
  | root => rfl
  | @locator before u outer _ _ _ _ _ ih =>
    have hkeys : (u.resource.tagsIn outer).keys = (classTags (before ++ [u])).eraseDups := by
      rw [Resource.keys_tagsIn, ih, append_removeAll_eraseDups, classTags_append_singleton]
    exact hkeys

end Classes

section Security

namespace SecurityRequirement

theorem HasOneScheme.same_iff (hx : x.HasOneScheme) (hy : y.HasOneScheme) :
    Table.same x y = true ↔ x = y := by
  obtain ⟨scheme, scopes, rfl⟩ := hx
  obtain ⟨scheme', scopes', rfl⟩ := hy
  by_cases hs : scheme' = scheme
  · subst hs
    have hscopes : scopes' = scopes ↔ scopes = scopes' := eq_comm
    simpa [Table.same, Table.size, Table.get?, Table.find] using hscopes
  · simp [Table.same, Table.size, Table.get?, Table.find, hs, Ne.symm hs]

theorem hasOneScheme_of_annotation {authorizations : List Authorization}
    (h : x ∈ securityRequirements authorizations) : x.HasOneScheme := by
  obtain ⟨a, _, rfl⟩ := List.mem_map.1 h
  exact ⟨_, _, rfl⟩

end SecurityRequirement

theorem Resource.hasOneScheme_of_mem (h : x ∈ r.security) : x.HasOneScheme := by
  unfold security at h
  cases hapi : r.api with
  | none =>
    rw [hapi] at h
    cases h
  | some api =>
    rw [hapi] at h
    exact SecurityRequirement.hasOneScheme_of_annotation h

end Security

namespace Operation

theorem tags_addTags (names : List String) :
    (names.foldl addTag o).tags = o.tags ++ (names.removeAll o.tags).eraseDups := by
  have hfold : (names.foldl addTag o).tags =
      names.foldl (fun kept name => if name ∈ kept then kept else kept ++ [name]) o.tags := by
    induction names generalizing o with
    | nil => rfl
    | cons name names ih =>
      have hadded : (o.addTag name).tags =
          if name ∈ o.tags then o.tags else o.tags ++ [name] := by
        rw [addTag]
        split <;> rfl
      refine ih.trans ?_
      rw [hadded]
      rfl
  rw [hfold, foldl_addNew_self]

theorem tags_addSecurity (o : Operation) (x : SecurityRequirement) :
    (o.addSecurity x).tags = o.tags := by
  rw [addSecurity]
  split <;> rfl

theorem security_addTag (o : Operation) (tag : String) : (o.addTag tag).security = o.security := by
  rw [addTag]
  split <;> rfl

theorem tags_addParameter (o : Operation) (p : Parameter) : (o.addParameter p).tags = o.tags := by
  rw [addParameter]
  split <;> rfl

theorem security_addParameter (o : Operation) (p : Parameter) :
    (o.addParameter p).security = o.security := by
  rw [addParameter]
  split <;> rfl

theorem security_addSecurity (ho : ∀ y ∈ o.security, y.HasOneScheme) (hx : x.HasOneScheme) :
    (o.addSecurity x).security = if x ∈ o.security then o.security else o.security ++ [x] := by
  have hthere : o.security.any (Table.same · x) = true ↔ x ∈ o.security := by
    rw [List.any_eq_true]
    constructor
    · rintro ⟨y, hy, hsame⟩
      exact ((ho y hy).same_iff hx).1 hsame ▸ hy
    · intro hmem
      exact ⟨x, hmem, (hx.same_iff hx).2 rfl⟩
  rw [addSecurity]
  by_cases hmem : x ∈ o.security
  · rw [if_pos hmem, if_pos (hthere.2 hmem)]
  · rw [if_neg hmem, if_neg (mt hthere.1 hmem)]

/-- Requirements with one scheme each are added unless they are there. -/
theorem security_addAll (ho : ∀ y ∈ o.security, y.HasOneScheme)
    (hxs : ∀ x ∈ xs, x.HasOneScheme) :
    (xs.foldl addSecurity o).security = o.security ++ (xs.removeAll o.security).eraseDups := by
  have hfold : (xs.foldl addSecurity o).security =
      xs.foldl (fun kept x => if x ∈ kept then kept else kept ++ [x]) o.security := by
    induction xs generalizing o with
    | nil => rfl
    | cons x xs ih =>
      obtain ⟨hx, hrest⟩ := List.forall_mem_cons.1 hxs
      have hadded := security_addSecurity ho hx
      have hone : ∀ y ∈ (o.addSecurity x).security, y.HasOneScheme := by
        rw [hadded]
        intro y hy
        split at hy
        · exact ho y hy
        · rcases List.mem_append.1 hy with hy | hy
          · exact ho y hy
          · exact List.mem_singleton.1 hy ▸ hx
      refine (ih hone hrest).trans ?_
      rw [hadded]
      rfl
  rw [hfold, foldl_addNew_self]

end Operation

section Built

theorem Method.tags_operationWith {headers : Option (Table Schema)} {responses : Table Response}
    {parameters : List Parameter} : (m.operationWith headers responses parameters).tags = [] := by
  unfold operationWith
  cases m.operation? with
  | none => rfl
  | some info => exact Operation.foldl_eq Operation.tags_addSecurity _ _

theorem Method.security_operationWith {headers : Option (Table Schema)}
    {responses : Table Response} {parameters : List Parameter} (hi : m.operation? = some info) :
    (m.operationWith headers responses parameters).security =
      (securityRequirements info.authorizations).eraseDups := by
  have hadded : (m.operationWith headers responses parameters).security =
      ((securityRequirements info.authorizations).foldl Operation.addSecurity
        { operationId := m.operationId (some info)
          summary := Text.nonEmpty? info.summary
          description := Text.nonEmpty? info.notes
          extensions := ({} : Table Value).putAll
            ((extensionEntries info.extensions).flatMap fun t =>
              t.entries.map fun e => (vendorKey e.1, e.2)) }).security := by
    rw [operationWith, hi]
    rfl
  have hnone : ∀ x ∈ ([] : List SecurityRequirement), x.HasOneScheme := by simp
  rw [hadded, Operation.security_addAll hnone
    fun _ => SecurityRequirement.hasOneScheme_of_annotation]
  simp [List.removeAll]

/-- A method is built without tags, and with the security of its own annotation. -/
theorem labels_built (hr : route? context r m = some (some route))
    (hbuilt : (buildOperation models s m).result = .ok (some built)) :
    built.tags = [] ∧
      built.security = (securityRequirements route.info.authorizations).eraseDups := by
  obtain ⟨info, _, hi, _, _, rfl⟩ := route?_eq_iff.1 hr
  have hanswers : (buildVisible models s m).Answers fun o => o.tags = [] ∧
      o.security = (securityRequirements info.authorizations).eraseDups := by
    simp only [buildVisible, Logged.bind_eq]
    exact Logged.Answers.after fun headers => Logged.Answers.after fun _ =>
      Logged.Answers.after fun responses => Logged.Answers.after fun parameters =>
        .pure ⟨Method.tags_operationWith, Method.security_operationWith hi⟩
  exact hanswers _ ((buildOperation_result_iff hr).1 hbuilt)

end Built

namespace Operation

theorem tags_inContext : (o.inContext context route).tags = o.tags :=
  foldl_eq tags_addParameter _ _

theorem security_inContext : (o.inContext context route).security = o.security :=
  foldl_eq security_addParameter _ _

/-- Where an operation has no tags, its own are added, or else those that its class has. -/
theorem tags_registered (ho : o.tags = []) :
    (o.registered r context route verb?).tags =
      if route.info.tagNames = [] then (r.tagsIn context).keys.eraseDups
      else route.info.tagNames.eraseDups := by
  let inner := Context.descend r context route verb? o
  let filled := (route.info.tagNames.foldl addTag o).orMedia inner.consumes inner.produces
  have hall (names : List String) : names.removeAll [] = names :=
    List.filter_eq_self.2 fun _ _ => rfl
  have hfilled : filled.tags = route.info.tagNames.eraseDups := by
    have htags := tags_addTags (o := o) route.info.tagNames
    rw [ho, hall] at htags
    exact htags
  have hregistered : o.registered r context route verb? = r.security.foldl addSecurity
      (if filled.tags.isEmpty then inner.tags.keys.foldl addTag filled else filled) := rfl
  rw [hregistered, foldl_eq tags_addSecurity]
  by_cases hown : route.info.tagNames = []
  · have hnone : filled.tags = [] := by
      rw [hfilled, hown]
      rfl
    rw [if_pos hown, if_pos (List.isEmpty_iff.2 hnone), tags_addTags, hnone, hall]
    rfl
  · have hsome : ¬filled.tags.isEmpty = true := by
      intro hempty
      obtain ⟨name, hname⟩ := List.exists_mem_of_ne_nil _ hown
      have hmem : name ∈ filled.tags := hfilled ▸ List.mem_eraseDups.2 hname
      rw [List.isEmpty_iff.1 hempty] at hmem
      cases hmem
    rw [if_neg hown, if_neg hsome, hfilled]

theorem security_registered (ho : ∀ x ∈ o.security, x.HasOneScheme) :
    (o.registered r context route verb?).security =
      o.security ++ (r.security.removeAll o.security).eraseDups := by
  let inner := Context.descend r context route verb? o
  let filled := (route.info.tagNames.foldl addTag o).orMedia inner.consumes inner.produces
  let tagged := if filled.tags.isEmpty then inner.tags.keys.foldl addTag filled else filled
  have htagged : tagged.security = o.security := by
    have hfilled : filled.security = o.security := foldl_eq security_addTag _ _
    rw [← hfilled]
    by_cases htags : filled.tags.isEmpty = true
    · exact (congrArg Operation.security (if_pos htags)).trans (foldl_eq security_addTag _ _)
    · exact congrArg Operation.security (if_neg htags)
  have hadded : (r.security.foldl addSecurity tagged).security =
      tagged.security ++ (r.security.removeAll tagged.security).eraseDups :=
    security_addAll (htagged ▸ ho) fun _ => Resource.hasOneScheme_of_mem
  rw [htagged] at hadded
  exact hadded

end Operation

/-- An operation that a reading registers has its own tags, or else those of all classes on the way
to it, and it asks for its own security and that of its class. -/
theorem WritesThrough.tags_and_security
    (h : WritesThrough models s chain locators last path verb o) :
    ∃ info, last.method.operation? = some info ∧
      o.tags = (if info.tagNames = [] then classTags (locators ++ [last])
        else info.tagNames).eraseDups ∧
      o.security =
        (securityRequirements info.authorizations ++ last.resource.security).eraseDups := by
  obtain ⟨context, hcontext, _, route, built, hr, hbuilt, _, rfl⟩ := h.registers
  obtain ⟨htags, hsecurity⟩ := labels_built hr hbuilt
  have hinfo : last.method.operation? = some route.info := by
    obtain ⟨info, _, hi, _, _, rfl⟩ := route?_eq_iff.1 hr
    exact hi
  refine ⟨route.info, hinfo, ?_, ?_⟩
  · have hclass : (last.resource.tagsIn context).keys =
        (classTags (locators ++ [last])).eraseDups := by
      rw [Resource.keys_tagsIn, tags_of_trailContext? hcontext, append_removeAll_eraseDups,
        classTags_append_singleton]
    rw [Operation.tags_registered (Operation.tags_inContext.trans htags), hclass,
      eraseDups_of_nodup (nodup_eraseDups _)]
    split <;> rfl
  · have hone : ∀ x ∈ (built.inContext context route).security, x.HasOneScheme := by
      rw [Operation.security_inContext, hsecurity]
      intro x hx
      exact SecurityRequirement.hasOneScheme_of_annotation (List.mem_eraseDups.1 hx)
    rw [Operation.security_registered hone, Operation.security_inContext, hsecurity,
      append_removeAll_eraseDups]

section Farm

def stallLocator : Method where
  name := "stalls"
  returnType := ⟨"Stalls", []⟩
  declaration := { operation := some { tags := ["passage"] }, path := some "/stalls" }

def stallList : Method where
  name := "list"
  declaration := {
    operation := some {
      tags := [""]
      authorizations := [⟨"oauth", ["read", ""]⟩, ⟨"", []⟩, ⟨"basic", []⟩, ⟨"basic", []⟩] }
    path := some "/all"
    verb := some .get }

def farmVisit : Visit where
  resource := {
    name := "Farms"
    api := some { value := "/farms", authorizations := [⟨"owner", []⟩] }
    path := some "/farms"
    methods := [stallLocator] }
  method := stallLocator

def stallVisit : Visit where
  resource := {
    name := "Stalls"
    api := some {
      tags := ["stalls", "farms"]
      authorizations := [⟨"key", []⟩, ⟨"oauth", ["read"]⟩] }
    methods := [stallList] }
  method := stallList

/-- Tags at every level, and security of which some is repeated. -/
def farmSet : ResourceSet :=
  (({} : ResourceSet).addRoot farmVisit.resource).addSubResource stallVisit.resource

theorem farmSet_trail : IsTrail farmSet ([farmVisit] ++ [stallVisit]) where
  start v hv := by
    cases hv
    exact ⟨List.mem_singleton_self _, _, rfl, rfl⟩
  documented v hv := by
    simp only [List.cons_append, List.nil_append, List.mem_cons, List.not_mem_nil, or_false] at hv
    rcases hv with rfl | rfl <;> exact ⟨List.mem_singleton_self _, _, rfl, rfl⟩
  linked := .cons_cons rfl (.singleton _)
  distinct := by decide

/-- Neither the tag of the locator nor the security of the root comes through. -/
theorem farmSet_tags_and_security : ∃ o, WritesThrough {} farmSet .standard [farmVisit] stallVisit
    "/farms/stalls/all" .get o ∧ o.tags = ["farms", "stalls"] ∧
      o.security = [⟨[("oauth", ["read"])]⟩, ⟨[("basic", [])]⟩, ⟨[("key", [])]⟩] := by
  have hread : (readSet {} farmSet .standard).result = .ok () := by cbv
  have hpath : trailPath? ([farmVisit] ++ [stallVisit]) = some "/farms/stalls/all" := by cbv
  obtain ⟨o, ho⟩ := (exists_writesThrough_iff hread farmSet_trail hpath).2 (by cbv)
  obtain ⟨info, hi, htags, hsecurity⟩ := WritesThrough.tags_and_security ho
  cases hi
  exact ⟨o, ho, htags.trans (by cbv), hsecurity.trans (by cbv)⟩

end Farm

end Apidoc
