import Apidoc.Proofs.Document.Edits
import Apidoc.Proofs.Reading.Visit
import Mathlib

namespace Apidoc

structure Visit where
  resource : Resource
  method : Method

namespace Visit

/-- Whether the method is one of its resource's and has an annotation that does not hide it. -/
def IsDocumented (v : Visit) : Prop :=
  v.method ∈ v.resource.methods ∧ ∃ info, v.method.operation? = some info ∧ info.hidden = false

/-- The path of the method below the path that its resource inherits. -/
def path? (inherited : String) (v : Visit) : Option String :=
  (Path.compose inherited v.resource.path v.method.path?).map fun path => (Path.extract path).1

end Visit

/-- A trail begins at a root that is marked as a resource and not hidden, goes on to the resource
that a method returns, and comes to no resource twice. -/
structure IsTrail (s : ResourceSet) (visits : List Visit) : Prop where
  start : ∀ v ∈ visits.head?, v.resource ∈ s.rootResources ∧
    ∃ api, v.resource.api = some api ∧ api.hidden = false
  documented : ∀ v ∈ visits, v.IsDocumented
  linked : visits.IsChain fun v w => s.routable? v.method.returnType = some w.resource
  distinct : (visits.map (·.resource.name)).Nodup

def trailPath? (visits : List Visit) : Option String :=
  visits.foldlM Visit.path? ""

/-- The verb of the last locator, which stands in where a method has none. -/
def locatorVerb? (chain : VerbChain) (locators : List Visit) : Option Verb :=
  locators.getLast?.bind fun v => (chain.resolve v.method).verb

/-- The context of what a method returns, if the method has a route and its operation can be
built. -/
def Visit.inner? (models : Models) (s : ResourceSet) (chain : VerbChain) (context : Context)
    (v : Visit) : Option Context :=
  match route? context v.resource v.method, (buildOperation models s v.method).result with
  | some (some route), .ok (some built) =>
    some (Context.descend v.resource context route (chain.resolve v.method).verb
      (built.inContext context route))
  | _, _ => none

/-- What the locators of a trail hand down. -/
def trailContext? (models : Models) (s : ResourceSet) (chain : VerbChain) (locators : List Visit) :
    Option Context :=
  locators.foldlM (Visit.inner? models s chain) {}

/-- The contexts that locators hand down, one step for each locator. -/
inductive Descends (models : Models) (s : ResourceSet) (chain : VerbChain) :
    List Visit → Context → Prop
  | root : Descends models s chain [] {}
  | locator {before : List Visit} {u : Visit} {outer : Context} {route : Route} {built : Operation}
    (h : Descends models s chain before outer)
    (hr : route? outer u.resource u.method = some (some route))
    (hbuilt : (buildOperation models s u.method).result = .ok (some built)) :
    Descends models s chain (before ++ [u])
      (Context.descend u.resource outer route (chain.resolve u.method).verb
        (built.inContext outer route))

variable {models : Models} {s : ResourceSet} {chain : VerbChain} {r : Resource}
  {context : Context} {locators visits : List Visit} {v w : Visit} {path : String}

theorem trailPath?_append_singleton :
    trailPath? (visits ++ [v]) = (trailPath? visits).bind fun path => v.path? path := by
  simp [trailPath?, List.foldlM_append]

theorem trailContext?_append_singleton :
    trailContext? models s chain (visits ++ [v]) =
      (trailContext? models s chain visits).bind (v.inner? models s chain) := by
  simp [trailContext?, List.foldlM_append]

/-- What has a route is visible, so that building it gives an operation if it succeeds. -/
theorem buildOperation_result_iff {m : Method} {route : Route} {built : Operation}
    (hr : route? context r m = some (some route)) :
    (buildOperation models s m).result = .ok (some built) ↔
      (buildVisible models s m).result = .ok built := by
  rw [buildOperation_visible (not_isHidden_of_route hr), Logged.result_bind_eq_ok]
  constructor
  · rintro ⟨o, ho, he⟩
    cases he
    exact ho
  · intro h
    exact ⟨built, h, rfl⟩

theorem Visit.inner?_eq_some_iff {inner : Context} :
    v.inner? models s chain context = some inner ↔
      ∃ route built, route? context v.resource v.method = some (some route) ∧
        (buildOperation models s v.method).result = .ok (some built) ∧
        inner = Context.descend v.resource context route (chain.resolve v.method).verb
          (built.inContext context route) := by
  unfold Visit.inner?
  constructor
  · intro h
    split at h
    · rename_i route built hr hb
      cases h
      exact ⟨route, built, hr, hb, rfl⟩
    · cases h
  · rintro ⟨route, built, hr, hb, rfl⟩
    rw [hr, hb]

theorem Visit.inner?_eq {route : Route} {built : Operation}
    (hr : route? context v.resource v.method = some (some route))
    (hb : (buildVisible models s v.method).result = .ok built) :
    v.inner? models s chain context =
      some (Context.descend v.resource context route (chain.resolve v.method).verb
        (built.inContext context route)) :=
  Visit.inner?_eq_some_iff.2 ⟨route, built, hr, (buildOperation_result_iff hr).2 hb, rfl⟩

theorem descends_iff :
    Descends models s chain locators context ↔
      trailContext? models s chain locators = some context := by
  constructor
  · intro h
    induction h with
    | root => rfl
    | locator _ hr hbuilt ih =>
      rw [trailContext?_append_singleton, ih]
      exact Visit.inner?_eq_some_iff.2 ⟨_, _, hr, hbuilt, rfl⟩
  · intro h
    induction locators using List.reverseRecOn generalizing context with
    | nil =>
      cases h
      exact .root
    | append_singleton before u ih =>
      rw [trailContext?_append_singleton] at h
      obtain ⟨outer, houter, hinner⟩ := Option.bind_eq_some_iff.1 h
      obtain ⟨route, built, hr, hbuilt, rfl⟩ := Visit.inner?_eq_some_iff.1 hinner
      exact .locator (ih houter) hr hbuilt

theorem IsTrail.dropLast (h : IsTrail s (visits ++ [v, w])) : IsTrail s (visits ++ [v]) where
  start u hu := h.start u (by cases visits <;> exact hu)
  documented u hu := h.documented u (by
    rcases List.mem_append.1 hu with hu | hu
    · exact List.mem_append_left _ hu
    · exact List.mem_append_right _ (List.mem_cons.2 (.inl (List.mem_singleton.1 hu))))
  linked := (List.isChain_split.1 h.linked).1
  distinct := by
    have := h.distinct
    simp only [List.map_append, List.map_cons, List.map_nil] at this ⊢
    exact this.sublist (by simp)

theorem IsTrail.link (h : IsTrail s (visits ++ [v, w])) :
    s.routable? v.method.returnType = some w.resource ∧
      w.resource.name ∉ (visits ++ [v]).map (·.resource.name) := by
  refine ⟨?_, ?_⟩
  · have := (List.isChain_split.1 h.linked).2
    simpa using this
  · have := h.distinct
    rw [show visits ++ [v, w] = (visits ++ [v]) ++ [w] by simp, List.map_append,
      List.nodup_append] at this
    intro hw
    exact this.2.2 _ hw _ (by simp) rfl

theorem IsTrail.extend (h : IsTrail s (visits ++ [v])) (hw : w.IsDocumented)
    (hlink : s.routable? v.method.returnType = some w.resource)
    (hnew : w.resource.name ∉ (visits ++ [v]).map (·.resource.name)) :
    IsTrail s (visits ++ [v] ++ [w]) where
  start u hu := h.start u (by cases visits <;> exact hu)
  documented u hu := by
    rcases List.mem_append.1 hu with hu | hu
    · exact h.documented u hu
    · exact List.mem_singleton.1 hu ▸ hw
  linked := by
    rw [List.append_assoc]
    exact List.isChain_split.2 ⟨h.linked, by simpa using hlink⟩
  distinct := by
    rw [List.map_append, List.nodup_append]
    refine ⟨h.distinct, by simp, ?_⟩
    rintro a ha b hb rfl
    exact hnew (by simpa [List.mem_singleton.1 hb] using ha)

theorem path?_of_route? {route : Route}
    (h : route? context v.resource v.method = some (some route)) :
    v.path? context.path = some route.path := by
  obtain ⟨info, composed, _, _, hcomposed, rfl⟩ := route?_eq_iff.1 h
  rw [Visit.path?, hcomposed]
  rfl

/-- The methods with a route are the documented ones that have a path. -/
theorem route?_eq_some_iff (hm : v.method ∈ v.resource.methods) :
    (∃ route, route? context v.resource v.method = some (some route) ∧ route.path = path) ↔
      v.IsDocumented ∧ v.path? context.path = some path := by
  constructor
  · rintro ⟨route, h, rfl⟩
    obtain ⟨info, _, hi, hh, _, _⟩ := route?_eq_iff.1 h
    exact ⟨⟨hm, info, hi, hh⟩, path?_of_route? h⟩
  · rintro ⟨⟨_, info, hi, hh⟩, hp⟩
    obtain ⟨composed, hc, rfl⟩ := Option.map_eq_some_iff.1 hp
    exact ⟨_, route?_eq_iff.2 ⟨info, composed, hi, hh, hc, rfl⟩, rfl⟩

/-- A resource is open in a context at the end of the locators of a trail. -/
structure EndsTrail (s : ResourceSet) (chain : VerbChain) (locators : List Visit)
    (openNames : List String) (r : Resource) (context : Context) : Prop where
  names : openNames = locators.map (·.resource.name) ++ [r.name]
  path : trailPath? locators = some context.path
  verb : context.verb = locatorVerb? chain locators
  trail : ∀ m, Visit.IsDocumented ⟨r, m⟩ → IsTrail s (locators ++ [⟨r, m⟩])

theorem endsTrail_root (hr : r ∈ s.rootResources) (hread : r.isReadable {} = true) :
    EndsTrail s chain [] [r.name] r {} where
  names := rfl
  path := rfl
  verb := rfl
  trail m hm := by
    refine ⟨?_, by simpa using hm, .singleton _, by simp⟩
    intro v hv
    cases hv
    refine ⟨hr, ?_⟩
    simp only [Resource.isReadable, Bool.false_or] at hread
    split at hread
    · rename_i api ha
      exact ⟨api, ha, by simpa using hread⟩
    · cases hread

theorem EndsTrail.step {locators : List Visit} {openNames : List String} {m : Method}
    {sub : Resource} {route : Route} {o : Operation}
    (h : EndsTrail s chain locators openNames r context) (hm : m ∈ r.methods)
    (hr : route? context r m = some (some route))
    (hs : s.routable? m.returnType = some sub) (hnew : sub.name ∉ openNames) :
    EndsTrail s chain (locators ++ [⟨r, m⟩]) (openNames ++ [sub.name]) sub
      (Context.descend r context route (chain.resolve m).verb o) := by
  obtain ⟨hdoc, hpath⟩ := (route?_eq_some_iff (v := ⟨r, m⟩) hm).1 ⟨route, hr, rfl⟩
  constructor
  · rw [h.names]
    simp
  · rw [trailPath?_append_singleton, h.path]
    exact hpath
  · simp [locatorVerb?, Context.descend]
  · intro m' hm'
    refine (h.trail m hdoc).extend hm' hs ?_
    rw [h.names] at hnew
    simpa using hnew

/-- An event comes from a visit when the visit builds an operation or registers one with it. -/
structure FromVisit (models : Models) (s : ResourceSet) (chain : VerbChain) (v : Visit)
    (context : Context) (route : Route) (e : Event) : Prop where
  mem : v.method ∈ v.resource.methods
  routed : route? context v.resource v.method = some (some route)
  origin : e ∈ ((buildVisible models s v.method).mapNotes Event.ofNote).notes ∨
    ∃ built, (buildVisible models s v.method).result = .ok built ∧
      e ∈ (registerRoute v.resource context route (chain.resolve v.method).verb
        (built.inContext context route)).notes

/-- Apart from tags and warnings, all that a reading does comes from visits at ends of trails, in
the contexts that the trails hand down. -/
theorem fromTrail_of_mem_readSet {e : Event} (h : e ∈ (readSet models s chain).notes) :
    (∃ t, e = .edit (.tag t)) ∨ e = .edit (.describeTags s.tags) ∨ (∃ w, e = .warning w) ∨
      ∃ locators openNames v context route,
        EndsTrail s chain locators openNames v.resource context ∧
          trailContext? models s chain locators = some context ∧
            FromVisit models s chain v context route e := by
  let Q (e : Event) : Prop := (∃ t, e = .edit (.tag t)) ∨ e = .edit (.describeTags s.tags) ∨
    (∃ w, e = .warning w) ∨ ∃ locators openNames v context route,
      EndsTrail s chain locators openNames v.resource context ∧
        trailContext? models s chain locators = some context ∧
          FromVisit models s chain v context route e
  have hmeets : (readSet models s chain).Meets (fun _ => True) Q fun _ => True := by
    refine readSet_meets
      (I := fun openNames r context => ∃ locators, EndsTrail s chain locators openNames r context ∧
        trailContext? models s chain locators = some context)
      (.inr (.inl rfl)) (fun w => .inr (.inr (.inl ⟨w, rfl⟩)))
      (fun _ _ _ _ t _ => .inl ⟨t, rfl⟩) ?_ fun r hr hread => ⟨[], endsTrail_root hr hread, rfl⟩
    rintro openNames r context m route ⟨locators, htrail, hcontext⟩ hm hr _
    refine ⟨fun e he => ?_, fun built hbuilt => ⟨fun e he => ?_, fun sub hs hnew => ?_⟩⟩
    · exact .inr (.inr (.inr ⟨locators, openNames, ⟨r, m⟩, context, route, htrail, hcontext, hm, hr,
        .inl he⟩))
    · exact .inr (.inr (.inr ⟨locators, openNames, ⟨r, m⟩, context, route, htrail, hcontext, hm, hr,
        .inr ⟨built, hbuilt, he⟩⟩))
    · refine ⟨locators ++ [⟨r, m⟩], htrail.step hm hr hs hnew, ?_⟩
      rw [trailContext?_append_singleton, hcontext]
      exact Visit.inner?_eq (v := ⟨r, m⟩) hr hbuilt
  exact (hmeets fun _ _ => trivial).1 e h

/-- A reading that succeeds visits the end of every trail that has a path, in the context that the
trail hands down. -/
theorem readSet_runs_trail {locators : List Visit} (h : (readSet models s chain).result = .ok ())
    (ht : IsTrail s (locators ++ [v])) (hp : (trailPath? (locators ++ [v])).isSome) :
    ∃ openNames context, EndsTrail s chain locators openNames v.resource context ∧
      trailContext? models s chain locators = some context ∧
        (readSet models s chain).Runs
          (visitMethod models s chain openNames v.resource context v.method) () := by
  -- Along the trail: the visit of a locator opens the resource of the next one.
  induction locators using List.reverseRecOn generalizing v with
  | nil =>
    obtain ⟨hr, api, ha, hh⟩ := ht.start v rfl
    have hread : v.resource.isReadable {} = true := by simp [Resource.isReadable, ha, hh]
    have hopen := readSet_runs_root h hr hread
    have hm := (ht.documented v (by simp)).1
    exact ⟨_, _, endsTrail_root hr hread, rfl,
      hopen.trans (readOpened_runs_visit hopen.result hm)⟩
  | append_singleton locators u ih =>
    rw [List.append_assoc] at ht
    rw [trailPath?_append_singleton] at hp
    have hpu : (trailPath? (locators ++ [u])).isSome := by
      cases hu : trailPath? (locators ++ [u]) with
      | none => simp [hu] at hp
      | some path => rfl
    obtain ⟨openNames, context, hends, hcontext, hvisit⟩ := ih ht.dropLast hpu
    have hm := (ht.documented u (by simp)).1
    obtain ⟨path, hpath⟩ := Option.isSome_iff_exists.1 hpu
    rw [trailPath?_append_singleton, hends.path] at hpath
    obtain ⟨route, hr, -⟩ :=
      (route?_eq_some_iff hm).2 ⟨ht.documented u (by simp), hpath⟩
    obtain ⟨hlink, hnew⟩ := ht.link
    have hnew' : v.resource.name ∉ openNames := by
      rw [hends.names]
      simpa using hnew
    obtain ⟨built, hbuild, hread, -⟩ := visitMethod_runs hr hvisit.result
    have hopen := hvisit.trans (hread.trans (readReturned_runs hlink hnew' hread.result))
    refine ⟨_, _, hends.step hm hr hlink hnew', ?_,
      hopen.trans (readOpened_runs_visit hopen.result (ht.documented v (by simp)).1)⟩
    rw [trailContext?_append_singleton, hcontext]
    exact Visit.inner?_eq hr hbuild.result

/-- A document without paths that a reading succeeds on has an operation exactly in the slots at
the ends of trails. The verb is that of the method, or else that of the locator before it. -/
theorem read_operation_isSome_iff {d : Document} {verb : Verb} (hd : d.paths = {})
    (h : (d.read models s chain).2 = .ok ()) :
    ((d.read models s chain).1.operation? path verb).isSome ↔
      ∃ locators last, IsTrail s (locators ++ [last]) ∧
        trailPath? (locators ++ [last]) = some path ∧
        (chain.resolve last.method).verb.or (locatorVerb? chain locators) = some verb := by
  have hnone : d.operation? path verb = none := by simp [Document.operation?, hd]
  simp only [Document.read, Document.after, Document.operation?_applyAll_isSome_iff, hnone,
    Option.isSome_none, Bool.false_eq_true, false_or, mem_edits]
  constructor
  · rintro ⟨o, ho⟩
    rcases fromTrail_of_mem_readSet ho with
      ⟨t, ht⟩ | hd | ⟨w, hw⟩ | ⟨locators, openNames, v, context, route, hends, _, hm, hr, horigin⟩
    · cases ht
    · cases hd
    · cases hw
    · rcases horigin with hbuild | ⟨built, -, hregister⟩
      · exact (operation_not_mem_buildVisible hbuild).elim
      · obtain ⟨rfl, hverb, -⟩ := operation_mem_registerRoute.1 hregister
        obtain ⟨hdoc, hpath⟩ := (route?_eq_some_iff hm).1 ⟨route, hr, rfl⟩
        refine ⟨locators, v, hends.trail _ hdoc, ?_, hends.verb ▸ hverb⟩
        rw [trailPath?_append_singleton, hends.path]
        exact hpath
  · rintro ⟨locators, last, ht, hp, hverb⟩
    obtain ⟨openNames, context, hends, _, hvisit⟩ := readSet_runs_trail h ht (by simp [hp])
    rw [trailPath?_append_singleton, hends.path] at hp
    obtain ⟨route, hr, rfl⟩ := (route?_eq_some_iff (ht.documented last (by simp)).1).2
      ⟨ht.documented last (by simp), hp⟩
    obtain ⟨built, -, -, hregister⟩ := visitMethod_runs hr hvisit.result
    exact ⟨_, hvisit.notes _ (hregister.notes _
      (operation_mem_registerRoute.2 ⟨rfl, hends.verb ▸ hverb, rfl⟩))⟩

/-- A resource that is no root, behind a root whose path has a parameter. -/
def petSet : ResourceSet :=
  let toys : Method := {
    name := "list"
    declaration := { operation := some {}, path := some "", verb := some .get } }
  let pet : Method := {
    name := "toys"
    returnType := ⟨"Toys", []⟩
    declaration := { operation := some {}, path := some "" } }
  let pets : Resource :=
    { name := "Pets", api := some {}, path := some "/pets/{id: [0-9]+}", methods := [pet] }
  (({} : ResourceSet).addRoot pets).addSubResource
    { name := "Toys", api := some {}, path := some "/toys", methods := [toys] }

theorem petSet_trail : (({} : Document).read {} petSet .standard).2 = .ok () ∧
    ∃ locators last, IsTrail petSet (locators ++ [last]) ∧
      trailPath? (locators ++ [last]) = some "/pets/{id}/toys" ∧
      (VerbChain.standard.resolve last.method).verb.or (locatorVerb? .standard locators) =
        some .get := by
  have hread : (({} : Document).read {} petSet .standard).2 = .ok () := by cbv
  have hslot : ((({} : Document).read {} petSet .standard).1.operation? "/pets/{id}/toys"
      .get).isSome = true := by cbv
  exact ⟨hread, (read_operation_isSome_iff rfl hread).1 hslot⟩

end Apidoc
