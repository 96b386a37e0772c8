import Apidoc.Proofs.Reading.Trail

namespace Apidoc

/-- Whether a method is to be built: it is documented, not hidden, and below some path. -/
def Visit.isRouted (v : Visit) : Bool :=
  v.method.operation?.any (!·.hidden) && (v.resource.path.isSome || v.method.path?.isSome)

namespace ResourceSet

/-- How many resources are not on the way. -/
def closedBehind (s : ResourceSet) (visits : List Visit) : Nat :=
  s.closedResources (visits.map (·.resource.name))

theorem closedBehind_lt {s : ResourceSet} {visits : List Visit} {t : TypeRef} {sub : Resource}
    (hs : s.routable? t = some sub)
    (ho : ¬(visits.map (·.resource.name)).contains sub.name = true) (m : Method) :
    s.closedBehind (visits ++ [⟨sub, m⟩]) < s.closedBehind visits := by
  unfold closedBehind
  rw [List.map_append]
  exact closedResources_lt hs (Bool.eq_false_iff.2 ho)

/-- The trails that begin with these locators and this visit, in the order of reading: a method
comes before the methods of the resource that it returns, unless that resource is on the way. -/
def trailsThrough (s : ResourceSet) (locators : List Visit) (v : Visit) : List (List Visit) :=
  if v.isRouted then
    (locators ++ [v]) ::
      match hs : s.routable? v.method.returnType with
      | none => []
      | some sub =>
        if ho : ((locators ++ [v]).map (·.resource.name)).contains sub.name then []
        else sub.methods.flatMap fun m =>
          have := closedBehind_lt hs ho m
          s.trailsThrough (locators ++ [v]) ⟨sub, m⟩
  else []
termination_by s.closedBehind (locators ++ [v])
decreasing_by assumption

/-- All trails with a path, in the order of reading. -/
def trails (s : ResourceSet) : List (List Visit) :=
  (s.rootResources.filter (·.isReadable {})).flatMap fun r =>
    r.methods.flatMap fun m => s.trailsThrough [] ⟨r, m⟩

end ResourceSet

/-- What stops the building of the operation at the end of a trail. -/
def lastError? (models : Models) (s : ResourceSet) (visits : List Visit) : Option Error :=
  visits.getLast?.bind fun v => (buildOperation models s v.method).error?

variable {models : Models} {s : ResourceSet} {chain : VerbChain} {openNames : List String}
  {r : Resource} {context : Context} {locators visits : List Visit} {u v w : Visit}

theorem Path.compose_isSome_iff (parent : String) {cls method : Option String} :
    (compose parent cls method).isSome ↔ cls.isSome ∨ method.isSome := by
  unfold compose composeChars
  cases cls <;> cases method <;> simp

theorem Visit.path?_isSome_iff {inherited : String} :
    (v.path? inherited).isSome ↔ v.resource.path.isSome ∨ v.method.path?.isSome := by
  rw [path?, Option.isSome_map, Path.compose_isSome_iff]

theorem Visit.isRouted_iff (context : Context) : v.isRouted = true ↔
    ∃ route, route? context v.resource v.method = some (some route) := by
  unfold isRouted route?
  rw [Bool.and_eq_true, Bool.or_eq_true, ← Path.compose_isSome_iff context.path]
  cases v.method.operation? with
  | none => simp
  | some info =>
    cases hh : info.hidden with
    | true => simp [hh]
    | false => simp [hh, Option.isSome_iff_exists]

theorem Visit.isRouted_iff_documented (hm : v.method ∈ v.resource.methods) :
    v.isRouted = true ↔ v.IsDocumented ∧ (v.path? "").isSome := by
  rw [isRouted_iff {}, Option.isSome_iff_exists]
  constructor
  · rintro ⟨route, hr⟩
    obtain ⟨hdoc, hp⟩ := (route?_eq_some_iff hm).1 ⟨route, hr, rfl⟩
    exact ⟨hdoc, _, hp⟩
  · rintro ⟨hdoc, path, hp⟩
    have hroute : ∃ route, route? {} v.resource v.method = some (some route) ∧ route.path = path :=
      (route?_eq_some_iff hm).2 ⟨hdoc, hp⟩
    obtain ⟨route, hr, _⟩ := hroute
    exact ⟨route, hr⟩

theorem trailPath?_isSome_append_singleton : (trailPath? (visits ++ [v])).isSome ↔
    (trailPath? visits).isSome ∧ (v.path? "").isSome := by
  rw [trailPath?_append_singleton]
  cases trailPath? visits with
  | none => simp
  | some path => simp [Visit.path?_isSome_iff]

namespace ResourceSet

/-- What comes after the first of the trails through a visit. -/
def trailsBehind (s : ResourceSet) (visits : List Visit) (t : TypeRef) : List (List Visit) :=
  match s.routable? t with
  | none => []
  | some sub =>
    if (visits.map (·.resource.name)).contains sub.name then []
    else sub.methods.flatMap fun m => s.trailsThrough visits ⟨sub, m⟩

theorem trailsThrough_eq : s.trailsThrough locators v =
    if v.isRouted then
      (locators ++ [v]) :: s.trailsBehind (locators ++ [v]) v.method.returnType
    else [] := by
  rw [trailsThrough]
  split
  · congr 1
    unfold trailsBehind
    split
    · rename_i hs
      simp only [hs]
    · rename_i sub hs
      simp only [hs]
      split <;> rfl
  · rfl

theorem mem_trailsBehind_iff {t : TypeRef} {trail : List Visit} :
    trail ∈ s.trailsBehind visits t ↔ ∃ sub m, s.routable? t = some sub ∧
      sub.name ∉ visits.map (·.resource.name) ∧ m ∈ sub.methods ∧
      trail ∈ s.trailsThrough visits ⟨sub, m⟩ := by
  unfold trailsBehind
  cases hs : s.routable? t with
  | none => simp
  | some sub =>
    by_cases ho : sub.name ∈ visits.map (·.resource.name)
    · simp only [if_pos (List.contains_iff_mem.2 ho)]
      constructor
      · intro h
        cases h
      · rintro ⟨_, _, hsub, hnew, _⟩
        cases hsub
        exact (hnew ho).elim
    · simp only [if_neg (mt List.contains_iff_mem.1 ho), List.mem_flatMap]
      constructor
      · rintro ⟨m, hm, htrail⟩
        exact ⟨sub, m, rfl, ho, hm, htrail⟩
      · rintro ⟨_, m, hsub, _, hm, htrail⟩
        cases hsub
        exact ⟨m, hm, htrail⟩

theorem mem_trailsThrough_iff {trail : List Visit} :
    trail ∈ s.trailsThrough locators v ↔ v.isRouted = true ∧ (trail = locators ++ [v] ∨
      trail ∈ s.trailsBehind (locators ++ [v]) v.method.returnType) := by
  rw [trailsThrough_eq]
  split
  · rename_i hv
    rw [List.mem_cons, hv]
    simp
  · rename_i hv
    simp [hv]

/-- Every listed trail is one: it goes on from a trail as the type that a method returns says. -/
theorem isTrail_of_mem_trailsThrough {trail : List Visit}
    (h : trail ∈ s.trailsThrough locators v) (hm : v.method ∈ v.resource.methods)
    (ht : v.IsDocumented → IsTrail s (locators ++ [v]))
    (hp : (trailPath? locators).isSome) :
    trail ≠ [] ∧ IsTrail s trail ∧ (trailPath? trail).isSome := by
  -- The number of resources that are not on the way falls with every link.
  induction hn : s.closedBehind (locators ++ [v]) using Nat.strongRecOn
    generalizing locators v with
  | _ n ih =>
    obtain ⟨hv, htrail⟩ := mem_trailsThrough_iff.1 h
    obtain ⟨hdoc, hpv⟩ := (Visit.isRouted_iff_documented hm).1 hv
    have hpath : (trailPath? (locators ++ [v])).isSome :=
      trailPath?_isSome_append_singleton.2 ⟨hp, hpv⟩
    rcases htrail with rfl | hbehind
    · exact ⟨by simp, ht hdoc, hpath⟩
    · obtain ⟨sub, m, hs, hnew, hm', hsub⟩ := mem_trailsBehind_iff.1 hbehind
      have hlt : s.closedBehind (locators ++ [v] ++ [⟨sub, m⟩]) < n := by
        rw [← hn]
        exact closedBehind_lt hs (mt List.contains_iff_mem.1 hnew) m
      refine ih _ hlt hsub hm' (fun hdoc' => ?_) hpath rfl
      exact (ht hdoc).extend hdoc' hs hnew

/-- A listed trail that can be extended is followed by its extensions. -/
theorem mem_trailsThrough_extend {before : List Visit}
    (h : before ++ [u] ∈ s.trailsThrough locators v)
    (hs : s.routable? u.method.returnType = some w.resource)
    (hnew : w.resource.name ∉ (before ++ [u]).map (·.resource.name))
    (hm : w.method ∈ w.resource.methods) (hw : w.isRouted = true) :
    before ++ [u] ++ [w] ∈ s.trailsThrough locators v := by
  induction hn : s.closedBehind (locators ++ [v]) using Nat.strongRecOn
    generalizing locators v with
  | _ n ih =>
    obtain ⟨hv, htrail⟩ := mem_trailsThrough_iff.1 h
    refine mem_trailsThrough_iff.2 ⟨hv, .inr ?_⟩
    rcases htrail with heq | hbehind
    · obtain ⟨rfl, hu⟩ := List.append_inj' heq rfl
      cases hu
      have hend : before ++ [u] ++ [w] ∈ s.trailsThrough (before ++ [u]) w :=
        mem_trailsThrough_iff.2 ⟨hw, .inl rfl⟩
      exact mem_trailsBehind_iff.2 ⟨w.resource, w.method, hs, hnew, hm, hend⟩
    · obtain ⟨sub, m, hsub, hnew', hm', hmem⟩ := mem_trailsBehind_iff.1 hbehind
      have hlt : s.closedBehind (locators ++ [v] ++ [⟨sub, m⟩]) < n := by
        rw [← hn]
        exact closedBehind_lt hsub (mt List.contains_iff_mem.1 hnew') m
      exact mem_trailsBehind_iff.2 ⟨sub, m, hsub, hnew', hm', ih _ hlt hmem rfl⟩

theorem mem_trails_iff_through {trail : List Visit} : trail ∈ s.trails ↔
    ∃ r ∈ s.rootResources, r.isReadable {} = true ∧ ∃ m ∈ r.methods,
      trail ∈ s.trailsThrough [] ⟨r, m⟩ := by
  simp only [trails, List.mem_flatMap, List.mem_filter, and_assoc]

end ResourceSet

theorem Resource.isReadable_root_iff :
    r.isReadable {} = true ↔ ∃ api, r.api = some api ∧ api.hidden = false := by
  unfold isReadable
  cases r.api <;> simp

/-- The listed trails are those that have a path. -/
theorem ResourceSet.mem_trails_iff :
    visits ∈ s.trails ↔ visits ≠ [] ∧ IsTrail s visits ∧ (trailPath? visits).isSome := by
  constructor
  · intro h
    obtain ⟨r, hr, hread, m, hm, hthrough⟩ := mem_trails_iff_through.1 h
    refine isTrail_of_mem_trailsThrough hthrough hm (fun hdoc => ?_) rfl
    have hroot : EndsTrail s [] [] [r.name] r {} := endsTrail_root hr hread
    exact hroot.trail m hdoc
  · rintro ⟨hne, ht, hp⟩
    induction visits using List.reverseRecOn with
    | nil => exact (hne rfl).elim
    | append_singleton locators w ih =>
      obtain ⟨hp', hpw⟩ := trailPath?_isSome_append_singleton.1 hp
      have hdoc := ht.documented w (by simp)
      have hw := (Visit.isRouted_iff_documented hdoc.1).2 ⟨hdoc, hpw⟩
      cases locators using List.reverseRecOn with
      | nil =>
        obtain ⟨hr, hapi⟩ := ht.start w rfl
        refine mem_trails_iff_through.2 ⟨w.resource, hr, Resource.isReadable_root_iff.2 hapi,
          w.method, hdoc.1, ?_⟩
        exact mem_trailsThrough_iff.2 ⟨hw, .inl rfl⟩
      | append_singleton before u =>
        rw [List.append_assoc] at ht
        have hshort := ih (by simp) ht.dropLast hp'
        obtain ⟨hs, hnew⟩ := ht.link
        obtain ⟨r, hr, hread, m, hm, hthrough⟩ := mem_trails_iff_through.1 hshort
        exact mem_trails_iff_through.2 ⟨r, hr, hread, m, hm,
          mem_trailsThrough_extend hthrough hs hnew hdoc.1 hw⟩

theorem lastError?_append_singleton :
    lastError? models s (visits ++ [v]) = (buildOperation models s v.method).error? := by
  simp [lastError?]

theorem error?_buildOperation {m : Method} {route : Route}
    (hr : route? context r m = some (some route)) :
    (buildOperation models s m).error? = (buildVisible models s m).error? := by
  rw [buildOperation_visible (not_isHidden_of_route hr), Logged.error?_bind_none fun _ => rfl]

theorem error?_registerRoute {route : Route} {verb : Option Verb} {o : Operation} :
    (registerRoute r context route verb o).error? = none := by
  unfold registerRoute
  cases verb.or context.verb <;> rfl

section Visit

variable {inner : Context} {m : Method} {route : Route}

/-- What a method returns fails as the first of the trails behind it that fails, if what is opened
does. -/
theorem error?_readReturned (hnames : openNames = visits.map (·.resource.name))
    (hopened : ∀ sub inner, s.routable? m.returnType = some sub → sub.name ∉ openNames →
      (readOpened models s chain (openNames ++ [sub.name]) sub inner).error? =
        (sub.methods.flatMap fun m => s.trailsThrough visits ⟨sub, m⟩).findSome?
          (lastError? models s)) :
    (readReturned models s chain openNames m inner).error? =
      (s.trailsBehind visits m.returnType).findSome? (lastError? models s) := by
  unfold readReturned ResourceSet.trailsBehind
  rw [← hnames]
  cases hs : s.routable? m.returnType with
  | none => rfl
  | some sub =>
    by_cases ho : openNames.contains sub.name = true
    · simp only [if_pos ho]
      rfl
    · simp only [if_neg ho]
      exact hopened sub inner hs (mt List.contains_iff_mem.2 ho)

theorem error?_visitRoute {o : Option Error}
    (hreturned : ∀ inner, (readReturned models s chain openNames m inner).error? = o) :
    (visitRoute models s chain openNames r context m route).error? =
      (buildVisible models s m).error?.or o := by
  refine Logged.error?_bind fun _ => Logged.error?_bind fun built => ?_
  refine (Logged.error?_bind_none fun _ => ?_).trans (hreturned _)
  exact (Logged.error?_bind_none fun _ => rfl).trans error?_registerRoute

/-- A visit fails as the first of the trails through it that fails, if what it opens does. -/
theorem error?_visitMethod (hnames : openNames = (locators ++ [v]).map (·.resource.name))
    (hopened : ∀ sub inner, s.routable? v.method.returnType = some sub → sub.name ∉ openNames →
      (readOpened models s chain (openNames ++ [sub.name]) sub inner).error? =
        (sub.methods.flatMap fun m => s.trailsThrough (locators ++ [v]) ⟨sub, m⟩).findSome?
          (lastError? models s)) :
    (visitMethod models s chain openNames v.resource context v.method).error? =
      (s.trailsThrough locators v).findSome? (lastError? models s) := by
  have hrouted := v.isRouted_iff context
  rw [visitMethod, ResourceSet.trailsThrough_eq]
  cases hr : route? context v.resource v.method with
  | none =>
    rw [if_neg (by simp [hrouted, hr])]
    rfl
  | some reached =>
    cases reached with
    | none =>
      rw [if_neg (by simp [hrouted, hr])]
      rfl
    | some route =>
      rw [if_pos (hrouted.2 ⟨route, hr⟩), List.findSome?_cons, lastError?_append_singleton,
        error?_buildOperation hr]
      refine (error?_visitRoute fun inner => error?_readReturned hnames hopened).trans ?_
      cases (buildVisible models s v.method).error? <;> rfl

end Visit

theorem error?_readOpened (hnames : openNames = locators.map (·.resource.name) ++ [r.name]) :
    (readOpened models s chain openNames r context).error? =
      (r.methods.flatMap fun m => s.trailsThrough locators ⟨r, m⟩).findSome?
        (lastError? models s) := by
  refine opened_induction (s := s) (C := fun openNames r context => ∀ locators,
    openNames = locators.map (·.resource.name) ++ [r.name] →
      (readOpened models s chain openNames r context).error? =
        (r.methods.flatMap fun m => s.trailsThrough locators ⟨r, m⟩).findSome?
          (lastError? models s)) ?_ openNames r context locators hnames
  intro openNames r context ih locators hnames
  have hvisit (m : Method) : (visitMethod models s chain openNames r context m).error? =
      (s.trailsThrough locators ⟨r, m⟩).findSome? (lastError? models s) := by
    let visits : List Visit := locators ++ [⟨r, m⟩]
    have hopen : openNames = visits.map (·.resource.name) := by
      rw [hnames, List.map_append, List.map_singleton]
    apply error?_visitMethod (v := ⟨r, m⟩) hopen
    intro sub inner hs hnew
    apply ih _ sub inner hs hnew
    rw [hopen]
  have hmethods (methods : List Method) :
      (readMethods models s chain openNames r context methods).error? =
        (methods.flatMap fun m => s.trailsThrough locators ⟨r, m⟩).findSome?
          (lastError? models s) := by
    induction methods with
    | nil =>
      rw [readMethods]
      rfl
    | cons m rest ihrest =>
      rw [readMethods_cons, Logged.error?_bind fun _ => ihrest, hvisit, List.flatMap_cons,
        List.findSome?_append]
  rw [readOpened]
  refine (Logged.error?_bind fun _ => ?_).trans Option.none_or
  exact (Logged.error?_bind_none fun _ => rfl).trans (hmethods _)

theorem error?_readSet :
    (readSet models s chain).error? = s.trails.findSome? (lastError? models s) := by
  have hroots (rs : List Resource) : (readRoots models s chain rs).error? =
      ((rs.filter (·.isReadable {})).flatMap fun r =>
        r.methods.flatMap fun m => s.trailsThrough [] ⟨r, m⟩).findSome? (lastError? models s) := by
    induction rs with
    | nil => rfl
    | cons r rs ih =>
      rw [readRoots, Logged.bind_eq, Logged.error?_bind fun _ => ih, readRoot]
      by_cases hr : r.isReadable {} = true
      · have hcons : (r :: rs).filter (·.isReadable {}) = r :: rs.filter (·.isReadable {}) :=
          List.filter_cons_of_pos hr
        have hopened : (readOpened models s chain [r.name] r {}).error? =
            (r.methods.flatMap fun m => s.trailsThrough [] ⟨r, m⟩).findSome?
              (lastError? models s) := error?_readOpened rfl
        rw [if_pos hr, hcons, List.flatMap_cons, List.findSome?_append, hopened]
      · have hcons : (r :: rs).filter (·.isReadable {}) = rs.filter (·.isReadable {}) :=
          List.filter_cons_of_neg hr
        rw [if_neg hr, hcons]
        exact Option.none_or
  exact hroots _

/-- A reading fails with an error when the error stops the building of the operation at the end of
a trail, and nothing those of the trails before it, whatever the document. The trails are those
that have a path: they pass no hidden root, no method that is hidden or not documented, and no
resource twice. -/
theorem Document.read_error_iff {e : Error} (d : Document) :
    ((d.read models s chain).2 = .error e ↔
      ∃ earlier locators last later, s.trails = earlier ++ (locators ++ [last]) :: later ∧
        (buildOperation models s last.method).result = .error e ∧
        ∀ visits v, visits ++ [v] ∈ earlier →
          ∃ o, (buildOperation models s v.method).result = .ok o) ∧
      ∀ visits, visits ∈ s.trails ↔
        visits ≠ [] ∧ IsTrail s visits ∧ (trailPath? visits).isSome := by
  refine ⟨?_, fun _ => ResourceSet.mem_trails_iff⟩
  have hends (visits : List Visit) (h : visits ∈ s.trails) :
      ∃ locators last, visits = locators ++ [last] := by
    rcases visits.eq_nil_or_concat with hnil | ⟨locators, last, rfl⟩
    · exact ((ResourceSet.mem_trails_iff.1 h).1 hnil).elim
    · exact ⟨locators, last, List.concat_eq_append⟩
  change (readSet models s chain).result = .error e ↔ _
  rw [← Logged.error?_eq_some_iff, error?_readSet, List.findSome?_eq_some_iff]
  constructor
  · rintro ⟨earlier, trail, later, htrails, he, hearlier⟩
    obtain ⟨locators, last, rfl⟩ := hends trail (by simp [htrails])
    rw [lastError?_append_singleton, Logged.error?_eq_some_iff] at he
    refine ⟨earlier, locators, last, later, htrails, he, fun visits v hv => ?_⟩
    have hnone := hearlier _ hv
    rw [lastError?_append_singleton] at hnone
    exact Logged.error?_eq_none_iff.1 hnone
  · rintro ⟨earlier, locators, last, later, htrails, he, hearlier⟩
    refine ⟨earlier, locators ++ [last], later, htrails, ?_, fun trail ht => ?_⟩
    · rw [lastError?_append_singleton]
      exact Logged.error?_eq_some_iff.2 he
    · obtain ⟨visits, v, rfl⟩ := hends trail (by simp [htrails, ht])
      rw [lastError?_append_singleton]
      exact Logged.error?_eq_none_iff.2 (hearlier visits v ht)

end Apidoc
