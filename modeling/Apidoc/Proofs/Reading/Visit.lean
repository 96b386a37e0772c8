import Apidoc.Proofs.Operation.Build
import Apidoc.Reading

namespace Apidoc

variable {models : Models} {s : ResourceSet} {chain : VerbChain} {openNames : List String}
  {r : Resource} {context : Context}

theorem mem_edits {e : Edit} {es : List Event} : e ∈ Event.edits es ↔ .edit e ∈ es := by
  unfold Event.edits
  rw [List.mem_filterMap]
  constructor
  · rintro ⟨event, h, he⟩
    cases event with
    | edit e' => cases he; exact h
    | warning w => cases he
  · intro h
    exact ⟨_, h, rfl⟩

theorem edits_append {es es' : List Event} :
    Event.edits (es ++ es') = Event.edits es ++ Event.edits es' := by
  simp only [Event.edits, List.filterMap_append]

/-- The operation of a method with what its context and its route add. -/
def Operation.inContext (o : Operation) (context : Context) (route : Route) : Operation :=
  let o := context.parameters.foldl Operation.addParameter o
  { o with
    parameters := applyPatterns route.patterns o.parameters
    schemes := route.info.schemes }

theorem route?_eq_iff {m : Method} {route : Route} :
    route? context r m = some (some route) ↔ ∃ info composed, m.operation? = some info ∧
      info.hidden = false ∧ Path.compose context.path r.path m.path? = some composed ∧
        route = ⟨info, (Path.extract composed).1, (Path.extract composed).2⟩ := by
  rw [route?]
  cases m.operation? with
  | none => simp
  | some info =>
    by_cases hh : info.hidden = true
    · simp [hh]
    · simp only [if_neg hh]
      rw [Option.some_inj, Option.map_eq_some_iff]
      constructor
      · rintro ⟨composed, hcomposed, rfl⟩
        exact ⟨info, composed, rfl, Bool.eq_false_iff.2 hh, hcomposed, rfl⟩
      · rintro ⟨_, composed, hi, _, hcomposed, rfl⟩
        cases hi
        exact ⟨composed, hcomposed, rfl⟩

theorem not_isHidden_of_route {m : Method} {route : Route}
    (h : route? context r m = some (some route)) : ¬m.IsHidden := by
  obtain ⟨info, _, hi, hh, _, _⟩ := route?_eq_iff.1 h
  rintro ⟨info', hi', hh'⟩
  cases hi.symm.trans hi'
  rw [hh] at hh'
  cases hh'

theorem buildRoute_eq {m : Method} {route : Route} (h : route? context r m = some (some route)) :
    buildRoute models s context route m =
      ((buildVisible models s m).mapNotes Event.ofNote).bind fun o =>
        pure (some (o.inContext context route)) := by
  simp only [buildRoute, buildOperation_visible (not_isHidden_of_route h)]
  obtain ⟨notes, result⟩ := buildVisible models s m
  cases result with
  | error e => rfl
  | ok o => simp [Logged.mapNotes, Operation.inContext]

/-- The operation as a visit registers it. -/
def Operation.registered (o : Operation) (r : Resource) (context : Context) (route : Route)
    (verb : Option Verb) : Operation :=
  let inner := Context.descend r context route verb o
  ((route.info.tags.filter (· ≠ "")).foldl Operation.addTag o).complete inner.consumes
    inner.produces inner.tags.keys r.security

theorem notes_registerRoute (route : Route) (verb : Option Verb) (o : Operation) :
    (registerRoute r context route verb o).notes =
      ((route.info.tags.filter (· ≠ "")).map fun name => .edit (.tag ⟨name, none⟩)) ++
        ((verb.or context.verb).map fun v =>
          .edit (.operation route.path v (o.registered r context route verb))).toList := by
  unfold registerRoute
  simp only
  cases verb.or context.verb <;> rfl

theorem mem_registerRoute {route : Route} {verb : Option Verb} {o : Operation} {e : Event}
    (h : e ∈ (registerRoute r context route verb o).notes) :
    (∃ t, e = .edit (.tag t)) ∨ ∃ v, verb.or context.verb = some v ∧
      e = .edit (.operation route.path v (o.registered r context route verb)) := by
  rw [notes_registerRoute] at h
  rcases List.mem_append.1 h with h | h
  · obtain ⟨name, -, rfl⟩ := List.mem_map.1 h
    exact .inl ⟨_, rfl⟩
  · obtain ⟨v, hv, rfl⟩ := Option.map_eq_some_iff.1 (Option.mem_toList.1 h)
    exact .inr ⟨v, hv, rfl⟩

theorem operation_mem_registerRoute {route : Route} {verb : Option Verb} {o o' : Operation}
    {path : String} {v : Verb} :
    .edit (.operation path v o') ∈ (registerRoute r context route verb o).notes ↔
      path = route.path ∧ verb.or context.verb = some v ∧
        o' = o.registered r context route verb := by
  constructor
  · intro h
    rcases mem_registerRoute h with ⟨t, ht⟩ | ⟨w, hw, he⟩
    · cases ht
    · cases he
      exact ⟨rfl, hw, rfl⟩
  · rintro ⟨rfl, hv, rfl⟩
    rw [notes_registerRoute, hv]
    simp

theorem operation_not_mem_buildVisible {m : Method} {path : String} {v : Verb} {o : Operation} :
    .edit (.operation path v o) ∉ ((buildVisible models s m).mapNotes Event.ofNote).notes := by
  intro h
  obtain ⟨n, -, hn⟩ := List.mem_map.1 h
  cases n <;> cases hn

def readReturned (models : Models) (s : ResourceSet) (chain : VerbChain) (openNames : List String)
    (m : Method) (inner : Context) : Reading Unit :=
  match s.routable? m.returnType with
  | none => pure ()
  | some sub =>
    if openNames.contains sub.name then
      Logged.note (.warning (.resourceCycle openNames sub.name))
    else readOpened models s chain (openNames ++ [sub.name]) sub inner

/-- Visits a method of an open resource along its route. -/
def visitRoute (models : Models) (s : ResourceSet) (chain : VerbChain) (openNames : List String)
    (r : Resource) (context : Context) (m : Method) (route : Route) : Reading Unit := do
  let verb := (chain.resolve m).verb
  Logged.noteAll ((chain.resolve m).warnings.map .warning)
  let built ← (buildVisible models s m).mapNotes Event.ofNote
  let o := built.inContext context route
  readReturned models s chain openNames m (Context.descend r context route verb o)
  registerRoute r context route verb o
  Reading.edit (.describeTags s.tags)

theorem visitRoute_eq {m : Method} {route : Route} {openNames : List String}
    (hr : route? context r m = some (some route)) :
    visitRoute models s chain openNames r context m route =
      (Logged.noteAll ((chain.resolve m).warnings.map .warning)).bind fun _ =>
        (buildRoute models s context route m).bind fun
          | none => pure ()
          | some o =>
            (readReturned models s chain openNames m
              (Context.descend r context route (chain.resolve m).verb o)).bind fun _ =>
            (registerRoute r context route (chain.resolve m).verb o).bind fun _ =>
              Reading.edit (.describeTags s.tags) := by
  simp only [visitRoute, buildRoute_eq hr, Logged.bind_eq, Logged.bind_assoc, Logged.pure_bind]

def visitMethod (models : Models) (s : ResourceSet) (chain : VerbChain) (openNames : List String)
    (r : Resource) (context : Context) (m : Method) : Reading Unit :=
  match route? context r m with
  | none => pure ()
  | some none => Reading.edit (.describeTags s.tags)
  | some (some route) => visitRoute models s chain openNames r context m route

theorem readMethods_cons (m : Method) (rest : List Method) :
    readMethods models s chain openNames r context (m :: rest) =
      (visitMethod models s chain openNames r context m).bind fun _ =>
        readMethods models s chain openNames r context rest := by
  rw [readMethods, visitMethod]
  cases hr : route? context r m with
  | none => rfl
  | some reached =>
    cases reached with
    | none => rfl
    | some route =>
      simp only [visitRoute, buildRoute_eq hr, Logged.bind_eq, Logged.bind_assoc, Logged.pure_bind]
      congr 1
      funext _
      congr 1
      funext o
      simp only [readReturned]
      split
      · rename_i hs
        simp only [hs]
        rfl
      · rename_i sub hs
        simp only [hs]
        by_cases ho : openNames.contains sub.name = true
        · rw [dif_pos ho, if_pos ho]
        · rw [dif_neg ho, if_neg ho]

/-- What holds of an open resource as soon as it holds of every closed one that a method can return
holds of all. -/
theorem opened_induction {s : ResourceSet} {C : List String → Resource → Context → Prop}
    (step : ∀ openNames r context,
      (∀ t sub inner, s.routable? t = some sub → sub.name ∉ openNames →
        C (openNames ++ [sub.name]) sub inner) → C openNames r context)
    (openNames : List String) (r : Resource) (context : Context) : C openNames r context := by
  -- The number of closed resources falls with every descent.
  induction hn : s.closedResources openNames using Nat.strongRecOn
    generalizing openNames r context with
  | _ n ih =>
    refine step openNames r context fun t sub inner hs hnew => ?_
    have hlt := ResourceSet.closedResources_lt hs
      (Bool.eq_false_iff.2 (mt List.contains_iff_mem.1 hnew))
    exact ih _ (hn ▸ hlt) _ _ _ rfl

section Rule

variable {P Q : Event → Prop} {I : List String → Resource → Context → Prop}

/-- A visit keeps to `Q` and hands down contexts in `I`. -/
def VisitMeets (models : Models) (s : ResourceSet) (chain : VerbChain) (P Q : Event → Prop)
    (I : List String → Resource → Context → Prop) (openNames : List String) (r : Resource)
    (context : Context) (m : Method) (route : Route) : Prop :=
  ((buildVisible models s m).mapNotes Event.ofNote).Meets P Q fun built =>
    let verb := (chain.resolve m).verb
    let o := built.inContext context route
    (∀ e ∈ (registerRoute r context route verb o).notes, Q e) ∧
    ∀ sub, s.routable? m.returnType = some sub → sub.name ∉ openNames →
      I (openNames ++ [sub.name]) sub (Context.descend r context route verb o)

theorem visitMethod_meets {m : Method} (hd : Q (.edit (.describeTags s.tags)))
    (hw : ∀ w, Q (.warning w))
    (hv : ∀ route, route? context r m = some (some route) →
      VisitMeets models s chain P Q I openNames r context m route)
    (ih : ∀ sub inner, s.routable? m.returnType = some sub → sub.name ∉ openNames →
      I (openNames ++ [sub.name]) sub inner →
      (readOpened models s chain (openNames ++ [sub.name]) sub inner).Meets P Q fun _ => True) :
    (visitMethod models s chain openNames r context m).Meets P Q fun _ => True := by
  unfold visitMethod
  split
  · exact .pure trivial
  · exact .note hd trivial
  · rename_i route hr
    refine Logged.Meets.bind (R := fun _ => True) (.noteAll ?_ trivial) fun _ _ => ?_
    · intro e he
      obtain ⟨w, _, rfl⟩ := List.mem_map.1 he
      exact hw w
    refine Logged.Meets.bind (hv route hr) fun built hbuilt => ?_
    obtain ⟨hregister, hsub⟩ := hbuilt
    refine Logged.Meets.bind (R := fun _ => True) ?_ fun _ _ =>
      Logged.Meets.bind (R := fun _ => True) (fun _ => ⟨hregister, fun _ _ => trivial⟩) fun _ _ =>
        .note hd trivial
    unfold readReturned
    split
    · exact .pure trivial
    · rename_i sub hs
      split
      · exact .note (hw _) trivial
      · rename_i ho
        have hnew := mt List.contains_iff_mem.2 ho
        exact ih sub _ hs hnew (hsub sub hs hnew)

/-- Reading keeps to `Q` when declaring tags, warning and every visit do, where `I` holds of all
that is open and is handed down by every visit. -/
theorem readOpened_meets (hd : Q (.edit (.describeTags s.tags))) (hw : ∀ w, Q (.warning w))
    (ht : ∀ openNames r context, I openNames r context →
      ∀ t ∈ (r.tagsIn context).values, Q (.edit (.tag t)))
    (hv : ∀ openNames r context m route, I openNames r context → m ∈ r.methods →
      route? context r m = some (some route) →
      VisitMeets models s chain P Q I openNames r context m route) :
    I openNames r context →
      (readOpened models s chain openNames r context).Meets P Q fun _ => True := by
  refine opened_induction (s := s) (C := fun openNames r context => I openNames r context →
    (readOpened models s chain openNames r context).Meets P Q fun _ => True) ?_ openNames r context
  intro openNames r context ih hI
  have hmethods (methods : List Method) (hm : ∀ m ∈ methods, m ∈ r.methods) :
      (readMethods models s chain openNames r context methods).Meets P Q fun _ => True := by
    induction methods with
    | nil =>
      rw [readMethods]
      exact .pure trivial
    | cons m rest ihrest =>
      rw [readMethods_cons]
      refine Logged.Meets.bind (R := fun _ => True) (visitMethod_meets (I := I) hd hw ?_ ?_)
        fun _ _ => ihrest fun m' h => hm m' (List.mem_cons_of_mem _ h)
      · intro route hr
        exact hv openNames r context m route hI (hm m List.mem_cons_self) hr
      · intro sub inner hs hnew hinner
        exact ih _ sub inner hs hnew hinner
  rw [readOpened]
  refine Logged.Meets.bind (R := fun _ => True) (.noteAll ?_ trivial) fun _ _ =>
    Logged.Meets.bind (R := fun _ => True) (hmethods _ fun _ h => h) fun _ _ => .note hd trivial
  intro e he
  obtain ⟨t, h, rfl⟩ := List.mem_map.1 he
  exact ht openNames r context hI t h

theorem readSet_meets (hd : Q (.edit (.describeTags s.tags))) (hw : ∀ w, Q (.warning w))
    (ht : ∀ openNames r context, I openNames r context →
      ∀ t ∈ (r.tagsIn context).values, Q (.edit (.tag t)))
    (hv : ∀ openNames r context m route, I openNames r context → m ∈ r.methods →
      route? context r m = some (some route) →
      VisitMeets models s chain P Q I openNames r context m route)
    (hroot : ∀ r ∈ s.rootResources, r.isReadable {} = true → I [r.name] r {}) :
    (readSet models s chain).Meets P Q fun _ => True := by
  have hroots (rs : List Resource) (h : ∀ r ∈ rs, r ∈ s.rootResources) :
      (readRoots models s chain rs).Meets P Q fun _ => True := by
    induction rs with
    | nil => exact .pure trivial
    | cons r rs ih =>
      rw [readRoots]
      refine Logged.Meets.bind (R := fun _ => True) ?_
        fun _ _ => ih fun r' h' => h r' (List.mem_cons_of_mem _ h')
      rw [readRoot]
      split
      · rename_i hr
        exact readOpened_meets hd hw ht hv (hroot r (h r List.mem_cons_self) hr)
      · exact .pure trivial
  exact hroots _ fun _ h => h

end Rule

theorem readOpened_runs_visit {m : Method}
    (h : (readOpened models s chain openNames r context).result = .ok ()) (hm : m ∈ r.methods) :
    (readOpened models s chain openNames r context).Runs
      (visitMethod models s chain openNames r context m) () := by
  have hmethods (methods : List Method) (hm : m ∈ methods)
      (h : (readMethods models s chain openNames r context methods).result = .ok ()) :
      (readMethods models s chain openNames r context methods).Runs
        (visitMethod models s chain openNames r context m) () := by
    induction methods with
    | nil => cases hm
    | cons m' rest ih =>
      rw [readMethods_cons] at h ⊢
      obtain ⟨_, hvisit, hrest⟩ := Logged.runs_of_bind h
      rcases List.mem_cons.1 hm with rfl | hm
      · exact hvisit
      · exact hrest.trans (ih hm hrest.result)
  rw [readOpened] at h ⊢
  obtain ⟨_, _, hrest⟩ := Logged.runs_of_bind h
  obtain ⟨_, hread, _⟩ := Logged.runs_of_bind hrest.result
  exact hrest.trans (hread.trans (hmethods _ hm hread.result))

/-- A visit that succeeds builds the operation of its method, reads what the method returns, and
registers the operation. -/
theorem visitMethod_runs {m : Method} {route : Route} (hr : route? context r m = some (some route))
    (h : (visitMethod models s chain openNames r context m).result = .ok ()) :
    ∃ built,
      let verb := (chain.resolve m).verb
      let o := built.inContext context route
      (visitMethod models s chain openNames r context m).Runs
        ((buildVisible models s m).mapNotes Event.ofNote) built ∧
      (visitMethod models s chain openNames r context m).Runs
        (readReturned models s chain openNames m (Context.descend r context route verb o)) () ∧
      (visitMethod models s chain openNames r context m).Runs
        (registerRoute r context route verb o) () := by
  rw [visitMethod, hr] at h ⊢
  simp only [visitRoute, Logged.bind_eq] at h ⊢
  obtain ⟨_, _, hrest⟩ := Logged.runs_of_bind h
  obtain ⟨built, hbuild, hafter⟩ := Logged.runs_of_bind hrest.result
  obtain ⟨_, hread, hlast⟩ := Logged.runs_of_bind hafter.result
  obtain ⟨_, hregister, _⟩ := Logged.runs_of_bind hlast.result
  exact ⟨built, hrest.trans hbuild, hrest.trans (hafter.trans hread),
    hrest.trans (hafter.trans (hlast.trans hregister))⟩

theorem readReturned_runs {m : Method} {sub : Resource} {inner : Context}
    (hs : s.routable? m.returnType = some sub) (ho : sub.name ∉ openNames)
    (h : (readReturned models s chain openNames m inner).result = .ok ()) :
    (readReturned models s chain openNames m inner).Runs
      (readOpened models s chain (openNames ++ [sub.name]) sub inner) () := by
  have ho' : ¬openNames.contains sub.name = true := by simpa using ho
  simp only [readReturned, hs, if_neg ho'] at h ⊢
  exact Logged.runs_self h

theorem readSet_runs_root (h : (readSet models s chain).result = .ok ())
    (hr : r ∈ s.rootResources) (hread : r.isReadable {} = true) :
    (readSet models s chain).Runs (readOpened models s chain [r.name] r {}) () := by
  have hroots (rs : List Resource) (hr : r ∈ rs)
      (h : (readRoots models s chain rs).result = .ok ()) :
      (readRoots models s chain rs).Runs (readOpened models s chain [r.name] r {}) () := by
    induction rs with
    | nil => cases hr
    | cons r' rs ih =>
      rw [readRoots] at h ⊢
      obtain ⟨_, hfirst, hrest⟩ := Logged.runs_of_bind h
      rcases List.mem_cons.1 hr with rfl | hr
      · rw [readRoot, if_pos hread] at hfirst ⊢
        exact hfirst
      · exact hrest.trans (ih hr hrest.result)
  exact hroots _ hr h

end Apidoc
