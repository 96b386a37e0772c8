import Apidoc.Proofs.Reading.DeclaredTags
import Mathlib

namespace Apidoc

namespace Logged

variable {ω ε α β : Type} {x : Logged ω ε α} {f : α → Logged ω ε β} {a : α} {ns before : List ω}
  {Q : List ω → ω → Prop}

theorem notes_prefix_bind : x.notes <+: (bind x f).notes := by
  obtain ⟨notes, result⟩ := x
  cases result with
  | error e => exact List.prefix_rfl
  | ok a => exact List.prefix_append _ _

theorem append_prefix_bind (hx : x.result = .ok a) (h : ns <+: (f a).notes) :
    x.notes ++ ns <+: (bind x f).notes := by
  rw [notes_bind_of_ok hx]
  exact (List.prefix_append_right_inj _).2 h

theorem bind_unit (x : Logged ω ε Unit) : bind x (fun _ => Pure.pure ()) = x := by
  obtain ⟨notes, result⟩ := x
  cases result with
  | error e => rfl
  | ok a => simp

/-- `Q` holds of every note together with all that is noted before it. -/
def Traced (Q : List ω → ω → Prop) (before : List ω) : List ω → Prop
  | [] => True
  | n :: ns => Q before n ∧ Traced Q (before ++ [n]) ns

theorem traced_append {ms : List ω} :
    Traced Q before (ms ++ ns) ↔ Traced Q before ms ∧ Traced Q (before ++ ms) ns := by
  induction ms generalizing before with
  | nil => simp [Traced]
  | cons m ms ih => simp [Traced, ih, and_assoc]

theorem traced_of_forall (h : ∀ n ∈ ns, ∀ earlier, before <+: earlier → Q earlier n) :
    Traced Q before ns := by
  induction ns generalizing before with
  | nil => trivial
  | cons n ns ih =>
    refine ⟨h n List.mem_cons_self before List.prefix_rfl, ih fun n' hn' earlier hb => ?_⟩
    exact h n' (List.mem_cons_of_mem _ hn') earlier ((List.prefix_append _ _).trans hb)

theorem traced_bind (hx : Traced Q before x.notes)
    (hf : ∀ a, x.result = .ok a → Traced Q (before ++ x.notes) (f a).notes) :
    Traced Q before (bind x f).notes := by
  obtain ⟨notes, result⟩ := x
  cases result with
  | error e => exact hx
  | ok a => exact traced_append.2 ⟨hx, hf a rfl⟩

end Logged

/-- What a resource declares as soon as it is opened. -/
def Resource.declarations (r : Resource) (context : Context) : List Event :=
  (r.tagsIn context).values.map fun t => .edit (.tag t)

/-- What a visit notes before it reads what its method returns. -/
def Method.preliminaries (models : Models) (s : ResourceSet) (chain : VerbChain) (m : Method) :
    List Event :=
  (chain.resolve m).warnings.map .warning ++ ((buildVisible models s m).mapNotes Event.ofNote).notes

/-- A reading opens a resource in a context, after these events: a root after the roots before it,
and what a method returns after the methods before that one. -/
inductive Opens (models : Models) (s : ResourceSet) (chain : VerbChain) :
    List Event → List String → Resource → Context → Prop
  | root {earlier later : List Resource} {r : Resource}
    (hroots : s.rootResources = earlier ++ r :: later)
    (hdone : (readRoots models s chain earlier).result = .ok ())
    (hread : r.isReadable {} = true) :
    Opens models s chain (readRoots models s chain earlier).notes [r.name] r {}
  | returned {before : List Event} {openNames : List String} {r sub : Resource} {context : Context}
    {earlier later : List Method} {m : Method} {route : Route} {built : Operation}
    (h : Opens models s chain before openNames r context)
    (hmethods : r.methods = earlier ++ m :: later)
    (hdone : (readMethods models s chain openNames r context earlier).result = .ok ())
    (hr : route? context r m = some (some route))
    (hbuilt : (buildVisible models s m).result = .ok built)
    (hs : s.routable? m.returnType = some sub) (hnew : sub.name ∉ openNames) :
    Opens models s chain
      (before ++ r.declarations context ++
        (readMethods models s chain openNames r context earlier).notes ++
          m.preliminaries models s chain)
      (openNames ++ [sub.name]) sub
      (Context.descend r context route (chain.resolve m).verb (built.inContext context route))

/-- A resource that is opened by then describes the tag so. -/
def DescribedBy (models : Models) (s : ResourceSet) (chain : VerbChain) (events : List Event)
    (name text : String) : Prop :=
  ∃ before openNames r context, Opens models s chain before openNames r context ∧
    before <+: events ∧ ⟨name, some text⟩ ∈ r.ownTags

variable {models : Models} {s : ResourceSet} {chain : VerbChain} {openNames : List String}
  {r : Resource} {context : Context} {before events : List Event} {name text : String}

theorem readMethods_nil : readMethods models s chain openNames r context [] = pure () := by
  rw [readMethods]

theorem readMethods_append (earlier later : List Method) :
    readMethods models s chain openNames r context (earlier ++ later) =
      (readMethods models s chain openNames r context earlier).bind fun _ =>
        readMethods models s chain openNames r context later := by
  induction earlier with
  | nil =>
    rw [List.nil_append, readMethods_nil]
    rfl
  | cons m earlier ih =>
    simp only [List.cons_append, readMethods_cons, ih, Logged.bind_assoc]

theorem readMethods_append_singleton (earlier : List Method) (m : Method) :
    readMethods models s chain openNames r context (earlier ++ [m]) =
      (readMethods models s chain openNames r context earlier).bind fun _ =>
        visitMethod models s chain openNames r context m := by
  rw [readMethods_append]
  simp only [readMethods_cons, readMethods_nil, Logged.bind_unit]

theorem readRoots_append (earlier later : List Resource) :
    readRoots models s chain (earlier ++ later) =
      (readRoots models s chain earlier).bind fun _ => readRoots models s chain later := by
  induction earlier with
  | nil => rfl
  | cons r earlier ih =>
    simp only [List.cons_append, readRoots, Logged.bind_eq, ih, Logged.bind_assoc]

theorem readRoots_append_singleton (earlier : List Resource) (r : Resource) :
    readRoots models s chain (earlier ++ [r]) =
      (readRoots models s chain earlier).bind fun _ => readRoot models s chain r := by
  rw [readRoots_append]
  simp only [readRoots, Logged.bind_eq, Logged.bind_unit]

theorem readOpened_eq :
    readOpened models s chain openNames r context =
      (Logged.noteAll (r.declarations context)).bind fun _ =>
        (readMethods models s chain openNames r context r.methods).bind fun _ =>
          Reading.edit (.describeTags s.tags) := by
  rw [readOpened]
  rfl

theorem declarations_prefix_readOpened :
    r.declarations context <+: (readOpened models s chain openNames r context).notes := by
  rw [readOpened_eq]
  exact Logged.notes_prefix_bind (x := Logged.noteAll (r.declarations context))

theorem preliminaries_prefix_visitMethod {m : Method} {route : Route} {built : Operation}
    {sub : Resource} (hr : route? context r m = some (some route))
    (hbuilt : (buildVisible models s m).result = .ok built)
    (hs : s.routable? m.returnType = some sub) (hnew : sub.name ∉ openNames) :
    m.preliminaries models s chain ++
        (readOpened models s chain (openNames ++ [sub.name]) sub (Context.descend r context route
          (chain.resolve m).verb (built.inContext context route))).notes <+:
      (visitMethod models s chain openNames r context m).notes := by
  have hclosed : ¬openNames.contains sub.name = true := by simpa using hnew
  rw [visitMethod, hr, Method.preliminaries, List.append_assoc]
  refine Logged.append_prefix_bind (x := Logged.noteAll _) rfl
    (Logged.append_prefix_bind (x := (buildVisible models s m).mapNotes Event.ofNote) hbuilt ?_)
  refine List.IsPrefix.trans ?_ Logged.notes_prefix_bind
  rw [readReturned, hs]
  simp only [if_neg hclosed]
  exact List.prefix_rfl

/-- A resource is read right after it is opened. -/
theorem Opens.prefix_readSet (h : Opens models s chain before openNames r context) :
    before ++ (readOpened models s chain openNames r context).notes <+:
      (readSet models s chain).notes := by
  induction h with
  | @root earlier later r hroots hdone hread =>
    rw [readSet, hroots, readRoots_append]
    refine Logged.append_prefix_bind hdone ?_
    rw [readRoots, readRoot, if_pos hread]
    exact Logged.notes_prefix_bind
  | @returned before openNames r sub context earlier later m route built _ hmethods hdone hr hbuilt
      hs hnew ih =>
    refine List.IsPrefix.trans ?_ ih
    simp only [List.append_assoc]
    rw [List.prefix_append_right_inj, readOpened_eq (r := r)]
    refine Logged.append_prefix_bind (x := Logged.noteAll _) rfl
      (List.IsPrefix.trans ?_ Logged.notes_prefix_bind)
    rw [hmethods, readMethods_append]
    refine Logged.append_prefix_bind hdone ?_
    rw [readMethods_cons]
    exact (preliminaries_prefix_visitMethod hr hbuilt hs hnew).trans Logged.notes_prefix_bind

theorem Opens.inherits (h : Opens models s chain before openNames r context) :
    r ∈ s.resources ∧ s.NamesTags context.tags ∧ context.tags.keys.Nodup := by
  induction h with
  | root hroots _ _ =>
    refine ⟨ResourceSet.mem_of_mem_rootResources ?_, ResourceSet.namesTags_empty, List.nodup_nil⟩
    simp [hroots]
  | returned _ _ _ _ _ hs _ ih =>
    obtain ⟨hr, hnames, hdistinct⟩ := ih
    refine ⟨ResourceSet.mem_of_routable? hs, hnames.tagsIn hr, ?_⟩
    change (Resource.tagsIn _ _).keys.Nodup
    rw [Resource.keys_tagsIn]
    exact nodup_append_eraseDups hdistinct

theorem DescribedBy.mono (h : DescribedBy models s chain before name text)
    (hb : before <+: events) : DescribedBy models s chain events name text := by
  obtain ⟨first, openNames, r, context, hopens, hfirst, hr⟩ := h
  exact ⟨first, openNames, r, context, hopens, hfirst.trans hb, hr⟩

theorem Resource.mem_values_tagsIn {t : Tag} (h : t ∈ (r.tagsIn context).values) :
    t ∈ r.ownTags ∨ t ∈ context.tags.values := by
  obtain ⟨e, he, rfl⟩ := List.mem_map.1 h
  rw [tagsIn_eq] at he
  rcases Table.mem_entries_putAll he with hown | hinherited
  · obtain ⟨t, ht, rfl⟩ := List.mem_map.1 hown
    exact .inl ht
  · exact .inr (List.mem_map.2 ⟨e, hinherited, rfl⟩)

/-- What a resource declares, it describes itself, or a resource does that is opened before. -/
theorem describedBy_of_mem_tagsIn (h : Opens models s chain before openNames r context)
    (ht : ⟨name, some text⟩ ∈ (r.tagsIn context).values) :
    DescribedBy models s chain before name text := by
  induction h with
  | root hroots hdone hread =>
    rcases Resource.mem_values_tagsIn ht with hown | hinherited
    · exact ⟨_, _, _, _, .root hroots hdone hread, List.prefix_rfl, hown⟩
    · cases hinherited
  | returned h hmethods hdone hr hbuilt hs hnew ih =>
    rcases Resource.mem_values_tagsIn ht with hown | hinherited
    · exact ⟨_, _, _, _, .returned h hmethods hdone hr hbuilt hs hnew, List.prefix_rfl, hown⟩
    · simp only [List.append_assoc]
      exact (ih hinherited).mono (List.prefix_append _ _)

section Places

/-- Every description that these events give comes from a resource that is opened by then. -/
abbrev Accounted (models : Models) (s : ResourceSet) (chain : VerbChain) (before : List Event)
    (events : List Event) : Prop :=
  Logged.Traced (fun earlier e => ∀ name text, e = .edit (.tag ⟨name, some text⟩) →
    DescribedBy models s chain earlier name text) before events

theorem accounted_of_plain (h : ∀ name text, .edit (.tag ⟨name, some text⟩) ∉ events) :
    Accounted models s chain before events := by
  refine Logged.traced_of_forall fun e he _ _ name text htag => ?_
  subst htag
  exact (h name text he).elim

theorem accounted_describe : Accounted models s chain before [.edit (.describeTags s.tags)] := by
  apply accounted_of_plain
  intro name text h
  cases List.mem_singleton.1 h

theorem accounted_declarations (h : Opens models s chain before openNames r context) :
    Accounted models s chain before (r.declarations context) := by
  refine Logged.traced_of_forall fun e he earlier hb name text htag => ?_
  subst htag
  obtain ⟨t, ht, htag⟩ := List.mem_map.1 he
  cases htag
  exact (describedBy_of_mem_tagsIn h ht).mono hb

theorem accounted_registerRoute {route : Route} {verb : Option Verb} {o : Operation} :
    Accounted models s chain before (registerRoute r context route verb o).notes := by
  apply accounted_of_plain
  intro name text h
  rw [notes_registerRoute] at h
  rcases List.mem_append.1 h with h | h
  · obtain ⟨_, _, htag⟩ := List.mem_map.1 h
    cases htag
  · obtain ⟨v, _, htag⟩ := Option.map_eq_some_iff.1 (Option.mem_toList.1 h)
    cases htag

theorem accounted_readReturned {m : Method} {inner : Context}
    (hopened : ∀ sub, s.routable? m.returnType = some sub → sub.name ∉ openNames →
      Accounted models s chain before
        (readOpened models s chain (openNames ++ [sub.name]) sub inner).notes) :
    Accounted models s chain before (readReturned models s chain openNames m inner).notes := by
  rw [readReturned]
  split
  · trivial
  · rename_i sub hs
    split
    · apply accounted_of_plain
      intro name text h
      cases List.mem_singleton.1 h
    · rename_i hnew
      exact hopened sub hs (mt List.contains_iff_mem.2 hnew)

theorem accounted_preliminaries {m : Method} :
    Accounted models s chain before (m.preliminaries models s chain) := by
  apply accounted_of_plain
  intro name text h
  rcases List.mem_append.1 h with h | h
  · obtain ⟨w, _, hw⟩ := List.mem_map.1 h
    cases hw
  · obtain ⟨n, _, hn⟩ := List.mem_map.1 h
    cases n <;> cases hn

theorem accounted_visitMethod {m : Method}
    (hopened : ∀ route built sub, route? context r m = some (some route) →
      (buildVisible models s m).result = .ok built → s.routable? m.returnType = some sub →
      sub.name ∉ openNames →
      Accounted models s chain (before ++ m.preliminaries models s chain)
        (readOpened models s chain (openNames ++ [sub.name]) sub (Context.descend r context route
          (chain.resolve m).verb (built.inContext context route))).notes) :
    Accounted models s chain before (visitMethod models s chain openNames r context m).notes := by
  rw [visitMethod]
  cases hr : route? context r m with
  | none => trivial
  | some reached =>
    cases reached with
    | none => exact accounted_describe
    | some route =>
      have hbefore : Accounted models s chain before (m.preliminaries models s chain) :=
        accounted_preliminaries
      obtain ⟨hwarnings, hbuilding⟩ := Logged.traced_append.1 hbefore
      refine Logged.traced_bind hwarnings fun _ _ =>
        Logged.traced_bind hbuilding fun built hbuilt =>
          Logged.traced_bind (accounted_readReturned fun sub hs hnew => ?_) fun _ _ =>
            Logged.traced_bind accounted_registerRoute fun _ _ => accounted_describe
      have hsub := hopened route built sub hr hbuilt hs hnew
      rw [Method.preliminaries, ← List.append_assoc] at hsub
      exact hsub

theorem accounted_readOpened (h : Opens models s chain before openNames r context) :
    Accounted models s chain before (readOpened models s chain openNames r context).notes := by
  refine opened_induction (s := s) (C := fun openNames r context => ∀ before,
    Opens models s chain before openNames r context →
      Accounted models s chain before (readOpened models s chain openNames r context).notes)
    ?_ openNames r context before h
  intro openNames r context ih before h
  have hmethods (later : List Method) : ∀ earlier, r.methods = earlier ++ later →
      (readMethods models s chain openNames r context earlier).result = .ok () →
      Accounted models s chain (before ++ r.declarations context ++
        (readMethods models s chain openNames r context earlier).notes)
        (readMethods models s chain openNames r context later).notes := by
    induction later with
    | nil =>
      intro earlier _ _
      rw [readMethods_nil]
      trivial
    | cons m rest ihrest =>
      intro earlier hsplit hdone
      rw [readMethods_cons]
      refine Logged.traced_bind (accounted_visitMethod fun route built sub hr hbuilt hs hnew =>
        ih _ sub _ hs hnew _ (.returned h hsplit hdone hr hbuilt hs hnew)) fun _ hvisit => ?_
      have hrest := ihrest (earlier ++ [m]) (by simp [hsplit])
      rw [readMethods_append_singleton, Logged.notes_bind_of_ok hdone, ← List.append_assoc] at hrest
      exact hrest (Logged.result_bind_eq_ok.2 ⟨(), hdone, hvisit⟩)
  rw [readOpened_eq]
  refine Logged.traced_bind (accounted_declarations h) fun _ _ =>
    Logged.traced_bind ?_ fun _ _ => accounted_describe
  have hall := hmethods r.methods [] rfl
  rw [readMethods_nil, Logged.pure_eq, List.append_nil] at hall
  exact hall rfl

/-- Wherever the log of a reading describes a tag, a resource that is opened by then does. -/
theorem describedBy_of_notes {later : List Event}
    (h : (readSet models s chain).notes = before ++ .edit (.tag ⟨name, some text⟩) :: later) :
    DescribedBy models s chain before name text := by
  have hroots (later : List Resource) : ∀ earlier, s.rootResources = earlier ++ later →
      (readRoots models s chain earlier).result = .ok () →
      Accounted models s chain (readRoots models s chain earlier).notes
        (readRoots models s chain later).notes := by
    induction later with
    | nil =>
      intro earlier _ _
      trivial
    | cons r rest ih =>
      intro earlier hsplit hdone
      rw [readRoots]
      refine Logged.traced_bind ?_ fun _ hroot => ?_
      · rw [readRoot]
        split
        · rename_i hread
          exact accounted_readOpened (.root hsplit hdone hread)
        · trivial
      · have hrest := ih (earlier ++ [r]) (by simp [hsplit])
        rw [readRoots_append_singleton, Logged.notes_bind_of_ok hdone] at hrest
        exact hrest (Logged.result_bind_eq_ok.2 ⟨(), hdone, hroot⟩)
  have hall := hroots s.rootResources [] rfl rfl
  change Accounted models s chain [] (readSet models s chain).notes at hall
  rw [h] at hall
  exact (Logged.traced_append.1 hall).2.1 name text rfl

end Places

end Apidoc
