import Apidoc.Proofs.Operation.InPlace
import Apidoc.Proofs.Reading.Visit

namespace Apidoc

namespace InPlace

/-- Declares tags one after another. -/
def declare (tags : List Tag) : InPlace Unit :=
  tags.forM fun t => modify (·.addTag t)

/-- Adds tags to an operation, and declares each as it is added. -/
def tagOperation (o : Operation) : List String → InPlace Operation
  | [] => pure o
  | name :: names => do
    modify (·.addTag ⟨name, none⟩)
    tagOperation (o.addTag name) names

def registerRoute (r : Resource) (context : Context) (route : Route) (verb : Option Verb)
    (o : Operation) : InPlace Unit := do
  let inner := Context.descend r context route verb o
  let o ← tagOperation o (route.info.tags.filter (· ≠ ""))
  let o := o.complete inner.consumes inner.produces inner.tags.keys r.security
  match verb.or context.verb with
  | some v => modify (·.addOperation route.path v o)
  | none => pure ()

mutual

/-- Reads a resource that has just been opened, and changes the document on the way. -/
def readOpened (models : Models) (s : ResourceSet) (chain : VerbChain) (openNames : List String)
    (r : Resource) (context : Context) : InPlace Unit := do
  declare (r.tagsIn context).values
  readMethods models s chain openNames r context r.methods
  modify (·.describeTags s.tags)
termination_by (s.closedResources openNames, r.methods.length + 3)

def readMethods (models : Models) (s : ResourceSet) (chain : VerbChain) (openNames : List String)
    (r : Resource) (context : Context) (methods : List Method) : InPlace Unit :=
  match methods with
  | [] => pure ()
  | m :: rest => do
    visitMethod models s chain openNames r context m
    readMethods models s chain openNames r context rest
termination_by (s.closedResources openNames, methods.length + 2)

def visitMethod (models : Models) (s : ResourceSet) (chain : VerbChain) (openNames : List String)
    (r : Resource) (context : Context) (m : Method) : InPlace Unit :=
  match route? context r m with
  | none => pure ()
  | some none => modify (·.describeTags s.tags)
  | some (some route) => do
    match ← build models s m with
    | none => pure ()
    | some built =>
      let verb := (chain.resolve m).verb
      let o := built.inContext context route
      readReturned models s chain openNames m (Context.descend r context route verb o)
      registerRoute r context route verb o
      modify (·.describeTags s.tags)
termination_by (s.closedResources openNames, 1)

def readReturned (models : Models) (s : ResourceSet) (chain : VerbChain) (openNames : List String)
    (m : Method) (inner : Context) : InPlace Unit :=
  match hr : s.routable? m.returnType with
  | none => pure ()
  | some sub =>
    if ho : openNames.contains sub.name then pure ()
    else
      have := ResourceSet.closedResources_lt hr (Bool.eq_false_iff.2 ho)
      readOpened models s chain (openNames ++ [sub.name]) sub inner
termination_by (s.closedResources openNames, 0)

end

def readRoot (models : Models) (s : ResourceSet) (chain : VerbChain) (r : Resource) :
    InPlace Unit :=
  if r.isReadable {} then readOpened models s chain [r.name] r {} else pure ()

def readRoots (models : Models) (s : ResourceSet) (chain : VerbChain) : List Resource → InPlace Unit
  | [] => pure ()
  | r :: rest => do
    readRoot models s chain r
    readRoots models s chain rest

/-- Reads every root of a set into the document. -/
def readSet (models : Models) (s : ResourceSet) (chain : VerbChain) : InPlace Unit :=
  readRoots models s chain s.rootResources

/-- A computation in place answers what a reading answers, and makes the edits that it notes. -/
def Performs {α : Type} (x : InPlace α) (y : Reading α) : Prop :=
  ∀ d, x d = (y.result, d.after y)

variable {α β : Type} {models : Models} {s : ResourceSet} {chain : VerbChain}
  {openNames : List String} {r : Resource} {context : Context} {m : Method}

theorem Performs.bind {x : InPlace α} {f : α → InPlace β} {y : Reading α} {g : α → Reading β}
    (hx : Performs x y) (hf : ∀ a, Performs (f a) (g a)) : Performs (x >>= f) (y.bind g) := by
  intro d
  obtain ⟨notes, result⟩ := y
  rw [bind_apply, hx d]
  cases result with
  | error e => rfl
  | ok a =>
    simp only [Logged.bind_ok, Document.after, edits_append, Document.applyAll, List.foldl_append]
    exact hf a _

theorem Performs.pure (a : α) : Performs (Pure.pure a) (Pure.pure a) :=
  fun _ => rfl

theorem Performs.edit {f : Document → Document} {e : Edit} (h : ∀ d, f d = d.apply e) :
    Performs (modify f) (Reading.edit e) :=
  fun d => congrArg (Except.ok (), ·) (h d)

/-- Warnings do not change a document. -/
theorem Performs.warned {x : InPlace α} {y : Reading α} {warnings : List Warning}
    (h : Performs x y) : Performs x ((Logged.noteAll (warnings.map .warning)).bind fun _ => y) := by
  have hnone : Event.edits (warnings.map .warning) = [] := by
    simp [Event.edits, List.filterMap_map]
  intro d
  rw [Logged.noteAll, Logged.bind_ok, Document.after, edits_append, hnone]
  exact h d

theorem Does.performs {x : InPlace α} {y : Build α} (h : Does x y) :
    Performs x (y.mapNotes Event.ofNote) := by
  intro d
  rw [h d, Document.after, Logged.mapNotes, Document.applyAll_models]

theorem declare_performs {tags : List Tag} :
    Performs (declare tags) (Logged.noteAll (tags.map fun t => .edit (.tag t))) := by
  induction tags with
  | nil => exact fun _ => rfl
  | cons t tags ih => exact fun d => ih (d.addTag t)

/-- The tags of an operation are declared before anything else is done with it. -/
theorem Performs.tagged {f : Operation → InPlace α} {y : Reading α} {o : Operation}
    {names : List String} (h : Performs (f (names.foldl Operation.addTag o)) y) :
    Performs (tagOperation o names >>= f)
      ((Logged.noteAll (names.map fun name => .edit (.tag ⟨name, none⟩))).bind fun _ => y) := by
  induction names generalizing o with
  | nil => exact fun d => h d
  | cons name names ih => exact fun d => ih h (d.addTag ⟨name, none⟩)

theorem registerRoute_performs {route : Route} {verb : Option Verb} {o : Operation} :
    Performs (registerRoute r context route verb o)
      (Apidoc.registerRoute r context route verb o) := by
  refine .tagged ?_
  cases verb.or context.verb with
  | some v => exact .edit fun _ => rfl
  | none => exact .pure ()

theorem readReturned_performs {inner : Context}
    (hsub : ∀ sub, s.routable? m.returnType = some sub → sub.name ∉ openNames →
      Performs (readOpened models s chain (openNames ++ [sub.name]) sub inner)
        (Apidoc.readOpened models s chain (openNames ++ [sub.name]) sub inner)) :
    Performs (readReturned models s chain openNames m inner)
      (Apidoc.readReturned models s chain openNames m inner) := by
  rw [readReturned, Apidoc.readReturned]
  split
  · rename_i hs
    rw [hs]
    exact .pure ()
  · rename_i sub hs
    simp only [hs]
    by_cases ho : openNames.contains sub.name = true
    · rw [dif_pos ho, if_pos ho]
      exact fun _ => rfl
    · rw [dif_neg ho, if_neg ho]
      exact hsub sub hs (mt List.contains_iff_mem.2 ho)

theorem visitMethod_performs
    (hsub : ∀ sub inner, s.routable? m.returnType = some sub → sub.name ∉ openNames →
      Performs (readOpened models s chain (openNames ++ [sub.name]) sub inner)
        (Apidoc.readOpened models s chain (openNames ++ [sub.name]) sub inner)) :
    Performs (visitMethod models s chain openNames r context m)
      (Apidoc.visitMethod models s chain openNames r context m) := by
  rw [visitMethod, Apidoc.visitMethod]
  cases hr : route? context r m with
  | none => exact .pure ()
  | some reached =>
    cases reached with
    | none => exact .edit fun _ => rfl
    | some route =>
      simp only [visitRoute_eq hr, buildRoute, Logged.bind_eq, Logged.bind_assoc, Logged.pure_bind]
      refine .warned (.bind build_does.performs fun built => ?_)
      cases built with
      | none => exact .pure ()
      | some built =>
        exact .bind (readReturned_performs fun sub => hsub sub _) fun _ =>
          .bind registerRoute_performs fun _ => .edit fun _ => rfl

theorem readMethods_performs {methods : List Method}
    (hvisit : ∀ m, Performs (visitMethod models s chain openNames r context m)
      (Apidoc.visitMethod models s chain openNames r context m)) :
    Performs (readMethods models s chain openNames r context methods)
      (Apidoc.readMethods models s chain openNames r context methods) := by
  induction methods with
  | nil =>
    rw [readMethods, Apidoc.readMethods]
    exact .pure ()
  | cons m rest ih =>
    rw [readMethods, readMethods_cons]
    exact .bind (hvisit m) fun _ => ih

theorem readOpened_performs : Performs (readOpened models s chain openNames r context)
    (Apidoc.readOpened models s chain openNames r context) := by
  refine opened_induction (s := s) (C := fun openNames r context =>
    Performs (readOpened models s chain openNames r context)
      (Apidoc.readOpened models s chain openNames r context)) ?_ openNames r context
  intro openNames r context ih
  rw [readOpened, Apidoc.readOpened]
  refine .bind declare_performs fun _ => .bind (readMethods_performs fun m => ?_) fun _ =>
    .edit fun _ => rfl
  exact visitMethod_performs fun sub inner hs hnew => ih _ sub inner hs hnew

theorem readSet_performs : Performs (readSet models s chain) (Apidoc.readSet models s chain) := by
  have hroots (roots : List Resource) : Performs (readRoots models s chain roots)
      (Apidoc.readRoots models s chain roots) := by
    induction roots with
    | nil => exact .pure ()
    | cons r rest ih =>
      refine .bind ?_ fun _ => ih
      rw [readRoot, Apidoc.readRoot]
      split
      · exact readOpened_performs
      · exact .pure ()
  exact hroots s.rootResources

/-- Whatever the document holds, reading a set in place makes the same edits and ends in the same
way, which is what a reading logs and then does to the document. -/
theorem readSet_edits (models : Models) (s : ResourceSet) (chain : VerbChain) :
    ∃ (edits : List Edit) (result : Except Error Unit), ∀ d : Document,
      readSet models s chain d = (result, d.applyAll edits) ∧
        d.read models s chain = (d.applyAll edits, result) :=
  ⟨Event.edits (Apidoc.readSet models s chain).notes, (Apidoc.readSet models s chain).result,
    fun d => ⟨readSet_performs d, rfl⟩⟩

end InPlace

end Apidoc
