import Apidoc.Proofs.Reading.Visit
import Mathlib.Data.List.Perm.Subperm

namespace Apidoc

/-- What stops a reading with a stack. -/
inductive Stop where
  | failed (e : Error)
  | tooDeep

/-- The stack at one moment, with what is done then unless a resource is opened or closed. -/
structure Moment where
  stack : List String
  event : Option Event

abbrev Stacked (α : Type) := StateT (List String) (Logged Moment Stop) α

theorem ResourceSet.resource?_name {s : ResourceSet} {r : Resource} {name : String}
    (h : s.resource? name = some r) : r.name = name := by
  simpa using List.find?_some h

theorem ResourceSet.resource?_own {s : ResourceSet} {r : Resource} {name : String}
    (h : s.resource? name = some r) : (s.resource? r.name).isSome := by
  rw [resource?_name h, h]
  rfl

namespace Stacked

variable {α β : Type}

def ofReading (x : Reading α) : Stacked α := fun stack =>
  ⟨x.notes.map fun e => ⟨stack, some e⟩,
    (x.result.mapError Stop.failed).map fun a => (a, stack)⟩

def push (name : String) : Stacked Unit := fun stack =>
  ⟨[⟨stack ++ [name], none⟩], .ok ((), stack ++ [name])⟩

def pop : Stacked Unit := fun stack =>
  ⟨[⟨stack.dropLast, none⟩], .ok ((), stack.dropLast)⟩

/-- Runs with one more name on the stack. -/
def inside (name : String) (x : Stacked Unit) : Stacked Unit := do
  push name
  x
  pop

def tooDeep : Stacked Unit := fun _ => ⟨[], .error .tooDeep⟩

def enterReturned (s : ResourceSet) (enter : Resource → Context → Stacked Unit) (m : Method)
    (inner : Context) : Stacked Unit :=
  match s.routable? m.returnType with
  | none => pure ()
  | some sub => enter sub inner

/-- Visits a method of the resource on top of the stack; `enter` reads what the method returns. -/
def visit (models : Models) (s : ResourceSet) (chain : VerbChain)
    (enter : Resource → Context → Stacked Unit) (r : Resource) (context : Context) (m : Method) :
    Stacked Unit :=
  match route? context r m with
  | none => pure ()
  | some none => ofReading (Reading.edit (.describeTags s.tags))
  | some (some route) => do
    let answer := chain.resolve m
    ofReading (Logged.noteAll (answer.warnings.map .warning))
    match ← ofReading (buildRoute models s context route m) with
    | none => pure ()
    | some o =>
      enterReturned s enter m (Context.descend r context route answer.verb o)
      ofReading (registerRoute r context route answer.verb o)
      ofReading (Reading.edit (.describeTags s.tags))

def visitAll (models : Models) (s : ResourceSet) (chain : VerbChain)
    (enter : Resource → Context → Stacked Unit) (r : Resource) (context : Context) :
    List Method → Stacked Unit
  | [] => pure ()
  | m :: rest => do
    visit models s chain enter r context m
    visitAll models s chain enter r context rest

/-- Reads the resource on top of the stack. -/
def readInside (models : Models) (s : ResourceSet) (chain : VerbChain)
    (enter : Resource → Context → Stacked Unit) (r : Resource) (context : Context) :
    Stacked Unit := do
  ofReading (Logged.noteAll ((r.tagsIn context).values.map fun t => .edit (.tag t)))
  visitAll models s chain enter r context r.methods
  ofReading (Reading.edit (.describeTags s.tags))

/-- Reads a resource, unless it is not to be read or on the stack. At most `depth` resources are
opened inside one another. -/
def enter (models : Models) (s : ResourceSet) (chain : VerbChain) (depth : Nat) (r : Resource)
    (context : Context) : Stacked Unit :=
  if r.isReadable context then do
    let stack ← get
    if stack.contains r.name then
      ofReading (Logged.note (.warning (.resourceCycle stack r.name)))
    else match depth with
      | 0 => tooDeep
      | depth + 1 =>
        inside r.name (readInside models s chain (enter models s chain depth) r context)
  else pure ()

/-- Reads roots in order, each with an empty stack. -/
def enterRoots (models : Models) (s : ResourceSet) (chain : VerbChain) (depth : Nat) :
    List Resource → Logged Moment Stop Unit
  | [] => pure ()
  | r :: rest => do
    let _ ← (enter models s chain depth r {}).run []
    enterRoots models s chain depth rest

def enterSet (models : Models) (s : ResourceSet) (chain : VerbChain) (depth : Nat) :
    Logged Moment Stop Unit :=
  enterRoots models s chain depth s.rootResources

/-- A computation that notes moments does what a reading does; `p` tells one answer by the other. -/
structure Tells {γ : Type} (x : Logged Moment Stop γ) (y : Reading α) (p : α → γ) : Prop where
  notes : x.notes.filterMap (·.event) = y.notes
  result : x.result = (y.result.mapError Stop.failed).map p

/-- At every moment the stack satisfies `P`, and in the end it is this one. -/
def Keeps (P : List String → Prop) (stack : List String)
    (x : Logged Moment Stop (α × List String)) : Prop :=
  x.Meets (fun _ => True) (fun moment => P moment.stack) fun p => p.2 = stack

/-- Different resources are open, and all of them belong to the set. -/
structure IsStack (s : ResourceSet) (stack : List String) : Prop where
  nodup : stack.Nodup
  registered : ∀ name ∈ stack, (s.resource? name).isSome

variable {models : Models} {s : ResourceSet} {chain : VerbChain} {r : Resource} {context : Context}
  {stack : List String} {enterSub : Resource → Context → Stacked Unit}

theorem bind_run {x : Stacked α} {f : α → Stacked β} :
    (x >>= f) stack = (x stack).bind fun p => f p.1 p.2 :=
  rfl

theorem inside_run {x : Stacked Unit} {name : String} : inside name x stack =
    (push name stack).bind fun p => (x p.2).bind fun q => pop q.2 :=
  rfl

theorem enter_run {depth : Nat} : enter models s chain depth r context stack =
    if r.isReadable context then
      if stack.contains r.name then
        ofReading (Logged.note (.warning (.resourceCycle stack r.name))) stack
      else match depth with
        | 0 => tooDeep stack
        | depth + 1 =>
          inside r.name (readInside models s chain (enter models s chain depth) r context) stack
    else (Pure.pure () : Stacked Unit) stack := by
  rw [enter.eq_def]
  split
  · rw [bind_run]
    simp only [get, getThe, MonadStateOf.get, StateT.get, Logged.pure_eq, Logged.bind_ok,
      List.nil_append]
    split
    · rfl
    · cases depth <;> rfl
  · rfl

/-- A relation of what is done with a stack to a reading, which every step of a reading respects. -/
structure Stepwise (stack : List String)
    (C : ∀ α : Type, Logged Moment Stop (α × List String) → Reading α → Prop) : Prop where
  ofReading : ∀ {α : Type} (y : Reading α), C α (ofReading y stack) y
  step : ∀ {α β : Type} {x : Stacked α} {f : α → Stacked β} {y : Reading α} {g : α → Reading β},
    C α (x stack) y → (∀ a, C β (f a stack) (g a)) → C β ((x >>= f) stack) (y.bind g)

section Stepwise

variable {C : ∀ α : Type, Logged Moment Stop (α × List String) → Reading α → Prop} {m : Method}

theorem Stepwise.done (h : Stepwise stack C) :
    C Unit ((Pure.pure () : Stacked Unit) stack) (Pure.pure ()) :=
  h.ofReading (Pure.pure ())

theorem Stepwise.enterReturned (h : Stepwise stack C) {inner : Context}
    (hsub : ∀ sub, s.routable? m.returnType = some sub →
      C Unit (enterSub sub inner stack) (readReturned models s chain stack m inner)) :
    C Unit (enterReturned s enterSub m inner stack)
      (readReturned models s chain stack m inner) := by
  unfold Stacked.enterReturned
  cases hs : s.routable? m.returnType with
  | none =>
    rw [readReturned, hs]
    exact h.done
  | some sub => exact hsub sub hs

theorem Stepwise.visit (h : Stepwise stack C)
    (hsub : ∀ sub inner, s.routable? m.returnType = some sub → sub.isReadable inner = true →
      C Unit (enterSub sub inner stack) (readReturned models s chain stack m inner)) :
    C Unit (visit models s chain enterSub r context m stack)
      (visitMethod models s chain stack r context m) := by
  unfold Stacked.visit visitMethod
  cases hr : route? context r m with
  | none => exact h.done
  | some reached =>
    cases reached with
    | none => exact h.ofReading _
    | some route =>
      simp only [visitRoute_eq hr]
      refine h.step (h.ofReading _) fun _ => h.step (h.ofReading _) fun built => ?_
      cases built with
      | none => exact h.done
      | some o =>
        refine h.step (h.enterReturned fun sub hs => ?_) fun _ => h.step (h.ofReading _) fun _ =>
          h.ofReading _
        exact hsub sub _ hs rfl

theorem Stepwise.visitAll (h : Stepwise stack C) {methods : List Method}
    (hsub : ∀ m ∈ methods, ∀ sub inner, s.routable? m.returnType = some sub →
      sub.isReadable inner = true →
      C Unit (enterSub sub inner stack) (readReturned models s chain stack m inner)) :
    C Unit (visitAll models s chain enterSub r context methods stack)
      (readMethods models s chain stack r context methods) := by
  induction methods with
  | nil =>
    rw [readMethods]
    exact h.done
  | cons m rest ih =>
    rw [readMethods_cons]
    exact h.step (h.visit (hsub m List.mem_cons_self)) fun _ =>
      ih fun m' hm => hsub m' (List.mem_cons_of_mem _ hm)

/-- A relation that holds of what is done with every resource that a method returns holds of reading
the resource on top of the stack. -/
theorem Stepwise.readInside (h : Stepwise stack C)
    (hsub : ∀ m ∈ r.methods, ∀ sub inner, s.routable? m.returnType = some sub →
      sub.isReadable inner = true →
      C Unit (enterSub sub inner stack) (readReturned models s chain stack m inner)) :
    C Unit (readInside models s chain enterSub r context stack)
      (readOpened models s chain stack r context) := by
  rw [readOpened]
  exact h.step (h.ofReading _) fun _ => h.step (h.visitAll hsub) fun _ => h.ofReading _

end Stepwise

section Tells

variable {γ δ : Type} {y : Reading α} {g : α → Reading β}

theorem Tells.bind {x : Logged Moment Stop γ} {f : γ → Logged Moment Stop δ} {p : α → γ}
    {q : β → δ} (hx : Tells x y p) (hf : ∀ a, Tells (f (p a)) (g a) q) :
    Tells (x.bind f) (y.bind g) q := by
  obtain ⟨hnotes, hresult⟩ := hx
  obtain ⟨notes, result⟩ := x
  subst hresult
  rcases y with ⟨_, e | a⟩
  · exact ⟨hnotes, rfl⟩
  · refine ⟨?_, (hf a).result⟩
    change (notes ++ (f (p a)).notes).filterMap _ = _ ++ (g a).notes
    rw [List.filterMap_append, hnotes, (hf a).notes]

theorem Tells.step {x : Stacked α} {f : α → Stacked β}
    (hx : Tells (x stack) y (·, stack)) (hf : ∀ a, Tells (f a stack) (g a) (·, stack)) :
    Tells ((x >>= f) stack) (y.bind g) (·, stack) :=
  hx.bind hf

theorem Tells.pure (a : α) :
    Tells ((Pure.pure a : Stacked α) stack) (Pure.pure a) (·, stack) where
  notes := rfl
  result := rfl

theorem Tells.ofReading (y : Reading α) : Tells (ofReading y stack) y (·, stack) where
  notes := by
    simp only [Stacked.ofReading, List.filterMap_map, Function.comp_def, List.filterMap_some]
  result := rfl

theorem Tells.push {name : String} :
    Tells (push name stack) (Pure.pure ()) (·, stack ++ [name]) :=
  ⟨rfl, rfl⟩

theorem Tells.pop {name : String} : Tells (pop (stack ++ [name])) (Pure.pure ()) (·, stack) := by
  constructor <;> simp [Stacked.pop, Except.map, Except.mapError]

theorem Tells.inside {x : Stacked Unit} {y : Reading Unit} {name : String}
    (h : Tells (x (stack ++ [name])) y (·, stack ++ [name])) :
    Tells (inside name x stack) y (·, stack) := by
  have hy : y = Logged.bind (Pure.pure ()) fun _ => y.bind fun _ => Pure.pure () := by
    rcases y with ⟨_, e | a⟩ <;> simp
  rw [inside_run, hy]
  exact Tells.push.bind fun _ => h.bind fun _ => .pop

theorem Tells.stepwise : Stepwise stack fun _ x y => Tells x y (·, stack) :=
  ⟨.ofReading, .step⟩

/-- A depth of as many resources as are not open is enough. -/
theorem Tells.enter {depth : Nat} (hread : r.isReadable context = true) (hr : r ∈ s.resources)
    (hnew : ¬stack.contains r.name = true) (hd : s.closedResources stack ≤ depth) :
    Tells (enter models s chain depth r context stack)
      (readOpened models s chain (stack ++ [r.name]) r context) (·, stack) := by
  -- Every resource that is opened takes one from the depth and one from the closed resources.
  induction depth generalizing r context stack with
  | zero =>
    have hlt := ResourceSet.closedResources_lt_of_mem hr (Bool.eq_false_iff.2 hnew)
    omega
  | succ depth ih =>
    have hlt := ResourceSet.closedResources_lt_of_mem hr (Bool.eq_false_iff.2 hnew)
    rw [enter_run, if_pos hread, if_neg hnew]
    refine .inside (Tells.stepwise.readInside fun m _ sub inner hs hinner => ?_)
    have hsub : sub ∈ s.resources :=
      ResourceSet.mem_of_resource? (Option.filter_eq_some_iff.1 hs).1
    rw [readReturned, hs]
    simp only
    split
    · rename_i ho
      rw [enter_run, if_pos hinner, if_pos ho]
      exact .ofReading _
    · rename_i ho
      exact ih hinner hsub ho (by omega)

theorem Tells.enterRoots {depth : Nat} {roots : List Resource}
    (hroots : ∀ r ∈ roots, r ∈ s.resources) (hd : s.resources.length ≤ depth) :
    Tells (enterRoots models s chain depth roots) (readRoots models s chain roots) id := by
  induction roots with
  | nil => exact ⟨rfl, rfl⟩
  | cons r rest ih =>
    have hroot : Tells (Stacked.enter models s chain depth r {} []) (readRoot models s chain r)
        (·, []) := by
      unfold readRoot
      split
      · rename_i hread
        refine .enter hread (hroots r List.mem_cons_self) (by simp) ?_
        exact Nat.le_trans (List.length_filter_le _ _) hd
      · rename_i hread
        rw [enter_run, if_neg hread]
        exact .pure ()
    exact hroot.bind fun _ => ih fun r' hr => hroots r' (List.mem_cons_of_mem _ hr)

end Tells

section Keeps

variable {P : List String → Prop} {x : Stacked α} {f : α → Stacked β}

theorem Keeps.step (hx : Keeps P stack (x stack)) (hf : ∀ a, Keeps P stack (f a stack)) :
    Keeps P stack ((x >>= f) stack) := by
  rw [bind_run]
  refine Logged.Meets.bind hx fun p hp => ?_
  rw [hp]
  exact hf p.1

theorem Keeps.ofReading (hP : P stack) (y : Reading α) : Keeps P stack (ofReading y stack) := by
  intro _
  constructor
  · intro moment hm
    obtain ⟨e, _, rfl⟩ := List.mem_map.1 hm
    exact hP
  · intro p hp
    rcases y with ⟨_, e | a⟩
    · cases hp
    · cases hp
      rfl

theorem Keeps.inside {x : Stacked Unit} {name : String} (hP : P stack)
    (hname : P (stack ++ [name])) (h : Keeps P (stack ++ [name]) (x (stack ++ [name]))) :
    Keeps P stack (inside name x stack) := by
  rw [inside_run]
  have hpush : (push name stack).Meets (fun _ => True) (fun moment => P moment.stack)
      fun p => p.2 = stack ++ [name] := by
    refine fun _ => ⟨by simpa [push] using hname, fun p hp => ?_⟩
    cases hp
    rfl
  have hpop : (pop (stack ++ [name])).Meets (fun _ => True) (fun moment => P moment.stack)
      fun p => p.2 = stack := by
    unfold pop
    rw [List.dropLast_concat]
    refine fun _ => ⟨by simpa using hP, fun p hp => ?_⟩
    cases hp
    rfl
  refine hpush.bind fun p hp => ?_
  rw [hp]
  refine Logged.Meets.bind h fun q hq => ?_
  rw [hq]
  exact hpop

theorem Keeps.stepwise (hP : P stack) : Stepwise stack fun _ x _ => Keeps P stack x :=
  ⟨.ofReading hP, .step⟩

theorem Keeps.enter_of {depth : Nat} (hP : P stack)
    (h : ¬stack.contains r.name = true → Keeps P stack (match depth with
      | 0 => tooDeep stack
      | depth + 1 =>
        let sub := Stacked.enter models s chain depth
        Stacked.inside r.name (Stacked.readInside models s chain sub r context) stack)) :
    Keeps P stack (enter models s chain depth r context stack) := by
  rw [enter_run]
  split
  · split
    · exact .ofReading hP _
    · rename_i hnew
      exact h hnew
  · exact .ofReading hP (Pure.pure ())

/-- What opening a resource with `A` keeps of a stack, reading it keeps, to any depth. -/
theorem Keeps.enter {A : Resource → Prop} {depth : Nat}
    (hopen : ∀ r stack, A r → P stack → r.name ∉ stack → P (stack ++ [r.name]))
    (hsub : ∀ t sub, s.routable? t = some sub → A sub) (hr : A r) (hP : P stack) :
    Keeps P stack (enter models s chain depth r context stack) := by
  induction depth generalizing r context stack with
  | zero => exact .enter_of hP fun _ _ => ⟨by simp [tooDeep], fun _ h => by cases h⟩
  | succ depth ih =>
    refine .enter_of hP fun hnew => ?_
    have hname := hopen r stack hr hP (by simpa using hnew)
    refine .inside hP hname ((Keeps.stepwise hname).readInside fun m _ sub inner hs _ => ?_)
    exact ih (hsub _ _ hs) hname

end Keeps

theorem isStack_nil : IsStack s [] where
  nodup := List.nodup_nil
  registered := by simp

theorem IsStack.append (h : IsStack s stack) (hr : (s.resource? r.name).isSome)
    (hnew : r.name ∉ stack) : IsStack s (stack ++ [r.name]) where
  nodup := by
    refine List.nodup_append.2 ⟨h.nodup, by simp, ?_⟩
    intro a ha b hb hab
    rw [hab, List.mem_singleton.1 hb] at ha
    exact hnew ha
  registered := by
    intro name hn
    rcases List.mem_append.1 hn with hn | hn
    · exact h.registered name hn
    · rw [List.mem_singleton.1 hn]
      exact hr

theorem IsStack.length_le (h : IsStack s stack) : stack.length ≤ s.resources.length := by
  have hsub : stack ⊆ s.resources.map (·.name) := by
    intro name hn
    obtain ⟨r, hr⟩ := Option.isSome_iff_exists.1 (h.registered name hn)
    exact List.mem_map.2 ⟨r, ResourceSet.mem_of_resource? hr, ResourceSet.resource?_name hr⟩
  simpa using (h.nodup.subperm hsub).length_le

theorem enterRoots_isStack {depth : Nat} {roots : List Resource}
    (hroots : ∀ r ∈ roots, (s.resource? r.name).isSome) :
    (enterRoots models s chain depth roots).Meets (fun _ => True)
      (fun moment => IsStack s moment.stack) fun _ => True := by
  induction roots with
  | nil => exact .pure trivial
  | cons r rest ih =>
    have hroot : Keeps (IsStack s) [] (enter models s chain depth r {} []) := by
      refine .enter (A := fun r => (s.resource? r.name).isSome) ?_ ?_
        (hroots r List.mem_cons_self) isStack_nil
      · exact fun r stack hr h hnew => h.append hr hnew
      · exact fun t sub hs => ResourceSet.resource?_own (Option.filter_eq_some_iff.1 hs).1
    exact Logged.Meets.bind hroot fun _ _ => ih fun r' hr => hroots r' (List.mem_cons_of_mem _ hr)

/-- Whatever resources return one another, a reading with a stack that opens at most as many
resources inside one another as there are does what a reading does. At every moment different
resources are open, all of them of the set, and a resource that is read, to any depth and with any
stack, leaves the stack as it was. -/
theorem enterSet_bounded :
    let run := enterSet models s chain s.resources.length
    run.notes.filterMap (·.event) = (readSet models s chain).notes ∧
      run.result = (readSet models s chain).result.mapError Stop.failed ∧
      (∀ moment ∈ run.notes, IsStack s moment.stack ∧
        moment.stack.length ≤ s.resources.length) ∧
      ∀ depth r context stack stack',
        (enter models s chain depth r context stack).result = .ok ((), stack') →
        stack' = stack := by
  have hfound : ∀ r ∈ s.rootResources, ∃ name, s.resource? name = some r := by
    intro r hr
    obtain ⟨name, _, h⟩ := List.mem_filterMap.1 hr
    exact ⟨name, h⟩
  have htells : Tells (enterSet models s chain s.resources.length) (readSet models s chain) id := by
    refine .enterRoots (fun r hr => ?_) (Nat.le_refl _)
    obtain ⟨name, h⟩ := hfound r hr
    exact ResourceSet.mem_of_resource? h
  have hstacks : (enterSet models s chain s.resources.length).Meets (fun _ => True)
      (fun moment => IsStack s moment.stack) fun _ => True := by
    refine enterRoots_isStack fun r hr => ?_
    obtain ⟨name, h⟩ := hfound r hr
    exact ResourceSet.resource?_own h
  refine ⟨htells.notes, ?_, fun moment hm => ?_, fun depth r context stack stack' hr => ?_⟩
  · exact htells.result.trans (congrFun Except.map_id _)
  · have h := (hstacks fun _ _ => trivial).1 moment hm
    exact ⟨h, h.length_le⟩
  · have hkeeps : Keeps (fun _ => True) stack (enter models s chain depth r context stack) :=
      .enter (A := fun _ => True) (fun _ _ _ _ _ => trivial) (fun _ _ _ => trivial) trivial trivial
    exact (hkeeps fun _ _ => trivial).2 _ hr

end Stacked

end Apidoc
