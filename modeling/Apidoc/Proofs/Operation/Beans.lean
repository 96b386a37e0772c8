import Apidoc.Proofs.Operation.InPlace
import Apidoc.Proofs.Reading.Stack

namespace Apidoc

/-- What is reached through beans, with the beans on the way and the fields taken in them, from the
outside in. -/
structure BeanLeaf where
  way : List (Bean × Nat)
  type : TypeRef
  annotations : List ParamAnnotation

namespace BeanLeaf

def names (leaf : BeanLeaf) : List String :=
  leaf.way.map (·.1.name)

def position (leaf : BeanLeaf) : List Nat :=
  leaf.way.map (·.2)

def inField (b : Bean) (i : Nat) (leaf : BeanLeaf) : BeanLeaf :=
  { leaf with way := (b, i) :: leaf.way }

end BeanLeaf

/-- The parameter that a leaf is, unless it is a warning. -/
def Leaf.declared? : Leaf → Option (TypeRef × List ParamAnnotation)
  | warning _ => none
  | parameter t annotations => some (t, annotations)

namespace ResourceSet

/-- A parameter that is shown leads to itself, or else through an annotated field of the bean that
it names. Names need not be new on the way. -/
inductive Leads (s : ResourceSet) : TypeRef → List ParamAnnotation → BeanLeaf → Prop
  | here {t : TypeRef} {annotations : List ParamAnnotation} (hshown : isSkipped annotations = false)
    (hsingle : annotations.any (·.isBean) = false) : Leads s t annotations ⟨[], t, annotations⟩
  | field {t u : TypeRef} {annotations annotations' : List ParamAnnotation} {b : Bean} {i : Nat}
    {f : BeanField} {way : List (Bean × Nat)} (hshown : isSkipped annotations = false)
    (hbean : annotations.any (·.isBean) = true) (hb : s.bean? t = some b)
    (hf : b.fields[i]? = some f) (hannotated : f.annotations ≠ [])
    (h : Leads s f.type f.annotations ⟨way, u, annotations'⟩) :
    Leads s t annotations ⟨(b, i) :: way, u, annotations'⟩

/-- While the beans of `openNames` are open, a parameter stands for these leaves. -/
structure Expands (s : ResourceSet) (openNames : List String) (t : TypeRef)
    (annotations : List ParamAnnotation) (expanded : List BeanLeaf) : Prop where
  mem : ∀ leaf, leaf ∈ expanded ↔ s.Leads t annotations leaf ∧ leaf.names.Nodup ∧
    ∀ name ∈ leaf.names, name ∉ openNames
  sorted : (expanded.map (·.position)).Pairwise (· < ·)
  leaves : (s.leaves openNames t annotations).filterMap Leaf.declared? =
    expanded.map fun leaf => (leaf.type, leaf.annotations)

end ResourceSet

variable {models : Models} {s : ResourceSet} {openNames : List String} {t u : TypeRef} {b : Bean}
  {i j : Nat} {f g : BeanField} {annotations annotations' : List ParamAnnotation} {leaf : BeanLeaf}
  {before rest : List (Bean × Nat)} {expanded : List BeanLeaf}

namespace ResourceSet

section Leads

theorem Leads.shown (h : s.Leads t annotations leaf) : isSkipped leaf.annotations = false := by
  induction h with
  | here hshown _ => exact hshown
  | field _ _ _ _ _ _ ih => exact ih

theorem Leads.single (h : s.Leads t annotations leaf) :
    leaf.annotations.any (·.isBean) = false := by
  induction h with
  | here _ hsingle => exact hsingle
  | field _ _ _ _ _ _ ih => exact ih

theorem not_leads_of_isSkipped (hskipped : isSkipped annotations = true) :
    ¬s.Leads t annotations leaf := by
  intro h
  cases h with
  | here hshown | field hshown =>
    rw [hskipped] at hshown
    cases hshown

theorem leads_single_iff (hshown : isSkipped annotations = false)
    (hsingle : annotations.any (·.isBean) = false) :
    s.Leads t annotations leaf ↔ leaf = ⟨[], t, annotations⟩ := by
  constructor
  · intro h
    cases h with
    | here => rfl
    | field _ hbean =>
      rw [hsingle] at hbean
      cases hbean
  · rintro rfl
    exact .here hshown hsingle

/-- A parameter that names a bean leads to what the annotated fields of this bean lead to. -/
theorem leads_bean_iff (hshown : isSkipped annotations = false)
    (hbean : annotations.any (·.isBean) = true) :
    s.Leads t annotations leaf ↔ ∃ b, s.bean? t = some b ∧ ∃ i f, b.fields[i]? = some f ∧
      f.annotations ≠ [] ∧ ∃ inner, s.Leads f.type f.annotations inner ∧
        leaf = inner.inField b i := by
  constructor
  · intro h
    cases h with
    | here _ hsingle =>
      rw [hbean] at hsingle
      cases hsingle
    | @field _ _ _ _ b i f _ _ _ hb hf hannotated h =>
      exact ⟨b, hb, i, f, hf, hannotated, _, h, rfl⟩
  · rintro ⟨b, hb, i, f, hf, hannotated, inner, h, rfl⟩
    exact .field hshown hbean hb hf hannotated h

/-- What names the same bean leads to the same. -/
theorem Leads.of_bean?_eq (h : s.Leads t annotations leaf)
    (hbean : annotations.any (·.isBean) = true) (hshown' : isSkipped annotations' = false)
    (hbean' : annotations'.any (·.isBean) = true) (hsame : s.bean? u = s.bean? t) :
    s.Leads u annotations' leaf := by
  cases h with
  | here _ hsingle =>
    rw [hbean] at hsingle
    cases hsingle
  | field _ _ hb hf hannotated h =>
    exact .field hshown' hbean' (hsame.trans hb) hf hannotated h

theorem Leads.of_sibling (hf : b.fields[i]? = some f) (hg : b.fields[j]? = some g)
    (hbean : f.annotations.any (·.isBean) = true) (hshown' : isSkipped g.annotations = false)
    (hbean' : g.annotations.any (·.isBean) = true) (hsame : s.bean? g.type = s.bean? f.type)
    (h : s.Leads t annotations ⟨before ++ (b, i) :: rest, u, annotations'⟩) :
    s.Leads t annotations ⟨before ++ (b, j) :: rest, u, annotations'⟩ := by
  induction before generalizing t annotations with
  | nil =>
    cases h with
    | field hshown hbeans hb hi _ h =>
      rw [hf] at hi
      cases hi
      refine .field hshown hbeans hb hg ?_ (h.of_bean?_eq hbean hshown' hbean' hsame)
      intro hempty
      rw [hempty] at hbean'
      cases hbean'
  | cons step before ih =>
    cases h with
    | field hshown hbeans hb hi hannotated h => exact .field hshown hbeans hb hi hannotated (ih h)

end Leads

section Expands

theorem expands_none (hnone : ∀ leaf, s.Leads t annotations leaf → leaf.names.Nodup →
      ∃ name ∈ leaf.names, name ∈ openNames)
    (hleaves : (s.leaves openNames t annotations).filterMap Leaf.declared? = []) :
    s.Expands openNames t annotations [] where
  mem leaf := by
    refine ⟨nofun, fun ⟨h, hnodup, hopen⟩ => ?_⟩
    obtain ⟨name, hname, hmem⟩ := hnone leaf h hnodup
    exact absurd hmem (hopen name hname)
  sorted := .nil
  leaves := hleaves

theorem expands_single (hshown : isSkipped annotations = false)
    (hsingle : annotations.any (·.isBean) = false) :
    s.Expands openNames t annotations [⟨[], t, annotations⟩] where
  mem leaf := by
    rw [List.mem_singleton, leads_single_iff hshown hsingle]
    refine ⟨?_, fun h => h.1⟩
    rintro rfl
    exact ⟨rfl, .nil, nofun⟩
  sorted := List.pairwise_singleton _ _
  leaves := by
    rw [leaves_single hshown hsingle]
    rfl

/-- The leaves of a field of a bean, in terms of those that its type has there. -/
def fieldExpanded (inner : TypeRef → List ParamAnnotation → List BeanLeaf) (b : Bean)
    (f : BeanField) (i : Nat) : List BeanLeaf :=
  if f.annotations.isEmpty then [] else (inner f.type f.annotations).map (·.inField b i)

def fieldsExpanded (inner : TypeRef → List ParamAnnotation → List BeanLeaf) (b : Bean) :
    List BeanLeaf :=
  b.fields.zipIdx.flatMap fun p => fieldExpanded inner b p.1 p.2

variable {inner : TypeRef → List ParamAnnotation → List BeanLeaf}

theorem mem_fieldExpanded : leaf ∈ fieldExpanded inner b f i ↔
    f.annotations ≠ [] ∧ ∃ l ∈ inner f.type f.annotations, leaf = l.inField b i := by
  rw [fieldExpanded]
  split
  · rename_i hempty
    simp [List.isEmpty_iff.1 hempty]
  · rename_i hempty
    simp only [List.isEmpty_iff] at hempty
    simp [hempty, eq_comm]

theorem mem_fieldsExpanded : leaf ∈ fieldsExpanded inner b ↔ ∃ i f, b.fields[i]? = some f ∧
    f.annotations ≠ [] ∧ ∃ l ∈ inner f.type f.annotations, leaf = l.inField b i := by
  simp only [fieldsExpanded, List.mem_flatMap, Prod.exists, List.mem_zipIdx_iff_getElem?,
    mem_fieldExpanded]
  exact exists_comm

/-- Positions below a smaller field come first, and below the same field as they come there. -/
theorem sorted_fieldsExpanded
    (h : ∀ t annotations, ((inner t annotations).map (·.position)).Pairwise (· < ·)) :
    ((fieldsExpanded inner b).map (·.position)).Pairwise (· < ·) := by
  rw [fieldsExpanded, List.pairwise_map, List.pairwise_flatMap]
  constructor
  · intro p _
    rw [fieldExpanded]
    split
    · exact .nil
    · rw [List.pairwise_map]
      have hfield := List.pairwise_map.1 (h p.1.type p.1.annotations)
      exact hfield.imp fun hlt => List.cons_lt_cons_self.2 hlt
  · have hindices : (b.fields.zipIdx.map Prod.snd).Pairwise (· < ·) := by
      rw [List.zipIdx_map_snd]
      exact List.pairwise_lt_range'
    refine (List.pairwise_map.1 hindices).imp fun hij x hx y hy => ?_
    obtain ⟨_, l, _, rfl⟩ := mem_fieldExpanded.1 hx
    obtain ⟨_, l', _, rfl⟩ := mem_fieldExpanded.1 hy
    exact List.cons_lt_cons_iff.2 (.inl hij)

theorem leaves_fieldsExpanded
    (h : ∀ t annotations, (s.leaves openNames t annotations).filterMap Leaf.declared? =
      (inner t annotations).map fun leaf => (leaf.type, leaf.annotations)) :
    (s.fieldLeaves openNames b.fields).filterMap Leaf.declared? =
      (fieldsExpanded inner b).map fun leaf => (leaf.type, leaf.annotations) := by
  have hfields : b.fields.zipIdx.map Prod.fst = b.fields := List.zipIdx_map_fst 0 b.fields
  rw [fieldLeaves_eq, fieldsExpanded, List.filterMap_flatMap, List.map_flatMap]
  conv_lhs => rw [← hfields, List.flatMap_map]
  congr 1
  funext p
  rw [fieldExpanded]
  split
  · rfl
  · rw [h, List.map_map]
    rfl

theorem expands_bean (hshown : isSkipped annotations = false)
    (hbean : annotations.any (·.isBean) = true) (hb : s.bean? t = some b)
    (hnew : b.name ∉ openNames)
    (h : ∀ t annotations, s.Expands (openNames ++ [b.name]) t annotations (inner t annotations)) :
    s.Expands openNames t annotations (fieldsExpanded inner b) where
  mem leaf := by
    rw [mem_fieldsExpanded, leads_bean_iff hshown hbean]
    constructor
    · rintro ⟨i, f, hf, hannotated, l, hl, rfl⟩
      obtain ⟨hleads, hnodup, hopen⟩ := ((h _ _).mem l).1 hl
      refine ⟨⟨b, hb, i, f, hf, hannotated, l, hleads, rfl⟩, ?_, ?_⟩
      · refine List.nodup_cons.2 ⟨fun hname => hopen _ hname ?_, hnodup⟩
        exact List.mem_append_right _ (List.mem_singleton_self _)
      · intro name hname
        rcases List.mem_cons.1 hname with rfl | hname
        · exact hnew
        · exact fun hmem => hopen name hname (List.mem_append_left _ hmem)
    · rintro ⟨⟨b', hb', i, f, hf, hannotated, l, hleads, rfl⟩, hnodup, hopen⟩
      rw [hb] at hb'
      cases hb'
      obtain ⟨hfirst, hrest⟩ : b.name ∉ l.names ∧ l.names.Nodup := List.nodup_cons.1 hnodup
      refine ⟨i, f, hf, hannotated, l, ((h _ _).mem l).2 ⟨hleads, hrest, fun name hname => ?_⟩, rfl⟩
      intro hmem
      rcases List.mem_append.1 hmem with hmem | hmem
      · exact hopen name (List.mem_cons_of_mem _ hname) hmem
      · rw [List.mem_singleton] at hmem
        exact hfirst (hmem ▸ hname)
  sorted := sorted_fieldsExpanded fun _ _ => (h _ _).sorted
  leaves := by
    have hclosed : ¬openNames.contains b.name = true := by simpa using hnew
    rw [leaves_eq, hshown, hbean, hb]
    simp only [if_neg hclosed]
    exact leaves_fieldsExpanded fun _ _ => (h _ _).leaves

/-- Every parameter stands for leaves, however the beans contain one another. -/
theorem exists_expands (s : ResourceSet) (openNames : List String) (t : TypeRef)
    (annotations : List ParamAnnotation) :
    ∃ expanded, s.Expands openNames t annotations expanded := by
  -- Every bean that is expanded takes one from those that are not open.
  induction hn : s.closedBeans openNames using Nat.strongRecOn
    generalizing openNames t annotations with
  | _ n ih =>
    cases hskipped : isSkipped annotations with
    | true =>
      refine ⟨[], expands_none (fun _ h => absurd h (not_leads_of_isSkipped hskipped)) ?_⟩
      rw [leaves_eq, hskipped]
      rfl
    | false =>
      cases hbean : annotations.any (·.isBean) with
      | false => exact ⟨_, expands_single hskipped hbean⟩
      | true =>
        cases hb : s.bean? t with
        | none =>
          refine ⟨[], expands_none (fun leaf h _ => ?_) ?_⟩
          · obtain ⟨b, hb', _⟩ := (leads_bean_iff hskipped hbean).1 h
            rw [hb] at hb'
            cases hb'
          · rw [leaves_eq, hskipped, hbean, hb]
            rfl
        | some b =>
          by_cases hopen : b.name ∈ openNames
          · refine ⟨[], expands_none (fun leaf h _ => ?_) ?_⟩
            · obtain ⟨b', hb', i, f, _, _, inner, _, rfl⟩ := (leads_bean_iff hskipped hbean).1 h
              rw [hb] at hb'
              cases hb'
              exact ⟨b.name, List.mem_cons_self, hopen⟩
            · rw [leaves_eq, hskipped, hbean, hb]
              simp [hopen, Leaf.declared?]
          · have hclosed : openNames.contains b.name = false := by simpa using hopen
            have hlt := closedBeans_lt hb hclosed
            choose inner hinner using fun t annotations =>
              ih _ (hn ▸ hlt) (openNames ++ [b.name]) t annotations rfl
            exact ⟨_, expands_bean hskipped hbean hb hopen hinner⟩

end Expands

end ResourceSet

section Result

/-- The parameters of the leaves, one leaf after the other; warnings do not count. -/
theorem result_leafParameters {xs : List Leaf}
    (h : xs.filterMap Leaf.declared? = expanded.map fun leaf => (leaf.type, leaf.annotations))
    (hshown : ∀ leaf ∈ expanded, isSkipped leaf.annotations = false)
    (hsingle : ∀ leaf ∈ expanded, leaf.annotations.any (·.isBean) = false) :
    (leafParameters models xs).result = (expanded.mapM fun leaf =>
      (declaredParameters models s leaf.type leaf.annotations).result).map List.flatten := by
  induction xs generalizing expanded with
  | nil =>
    cases List.map_eq_nil_iff.1 h.symm
    rfl
  | cons x xs ih =>
    cases x with
    | warning w => exact ih h hshown hsingle
    | parameter t annotations =>
      cases expanded with
      | nil => cases h
      | cons leaf rest =>
        obtain ⟨hleaf, hrest⟩ := List.cons.inj h
        obtain ⟨rfl, rfl⟩ := Prod.mk.inj hleaf
        have hhead := declaredParameters_single (m := models) (s := s) (t := leaf.type)
          (hshown leaf List.mem_cons_self) (hsingle leaf List.mem_cons_self)
        have htail := ih hrest (fun l hl => hshown l (List.mem_cons_of_mem _ hl)) fun l hl =>
          hsingle l (List.mem_cons_of_mem _ hl)
        rw [leafParameters, List.mapM_cons, hhead]
        rcases leafParameter models leaf.type leaf.annotations with ⟨_, e | p⟩
        · rfl
        · generalize (rest.mapM fun leaf =>
            (declaredParameters models s leaf.type leaf.annotations).result) = answers at htail ⊢
          cases hxs : leafParameters models xs with
          | mk notes result =>
            rw [hxs] at htail
            cases htail
            cases answers <;> rfl

end Result

namespace Stacked

variable {stack : List String} {depth : Nat}

/-- The parameters that a parameter stands for; `expand` expands a bean that is not on the stack. -/
def extract (models : Models) (s : ResourceSet) (expand : Bean → Stacked (List Parameter))
    (t : TypeRef) (annotations : List ParamAnnotation) : Stacked (List Parameter) :=
  if isSkipped annotations then pure []
  else if annotations.any (·.isBean) then
    match s.bean? t with
    | none => do
      ofReading (Logged.note (.warning (.unknownBean t)))
      return []
    | some b => do
      let stack ← get
      if stack.contains b.name then do
        ofReading (Logged.note (.warning (.recursiveBean b.name)))
        return []
      else expand b
  else do
    let p ← ofReading ((leafParameter models t annotations).mapNotes Event.ofNote)
    return p.toList

def extractFields (enter : TypeRef → List ParamAnnotation → Stacked (List Parameter)) :
    List BeanField → Stacked (List Parameter)
  | [] => pure []
  | f :: fields => do
    let ps ← if f.annotations.isEmpty then pure [] else enter f.type f.annotations
    let qs ← extractFields enter fields
    return ps ++ qs

/-- Expands a bean, which is pushed before its fields and popped behind them. At most `depth` beans
are expanded inside one another. -/
def expandBean (models : Models) (s : ResourceSet) : Nat → Bean → Stacked (List Parameter)
  | 0, _ => do
    tooDeep
    return []
  | depth + 1, b => do
    push b.name
    let ps ← extractFields (extract models s (expandBean models s depth)) b.fields
    pop
    return ps

variable {expand : Bean → Stacked (List Parameter)} {fields : List BeanField}
  {enter : TypeRef → List ParamAnnotation → Stacked (List Parameter)}

theorem extract_bean (hshown : isSkipped annotations = false)
    (hbean : annotations.any (·.isBean) = true) (hb : s.bean? t = some b) :
    extract models s expand t annotations stack =
      if stack.contains b.name then
        (do
          ofReading (Logged.note (.warning (.recursiveBean b.name)))
          return [] : Stacked (List Parameter)) stack
      else expand b stack := by
  simp only [extract, hshown, hbean, hb, if_true, if_neg Bool.false_ne_true, bind_run, get, getThe,
    MonadStateOf.get, StateT.get, Logged.pure_eq, Logged.bind_ok, List.nil_append]
  split <;> rfl

theorem expandBean_run : expandBean models s (depth + 1) b stack =
    (push b.name stack).bind fun p =>
      (extractFields (extract models s (expandBean models s depth)) b.fields p.2).bind fun q =>
        (pop q.2).bind fun r => (Pure.pure q.1 : Stacked (List Parameter)) r.2 :=
  rfl

section Tells

/-- A bean that is expanded as it stands in the set makes the parameter that names it so. -/
theorem Tells.extract
    (h : ∀ b, s.bean? t = some b → ¬stack.contains b.name = true → Tells (expand b stack)
      ((leafParameters models (s.fieldLeaves (stack ++ [b.name]) b.fields)).mapNotes Event.ofNote)
      (·, stack)) :
    Tells (extract models s expand t annotations stack)
      ((leafParameters models (s.leaves stack t annotations)).mapNotes Event.ofNote)
      (·, stack) := by
  rw [ResourceSet.leaves_eq]
  cases hskipped : isSkipped annotations with
  | true =>
    rw [Stacked.extract, if_pos hskipped]
    exact .pure []
  | false =>
    cases hbean : annotations.any (·.isBean) with
    | false =>
      rw [Stacked.extract, hskipped, hbean, if_neg Bool.false_ne_true, if_neg Bool.false_ne_true,
        if_neg Bool.false_ne_true, if_neg Bool.false_ne_true, leafParameters_single,
        Logged.mapNotes_bind]
      exact .step (.ofReading _) fun p => .pure p.toList
    | true =>
      cases hb : s.bean? t with
      | none =>
        rw [Stacked.extract, hskipped, hbean, hb]
        exact .step (.ofReading _) fun _ => .pure []
      | some b =>
        rw [extract_bean hskipped hbean hb]
        by_cases hopen : stack.contains b.name = true
        · simp only [if_pos hopen]
          exact .step (.ofReading (Logged.note (.warning (.recursiveBean b.name)))) fun _ =>
            .pure []
        · simp only [if_neg hopen]
          exact h b hb hopen

theorem Tells.extractFields
    (h : ∀ t annotations, Tells (enter t annotations stack)
      ((leafParameters models (s.leaves stack t annotations)).mapNotes Event.ofNote) (·, stack)) :
    Tells (extractFields enter fields stack)
      ((leafParameters models (s.fieldLeaves stack fields)).mapNotes Event.ofNote)
      (·, stack) := by
  induction fields with
  | nil =>
    rw [ResourceSet.fieldLeaves]
    exact .pure []
  | cons f fields ih =>
    rw [Stacked.extractFields, ResourceSet.fieldLeaves, InPlace.leafParameters_append,
      Logged.mapNotes_bind]
    have hrest (ps : List Parameter) : Tells
        ((do
          let qs ← Stacked.extractFields enter fields
          return ps ++ qs) stack)
        (((leafParameters models (s.fieldLeaves stack fields)).bind fun qs =>
          Pure.pure (ps ++ qs)).mapNotes Event.ofNote) (·, stack) := by
      rw [Logged.mapNotes_bind]
      exact .step ih fun qs => .pure _
    cases hempty : f.annotations.isEmpty with
    | true => exact .step (.pure []) hrest
    | false => exact .step (h _ _) hrest

/-- A depth of as many beans as are not open is enough. -/
theorem Tells.expandBean (hb : s.bean? t = some b) (hnew : ¬stack.contains b.name = true)
    (hd : s.closedBeans stack ≤ depth) :
    Tells (expandBean models s depth b stack)
      ((leafParameters models (s.fieldLeaves (stack ++ [b.name]) b.fields)).mapNotes Event.ofNote)
      (·, stack) := by
  -- Every bean that is expanded takes one from the depth and one from the closed beans.
  induction depth generalizing t b stack with
  | zero =>
    have hlt := ResourceSet.closedBeans_lt hb (Bool.eq_false_iff.2 hnew)
    omega
  | succ depth ih =>
    have hlt := ResourceSet.closedBeans_lt hb (Bool.eq_false_iff.2 hnew)
    have hfields : Tells
        (Stacked.extractFields (Stacked.extract models s (Stacked.expandBean models s depth))
          b.fields (stack ++ [b.name]))
        ((leafParameters models (s.fieldLeaves (stack ++ [b.name]) b.fields)).mapNotes Event.ofNote)
        (·, stack ++ [b.name]) :=
      .extractFields fun _ _ => .extract fun _ hb' hnew' => ih hb' hnew' (by omega)
    generalize leafParameters models (s.fieldLeaves (stack ++ [b.name]) b.fields) = y at hfields ⊢
    have hy : y.mapNotes Event.ofNote = Logged.bind (Pure.pure ()) fun _ =>
        (y.mapNotes Event.ofNote).bind fun ps =>
          Logged.bind (Pure.pure ()) fun _ => Pure.pure ps := by
      rcases y with ⟨_, e | ps⟩ <;> simp [Logged.mapNotes]
    rw [expandBean_run, hy]
    exact Tells.push.bind fun _ => hfields.bind fun ps => Tells.pop.bind fun _ => .pure ps

end Tells

end Stacked

section Expanded

theorem mem_expanded_sibling {s : ResourceSet} {t u : TypeRef}
    {annotations annotations' : List ParamAnnotation} {expanded : List BeanLeaf}
    (hmem : ∀ leaf, leaf ∈ expanded ↔ s.Leads t annotations leaf ∧ leaf.names.Nodup)
    (hf : b.fields[i]? = some f) (hg : b.fields[j]? = some g)
    (hbean : f.annotations.any (·.isBean) = true) (hshown' : isSkipped g.annotations = false)
    (hbean' : g.annotations.any (·.isBean) = true) (hsame : s.bean? g.type = s.bean? f.type)
    (h : ⟨before ++ (b, i) :: rest, u, annotations'⟩ ∈ expanded) :
    ⟨before ++ (b, j) :: rest, u, annotations'⟩ ∈ expanded := by
  obtain ⟨hleads, hnodup⟩ := (hmem _).1 h
  refine (hmem _).2 ⟨hleads.of_sibling hf hg hbean hshown' hbean' hsame, ?_⟩
  have hnames : (⟨before ++ (b, i) :: rest, u, annotations'⟩ : BeanLeaf).names =
      (⟨before ++ (b, j) :: rest, u, annotations'⟩ : BeanLeaf).names := by
    simp [BeanLeaf.names]
  rwa [← hnames]

/-- However beans contain one another, a parameter stands for the fields that it leads to through
beans of different names, in the order of declaration and depth first, and its parameters are
theirs. What is skipped, not annotated, unknown or open already leads nowhere, and siblings that
name the same bean lead to the same. With the names of the open beans on a stack, a depth of as many
beans as there are is enough, and the stack is left as it was. -/
theorem declaredParameters_expanded (models : Models) (s : ResourceSet) (t : TypeRef)
    (annotations : List ParamAnnotation) :
    (∃ expanded : List BeanLeaf,
      (∀ leaf, leaf ∈ expanded ↔ s.Leads t annotations leaf ∧ leaf.names.Nodup) ∧
      (expanded.map (·.position)).Pairwise (· < ·) ∧
      (declaredParameters models s t annotations).result = (expanded.mapM fun leaf =>
        (declaredParameters models s leaf.type leaf.annotations).result).map List.flatten ∧
      ∀ before b i j f g rest u annotations', b.fields[i]? = some f → b.fields[j]? = some g →
        (∀ field ∈ [f, g], isSkipped field.annotations = false ∧
          field.annotations.any (·.isBean) = true) →
        s.bean? f.type = s.bean? g.type →
        (⟨before ++ (b, i) :: rest, u, annotations'⟩ ∈ expanded ↔
          ⟨before ++ (b, j) :: rest, u, annotations'⟩ ∈ expanded)) ∧
    let run :=
      Stacked.extract models s (Stacked.expandBean models s s.beans.length) t annotations []
    run.notes.filterMap (·.event) = (declaredParameters models s t annotations).notes.map
        Event.ofNote ∧
      run.result = ((declaredParameters models s t annotations).result.mapError Stop.failed).map
        (·, []) := by
  constructor
  · obtain ⟨expanded, hexpands⟩ := s.exists_expands [] t annotations
    have hmem (leaf : BeanLeaf) :
        leaf ∈ expanded ↔ s.Leads t annotations leaf ∧ leaf.names.Nodup := by
      simpa using hexpands.mem leaf
    refine ⟨expanded, hmem, hexpands.sorted, ?_, ?_⟩
    · exact result_leafParameters hexpands.leaves (fun leaf h => ((hmem leaf).1 h).1.shown)
        fun leaf h => ((hmem leaf).1 h).1.single
    · intro before b i j f g rest u annotations' hf hg hfields hsame
      obtain ⟨hshown, hbean⟩ := hfields f List.mem_cons_self
      obtain ⟨hshown', hbean'⟩ := hfields g (List.mem_cons_of_mem _ List.mem_cons_self)
      exact ⟨mem_expanded_sibling hmem hf hg hbean hshown' hbean' hsame.symm,
        mem_expanded_sibling hmem hg hf hbean' hshown hbean hsame⟩
  · have htells : Stacked.Tells
        (Stacked.extract models s (Stacked.expandBean models s s.beans.length) t annotations [])
        ((declaredParameters models s t annotations).mapNotes Event.ofNote) (·, []) :=
      .extract fun b hb hnew => .expandBean hb hnew (List.length_filter_le _ _)
    exact ⟨htells.notes, htells.result⟩

end Expanded

section Span

def pageBean : Bean where
  name := "Page"
  fields := [⟨"size", ⟨"u32", []⟩, [.query "size"]⟩, ⟨"next", ⟨"Page", []⟩, [.bean]⟩]

def spanBean : Bean where
  name := "Span"
  fields := [⟨"first", ⟨"Page", []⟩, [.bean]⟩, ⟨"last", ⟨"Option", [⟨"Page", []⟩]⟩, [.bean]⟩,
    ⟨"note", ⟨"String", []⟩, []⟩]

/-- A page names the next one, which is a page again. -/
def spanSet : ResourceSet where
  beans := [pageBean, spanBean]

theorem spanSet_expanded : ∃ expanded : List BeanLeaf,
    ⟨[(spanBean, 0), (pageBean, 0)], ⟨"u32", []⟩, [.query "size"]⟩ ∈ expanded ∧
    ⟨[(spanBean, 1), (pageBean, 0)], ⟨"u32", []⟩, [.query "size"]⟩ ∈ expanded ∧
    (declaredParameters {} spanSet ⟨"Span", []⟩ [.bean]).result = (expanded.mapM fun leaf =>
      (declaredParameters {} spanSet leaf.type leaf.annotations).result).map List.flatten := by
  obtain ⟨⟨expanded, hmem, _, hresult, hsiblings⟩, _⟩ :=
    declaredParameters_expanded {} spanSet ⟨"Span", []⟩ [.bean]
  have hsize : spanSet.Leads ⟨"Page", []⟩ [.bean]
      ⟨[(pageBean, 0)], ⟨"u32", []⟩, [.query "size"]⟩ :=
    .field rfl rfl rfl rfl (by simp) (.here rfl rfl)
  have hfirst : ⟨[(spanBean, 0), (pageBean, 0)], ⟨"u32", []⟩, [.query "size"]⟩ ∈ expanded :=
    (hmem _).2 ⟨.field rfl rfl rfl rfl (by simp) hsize, by decide⟩
  have hbeans : ∀ field ∈ spanBean.fields.take 2, isSkipped field.annotations = false ∧
      field.annotations.any (·.isBean) = true := by
    simp [spanBean, isSkipped, ParamAnnotation.isContext, ParamAnnotation.isBean,
      ParamAnnotation.info?]
  exact ⟨expanded, hfirst, (hsiblings [] spanBean 0 1 _ _ _ _ _ rfl rfl hbeans rfl).1 hfirst,
    hresult⟩

end Span

end Apidoc
