import Apidoc.Proofs.Operation.Alike
import Apidoc.Proofs.Operation.Declarations
import Mathlib.Data.List.Forall2

namespace Apidoc

/-- Kinds of annotations that count once: where a parameter travels, what documents it, and what it
is by default. -/
inductive AnnotationKind where
  | location
  | api
  | default
  deriving DecidableEq

namespace ParamAnnotation

def kind? : ParamAnnotation → Option AnnotationKind
  | path _ | query _ | header _ | form _ | cookie _ => some .location
  | api _ => some .api
  | defaultValue _ => some .default
  | bean | context => none

/-- An annotation with another one of its kind before it. -/
def Repeats (before : List ParamAnnotation) (a : ParamAnnotation) : Prop :=
  ∃ kind, a.kind? = some kind ∧ ∃ b ∈ before, b.kind? = some kind

/-- Annotations that agree on whether they keep a parameter out or expand it, and on the first one
of each kind. -/
structure Agree (as bs : List ParamAnnotation) : Prop where
  context : as.any (·.isContext) = bs.any (·.isContext)
  bean : as.any (·.isBean) = bs.any (·.isBean)
  location : as.findSome? (·.location?) = bs.findSome? (·.location?)
  info : as.findSome? (·.info?) = bs.findSome? (·.info?)
  default : as.findSome? (·.default?) = bs.findSome? (·.default?)

end ParamAnnotation

namespace Method

/-- The annotations of the parameter at position `i`, level by level: those of the overridden
declarations, base first, then its own. -/
def levels (m : Method) (i : Nat) : List (List ParamAnnotation) :=
  m.overridden.map (fun o => o.parameterAnnotations[i]?.getD []) ++
    [(m.parameters[i]?.map (·.annotations)).getD []]

/-- At one level of one position, annotations that repeat a kind make way for others that do. Either
of them can be none. -/
structure Edits (m m' : Method) (i : Nat) (old new : List ParamAnnotation) : Prop where
  declares : m.DeclaresAs m'
  others : ∀ j, j ≠ i → m.levels j = m'.levels j
  level : ∃ bases before after nears, m.levels i = bases ++ (before ++ old ++ after) :: nears ∧
    m'.levels i = bases ++ (before ++ new ++ after) :: nears ∧
    ∀ a ∈ old ++ new, a.Repeats (bases.flatten ++ before)

end Method

namespace ParamAnnotation

variable {as bs cs before after middle : List ParamAnnotation} {a : ParamAnnotation}

namespace Agree

theorem refl (as : List ParamAnnotation) : Agree as as :=
  ⟨rfl, rfl, rfl, rfl, rfl⟩

theorem symm (h : Agree as bs) : Agree bs as :=
  ⟨h.context.symm, h.bean.symm, h.location.symm, h.info.symm, h.default.symm⟩

theorem trans (h : Agree as bs) (h' : Agree bs cs) : Agree as cs :=
  ⟨h.context.trans h'.context, h.bean.trans h'.bean, h.location.trans h'.location,
    h.info.trans h'.info, h.default.trans h'.default⟩

end Agree

section Repeats

theorem isSome_location? : a.location?.isSome ↔ a.kind? = some .location := by
  cases a <;> simp [location?, kind?]

theorem isSome_info? : a.info?.isSome ↔ a.kind? = some .api := by
  cases a <;> simp [info?, kind?]

theorem isSome_default? : a.default?.isSome ↔ a.kind? = some .default := by
  cases a <;> simp [default?, kind?]

theorem isContext_of_repeats (h : a.Repeats before) : a.isContext = false := by
  obtain ⟨kind, hkind, _⟩ := h
  cases a <;> first | rfl | cases hkind

theorem isBean_of_repeats (h : a.Repeats before) : a.isBean = false := by
  obtain ⟨kind, hkind, _⟩ := h
  cases a <;> first | rfl | cases hkind

theorem any_without {p : ParamAnnotation → Bool} (h : ∀ a ∈ middle, p a = false) :
    (before ++ middle ++ after).any p = (before ++ after).any p := by
  have hmiddle : middle.any p = false := List.any_eq_false.2 fun a ha => by simp [h a ha]
  rw [List.any_append, List.any_append, List.any_append, hmiddle, Bool.or_false]

/-- The first annotation of a kind is not among those that repeat one. -/
theorem findSome?_without {α : Type} {select : ParamAnnotation → Option α} {kind : AnnotationKind}
    (hselect : ∀ a, (select a).isSome ↔ a.kind? = some kind)
    (h : ∀ a ∈ middle, a.Repeats before) :
    (before ++ middle ++ after).findSome? select = (before ++ after).findSome? select := by
  rw [List.findSome?_append, List.findSome?_append, List.findSome?_append]
  cases hbefore : before.findSome? select with
  | some x => rfl
  | none =>
    have hmiddle : middle.findSome? select = none := by
      rw [List.findSome?_eq_none_iff] at hbefore ⊢
      intro a ha
      obtain ⟨kind', hkind, b, hb, hsame⟩ := h a ha
      rw [← Option.not_isSome_iff_eq_none, hselect, hkind]
      rintro ⟨⟩
      have hfirst := (hselect b).2 hsame
      rw [hbefore b hb] at hfirst
      cases hfirst
    rw [hmiddle]
    rfl

theorem agree_without (h : ∀ a ∈ middle, a.Repeats before) :
    Agree (before ++ middle ++ after) (before ++ after) where
  context := any_without fun a ha => isContext_of_repeats (h a ha)
  bean := any_without fun a ha => isBean_of_repeats (h a ha)
  location := findSome?_without (fun _ => isSome_location?) h
  info := findSome?_without (fun _ => isSome_info?) h
  default := findSome?_without (fun _ => isSome_default?) h

end Repeats

section Parameters

variable {models : Models} {s : ResourceSet} {t : TypeRef}

theorem Agree.isSkipped (h : Agree as bs) : isSkipped as = isSkipped bs := by
  rw [Apidoc.isSkipped, Apidoc.isSkipped, h.context, h.info]

theorem Agree.leafParameter (h : Agree as bs) :
    leafParameter models t as = leafParameter models t bs := by
  simp only [Apidoc.leafParameter, h.location, h.info, h.default]

theorem Agree.declaredParameters (h : Agree as bs) :
    declaredParameters models s t as = declaredParameters models s t bs := by
  rw [Apidoc.declaredParameters, Apidoc.declaredParameters, ResourceSet.leaves_eq,
    ResourceSet.leaves_eq, h.isSkipped, h.bean]
  split
  · rfl
  · split
    · rfl
    · rw [leafParameters_single, leafParameters_single, h.leafParameter]

theorem methodParameters_agree {types : List TypeRef} {ass bss : List (List ParamAnnotation)}
    (h : List.Forall₂ Agree ass bss) :
    methodParameters models s (types.zip ass) = methodParameters models s (types.zip bss) := by
  induction h generalizing types with
  | nil => rfl
  | cons hhead _ ih =>
    cases types with
    | nil => rfl
    | cons t types =>
      rw [List.zip_cons_cons, List.zip_cons_cons, methodParameters, methodParameters,
        hhead.declaredParameters, ih]

end Parameters

end ParamAnnotation

namespace Method

open ParamAnnotation

variable {models : Models} {s : ResourceSet} {m m' : Method} {i : Nat}
  {old new : List ParamAnnotation}

theorem length_parameterAnnotations : m.parameterAnnotations.length = m.parameters.length := by
  rw [parameterAnnotations, List.length_mapIdx]

theorem getElem?_parameterAnnotations (h : i < m.parameters.length) :
    m.parameterAnnotations[i]? = some (m.levels i).flatten := by
  simp [parameterAnnotations, levels, inheritedAnnotations, List.getElem?_mapIdx,
    List.getElem?_eq_getElem h, List.flatMap]

namespace DeclaresAs

variable (h : m.DeclaresAs m')
include h

theorem length_parameters : m.parameters.length = m'.parameters.length := by
  simpa using congrArg List.length h.types

theorem agree_parameterAnnotations
    (hagree : ∀ i < m.parameters.length, Agree (m.levels i).flatten (m'.levels i).flatten) :
    List.Forall₂ Agree m.parameterAnnotations m'.parameterAnnotations := by
  rw [List.forall₂_iff_get]
  refine ⟨?_, fun i hi hi' => ?_⟩
  · rw [length_parameterAnnotations, length_parameterAnnotations, h.length_parameters]
  · rw [length_parameterAnnotations] at hi hi'
    obtain ⟨_, hm⟩ := List.getElem?_eq_some_iff.1 (getElem?_parameterAnnotations hi)
    obtain ⟨_, hm'⟩ := List.getElem?_eq_some_iff.1 (getElem?_parameterAnnotations hi')
    rw [List.get_eq_getElem, List.get_eq_getElem, hm, hm']
    exact hagree i hi

/-- Of the annotations of parameters, building takes only what agreeing ones share. -/
theorem buildOperation_of_agree
    (hagree : ∀ i < m.parameters.length, Agree (m.levels i).flatten (m'.levels i).flatten) :
    Apidoc.buildOperation models s m = Apidoc.buildOperation models s m' := by
  apply h.buildOperation
  rw [h.types]
  exact methodParameters_agree (h.agree_parameterAnnotations hagree)

end DeclaresAs

theorem Edits.agree (h : m.Edits m' i old new) (j : Nat) :
    Agree (m.levels j).flatten (m'.levels j).flatten := by
  by_cases hj : j = i
  · subst hj
    obtain ⟨bases, before, after, nears, hm, hm', hrepeats⟩ := h.level
    have hwithout {middle : List ParamAnnotation}
        (hmiddle : ∀ a ∈ middle, a.Repeats (bases.flatten ++ before)) :
        Agree (bases.flatten ++ before ++ middle ++ (after ++ nears.flatten))
          (bases.flatten ++ before ++ (after ++ nears.flatten)) := agree_without hmiddle
    have hold := hwithout fun a ha => hrepeats a (List.mem_append_left new ha)
    have hnew := hwithout fun a ha => hrepeats a (List.mem_append_right old ha)
    rw [hm, hm']
    simp only [List.flatten_append, List.flatten_cons, List.append_assoc] at hold hnew ⊢
    exact hold.trans hnew.symm
  · rw [h.others j hj]
    exact .refl _

/-- At every position, the annotations that are read are those of all levels, base first. Building
depends on them only by whether one keeps the parameter out or expands it, and by the first ones
that say where it travels, what documents it and what it is by default. So nothing changes when one
of these three kinds is added, removed or changed at some level where the kind is repeated. -/
theorem first_decides (models : Models) (s : ResourceSet) (m : Method) :
    (∀ i < m.parameters.length, m.parameterAnnotations[i]? = some (m.levels i).flatten) ∧
    (∀ m', m.DeclaresAs m' →
      (∀ i < m.parameters.length, Agree (m.levels i).flatten (m'.levels i).flatten) →
        buildOperation models s m = buildOperation models s m') ∧
    ∀ m' i old new, m.Edits m' i old new →
      buildOperation models s m = buildOperation models s m' :=
  ⟨fun _ => getElem?_parameterAnnotations, fun _ h => h.buildOperation_of_agree,
    fun _ _ _ _ h => h.declares.buildOperation_of_agree fun j _ => h.agree j⟩

end Method

section Paged

/-- The declaration that this method overrides says where the page travels; its own annotation says
it again. -/
def pagedMethod (own : ParamAnnotation) : Method where
  name := "list"
  parameters := [⟨⟨"u32", []⟩, [own, .defaultValue "1"]⟩]
  overridden := [{ parameterAnnotations := [[.query "page"]] }]

theorem pagedMethod_edits :
    (pagedMethod (.header "X-Page")).Edits (pagedMethod (.cookie "page")) 0 [.header "X-Page"]
      [.cookie "page"] where
  declares := ⟨rfl, rfl, rfl, rfl⟩
  others j hj := by
    cases j with
    | zero => exact absurd rfl hj
    | succ j => rfl
  level := by
    refine ⟨[[.query "page"]], [], [.defaultValue "1"], [], rfl, rfl, fun a ha => ?_⟩
    refine ⟨.location, ?_, .query "page", List.mem_singleton_self _, rfl⟩
    rcases List.mem_pair.1 ha with rfl | rfl <;> rfl

theorem pagedMethod_build : buildOperation {} {} (pagedMethod (.header "X-Page")) =
    buildOperation {} {} (pagedMethod (.cookie "page")) :=
  (Method.first_decides {} {} (pagedMethod (.header "X-Page"))).2.2 _ 0 _ _ pagedMethod_edits

end Paged

end Apidoc
