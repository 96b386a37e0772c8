import Apidoc.Proofs.Operation.Alike
import Apidoc.Proofs.Operation.Declarations
import Apidoc.Proofs.Reading.Visit
import Mathlib

namespace Apidoc

/-- The second resource is the first one with methods in the places of its own. -/
def Resource.Replaces (R : Method → Method → Prop) (r r' : Resource) : Prop :=
  ∃ methods, List.Forall₂ R r.methods methods ∧ r' = { r with methods }

/-- The second set is the first one with methods in the places of its own. -/
structure ResourceSet.Replaces (R : Method → Method → Prop) (s s' : ResourceSet) : Prop where
  roots : s.roots = s'.roots
  resources : List.Forall₂ (Resource.Replaces R) s.resources s'.resources
  beans : s.beans = s'.beans
  tags : s.tags = s'.tags

/-- Methods that a reading cannot tell apart. -/
structure Interchangeable (chain : VerbChain) (R : Method → Method → Prop) : Prop where
  actsAs : ∀ m m', R m m' → m.ActsAs m'
  resolve : ∀ m m', R m m' → chain.resolve m = chain.resolve m'

variable {R : Method → Method → Prop} {models : Models} {s s' : ResourceSet} {chain : VerbChain}
  {openNames : List String} {r r' : Resource} {context : Context} {m m' : Method}

namespace ResourceSet.Replaces

theorem resource? (h : s.Replaces R s') (name : String) :
    Option.Rel (Resource.Replaces R) (s.resource? name) (s'.resource? name) := by
  have hresources := h.resources
  unfold ResourceSet.resource?
  generalize s.resources = rs, s'.resources = rs' at hresources ⊢
  induction hresources with
  | nil => exact .none
  | @cons r r' _ _ hr _ ih =>
    obtain ⟨methods, hmethods, rfl⟩ := hr
    rw [List.find?_cons, List.find?_cons]
    cases r.name == name with
    | true => exact .some ⟨methods, hmethods, rfl⟩
    | false => exact ih

theorem routable? (h : s.Replaces R s') (t : TypeRef) :
    Option.Rel (Resource.Replaces R) (s.routable? t) (s'.routable? t) := by
  have hfound := h.resource? t.unwrapped.name
  unfold ResourceSet.routable?
  generalize s.resource? t.unwrapped.name = found,
    s'.resource? t.unwrapped.name = found' at hfound ⊢
  cases hfound with
  | none => exact .none
  | @some r r' hr =>
    obtain ⟨methods, hmethods, rfl⟩ := hr
    rw [Option.filter_some, Option.filter_some]
    by_cases hapi : r.api.isSome = true
    · rw [if_pos hapi, if_pos hapi]
      exact .some ⟨methods, hmethods, rfl⟩
    · rw [if_neg hapi, if_neg hapi]
      exact .none

theorem rootResources (h : s.Replaces R s') :
    List.Forall₂ (Resource.Replaces R) s.rootResources s'.rootResources := by
  rw [ResourceSet.rootResources, ResourceSet.rootResources, ← h.roots]
  induction s.roots with
  | nil => exact .nil
  | cons name names ih =>
    have hfound := h.resource? name
    rw [List.filterMap_cons, List.filterMap_cons]
    generalize s.resource? name = found, s'.resource? name = found' at hfound ⊢
    cases hfound with
    | none => exact ih
    | some hr => exact .cons hr ih

theorem buildsAlike (h : s.Replaces R s') : s.BuildsAlike s' where
  beans t := by rw [bean?, bean?, h.beans]
  routable t := by
    have hfound := h.routable? t
    generalize s.routable? t = found, s'.routable? t = found' at hfound ⊢
    cases hfound <;> rfl

end ResourceSet.Replaces

section Reading

variable (h : s.Replaces R s') (hR : Interchangeable chain R)
include h hR

omit hR in
theorem readReturned_replaced (hm : m.ActsAs m') {inner : Context}
    (hopened : ∀ sub sub', s.routable? m.returnType = some sub → sub.name ∉ openNames →
      sub.Replaces R sub' → readOpened models s chain (openNames ++ [sub.name]) sub inner =
        readOpened models s' chain (openNames ++ [sub.name]) sub' inner) :
    readReturned models s chain openNames m inner =
      readReturned models s' chain openNames m' inner := by
  have hfound := h.routable? m.returnType
  rw [readReturned, readReturned, ← hm.returnType]
  generalize hs : s.routable? m.returnType = found,
    s'.routable? m.returnType = found' at hfound ⊢
  cases hfound with
  | none => rfl
  | @some sub sub' hsub =>
    have hname : sub'.name = sub.name := by
      obtain ⟨methods, _, rfl⟩ := hsub
      rfl
    simp only [hname]
    by_cases ho : openNames.contains sub.name = true
    · rw [if_pos ho, if_pos ho]
    · rw [if_neg ho, if_neg ho]
      exact hopened sub sub' hs (mt List.contains_iff_mem.2 ho) hsub

theorem visitMethod_replaced (hr : r.Replaces R r') (hm : R m m')
    (hreturned : ∀ inner, readReturned models s chain openNames m inner =
      readReturned models s' chain openNames m' inner) :
    visitMethod models s chain openNames r context m =
      visitMethod models s' chain openNames r' context m' := by
  obtain ⟨methods, _, rfl⟩ := hr
  have hacts := hR.actsAs m m' hm
  have hroute : route? context { r with methods } m' = route? context r m := by
    rw [route?, route?, hacts.operation?, hacts.path?]
  rw [visitMethod, visitMethod, hroute, h.tags]
  cases hreached : route? context r m with
  | none => rfl
  | some reached =>
    cases reached with
    | none => rfl
    | some route =>
      have hbuilt : buildRoute models s context route m =
          buildRoute models s' context route m' := by
        rw [buildRoute, buildRoute, hacts.buildOperation, h.buildsAlike.buildOperation]
      simp only [visitRoute_eq hreached, visitRoute_eq (hroute.trans hreached), hbuilt,
        hR.resolve m m' hm, hreturned, h.tags]
      rfl

theorem readMethods_replaced (hr : r.Replaces R r') {methods methods' : List Method}
    (hmethods : List.Forall₂ R methods methods')
    (hreturned : ∀ m m', R m m' → ∀ inner, readReturned models s chain openNames m inner =
      readReturned models s' chain openNames m' inner) :
    readMethods models s chain openNames r context methods =
      readMethods models s' chain openNames r' context methods' := by
  induction hmethods with
  | nil => rw [readMethods, readMethods]
  | cons hm _ ih =>
    rw [readMethods_cons, readMethods_cons, ih,
      visitMethod_replaced h hR hr hm (hreturned _ _ hm)]

theorem readOpened_replaced (hr : r.Replaces R r') :
    readOpened models s chain openNames r context =
      readOpened models s' chain openNames r' context := by
  refine opened_induction (s := s) (C := fun openNames r context => ∀ r', r.Replaces R r' →
    readOpened models s chain openNames r context =
      readOpened models s' chain openNames r' context) ?_ openNames r context r' hr
  intro openNames r context ih r' hr
  have hreturned (m m' : Method) (hm : R m m') (inner : Context) :
      readReturned models s chain openNames m inner =
        readReturned models s' chain openNames m' inner := by
    apply readReturned_replaced h (hR.actsAs m m' hm)
    intro sub sub' hs hnew hsub
    exact ih _ sub inner hs hnew sub' hsub
  have hall := hr
  obtain ⟨methods, hmethods, rfl⟩ := hall
  rw [readOpened, readOpened, h.tags, readMethods_replaced h hR hr hmethods hreturned]
  rfl

/-- Where methods are replaced by others that act as they do, a reading does the same. -/
theorem readSet_replaced : readSet models s chain = readSet models s' chain := by
  have hread (rs rs' : List Resource) (hrs : List.Forall₂ (Resource.Replaces R) rs rs') :
      readRoots models s chain rs = readRoots models s' chain rs' := by
    induction hrs with
    | nil => rfl
    | @cons r r' _ _ hr _ ih =>
      have hopened : readOpened models s chain [r.name] r {} =
          readOpened models s' chain [r.name] r' {} := readOpened_replaced h hR hr
      have hroot : readRoot models s chain r = readRoot models s' chain r' := by
        obtain ⟨methods, _, rfl⟩ := hr
        rw [readRoot, readRoot, hopened]
        rfl
      rw [readRoots, readRoots, hroot, ih]
  exact hread _ _ h.rootResources

end Reading

theorem Method.Flattens.interchangeable (h : m.Flattens m') :
    Interchangeable .standard fun a b => a = b ∨ a = m ∧ b = m' where
  actsAs a b := by
    rintro (rfl | ⟨rfl, rfl⟩)
    · exact .refl _
    · exact h.actsAs
  resolve a b := by
    rintro (rfl | ⟨rfl, rfl⟩)
    · rfl
    · exact h.actsAs.resolve_standard

/-- A method whose chain of overridden declarations is flattened, or merged at two levels of it, has
the same verb and is built alike into every document; replacing it in a set changes no reading. -/
theorem Method.Flattens.changes_nothing (h : m.Flattens m') :
    VerbChain.standard.resolve m = VerbChain.standard.resolve m' ∧
      (∀ (models : Models) (s : ResourceSet) (d : Document),
        d.build models s m = d.build models s m') ∧
      ∀ (models : Models) (s s' : ResourceSet) (d : Document),
        s.Replaces (fun a b => a = b ∨ a = m ∧ b = m') s' →
          d.read models s .standard = d.read models s' .standard := by
  refine ⟨h.actsAs.resolve_standard, fun models s d => ?_, fun models s s' d hs => ?_⟩
  · rw [Document.build, Document.build, h.actsAs.buildOperation]
  · have hread : readSet models s .standard = readSet models s' .standard :=
      readSet_replaced hs h.interchangeable
    rw [Document.read, Document.read, hread]

section Cats

def baseCat : Overridden where
  declaration := {
    operation := some { summary := "base" }
    path := some "/base"
    verb := some .get
    deprecated := true }
  parameterAnnotations := [[.path "id"], [.query "limit"]]

def nearCat : Overridden where
  declaration := { path := some "/{id}", produces := some ["text/plain"] }
  parameterAnnotations := [[.api { description := "near" }]]

/-- A method that says nothing itself, over two declarations with annotations of one and two
parameters. -/
def catFind : Method where
  name := "find"
  parameters := [⟨⟨"i64", []⟩, []⟩, ⟨⟨"i64", []⟩, []⟩]
  overridden := [baseCat, nearCat]

def catSet (m : Method) : ResourceSet :=
  ({} : ResourceSet).addRoot
    { name := "Cats", api := some {}, path := some "/cats", methods := [m] }

def mergedCat : Method :=
  { catFind with overridden := [baseCat.merge nearCat] }

theorem catSet_replaces (m m' : Method) :
    (catSet m).Replaces (fun a b => a = b ∨ a = m ∧ b = m') (catSet m') where
  roots := rfl
  resources := .cons ⟨[m'], .cons (.inr ⟨rfl, rfl⟩) .nil, rfl⟩ .nil
  beans := rfl
  tags := rfl

theorem mergedCat_changes_nothing : catFind.Flattens mergedCat ∧
    VerbChain.standard.resolve catFind = VerbChain.standard.resolve mergedCat ∧
    (({} : Document).build {} (catSet catFind) catFind =
      ({} : Document).build {} (catSet catFind) mergedCat) ∧
    (catSet catFind).Replaces (fun a b => a = b ∨ a = catFind ∧ b = mergedCat)
      (catSet mergedCat) ∧
    ({} : Document).read {} (catSet catFind) .standard =
      ({} : Document).read {} (catSet mergedCat) .standard := by
  have hchain : catFind.overridden = [] ++ baseCat :: nearCat :: [] := rfl
  have h : catFind.Flattens mergedCat := .merge hchain
  obtain ⟨hverb, hbuild, hread⟩ := Method.Flattens.changes_nothing h
  exact ⟨h, hverb, hbuild _ _ _, catSet_replaces _ _, hread _ _ _ _ (catSet_replaces _ _)⟩

end Cats

end Apidoc
