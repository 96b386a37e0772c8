import Apidoc.Proofs.Operation.Alike
import Apidoc.Proofs.Reading.Trail
import Apidoc.Proofs.Without
import Mathlib

namespace Apidoc

/-- The second resource is the first one without some of the methods that `p` holds of. -/
def Resource.WithoutMethods (p : Visit → Prop) (r r' : Resource) : Prop :=
  ∃ kept, Without (fun m => p ⟨r, m⟩) r.methods kept ∧ r' = { r with methods := kept }

/-- The second set finds what the first one finds, less some of the methods that `p` holds of. -/
structure ResourceSet.Follows (p : Visit → Prop) (s s' : ResourceSet) : Prop where
  found : ∀ name r, s.resource? name = some r →
    ∃ r', s'.resource? name = some r' ∧ r.WithoutMethods p r'
  missing : ∀ name, s.resource? name = none → s'.resource? name = none
  beans : ∀ t, s.bean? t = s'.bean? t

/-- A relation between the notes of two readings of which the second one passes over some methods
that `p` holds of. -/
structure Tracks (T : List Event → List Event → Prop) (p : Visit → Prop) (s s' : ResourceSet) :
    Prop where
  same : ∀ es, T es es
  append : ∀ {a b c d}, T a b → T c d → T (a ++ c) (b ++ d)
  describe : T [.edit (.describeTags s.tags)] [.edit (.describeTags s'.tags)]
  passes : ∀ v context, p v → route? context v.resource v.method = none ∨
    route? context v.resource v.method = some none ∧ T [.edit (.describeTags s.tags)] []

variable {models : Models} {s s' : ResourceSet} {chain : VerbChain} {openNames : List String}
  {r r' : Resource} {context : Context} {m : Method} {p : Visit → Prop}
  {T : List Event → List Event → Prop}

/-- Nothing is noted for a method without an annotation or for a hidden one. -/
theorem Tracks.eq (htags : s.tags = s'.tags)
    (hp : ∀ v context, p v → route? context v.resource v.method = none) : Tracks Eq p s s' where
  same _ := rfl
  append := by
    rintro _ _ _ _ rfl rfl
    rfl
  describe := by rw [htags]
  passes v context h := .inl (hp v context h)

theorem Resource.WithoutMethods.refl (r : Resource) : r.WithoutMethods p r :=
  ⟨r.methods, .refl _, rfl⟩

namespace ResourceSet.Follows

theorem routable (h : s.Follows p s') {t : TypeRef} {sub : Resource}
    (hs : s.routable? t = some sub) :
    ∃ sub', s'.routable? t = some sub' ∧ sub.WithoutMethods p sub' := by
  obtain ⟨hfound, hapi⟩ := Option.filter_eq_some_iff.1 hs
  obtain ⟨sub', hfound', kept, hkept, rfl⟩ := h.found _ _ hfound
  exact ⟨_, Option.filter_eq_some_iff.2 ⟨hfound', hapi⟩, kept, hkept, rfl⟩

theorem not_routable (h : s.Follows p s') {t : TypeRef} (hs : s.routable? t = none) :
    s'.routable? t = none := by
  unfold ResourceSet.routable? at hs ⊢
  cases hr : s.resource? t.unwrapped.name with
  | none => rw [h.missing _ hr]; rfl
  | some r =>
    obtain ⟨r', hr', kept, _, rfl⟩ := h.found _ _ hr
    rw [hr] at hs
    rw [hr']
    exact Option.filter_eq_none_iff.2 fun r' he => by
      cases he
      exact Option.filter_eq_none_iff.1 hs r rfl

theorem buildsAlike (h : s.Follows p s') : s.BuildsAlike s' := by
  refine ⟨h.beans, fun t => ?_⟩
  cases hs : s.routable? t with
  | none => rw [h.not_routable hs]
  | some sub =>
    obtain ⟨sub', hs', _⟩ := h.routable hs
    rw [hs']
    rfl

theorem rootResources (h : s.Follows p s') (hroots : s.roots = s'.roots) :
    List.Forall₂ (Resource.WithoutMethods p) s.rootResources s'.rootResources := by
  rw [ResourceSet.rootResources, ResourceSet.rootResources, ← hroots]
  induction s.roots with
  | nil => exact .nil
  | cons name names ih =>
    cases hs : s.resource? name with
    | none => rwa [List.filterMap_cons_none hs, List.filterMap_cons_none (h.missing _ hs)]
    | some r =>
      obtain ⟨r', hs', hr⟩ := h.found _ _ hs
      rw [List.filterMap_cons_some hs, List.filterMap_cons_some hs']
      exact .cons hr ih

end ResourceSet.Follows

section Tracks

variable (h : s.Follows p s') (ht : Tracks T p s s')
include h ht

theorem readReturned_alongside {inner : Context}
    (hopened : ∀ sub sub', s.routable? m.returnType = some sub → sub.name ∉ openNames →
      sub.WithoutMethods p sub' →
      Logged.Alongside T (readOpened models s chain (openNames ++ [sub.name]) sub inner)
        (readOpened models s' chain (openNames ++ [sub.name]) sub' inner)) :
    Logged.Alongside T (readReturned models s chain openNames m inner)
      (readReturned models s' chain openNames m inner) := by
  rw [readReturned, readReturned]
  cases hs : s.routable? m.returnType with
  | none =>
    rw [h.not_routable hs]
    exact ⟨ht.same _, rfl⟩
  | some sub =>
    obtain ⟨sub', hs', hsub⟩ := h.routable hs
    have hname : sub'.name = sub.name := by
      obtain ⟨kept, _, rfl⟩ := hsub
      rfl
    simp only [hs', hname]
    by_cases ho : openNames.contains sub.name = true
    · rw [if_pos ho, if_pos ho]
      exact ⟨ht.same _, rfl⟩
    · rw [if_neg ho, if_neg ho]
      exact hopened sub sub' hs (mt List.contains_iff_mem.2 ho) hsub

theorem visitMethod_alongside (hr : r.WithoutMethods p r')
    (hreturned : ∀ inner, Logged.Alongside T (readReturned models s chain openNames m inner)
      (readReturned models s' chain openNames m inner)) :
    Logged.Alongside T (visitMethod models s chain openNames r context m)
      (visitMethod models s' chain openNames r' context m) := by
  obtain ⟨kept, _, rfl⟩ := hr
  have hroute : route? context { r with methods := kept } m = route? context r m := rfl
  rw [visitMethod, visitMethod, hroute]
  cases route? context r m with
  | none => exact ⟨ht.same _, rfl⟩
  | some reached =>
    cases reached with
    | none => exact ⟨ht.describe, rfl⟩
    | some route =>
      simp only [visitRoute, Logged.bind_eq, ← h.buildsAlike.buildVisible]
      refine Logged.Alongside.bind ht.append ⟨ht.same _, rfl⟩ fun _ _ => ?_
      refine Logged.Alongside.bind ht.append ⟨ht.same _, rfl⟩ fun built _ => ?_
      refine Logged.Alongside.bind ht.append (hreturned _) fun _ _ => ?_
      exact Logged.Alongside.bind ht.append ⟨ht.same _, rfl⟩ fun _ _ => ⟨ht.describe, rfl⟩

omit h in
/-- A method that is passed over answers at once. -/
theorem visitMethod_passed (hp : p ⟨r, m⟩) :
    Logged.Alongside T (visitMethod models s chain openNames r context m) (Logged.pure ()) := by
  rw [visitMethod]
  rcases ht.passes ⟨r, m⟩ context hp with hroute | ⟨hroute, hdescribe⟩
  · rw [hroute]
    exact ⟨ht.same _, rfl⟩
  · rw [hroute]
    exact ⟨hdescribe, rfl⟩

theorem readMethods_alongside (hr : r.WithoutMethods p r') {methods methods' : List Method}
    (hmethods : Without (fun m => p ⟨r, m⟩) methods methods')
    (hreturned : ∀ m inner, Logged.Alongside T (readReturned models s chain openNames m inner)
      (readReturned models s' chain openNames m inner)) :
    Logged.Alongside T (readMethods models s chain openNames r context methods)
      (readMethods models s' chain openNames r' context methods') := by
  induction hmethods with
  | nil =>
    rw [readMethods, readMethods]
    exact ⟨ht.same _, rfl⟩
  | keep m _ ih =>
    rw [readMethods_cons, readMethods_cons]
    exact Logged.Alongside.bind ht.append (visitMethod_alongside h ht hr (hreturned m))
      fun _ _ => ih
  | @drop m rest rest' hp _ ih =>
    -- Where the second reading has no method, it stands still.
    rw [readMethods_cons, ← Logged.pure_bind () fun _ =>
      readMethods models s' chain openNames r' context rest']
    exact Logged.Alongside.bind ht.append (visitMethod_passed ht hp) fun _ _ => ih

theorem readOpened_alongside (hr : r.WithoutMethods p r') :
    Logged.Alongside T (readOpened models s chain openNames r context)
      (readOpened models s' chain openNames r' context) := by
  refine opened_induction (s := s) (C := fun openNames r context => ∀ r', r.WithoutMethods p r' →
    Logged.Alongside T (readOpened models s chain openNames r context)
      (readOpened models s' chain openNames r' context)) ?_ openNames r context r' hr
  intro openNames r context ih r' hr
  have hreturned (m : Method) (inner : Context) :
      Logged.Alongside T (readReturned models s chain openNames m inner)
        (readReturned models s' chain openNames m inner) := by
    apply readReturned_alongside h ht
    intro sub sub' hs hnew hsub
    exact ih _ sub inner hs hnew sub' hsub
  obtain ⟨kept, hkept, rfl⟩ := hr
  rw [readOpened, readOpened]
  refine Logged.Alongside.bind ht.append ⟨ht.same _, rfl⟩ fun _ _ => ?_
  exact Logged.Alongside.bind ht.append
    (readMethods_alongside h ht ⟨kept, hkept, rfl⟩ hkept hreturned)
    fun _ _ => ⟨ht.describe, rfl⟩

theorem readRoot_alongside (hr : r.WithoutMethods p r') :
    Logged.Alongside T (readRoot models s chain r) (readRoot models s' chain r') := by
  have hopened : Logged.Alongside T (readOpened models s chain [r.name] r {})
      (readOpened models s' chain [r.name] r' {}) := readOpened_alongside h ht hr
  obtain ⟨kept, _, rfl⟩ := hr
  have hreadable : Resource.isReadable { r with methods := kept } {} = r.isReadable {} := rfl
  rw [readRoot, readRoot, hreadable]
  split
  · exact hopened
  · exact ⟨ht.same _, rfl⟩

/-- The notes of two readings are related, and their results are the same. -/
theorem readSet_alongside (hroots : s.roots = s'.roots) :
    Logged.Alongside T (readSet models s chain) (readSet models s' chain) := by
  have hread (rs rs' : List Resource) (hrs : List.Forall₂ (Resource.WithoutMethods p) rs rs') :
      Logged.Alongside T (readRoots models s chain rs) (readRoots models s' chain rs') := by
    induction hrs with
    | nil => exact ⟨ht.same _, rfl⟩
    | cons hr _ ih =>
      exact Logged.Alongside.bind ht.append (readRoot_alongside h ht hr) fun _ _ => ih
  exact hread _ _ (h.rootResources hroots)

end Tracks

end Apidoc
