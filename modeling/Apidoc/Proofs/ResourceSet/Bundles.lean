import Apidoc.Proofs.Reading.Roots
import Mathlib

namespace Apidoc

/-- The bundle of all that the bundles declare, in their order. -/
def Bundle.join (bs : List Bundle) : Bundle where
  resources := bs.flatMap (·.resources)
  subResources := bs.flatMap (·.subResources)
  beans := bs.flatMap (·.beans)
  tags := bs.flatMap (·.tags)

/-- No name is used both for a root and for a resource that is only returned. -/
def Bundle.IsSplit (b : Bundle) : Prop :=
  ∀ r ∈ b.resources, ∀ r' ∈ b.subResources, r.name ≠ r'.name

theorem Bundle.IsSplit.of_cons {b : Bundle} {bs : List Bundle} (h : (join (b :: bs)).IsSplit) :
    (join bs).IsSplit := by
  intro r hr r' hr'
  apply h r _ r'
  · exact List.mem_append_right _ hr'
  · exact List.mem_append_right _ hr

namespace ResourceSet

section Lookup

variable {α : Type} {name : α → String} {x : α} {xs ys : List α} {k : String}

/-- The last item of a name. -/
def lastNamed? (name : α → String) (k : String) (xs : List α) : Option α :=
  xs.reverse.find? (name · == k)

theorem lastNamed?_append :
    lastNamed? name k (xs ++ ys) = (lastNamed? name k ys).or (lastNamed? name k xs) := by
  rw [lastNamed?, List.reverse_append, List.find?_append]
  rfl

theorem lastNamed?_cons :
    lastNamed? name k (x :: xs) =
      (lastNamed? name k xs).or (if name x = k then some x else none) := by
  rw [← List.singleton_append, lastNamed?_append]
  by_cases h : name x = k <;> simp [lastNamed?, h]

theorem find?_replaceBy :
    (replaceBy name x xs).find? (name · == k) =
      (if name x = k then some x else none).or (xs.find? (name · == k)) := by
  induction xs with
  | nil => by_cases h : name x = k <;> simp [replaceBy, h]
  | cons y ys ih =>
    by_cases hy : name y = name x
    · by_cases h : name x = k <;> simp [replaceBy, hy, h]
    · by_cases h : name y = k
      · have hx : name x ≠ k := fun hx => hy (h.trans hx.symm)
        simp [replaceBy, h, hx, Ne.symm hx]
      · simpa [replaceBy, hy, h] using ih

/-- Of the items that are put in one after another, the last one of a name is found. -/
theorem find?_foldl_replaceBy :
    (xs.foldl (fun l x => replaceBy name x l) ys).find? (name · == k) =
      (lastNamed? name k xs).or (ys.find? (name · == k)) := by
  induction xs generalizing ys with
  | nil => rfl
  | cons x xs ih => rw [List.foldl_cons, ih, find?_replaceBy, lastNamed?_cons, Option.or_assoc]

end Lookup

variable {s : ResourceSet} {b : Bundle} {bs : List Bundle} {name : String}

section Fields

theorem foldl_addRoot (rs : List Resource) : rs.foldl addRoot s = { s with
    roots := rs.foldl (fun names r => if r.name ∈ names then names else names ++ [r.name]) s.roots
    resources := rs.foldl (fun l r => replaceBy Resource.name r l) s.resources } := by
  induction rs generalizing s with
  | nil => rfl
  | cons r rs ih => exact ih

theorem foldl_addSubResource (rs : List Resource) : rs.foldl addSubResource s = { s with
    resources := rs.foldl (fun l r => replaceBy Resource.name r l) s.resources } := by
  induction rs generalizing s with
  | nil => rfl
  | cons r rs ih => exact ih

theorem foldl_addBean (beans : List Bean) : beans.foldl addBean s = { s with
    beans := beans.foldl (fun l b => replaceBy Bean.name b l) s.beans } := by
  induction beans generalizing s with
  | nil => rfl
  | cons b beans ih => exact ih

theorem foldl_addTag (tags : List TagDefinition) :
    tags.foldl addTag s = { s with tags := s.tags ++ tags } := by
  induction tags generalizing s with
  | nil => simp
  | cons t tags ih =>
    rw [List.foldl_cons, ih]
    simp [addTag]

/-- What a bundle does to each part of a set. -/
theorem addBundle_eq : s.addBundle b = {
    roots := b.resources.foldl (fun names r =>
      if r.name ∈ names then names else names ++ [r.name]) s.roots
    resources := (b.resources ++ b.subResources).foldl (fun l r => replaceBy Resource.name r l)
      s.resources
    beans := b.beans.foldl (fun l b => replaceBy Bean.name b l) s.beans
    tags := s.tags ++ b.tags } := by
  simp only [addBundle, foldl_addRoot, foldl_addSubResource, foldl_addBean, foldl_addTag,
    List.foldl_append]

theorem resource?_addBundle : (s.addBundle b).resource? name =
    (lastNamed? Resource.name name b.subResources).or
      ((lastNamed? Resource.name name b.resources).or (s.resource? name)) := by
  rw [addBundle_eq, resource?, find?_foldl_replaceBy, lastNamed?_append, Option.or_assoc]
  rfl

end Fields

section Joined

theorem roots_addBundles : (bs.foldl addBundle s).roots = (s.addBundle (.join bs)).roots := by
  induction bs generalizing s with
  | nil => rfl
  | cons b bs ih =>
    rw [List.foldl_cons, ih]
    simp only [addBundle_eq, Bundle.join, List.flatMap_cons, List.foldl_append]

theorem beans_addBundles : (bs.foldl addBundle s).beans = (s.addBundle (.join bs)).beans := by
  induction bs generalizing s with
  | nil => rfl
  | cons b bs ih =>
    rw [List.foldl_cons, ih]
    simp only [addBundle_eq, Bundle.join, List.flatMap_cons, List.foldl_append]

theorem tags_addBundles : (bs.foldl addBundle s).tags = (s.addBundle (.join bs)).tags := by
  induction bs generalizing s with
  | nil => simp [addBundle_eq, Bundle.join]
  | cons b bs ih =>
    rw [List.foldl_cons, ih]
    simp only [addBundle_eq, Bundle.join, List.flatMap_cons, List.append_assoc]

theorem lastNamed?_eq_none {rs : List Resource} (h : ∀ r ∈ rs, r.name ≠ name) :
    lastNamed? Resource.name name rs = none := by
  apply List.find?_eq_none.2
  intro r hr
  simpa using h r (List.mem_reverse.1 hr)

/-- A root and another resource are never found under one name, so that the order in which the two
kinds are declared does not count. -/
theorem lastNamed?_or_comm {roots others : List Resource}
    (h : ∀ r ∈ roots, ∀ r' ∈ others, r.name ≠ r'.name) :
    (lastNamed? Resource.name name roots).or (lastNamed? Resource.name name others) =
      (lastNamed? Resource.name name others).or (lastNamed? Resource.name name roots) := by
  by_cases hroots : ∀ r ∈ roots, r.name ≠ name
  · rw [lastNamed?_eq_none hroots, Option.none_or, Option.or_none]
  · obtain ⟨r, hr, hname⟩ : ∃ r ∈ roots, r.name = name := by simpa using hroots
    have hothers : ∀ r' ∈ others, r'.name ≠ name := by
      intro r' hr' hname'
      exact h r hr r' hr' (hname.trans hname'.symm)
    rw [lastNamed?_eq_none hothers, Option.none_or, Option.or_none]

theorem resource?_addBundles (h : (Bundle.join bs).IsSplit) :
    (bs.foldl addBundle s).resource? name = (s.addBundle (.join bs)).resource? name := by
  induction bs generalizing s with
  | nil => rfl
  | cons b bs ih =>
    have hswap : (lastNamed? Resource.name name (Bundle.join bs).resources).or
        (lastNamed? Resource.name name b.subResources) =
          (lastNamed? Resource.name name b.subResources).or
            (lastNamed? Resource.name name (Bundle.join bs).resources) := by
      apply lastNamed?_or_comm
      intro r hr r' hr'
      exact h r (List.mem_append_right _ hr) r' (List.mem_append_left _ hr')
    have hsub : (Bundle.join (b :: bs)).subResources =
        b.subResources ++ (Bundle.join bs).subResources := rfl
    have hroots : (Bundle.join (b :: bs)).resources =
        b.resources ++ (Bundle.join bs).resources := rfl
    rw [List.foldl_cons, ih h.of_cons, resource?_addBundle, resource?_addBundle,
      resource?_addBundle, hsub, hroots, lastNamed?_append, lastNamed?_append]
    simp only [Option.or_assoc]
    congr 1
    rw [← Option.or_assoc, hswap, Option.or_assoc]

/-- Bundles that are added one after another and the bundle that joins them fill a set alike. -/
theorem agrees_addBundles (h : (Bundle.join bs).IsSplit) :
    (bs.foldl addBundle s).Agrees (s.addBundle (.join bs)) where
  resources _ := resource?_addBundles h
  beans t := by rw [bean?, bean?, beans_addBundles]
  tags := tags_addBundles

end Joined

end ResourceSet

variable {models : Models} {s s' : ResourceSet} {chain : VerbChain}

theorem ResourceSet.Agrees.readRoots (h : s.Agrees s') {rs : List Resource} :
    readRoots models s chain rs = readRoots models s' chain rs := by
  induction rs with
  | nil => rfl
  | cons r rs ih => rw [Apidoc.readRoots, Apidoc.readRoots, h.readRoot, ih]

theorem ResourceSet.Agrees.rootResources_eq (h : s.Agrees s') (hroots : s.roots = s'.roots) :
    s.rootResources = s'.rootResources := by
  have hresource : s.resource? = s'.resource? := funext h.resources
  rw [ResourceSet.rootResources, ResourceSet.rootResources, hroots, hresource]

/-- Sets that agree and have the same roots are read alike. -/
theorem ResourceSet.Agrees.readSet (h : s.Agrees s') (hroots : s.roots = s'.roots) :
    readSet models s chain = readSet models s' chain := by
  rw [Apidoc.readSet, Apidoc.readSet, h.rootResources_eq hroots, h.readRoots]

/-- How declarations are split into bundles does not matter where no name is used both for a root
and for another resource. -/
theorem ResourceSet.addBundles_joined {bs : List Bundle} (h : (Bundle.join bs).IsSplit)
    (s : ResourceSet) :
    let split := bs.foldl addBundle s
    let joined := s.addBundle (.join bs)
    split.roots = joined.roots ∧ split.rootResources = joined.rootResources ∧
      (∀ name, split.resource? name = joined.resource? name) ∧
      (∀ t, split.routable? t = joined.routable? t) ∧
      (∀ t, split.bean? t = joined.bean? t) ∧
      split.tags = joined.tags ∧
      ∀ (d : Document) (models : Models) (chain : VerbChain),
        d.read models split chain = d.read models joined chain := by
  intro split joined
  have hagrees : split.Agrees joined := agrees_addBundles h
  have hroots : split.roots = joined.roots := roots_addBundles
  refine ⟨hroots, hagrees.rootResources_eq hroots, hagrees.resources, ?_, hagrees.beans,
    hagrees.tags, ?_⟩
  · intro t
    rw [routable?, routable?, hagrees.resources]
  · intro d models chain
    rw [Document.read, Document.read, hagrees.readSet hroots]

/-- Two bundles that both declare a root, a resource that it returns, a bean and a tag, and differ
in all of them. -/
def zooBundles : List Bundle :=
  let zoo (path : String) : Resource :=
    let cages : Method := {
      name := "cages"
      returnType := ⟨"Cage", []⟩
      declaration := { operation := some {}, path := some path, verb := some .get } }
    { name := "Zoo", api := some {}, path := some "/zoo", methods := [cages] }
  let cage (tag : String) : Resource := { name := "Cage", api := some { tags := [tag] } }
  let park : Resource := { name := "Park", api := some {} }
  [{ resources := [zoo "/cages"]
     subResources := [cage "small", cage "large"]
     beans := [{ name := "Page" }]
     tags := [⟨"wild", "Wild animals"⟩] },
   { resources := [park, zoo "/all-cages"]
     subResources := [cage "wild"]
     beans := [{ name := "Page", fields := [{ name := "size", type := ⟨"i32", []⟩ }] }]
     tags := [⟨"wild", "Animals"⟩] }]

theorem zooBundles_joined :
    let split := zooBundles.foldl ResourceSet.addBundle {}
    let joined := ResourceSet.addBundle {} (.join zooBundles)
    (Bundle.join zooBundles).IsSplit ∧
      split.resources.map (·.name) = ["Zoo", "Cage", "Park"] ∧
      joined.resources.map (·.name) = ["Zoo", "Park", "Cage"] ∧
      split.rootResources = joined.rootResources ∧
      split.resource? "Cage" = joined.resource? "Cage" ∧
      ({} : Document).read {} split .standard = ({} : Document).read {} joined .standard := by
  intro split joined
  have hsplit : (Bundle.join zooBundles).IsSplit := by
    unfold Bundle.IsSplit
    decide
  obtain ⟨_, hroots, hresources, _, _, _, hread⟩ := ResourceSet.addBundles_joined hsplit {}
  exact ⟨hsplit, rfl, rfl, hroots, hresources "Cage", hread {} {} .standard⟩

end Apidoc
