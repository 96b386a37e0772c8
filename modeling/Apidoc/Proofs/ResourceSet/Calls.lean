import Apidoc.Proofs.Distinct
import Apidoc.Proofs.ResourceSet.Bundles
import Apidoc.Proofs.Table

namespace Apidoc

/-- A call that fills a set of resources. -/
inductive Call where
  | root (r : Resource)
  | subResource (r : Resource)
  | bean (b : Bean)
  | tag (t : TagDefinition)
  | bundle (b : Bundle)

namespace Call

def apply (s : ResourceSet) : Call → ResourceSet
  | root r => s.addRoot r
  | subResource r => s.addSubResource r
  | bean b => s.addBean b
  | tag t => s.addTag t
  | bundle b => s.addBundle b

/-- The bundle that declares what a call registers. -/
def toBundle : Call → Bundle
  | root r => { resources := [r] }
  | subResource r => { subResources := [r] }
  | bean b => { beans := [b] }
  | tag t => { tags := [t] }
  | bundle b => b

/-- The resources that a call registers at top level, in order. -/
def roots (c : Call) : List Resource :=
  c.toBundle.resources

/-- The resources that a call registers in either way, in order. -/
def resources (c : Call) : List Resource :=
  c.toBundle.resources ++ c.toBundle.subResources

def beans (c : Call) : List Bean :=
  c.toBundle.beans

theorem apply_eq_addBundle (s : ResourceSet) (c : Call) : c.apply s = s.addBundle c.toBundle := by
  cases c with
  | root r => rfl
  | subResource r => rfl
  | bean b => rfl
  | tag t => rfl
  | bundle b => rfl

end Call

namespace ResourceSet

/-- The set that calls make of an empty one. -/
def ofCalls (calls : List Call) : ResourceSet :=
  calls.foldl Call.apply {}

section Keyed

variable {α : Type} {name : α → String} {x : α} {xs : List α} {k : String}

/-- The table that holds every item under its own name. -/
def keyed (name : α → String) (xs : List α) : Table α :=
  ⟨xs.map fun x => (name x, x)⟩

theorem keys_keyed : (keyed name xs).keys = xs.map name := by
  rw [keyed, Table.keys, List.map_map]
  rfl

/-- Replacing an item by its name is writing it under its name. -/
theorem put_keyed : (keyed name xs).put (name x) x = keyed name (replaceBy name x xs) := by
  rw [keyed, keyed, Table.put, Table.mk.injEq]
  induction xs with
  | nil => rfl
  | cons y ys ih =>
    by_cases h : name y = name x
    · simp [Table.write, replaceBy, h]
    · simpa [Table.write, replaceBy, h] using ih

theorem putAll_keyed (xs ys : List α) : (keyed name ys).putAll (xs.map fun x => (name x, x)) =
    keyed name (xs.foldl (fun l x => replaceBy name x l) ys) := by
  induction xs generalizing ys with
  | nil => rfl
  | cons x xs ih =>
    rw [List.foldl_cons, ← ih, ← put_keyed]
    rfl

theorem ofList_keyed : Table.ofList (xs.map fun x => (name x, x)) =
    keyed name (xs.foldl (fun l x => replaceBy name x l) []) :=
  putAll_keyed xs []

theorem map_name_foldl_replaceBy : (xs.foldl (fun l x => replaceBy name x l) []).map name =
    (xs.map name).eraseDups := by
  have hnames : (xs.map fun x => (name x, x)).map (·.1) = xs.map name := by
    rw [List.map_map]
    rfl
  rw [← keys_keyed, ← ofList_keyed, Table.ofList, Table.keys_putAll, hnames]
  exact foldl_addNew_of_nodup List.nodup_nil

/-- Of items with distinct names each is found under its own. -/
theorem find?_eq_some_iff (h : (xs.map name).Nodup) :
    xs.find? (name · == k) = some x ↔ x ∈ xs ∧ name x = k := by
  constructor
  · intro hfind
    have hname := List.find?_some hfind
    exact ⟨List.mem_of_find?_eq_some hfind, beq_iff_eq.1 hname⟩
  · rintro ⟨hx, rfl⟩
    induction xs with
    | nil => cases hx
    | cons y ys ih =>
      obtain ⟨hy, hys⟩ := List.nodup_cons.1 h
      rcases List.mem_cons.1 hx with rfl | hx
      · simp
      · have hne : name y ≠ name x := fun he => hy (he ▸ List.mem_map_of_mem hx)
        rw [List.find?_cons_of_neg (by simpa using hne)]
        exact ih hys hx

end Keyed

/-- What a set tells about the calls that have filled it. -/
structure Records (s : ResourceSet) (calls : List Call) : Prop where
  /-- Writing every registered resource under its name gives the stored ones under theirs. -/
  resources : Table.ofList ((calls.flatMap Call.resources).map fun r => (r.name, r)) =
    keyed Resource.name s.resources
  beans : Table.ofList ((calls.flatMap Call.beans).map fun b => (b.name, b)) =
    keyed Bean.name s.beans
  resource? (name : String) (r : Resource) :
    s.resource? name = some r ↔ r ∈ s.resources ∧ r.name = name
  bean? (t : TypeRef) (b : Bean) : s.bean? t = some b ↔ b ∈ s.beans ∧ b.name = t.unwrapped.name
  roots_nodup : s.roots.Nodup
  roots_stored : ∀ name ∈ s.roots, ∃ r ∈ s.resources, r.name = name
  length_rootResources : s.rootResources.length = s.roots.length
  /-- Roots are in the order of their first registration at top level. -/
  roots : s.roots = ((calls.flatMap Call.roots).map (·.name)).eraseDups
  /-- The resource of a root is the last one of its name, at top level or not. -/
  rootResources : s.rootResources.map some =
    s.roots.map fun name => lastNamed? Resource.name name (calls.flatMap Call.resources)

variable {calls : List Call} {s : ResourceSet}

theorem foldl_apply : calls.foldl Call.apply s = {
    roots := (calls.flatMap Call.roots).foldl (fun names r =>
      if r.name ∈ names then names else names ++ [r.name]) s.roots
    resources := (calls.flatMap Call.resources).foldl (fun l r => replaceBy Resource.name r l)
      s.resources
    beans := (calls.flatMap Call.beans).foldl (fun l b => replaceBy Bean.name b l) s.beans
    tags := s.tags ++ calls.flatMap (·.toBundle.tags) } := by
  induction calls generalizing s with
  | nil => simp
  | cons c calls ih =>
    rw [List.foldl_cons, ih, Call.apply_eq_addBundle, addBundle_eq]
    simp only [List.flatMap_cons, List.foldl_append, List.append_assoc, Call.roots, Call.resources,
      Call.beans]

theorem roots_ofCalls :
    (ofCalls calls).roots = ((calls.flatMap Call.roots).map (·.name)).eraseDups := by
  rw [ofCalls, foldl_apply]
  have hfold (rs : List Resource) : rs.foldl (fun names r =>
      if r.name ∈ names then names else names ++ [r.name]) [] = (rs.map (·.name)).eraseDups := by
    rw [← List.nil_append (rs.map _), ← foldl_addNew_of_nodup List.nodup_nil, List.foldl_map]
  exact hfold _

theorem resource?_ofCalls (name : String) : (ofCalls calls).resource? name =
    lastNamed? Resource.name name (calls.flatMap Call.resources) := by
  rw [ofCalls, foldl_apply, resource?, find?_foldl_replaceBy]
  exact Option.or_none

/-- The names of what a call registers at top level are among those of all that it registers. -/
theorem mem_resources_of_mem_roots {name : String}
    (h : name ∈ (calls.flatMap Call.roots).map (·.name)) :
    ∃ r ∈ calls.flatMap Call.resources, r.name = name := by
  obtain ⟨r, hr, hname⟩ := List.mem_map.1 h
  obtain ⟨c, hc, hr⟩ := List.mem_flatMap.1 hr
  exact ⟨r, List.mem_flatMap.2 ⟨c, hc, List.mem_append_left _ hr⟩, hname⟩

theorem isSome_resource?_of_mem_roots {name : String} (h : name ∈ (ofCalls calls).roots) :
    ((ofCalls calls).resource? name).isSome := by
  rw [roots_ofCalls] at h
  obtain ⟨r, hr, hname⟩ := mem_resources_of_mem_roots (List.mem_eraseDups.1 h)
  rw [resource?_ofCalls, lastNamed?, List.find?_isSome]
  exact ⟨r, List.mem_reverse.2 hr, beq_iff_eq.2 hname⟩

theorem map_some_rootResources (h : ∀ name ∈ s.roots, (s.resource? name).isSome) :
    s.rootResources.map some = s.roots.map s.resource? := by
  rw [rootResources]
  generalize s.roots = names at h
  induction names with
  | nil => rfl
  | cons name names ih =>
    obtain ⟨r, hr⟩ := Option.isSome_iff_exists.1 (h name List.mem_cons_self)
    rw [List.filterMap_cons_some hr, List.map_cons, List.map_cons, hr,
      ih fun n hn => h n (List.mem_cons_of_mem _ hn)]

/-- Every set that calls have filled records them. -/
theorem records_ofCalls (calls : List Call) : (ofCalls calls).Records calls := by
  have hresources : ((ofCalls calls).resources.map (·.name)).Nodup := by
    rw [ofCalls, foldl_apply, map_name_foldl_replaceBy]
    exact nodup_eraseDups _
  have hbeans : ((ofCalls calls).beans.map (·.name)).Nodup := by
    rw [ofCalls, foldl_apply, map_name_foldl_replaceBy]
    exact nodup_eraseDups _
  have hstored : ∀ name ∈ (ofCalls calls).roots, ((ofCalls calls).resource? name).isSome :=
    fun _ => isSome_resource?_of_mem_roots
  have hroots := map_some_rootResources hstored
  exact {
    resources := by
      rw [ofCalls, foldl_apply]
      exact ofList_keyed
    beans := by
      rw [ofCalls, foldl_apply]
      exact ofList_keyed
    resource? := fun _ _ => find?_eq_some_iff hresources
    bean? := fun _ _ => find?_eq_some_iff hbeans
    roots_nodup := by
      rw [roots_ofCalls]
      exact nodup_eraseDups _
    roots_stored := by
      intro name hname
      obtain ⟨r, hr⟩ := Option.isSome_iff_exists.1 (hstored name hname)
      exact ⟨r, (find?_eq_some_iff hresources).1 hr⟩
    length_rootResources := by
      rw [← List.length_map some, hroots, List.length_map]
    roots := roots_ofCalls
    rootResources := hroots.trans (List.map_congr_left fun name _ => resource?_ofCalls name) }

/-- A root that is registered again, not at top level, stays where it is with its new resource. -/
example : (ofCalls [.root { name := "Zoo" }, .bundle { resources := [{ name := "Park" }] },
      .subResource { name := "Zoo", path := some "/zoo" }]).rootResources =
    [{ name := "Zoo", path := some "/zoo" }, { name := "Park" }] :=
  rfl

end ResourceSet

end Apidoc
