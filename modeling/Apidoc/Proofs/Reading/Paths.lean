import Apidoc.Proofs.Document.Store
import Apidoc.Proofs.Path.Slashes
import Apidoc.Proofs.Reading.Writes
import Mathlib

namespace Apidoc

/-- The slashes at the end of the path of a visit, by those of the path that its resource
inherits. -/
def Visit.slashes? (inherited : Option Nat) (v : Visit) : Option Nat :=
  Path.slashesBelow? inherited v.resource.path v.method.path?

/-- The slashes that the fragments along a trail leave at the end of its path. -/
def trailSlashes? (visits : List Visit) : Option Nat :=
  visits.foldl Visit.slashes? none

variable {models : Models} {s : ResourceSet} {chain : VerbChain} {context : Context}
  {visits locators : List Visit} {v last : Visit} {path : String} {verb : Verb} {o : Operation}
  {d : Document}

theorem trailSlashes?_append_singleton :
    trailSlashes? (visits ++ [v]) = v.slashes? (trailSlashes? visits) := by
  simp [trailSlashes?]

theorem slashes?_of_trailPath? (h : trailPath? visits = some path) :
    Path.slashes? path.toList = trailSlashes? visits := by
  induction visits using List.reverseRecOn generalizing path with
  | nil =>
    cases h
    rfl
  | append_singleton visits v ih =>
    rw [trailPath?_append_singleton] at h
    obtain ⟨inherited, hinherited, hpath⟩ := Option.bind_eq_some_iff.1 h
    obtain ⟨composed, hcomposed, rfl⟩ := Option.map_eq_some_iff.1 hpath
    rw [(Path.slashes?_composed hcomposed).2.1, ih hinherited, trailSlashes?_append_singleton]
    rfl

/-- The path at the end of a trail begins with a slash, and is canonical when no other is left. -/
theorem isCanonical_of_trailPath? (h : trailPath? (visits ++ [v]) = some path) :
    path.toList.head? = some '/' ∧
      (Path.IsCanonical path ↔ (trailSlashes? (visits ++ [v])).getD 0 = 0) := by
  have hslashes := slashes?_of_trailPath? h
  rw [trailPath?_append_singleton] at h
  obtain ⟨inherited, _, hpath⟩ := Option.bind_eq_some_iff.1 h
  obtain ⟨composed, hcomposed, rfl⟩ := Option.map_eq_some_iff.1 hpath
  obtain ⟨hhead, _, hroot⟩ := Path.slashes?_composed hcomposed
  rw [← hslashes]
  exact ⟨hhead, Path.isCanonical_iff hhead hroot⟩

theorem trailPath?_of_trailContext? (h : trailContext? models s chain locators = some context) :
    trailPath? locators = some context.path := by
  replace h := descends_iff.2 h
  induction h with
  | root => rfl
  | locator _ hr _ ih =>
    rw [trailPath?_append_singleton, ih]
    exact path?_of_route? hr

theorem WritesThrough.trailPath? (h : WritesThrough models s chain locators last path verb o) :
    Apidoc.trailPath? (locators ++ [last]) = some path := by
  obtain ⟨context, hcontext, _, route, built, hr, _, rfl, _⟩ := h.registers
  rw [trailPath?_append_singleton, trailPath?_of_trailContext? hcontext]
  exact path?_of_route? hr

/-- A path of a document after a reading is one that it had or one that the reading writes. -/
theorem Document.mem_paths_read (h : path ∈ (d.read models s chain).1.paths.keys) :
    path ∈ d.paths.keys ∨
      ∃ locators last verb o, WritesThrough models s chain locators last path verb o := by
  rcases mem_keys_paths_applyAll.1 h with h | ⟨verb, o, he⟩
  · exact .inl h
  · obtain ⟨locators, last, hw⟩ := exists_writesThrough (mem_edits.1 he)
    exact .inr ⟨locators, last, verb, o, hw⟩

/-- After a reading from canonical paths, whether it fails or not, every path begins with a slash,
and is canonical unless the fragments along a trail leave more slashes at its end than are cut
off. -/
theorem Document.canonical_read_iff (hd : ∀ path ∈ d.paths.keys, Path.IsCanonical path)
    (hpath : path ∈ (d.read models s chain).1.paths.keys) :
    path.toList.head? = some '/' ∧ (Path.IsCanonical path ↔
      ∀ locators last verb o, WritesThrough models s chain locators last path verb o →
        (trailSlashes? (locators ++ [last])).getD 0 = 0) := by
  rcases mem_paths_read hpath with hbefore | ⟨locators, last, verb, o, hw⟩
  · have hcanonical := hd path hbefore
    refine ⟨hcanonical.1, ?_⟩
    constructor
    · intro _ locators last verb o hw
      exact (isCanonical_of_trailPath? hw.trailPath?).2.1 hcanonical
    · intro _
      exact hcanonical
  · obtain ⟨hhead, hiff⟩ := isCanonical_of_trailPath? hw.trailPath?
    refine ⟨hhead, ?_⟩
    constructor
    · intro hcanonical locators last verb o hw
      exact (isCanonical_of_trailPath? hw.trailPath?).2.1 hcanonical
    · intro hall
      exact hiff.2 (hall locators last verb o hw)

section Bounds

/-- A fragment of a resource or of a method ends in no more slashes than are cut off it. -/
structure Visit.IsTrimmed (v : Visit) : Prop where
  resource : ∀ path ∈ v.resource.path, ¬['/', '/'] <:+ path.toList
  method : ∀ path ∈ v.method.path?, ¬['/', '/', '/'] <:+ path.toList

theorem atMost_trailSlashes? (h : ∀ v ∈ visits, v.IsTrimmed) :
    Path.AtMost 0 (trailSlashes? visits) := by
  induction visits using List.reverseRecOn with
  | nil =>
    intro n hn
    cases hn
  | append_singleton visits v ih =>
    have hbefore := ih fun u hu => h u (List.mem_append_left _ hu)
    have hv := h v (by simp)
    rw [trailSlashes?_append_singleton]
    exact Path.atMost_slashesBelow? hbefore hv.resource hv.method

theorem IsTrail.mem_resources (h : IsTrail s visits) (hv : v ∈ visits) :
    v.resource ∈ s.resources := by
  obtain ⟨before, after, rfl⟩ := List.append_of_mem hv
  rcases List.eq_nil_or_concat before with rfl | ⟨before, u, rfl⟩
  · obtain ⟨hroot, _⟩ := h.start v rfl
    obtain ⟨name, _, hname⟩ := List.mem_filterMap.1 hroot
    exact ResourceSet.mem_of_resource? hname
  · have hlinked := h.linked
    rw [List.concat_eq_append, List.append_assoc] at hlinked
    have hlink := (List.isChain_cons_cons.1 (List.isChain_split.1 hlinked).2).1
    exact ResourceSet.mem_of_resource? (Option.filter_eq_some_iff.1 hlink).1

/-- A reading writes canonical paths only, where every fragment of the set is trimmed. -/
theorem Document.canonical_read (hd : ∀ path ∈ d.paths.keys, Path.IsCanonical path)
    (hs : ∀ r ∈ s.resources, ∀ m ∈ r.methods, Visit.IsTrimmed ⟨r, m⟩)
    (hpath : path ∈ (d.read models s chain).1.paths.keys) : Path.IsCanonical path := by
  rcases mem_paths_read hpath with hbefore | ⟨locators, last, verb, o, hw⟩
  · exact hd path hbefore
  · have htrimmed (v : Visit) (hv : v ∈ locators ++ [last]) : v.IsTrimmed :=
      hs v.resource (hw.trail.mem_resources hv) v.method (hw.trail.documented v hv).1
    have hmost := atMost_trailSlashes? htrimmed
    refine (isCanonical_of_trailPath? hw.trailPath?).2.2 ?_
    cases hn : trailSlashes? (locators ++ [last]) with
    | none => rfl
    | some n => exact Nat.le_zero.1 (hmost n hn)

end Bounds

section Stables

def horseList : Method where
  name := "list"
  declaration := { operation := some {}, path := some "", verb := some .get }

/-- A resource whose path ends in two slashes. -/
def stableSet : ResourceSet :=
  ({} : ResourceSet).addRoot
    { name := "Stables", api := some {}, path := some "/stables//", methods := [horseList] }

def stableDocument : Document where
  paths := ⟨[("/", {})]⟩

theorem stableDocument_canonical : ∀ path ∈ stableDocument.paths.keys, Path.IsCanonical path := by
  intro path hpath
  cases List.mem_singleton.1 hpath
  exact ⟨rfl, fun _ => rfl⟩

theorem paths_stableSet :
    (stableDocument.read {} stableSet .standard).1.paths.keys = ["/", "/stables/"] := by
  cbv

theorem stableSet_canonical_iff :
    (∀ path ∈ stableDocument.paths.keys, Path.IsCanonical path) ∧
      "/stables/" ∈ (stableDocument.read {} stableSet .standard).1.paths.keys ∧
      "/stables/".toList.head? = some '/' ∧ (Path.IsCanonical "/stables/" ↔
        ∀ locators last verb o,
          WritesThrough {} stableSet .standard locators last "/stables/" verb o →
            (trailSlashes? (locators ++ [last])).getD 0 = 0) := by
  have hpath : "/stables/" ∈ (stableDocument.read {} stableSet .standard).1.paths.keys := by
    rw [paths_stableSet]
    decide
  exact ⟨stableDocument_canonical, hpath,
    Document.canonical_read_iff stableDocument_canonical hpath⟩

/-- One of the two slashes stays. -/
theorem stableSet_slash_left : (stableDocument.read {} stableSet .standard).2 = .ok () ∧
    ¬∀ d : Document, (∀ path ∈ d.paths.keys, Path.IsCanonical path) →
      ∀ path ∈ (d.read {} stableSet .standard).1.paths.keys, Path.IsCanonical path := by
  refine ⟨by cbv, fun h => ?_⟩
  have hpath : "/stables/" ∈ (stableDocument.read {} stableSet .standard).1.paths.keys := by
    rw [paths_stableSet]
    decide
  have hcanonical := h stableDocument stableDocument_canonical _ hpath
  have hroot := hcanonical.2 (by decide)
  exact absurd hroot (by decide)

end Stables

end Apidoc
