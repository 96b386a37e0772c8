import Apidoc.Proofs.Document.Order
import Apidoc.Proofs.Reading.Alongside
import Apidoc.Proofs.Reading.Defined
import Mathlib

namespace Apidoc

/-- Sets that find the same under each name, whatever their roots are. -/
structure ResourceSet.Agrees (s s' : ResourceSet) : Prop where
  resources : ∀ name, s.resource? name = s'.resource? name
  beans : ∀ t, s.bean? t = s'.bean? t
  tags : s.tags = s'.tags

variable {models : Models} {s s' : ResourceSet} {chain : VerbChain} {r : Resource}

namespace ResourceSet.Agrees

theorem follows (h : s.Agrees s') : s.Follows (fun _ => False) s' where
  found name r hr := ⟨r, h.resources name ▸ hr, .refl r⟩
  missing name hr := h.resources name ▸ hr
  beans := h.beans

theorem readRoot (h : s.Agrees s') : readRoot models s chain r = readRoot models s' chain r :=
  (readRoot_alongside h.follows (Tracks.eq h.tags fun _ _ hp => hp.elim) (.refl r)).eq

theorem rootResources (h : s.Agrees s') (hroots : s.roots.Perm s'.roots) :
    s.rootResources.Perm s'.rootResources := by
  have hresource : s.resource? = s'.resource? := funext h.resources
  rw [ResourceSet.rootResources, ResourceSet.rootResources, hresource]
  exact hroots.filterMap _

end ResourceSet.Agrees

theorem readRoots_ok_iff {rs : List Resource} : (readRoots models s chain rs).result = .ok () ↔
    ∀ r ∈ rs, (readRoot models s chain r).result = .ok () := by
  induction rs with
  | nil =>
    constructor
    · intro _ r hr
      cases hr
    · intro _
      rfl
  | cons r rs ih =>
    rw [readRoots, Logged.bind_eq, Logged.result_bind_eq_ok, List.forall_mem_cons, ← ih]
    constructor
    · rintro ⟨_, hr, hrest⟩
      exact ⟨hr, hrest⟩
    · rintro ⟨hr, hrest⟩
      exact ⟨(), hr, hrest⟩

def rootEdits (models : Models) (s : ResourceSet) (chain : VerbChain) (r : Resource) : List Edit :=
  Event.edits (readRoot models s chain r).notes

theorem edits_readRoots {rs : List Resource} (h : (readRoots models s chain rs).result = .ok ()) :
    Event.edits (readRoots models s chain rs).notes = rs.flatMap (rootEdits models s chain) := by
  induction rs with
  | nil => rfl
  | cons r rs ih =>
    rw [readRoots, Logged.bind_eq] at h ⊢
    obtain ⟨_, hr, hrest⟩ := Logged.result_bind_eq_ok.1 h
    rw [Logged.notes_bind_of_ok hr, Event.edits, List.filterMap_append, List.flatMap_cons]
    exact congrArg (rootEdits models s chain r ++ ·) (ih hrest)

def WritesSlot (models : Models) (s : ResourceSet) (chain : VerbChain) (path : String) (verb : Verb)
    (r : Resource) : Prop :=
  ∃ o, .operation path verb o ∈ rootEdits models s chain r

/-- A name is given one schema only, however often it is defined. -/
theorem model_unique_of_mem_readSet {name : String} {schema schema' : Schema}
    (h : .model name schema ∈ Event.edits (readSet models s chain).notes)
    (h' : .model name schema' ∈ Event.edits (readSet models s chain).notes) :
    schema = schema' := by
  have hreached {name schema}
      (h : .model name schema ∈ Event.edits (readSet models s chain).notes) :
      ∃ t d, models.Reaches t d ∧ d.name = name ∧ models.schemaOf d = schema := by
    rcases fromTrail_of_mem_readSet (mem_edits.1 h) with
      ⟨t, ht⟩ | ht | ⟨w, hw⟩ | ⟨locators, openNames, v, context, route, _, _, hvisit⟩
    · cases ht
    · cases ht
    · cases hw
    · obtain ⟨t, _, _, d, hd⟩ := buildVisible_defines.whole hvisit.model
      exact ⟨t, d, hd⟩
  obtain ⟨t, d, hd, rfl, rfl⟩ := hreached h
  obtain ⟨t', d', hd', hname, rfl⟩ := hreached h'
  rw [hd.eq_of_name hd' hname.symm]

/-- Reading sets that agree, up to the order of their roots, succeeds alike and leaves documents
that are alike; an operation is the same in both unless two roots write its slot. -/
theorem Document.read_roots_perm (h : s.Agrees s') (hroots : s.roots.Perm s'.roots) (d : Document) :
    let x := d.read models s chain
    let y := d.read models s' chain
    (x.2 = .ok () ↔ y.2 = .ok ()) ∧
      (x.2 = .ok () → x.1.Alike y.1 ∧ ∀ path verb,
        (∀ r ∈ s.rootResources, ∀ r' ∈ s.rootResources, WritesSlot models s chain path verb r →
          WritesSlot models s chain path verb r' → r = r') →
        x.1.operation? path verb = y.1.operation? path verb) := by
  intro x y
  have hperm := h.rootResources hroots
  have hread : readRoot models s chain = readRoot models s' chain := funext fun _ => h.readRoot
  have hiff : x.2 = .ok () ↔ y.2 = .ok () := by
    refine readRoots_ok_iff.trans (Iff.trans ?_ readRoots_ok_iff.symm)
    rw [hread]
    exact forall_congr' fun r => imp_congr_left hperm.mem_iff
  refine ⟨hiff, fun hx => ?_⟩
  have hy := hiff.1 hx
  have hsame : rootEdits models s' chain = rootEdits models s chain := by
    funext r
    rw [rootEdits, rootEdits, h.readRoot]
  have hes : Event.edits (readSet models s chain).notes =
      s.rootResources.flatMap (rootEdits models s chain) := edits_readRoots hx
  have hes' : Event.edits (readSet models s' chain).notes =
      s'.rootResources.flatMap (rootEdits models s chain) := hsame ▸ edits_readRoots hy
  have hmem (e : Edit) : e ∈ Event.edits (readSet models s chain).notes ↔
      e ∈ Event.edits (readSet models s' chain).notes := by
    rw [hes, hes', List.mem_flatMap, List.mem_flatMap]
    exact exists_congr fun r => and_congr_left' hperm.mem_iff
  refine ⟨alike_applyAll hmem fun name schema schema' => model_unique_of_mem_readSet,
    fun path verb hone => ?_⟩
  change (d.applyAll (Event.edits (readSet models s chain).notes)).operation? path verb =
    (d.applyAll (Event.edits (readSet models s' chain).notes)).operation? path verb
  rw [hes, hes']
  exact operation?_applyAll_flatMap (fun r => hperm.mem_iff) hone

def shopRoot (name path : String) : Resource :=
  let toys : Method := {
    name := "toys"
    returnType := ⟨"Toys", []⟩
    declaration := { operation := some {}, path := some "/toys", verb := some .get } }
  let api : ApiInfo := { value := "/shop", description := name }
  { name, api := some api, path := some path, methods := [toys] }

/-- Two roots with a tag that they describe differently, and with a resource that both return. -/
def shopSet (first second : Resource) : ResourceSet :=
  let list : Method := {
    name := "list"
    declaration := { operation := some {}, path := some "/all" } }
  ((({} : ResourceSet).addRoot first).addRoot second).addSubResource
    { name := "Toys", api := some {}, methods := [list] }

theorem read_shopSet_swapped :
    let dogs := shopRoot "Dogs" "/dogs"
    let cats := shopRoot "Cats" "/cats"
    let s := shopSet dogs cats
    let s' := shopSet cats dogs
    let x := ({} : Document).read {} s .standard
    let y := ({} : Document).read {} s' .standard
    s.Agrees s' ∧ s.roots.Perm s'.roots ∧ x.2 = .ok () ∧ x.1.Alike y.1 ∧
      x.1.operation? "/dogs/toys/all" .get = y.1.operation? "/dogs/toys/all" .get := by
  intro dogs cats s s' x y
  have hagrees : s.Agrees s' := by
    refine ⟨fun name => ?_, fun t => rfl, rfl⟩
    by_cases hdogs : "Dogs" = name
    · subst hdogs
      rfl
    · by_cases hcats : "Cats" = name
      · subst hcats
        rfl
      · simp [ResourceSet.resource?, ResourceSet.addRoot, ResourceSet.addSubResource,
          ResourceSet.replaceBy, s, s', shopSet, shopRoot, dogs, cats, hdogs, hcats]
  have hperm : s.roots.Perm s'.roots := by decide
  have hread : x.2 = .ok () := by cbv
  have hone : ∀ r ∈ s.rootResources, ∀ r' ∈ s.rootResources,
      WritesSlot {} s .standard "/dogs/toys/all" .get r →
        WritesSlot {} s .standard "/dogs/toys/all" .get r' → r = r' := by
    have hcats : (rootEdits {} s .standard cats).findSome? (·.writtenAt? "/dogs/toys/all" .get) =
        none := by cbv
    have hdogs {r : Resource} (hr : r ∈ s.rootResources)
        (hw : WritesSlot {} s .standard "/dogs/toys/all" .get r) : r = dogs := by
      obtain ⟨o, ho⟩ := hw
      have hroots : s.rootResources = [dogs, cats] := rfl
      rw [hroots] at hr
      rcases List.mem_pair.1 hr with rfl | rfl
      · rfl
      · have hnone := List.findSome?_eq_none_iff.1 hcats _ ho
        rw [Edit.writtenAt?_eq_some_iff.2 rfl] at hnone
        cases hnone
    intro r hr r' hr' hw hw'
    rw [hdogs hr hw, hdogs hr' hw']
  obtain ⟨_, hsame⟩ := @Document.read_roots_perm {} s s' .standard hagrees hperm {}
  obtain ⟨halike, hslots⟩ := hsame hread
  exact ⟨hagrees, hperm, hread, halike, hslots _ _ hone⟩

end Apidoc
