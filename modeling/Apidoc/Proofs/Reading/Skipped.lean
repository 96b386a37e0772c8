import Apidoc.Proofs.Document.Spared
import Apidoc.Proofs.Reading.Alongside
import Apidoc.Proofs.Reading.Failure
import Mathlib

namespace Apidoc

/-- A method without an annotation, or with one that hides it. -/
def Visit.IsUndocumented (v : Visit) : Prop :=
  ∀ info, v.method.operation? = some info → info.hidden = true

/-- The second set is the first one without some of the methods that `p` holds of. -/
structure ResourceSet.WithoutMethods (p : Visit → Prop) (s s' : ResourceSet) : Prop where
  resources : List.Forall₂ (Resource.WithoutMethods p) s.resources s'.resources
  roots : s.roots = s'.roots
  beans : s.beans = s'.beans
  tags : s.tags = s'.tags

variable {models : Models} {s s' : ResourceSet} {chain : VerbChain} {v : Visit} {p : Visit → Prop}

theorem ResourceSet.WithoutMethods.follows (h : s.WithoutMethods p s') : s.Follows p s' := by
  have hfind (rs rs' : List Resource) (hrs : List.Forall₂ (Resource.WithoutMethods p) rs rs')
      (name : String) :
      (∀ r, rs.find? (·.name == name) = some r →
        ∃ r', rs'.find? (·.name == name) = some r' ∧ r.WithoutMethods p r') ∧
      (rs.find? (·.name == name) = none → rs'.find? (·.name == name) = none) := by
    induction hrs with
    | nil =>
      constructor
      · intro r hr
        cases hr
      · intro _
        rfl
    | @cons r r' rs rs' hr _ ih =>
      have hname : r'.name = r.name := by
        obtain ⟨kept, _, rfl⟩ := hr
        rfl
      rw [List.find?_cons, List.find?_cons, hname]
      cases r.name == name with
      | true =>
        refine ⟨fun found hfound => ?_, fun hnone => ?_⟩
        · cases hfound
          exact ⟨r', rfl, hr⟩
        · cases hnone
      | false => exact ih
  exact {
    found := fun name => (hfind _ _ h.resources name).1
    missing := fun name => (hfind _ _ h.resources name).2
    beans := fun t => by rw [ResourceSet.bean?, ResourceSet.bean?, h.beans] }

theorem Visit.route?_eq_none (h : v.IsUndocumented) (context : Context) :
    route? context v.resource v.method = none := by
  rw [route?]
  cases hi : v.method.operation? with
  | none => rfl
  | some info => simp only [if_pos (h info hi)]

theorem Visit.route?_of_not_isRouted (h : v.isRouted = false) (context : Context) :
    route? context v.resource v.method = none ∨
      route? context v.resource v.method = some none := by
  cases hr : route? context v.resource v.method with
  | none => exact .inl rfl
  | some reached =>
    cases reached with
    | none => exact .inr rfl
    | some route =>
      have hrouted := (v.isRouted_iff context).2 ⟨route, hr⟩
      rw [h] at hrouted
      cases hrouted

/-- At a method that it skips, a reading notes at most that it describes the tags. -/
theorem tracks_skipped (htags : s.tags = s'.tags) :
    Tracks (Without (· = .edit (.describeTags s.tags))) (fun v => v.isRouted = false) s s' where
  same := .refl
  append := .append
  describe := htags ▸ .refl _
  passes v context hv := by
    rcases v.route?_of_not_isRouted hv context with hr | hr
    · exact .inl hr
    · exact .inr ⟨hr, .drop rfl .nil⟩

def ResourceSet.edits (s : ResourceSet) (models : Models) (chain : VerbChain) : List Edit :=
  Event.edits (readSet models s chain).notes

/-- Leaving out methods that are skipped changes neither the result nor the paths, the definitions
and the names of the tags, and nothing at all if the methods are undocumented. A document changes
exactly when a tag that was described at a skipped method is not described alike without it. -/
theorem Document.read_without_skipped (h : s.WithoutMethods (fun v => v.isRouted = false) s')
    (d : Document) :
    let x := d.read models s chain
    let y := d.read models s' chain
    x.2 = y.2 ∧ x.1 = { y.1 with tags := x.1.tags } ∧ x.1.tagNames = y.1.tagNames ∧
      (s.WithoutMethods Visit.IsUndocumented s' → x.1 = y.1) ∧
      (x.1 = y.1 ↔ ∀ name text,
        d.Spares s.tags (s.edits models chain) (s'.edits models chain) name →
          s.tags.findSome? (·.descriptionOf? name) = some text →
            (y.1.tag? name).bind (·.description) = some text) := by
  intro x y
  have hread : Logged.Alongside (Without (· = .edit (.describeTags s.tags)))
      (readSet models s chain) (readSet models s' chain) :=
    readSet_alongside h.follows (tracks_skipped h.tags) h.roots
  have hedits : Without (· = .describeTags s.tags) (s.edits models chain)
      (s'.edits models chain) := by
    apply hread.notes.filterMap
    rintro _ rfl e he
    cases he
    rfl
  refine ⟨hread.result, applyAll_spared hedits, tagNames_spared hedits, fun hundocumented => ?_,
    applyAll_spared_iff hedits⟩
  have hsame : readSet models s chain = readSet models s' chain :=
    (readSet_alongside hundocumented.follows
      (Tracks.eq h.tags fun v context hv => v.route?_eq_none hv context) h.roots).eq
  change d.after (readSet models s chain) = d.after (readSet models s' chain)
  rw [hsame]

section Note

/-- A root without a path, with a tag that both a definition and the resource that a method returns
describe. -/
def animalSet (methods : List Method) : ResourceSet :=
  let animals : Resource := {
    name := "Animals"
    api := some { value := "animals", description := "Animals of a shelter" } }
  let shelters : Resource := { name := "Shelters", api := some { tags := ["animals"] }, methods }
  ((({} : ResourceSet).addRoot shelters).addSubResource animals).addTag ⟨"animals", "All animals"⟩

def noteMethod : Method where
  name := "note"
  declaration := { operation := some {} }

def animalsMethod : Method where
  name := "animals"
  returnType := ⟨"Animals", []⟩
  declaration := { operation := some {}, path := some "/animals", verb := some .get }

theorem animalSet_withoutNote : (animalSet [noteMethod, animalsMethod]).WithoutMethods
    (fun v => v.isRouted = false) (animalSet [animalsMethod]) where
  resources := .cons ⟨[animalsMethod], .drop rfl (.keep _ .nil), rfl⟩ (.cons (.refl _) .nil)
  roots := rfl
  beans := rfl
  tags := rfl

/-- Where a method without a path comes first, the definition does. -/
theorem animalSet_note_shows :
    let x := ({} : Document).read {} (animalSet [noteMethod, animalsMethod]) .standard
    let y := ({} : Document).read {} (animalSet [animalsMethod]) .standard
    (animalSet [noteMethod, animalsMethod]).WithoutMethods (fun v => v.isRouted = false)
        (animalSet [animalsMethod]) ∧
      x.2 = .ok () ∧ x.1 ≠ y.1 := by
  intro x y
  have htag : x.1.tag? "animals" = some ⟨"animals", some "All animals"⟩ := by
    change (Document.read {} {} (animalSet [noteMethod, animalsMethod]) .standard).1.tag? _ = _
    cbv
  have htag' : y.1.tag? "animals" = some ⟨"animals", some "Animals of a shelter"⟩ := by
    change (Document.read {} {} (animalSet [animalsMethod]) .standard).1.tag? _ = _
    cbv
  refine ⟨animalSet_withoutNote, by cbv, fun heq => ?_⟩
  rw [heq, htag'] at htag
  exact absurd htag (by decide)

theorem animalSet_note_skipped :
    let x := ({} : Document).read {} (animalSet [noteMethod, animalsMethod]) .standard
    let y := ({} : Document).read {} (animalSet [animalsMethod]) .standard
    (animalSet [noteMethod, animalsMethod]).WithoutMethods (fun v => v.isRouted = false)
        (animalSet [animalsMethod]) ∧
      x.2 = y.2 ∧ x.1 = { y.1 with tags := x.1.tags } ∧ x.1.tagNames = y.1.tagNames := by
  intro x y
  obtain ⟨hresult, hrest, hnames, _⟩ :=
    @Document.read_without_skipped {} _ _ .standard animalSet_withoutNote {}
  exact ⟨animalSet_withoutNote, hresult, hrest, hnames⟩

end Note

end Apidoc
