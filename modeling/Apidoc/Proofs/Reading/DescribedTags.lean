import Apidoc.Proofs.Reading.Again
import Apidoc.Proofs.Reading.Alongside
import Apidoc.Proofs.Reading.DeclaredTags
import Mathlib

namespace Apidoc

variable {models : Models} {s : ResourceSet} {chain : VerbChain} {d : Document}
  {definitions : List TagDefinition}

/-- The definitions have no part in which tags there are. -/
theorem Document.tagNames_read :
    (d.read models { s with tags := definitions } chain).1.tagNames =
      (d.read models s chain).1.tagNames := by
  let names (es : List Event) : List String := (Event.edits es).filterMap (·.tagName?)
  have hfollows : s.Follows (fun _ => False) { s with tags := definitions } := {
    found := fun _ r hr => ⟨r, hr, .refl r⟩
    missing := fun _ hr => hr
    beans := fun _ => rfl }
  have htracks : Tracks (fun a b => names a = names b) (fun _ => False) s
      { s with tags := definitions } := {
    same := fun _ => rfl
    append := by
      intro a b c e hab hce
      have happend (es es' : List Event) : names (es ++ es') = names es ++ names es' := by
        simp only [names, Event.edits, List.filterMap_append]
      rw [happend, happend, hab, hce]
    describe := rfl
    passes := fun _ _ h => h.elim }
  have hnames : names (readSet models s chain).notes =
      names (readSet models { s with tags := definitions } chain).notes :=
    (readSet_alongside hfollows htracks rfl).notes
  have hread (s : ResourceSet) : (d.read models s chain).1.tagNames = d.tagNames ++
      ((names (readSet models s chain).notes).removeAll d.tagNames).eraseDups :=
    tagNames_applyAll
  rw [hread, hread, hnames]

theorem Document.describeTags_again :
    (d.describeTags definitions).describeTags definitions = d.describeTags definitions :=
  congrArg (fun tags => { d with tags }) Edit.describeTags_again

theorem TagDefinition.descriptionOf?_isSome {x : TagDefinition} (hname : x.name ≠ "")
    (hx : x.description ≠ "") : (x.descriptionOf? x.name).isSome := by
  rw [descriptionOf?, if_pos ⟨rfl, hname, hx⟩]
  rfl

/-- Once the tags are described, each tag that a definition can describe has a description. -/
theorem Document.described_describeTags {t : Tag} {x : TagDefinition}
    (hd : (d.describeTags definitions).tagNames.Nodup)
    (ht : t ∈ (d.describeTags definitions).tags) (hx : x ∈ definitions) (hname : x.name = t.name)
    (hne : t.name ≠ "") (hdescription : x.description ≠ "") : t.description.isSome := by
  have hfirst : firstTag? t.name (d.describeTags definitions).tags = some t :=
    firstTag?_of_mem hd ht
  rw [describeTags, firstTag?_describeAll] at hfirst
  obtain ⟨u, _, hu⟩ := Option.map_eq_some_iff.1 hfirst
  have hsome : (definitions.findSome? (·.descriptionOf? t.name)).isSome := by
    rw [List.findSome?_isSome_iff]
    exact ⟨x, hx, hname ▸ TagDefinition.descriptionOf?_isSome (hname ▸ hne) hdescription⟩
  have hdescribed := congrArg (·.description.isSome) hu
  simp only [Option.isSome_or, hsome, Bool.or_true] at hdescribed
  exact hdescribed.symm

theorem edits_readSet_eq (h : (readSet models s chain).result = .ok ())
    (hroot : ∃ r ∈ s.rootResources, r.isReadable {} = true) :
    ∃ before, Event.edits (readSet models s chain).notes = before ++ [.describeTags s.tags] := by
  have hends : EndsDescribed s (readSet models s chain) := endsDescribed_readRoots h
  rcases hends with hnone | ⟨before, hnotes⟩
  · -- A root that is read does not leave the notes empty.
    obtain ⟨r, hr, hread⟩ := hroot
    have hruns := readSet_runs_root h hr hread
    obtain ⟨before, hopened⟩ := notes_readOpened_eq hruns.result
    have hlast := hruns.notes (.edit (.describeTags s.tags)) (by simp [hopened])
    rw [hnone] at hlast
    cases hlast
  · refine ⟨Event.edits before, ?_⟩
    rw [hnotes]
    simp [Event.edits]

/-- After a reading that succeeds every tag with a name is described as soon as a definition can
describe it, all tags that are new are named by resources or methods, whatever the definitions are,
and describing the tags again changes nothing. -/
theorem Document.described_read (hd : d.tagNames.Nodup)
    (hroot : ∃ r ∈ s.rootResources, r.isReadable {} = true)
    (h : (d.read models s chain).2 = .ok ()) :
    let d' := (d.read models s chain).1
    (∀ t ∈ d'.tags, t.name ≠ "" → ∀ x ∈ s.tags, x.name = t.name → x.description ≠ "" →
        t.description.isSome) ∧
      (∀ name ∈ d'.tagNames, name ∈ d.tagNames ∨ s.NamesTag name) ∧
      (∀ definitions,
        (d.read models { s with tags := definitions } chain).1.tagNames = d'.tagNames) ∧
      d'.describeTags s.tags = d' := by
  intro d'
  obtain ⟨before, hedits⟩ := edits_readSet_eq h hroot
  have hlast : d' = (d.applyAll before).describeTags s.tags := by
    change d.applyAll (Event.edits (readSet models s chain).notes) = _
    rw [hedits]
    simp [applyAll, apply]
  have hdistinct : d'.tagNames.Nodup := nodup_tagNames_applyAll hd
  refine ⟨fun t ht hne x hx hname hdescription => ?_, fun name hname => ?_,
    fun _ => tagNames_read, ?_⟩
  · rw [hlast] at ht hdistinct
    exact described_describeTags hdistinct ht hx hname hne hdescription
  · rcases mem_tagNames_applyAll.1 hname with hbefore | ⟨t, ht, rfl⟩
    · exact .inl hbefore
    · exact .inr (namesTag_of_mem_readSet (mem_edits.1 ht))
  · rw [hlast]
    exact describeTags_again

section Orchard

/-- Trees that only a hidden method tends, and apples that are declared in passing. -/
def orchardSet : ResourceSet :=
  let prune : Method := {
    name := "prune"
    declaration := { operation := some { hidden := true, tags := ["tools"] } } }
  let apples : Method := {
    name := "apples"
    returnType := ⟨"Apples", []⟩
    declaration := { operation := some {}, path := some "/apples" } }
  let orchards : Resource := {
    name := "Orchards"
    api := some { tags := ["trees"] }
    path := some "/orchards"
    methods := [prune, apples] }
  let s := ({} : ResourceSet).addRoot orchards
  let s := s.addSubResource { name := "Apples", api := some { tags := ["apples"] } }
  let s := (s.addTag ⟨"", "Everything"⟩).addTag ⟨"apples", ""⟩
  let s := (s.addTag ⟨"apples", "Apples of all sorts"⟩).addTag ⟨"apples", "Fruit"⟩
  s.addTag ⟨"tools", "What the trees are pruned with"⟩

def orchardDocument : Document where
  tags := [⟨"", none⟩]

theorem orchardSet_read : (orchardDocument.read {} orchardSet .standard).2 = .ok () ∧
    (orchardDocument.read {} orchardSet .standard).1.tags =
      [⟨"", none⟩, ⟨"trees", none⟩, ⟨"apples", some "Apples of all sorts"⟩] :=
  ⟨by cbv, by cbv⟩

theorem orchardSet_isReadable : ∃ r ∈ orchardSet.rootResources, r.isReadable {} = true :=
  ⟨_, List.mem_cons_self, rfl⟩

theorem orchardSet_described :
    let d' := (orchardDocument.read {} orchardSet .standard).1
    orchardDocument.tagNames.Nodup ∧
      d'.tags = [⟨"", none⟩, ⟨"trees", none⟩, ⟨"apples", some "Apples of all sorts"⟩] ∧
      (∀ t ∈ d'.tags, t.name ≠ "" → ∀ x ∈ orchardSet.tags, x.name = t.name → x.description ≠ "" →
        t.description.isSome) ∧
      d'.describeTags orchardSet.tags = d' := by
  have hd : orchardDocument.tagNames.Nodup := by decide
  obtain ⟨h, htags⟩ := orchardSet_read
  obtain ⟨hdescribed, _, _, hagain⟩ := Document.described_read hd orchardSet_isReadable h
  exact ⟨hd, htags, hdescribed, hagain⟩

/-- A tag without a name stays as it is, although a definition without a name describes it. -/
theorem orchardSet_unnamed_bare : orchardDocument.tagNames.Nodup ∧
    (∃ r ∈ orchardSet.rootResources, r.isReadable {} = true) ∧
    (orchardDocument.read {} orchardSet .standard).2 = .ok () ∧
    ∃ t ∈ (orchardDocument.read {} orchardSet .standard).1.tags,
      (∃ x ∈ orchardSet.tags, x.name = t.name ∧ x.description ≠ "") ∧ t.description = none := by
  obtain ⟨h, htags⟩ := orchardSet_read
  refine ⟨by decide, orchardSet_isReadable, h, ⟨"", none⟩, ?_, ?_, rfl⟩
  · rw [htags]
    exact List.mem_cons_self
  · exact ⟨⟨"", "Everything"⟩, List.mem_cons_self, rfl, by decide⟩

end Orchard

end Apidoc
