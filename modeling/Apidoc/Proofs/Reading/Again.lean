import Apidoc.Proofs.Document.Replay
import Apidoc.Proofs.Reading.Visit
import Mathlib

namespace Apidoc

variable {models : Models} {s : ResourceSet} {chain : VerbChain} {openNames : List String}
  {r : Resource} {context : Context}

/-- A reading ends well when it does nothing or describes the tags last. -/
def EndsDescribed (s : ResourceSet) (x : Reading Unit) : Prop :=
  x.notes = [] ∨ ∃ before, x.notes = before ++ [.edit (.describeTags s.tags)]

theorem EndsDescribed.bind {x y : Reading Unit} (hx : x.result = .ok ()) (h : EndsDescribed s x)
    (h' : EndsDescribed s y) : EndsDescribed s (x.bind fun _ => y) := by
  unfold EndsDescribed
  rw [Logged.notes_bind_of_ok hx]
  rcases h' with h' | ⟨before, h'⟩
  · rw [h', List.append_nil]
    exact h
  · exact .inr ⟨x.notes ++ before, by rw [h', List.append_assoc]⟩

/-- What a resource notes, when nothing fails in it, ends with describing the tags. -/
theorem notes_readOpened_eq
    (h : (readOpened models s chain openNames r context).result = .ok ()) :
    ∃ before, (readOpened models s chain openNames r context).notes =
      before ++ [.edit (.describeTags s.tags)] := by
  rw [readOpened, Logged.bind_eq] at h ⊢
  obtain ⟨_, htags, hrest⟩ := Logged.result_bind_eq_ok.1 h
  obtain ⟨_, hmethods, _⟩ := Logged.result_bind_eq_ok.1 hrest
  rw [Logged.notes_bind_of_ok htags, Logged.bind_eq, Logged.notes_bind_of_ok hmethods,
    ← List.append_assoc]
  exact ⟨_, rfl⟩

theorem endsDescribed_readRoot (h : (readRoot models s chain r).result = .ok ()) :
    EndsDescribed s (readRoot models s chain r) := by
  unfold readRoot at h ⊢
  split at h
  · rename_i hr
    rw [if_pos hr]
    exact .inr (notes_readOpened_eq h)
  · rename_i hr
    rw [if_neg hr]
    exact .inl rfl

theorem endsDescribed_readRoots {rs : List Resource}
    (h : (readRoots models s chain rs).result = .ok ()) :
    EndsDescribed s (readRoots models s chain rs) := by
  induction rs with
  | nil => exact .inl rfl
  | cons r rs ih =>
    rw [readRoots, Logged.bind_eq] at h ⊢
    obtain ⟨_, hr, hrest⟩ := Logged.result_bind_eq_ok.1 h
    exact (endsDescribed_readRoot hr).bind hr (ih hrest)

theorem describeTags_mem_readSet {definitions : List TagDefinition}
    (h : .edit (.describeTags definitions) ∈ (readSet models s chain).notes) :
    definitions = s.tags := by
  have hmeets : (readSet models s chain).Meets (fun _ => True)
      (fun e => ∀ ds, e = .edit (.describeTags ds) → ds = s.tags) fun _ => True := by
    refine readSet_meets (I := fun _ _ _ => True) ?_ (fun _ _ h => by cases h)
      (fun _ _ _ _ _ _ _ h => by cases h) ?_ fun _ _ _ => trivial
    · rintro ds he
      cases he
      rfl
    · rintro openNames r context m route _ _ _ _
      refine ⟨fun e he ds hds => ?_, fun built _ => ⟨fun e he ds hds => ?_, fun _ _ _ => trivial⟩⟩
      · obtain ⟨n, _, rfl⟩ := List.mem_map.1 he
        cases n <;> cases hds
      · rcases mem_registerRoute he with ⟨t, rfl⟩ | ⟨v, _, rfl⟩ <;> cases hds
  exact (hmeets fun _ _ => trivial).1 _ h definitions rfl

/-- Reading the same set again, after a reading that succeeded, succeeds and changes nothing. -/
theorem Document.read_again {d : Document} (h : (d.read models s chain).2 = .ok ()) :
    (d.read models s chain).1.read models s chain = ((d.read models s chain).1, .ok ()) := by
  have hagain : (d.after (readSet models s chain)).after (readSet models s chain) =
      d.after (readSet models s chain) := by
    refine applyAll_again (fun ds hds => describeTags_mem_readSet (mem_edits.1 hds)) ?_
    have hends : EndsDescribed s (readSet models s chain) := endsDescribed_readRoots h
    rcases hends with hnotes | ⟨before, hnotes⟩
    · exact .inl (by rw [hnotes]; rfl)
    · refine .inr ⟨Event.edits before, ?_⟩
      rw [hnotes]
      simp [Event.edits]
  exact Prod.ext hagain h

/-- Two methods of one slot, with a tag that is described only later. -/
def clashSet : ResourceSet :=
  let method (name : String) : Method := {
    name
    declaration := { operation := some { tags := ["pets"] }, path := some "/", verb := some .get } }
  let methods := [method "first", method "last"]
  let pets : Resource := { name := "Pets", api := some {}, path := some "/pets", methods }
  (({} : ResourceSet).addRoot pets).addTag ⟨"pets", "Everything about pets"⟩

theorem read_clashSet_again :
    let d : Document := { tags := [⟨"stores", some "Orders"⟩, ⟨"pets", none⟩] }
    (d.read {} clashSet .standard).2 = .ok () ∧
      (d.read {} clashSet .standard).1.read {} clashSet .standard =
        ((d.read {} clashSet .standard).1, .ok ()) := by
  intro d
  have h : (d.read {} clashSet .standard).2 = .ok () := by cbv
  exact ⟨h, Document.read_again h⟩

end Apidoc
