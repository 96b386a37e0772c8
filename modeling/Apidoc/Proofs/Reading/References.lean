import Apidoc.Proofs.Document.Edits
import Apidoc.Proofs.Operation.References
import Apidoc.Proofs.Reading.Registered

namespace Apidoc

variable {models : Models} {s : ResourceSet} {chain : VerbChain} {r : Resource}
  {context : Context} {route : Route} {o : Operation} {m : Method} {name : String}

/-- The models that an event brings into a document by reference. -/
def Event.Mentions (e : Event) (name : String) : Prop :=
  match e with
  | .edit (.model _ schema) => schema.Mentions name
  | .edit (.operation _ _ o) => o.BodyMentions name
  | _ => False

theorem Operation.BodyMentions.of_inContext (h : (o.inContext context route).BodyMentions name) :
    o.BodyMentions name ∨ ∃ p ∈ context.parameters, p.BodyMentions name := by
  rcases h with ⟨e, he, hn⟩ | ⟨p, hp, hn⟩
  · rw [Operation.responses_inContext] at he
    exact .inl (.inl ⟨e, he, hn⟩)
  · obtain ⟨q, hq, hpq⟩ := Operation.mem_inContext hp
    have hn : q.BodyMentions name := by
      rcases hpq with rfl | ⟨pattern, rfl⟩ <;> exact hn
    rcases hq with hq | hq
    · exact .inl (.inr ⟨q, hq, hn⟩)
    · exact .inr ⟨q, hq, hn⟩

theorem Operation.bodyMentions_registered {verb : Option Verb} :
    (o.registered r context route verb).BodyMentions name ↔ o.BodyMentions name := by
  rw [BodyMentions, BodyMentions, responses_registered, parameters_registered]

/-- A visit mentions only known models when what it inherits does. -/
theorem visit_mentions {known : String → Prop} {openNames : List String}
    (hI : ∀ p ∈ context.parameters, ∀ name, p.BodyMentions name → known name) :
    VisitMeets models s chain (fun e => ∀ name schema, e = .edit (.model name schema) → known name)
      (fun e => ∀ name, e.Mentions name → known name)
      (fun _ _ context => ∀ p ∈ context.parameters, ∀ name, p.BodyMentions name → known name)
      openNames r context m route := by
  intro hknown
  have hdefines : Defines models (m.bodyTypes s) (buildVisible models s m) _ :=
    buildVisible_defines
  have hnote {name schema} (h : .model name schema ∈ (buildVisible models s m).notes) :
      known name :=
    hknown _ (List.mem_map.2 ⟨_, h, rfl⟩) name schema rfl
  refine ⟨fun e he name hn => ?_, fun built hbuilt => ?_⟩
  · obtain ⟨n, h, rfl⟩ := List.mem_map.1 he
    cases n with
    | warning w => cases hn
    | model name' schema =>
      obtain ⟨schema', h'⟩ := hdefines.mentioned h hn
      exact hnote h'
  have hbody (name : String) (hn : (built.inContext context route).BodyMentions name) :
      known name := by
    rcases hn.of_inContext with hn | ⟨p, hp, hn⟩
    · obtain ⟨schema, h⟩ := (hdefines.exists_model_iff hbuilt).2 (hdefines.answer hbuilt name hn)
      exact hnote h
    · exact hI p hp name hn
  refine ⟨fun e he name hn => ?_, fun sub _ _ p hp name hn => hbody name (.inr ⟨p, hp, hn⟩)⟩
  rcases mem_registerRoute he with ⟨t, rfl⟩ | ⟨v, _, rfl⟩
  · cases hn
  · exact hbody name (Operation.bodyMentions_registered.1 hn)

/-- Reading a closed document leaves a closed document, even if it fails. -/
theorem Document.closed_read {d : Document} (hd : d.Closed) :
    (d.read models s chain).1.Closed := by
  let result := (d.read models s chain).1
  let known (name : String) : Prop := name ∈ result.definitions.keys
  have hkept {name : String} (h : name ∈ d.definitions.keys) : known name :=
    mem_keys_definitions_applyAll.2 (.inl h)
  have hknown : ∀ e ∈ (readSet models s chain).notes, ∀ name schema,
      e = .edit (.model name schema) → known name := by
    rintro e he name schema rfl
    exact mem_keys_definitions_applyAll.2 (.inr ⟨schema, mem_edits.2 he⟩)
  have hmeets : (readSet models s chain).Meets
      (fun e => ∀ name schema, e = .edit (.model name schema) → known name)
      (fun e => ∀ name, e.Mentions name → known name) fun _ => True := by
    refine readSet_meets
      (I := fun _ _ context => ∀ p ∈ context.parameters, ∀ name, p.BodyMentions name → known name)
      (fun _ h => h.elim) (fun _ _ h => h.elim) (fun _ _ _ _ _ _ _ h => h.elim) ?_ ?_
    · intro openNames r context m route hI _ _
      exact visit_mentions hI
    · intro r _ _ p hp
      cases hp
  have hadded := (hmeets hknown).1
  constructor
  · intro e he name hn
    rcases mem_definitions_applyAll he with h | h
    · exact hadded _ (mem_edits.1 h) name hn
    · exact hkept (hd.definitions e h name hn)
  · intro path verb o ho name hn
    rcases operation?_applyAll ho with h | h
    · exact hadded _ (mem_edits.1 h) name hn
    · exact hkept (hd.bodies path verb o h name hn)

/-- A document whose definitions mention one another. -/
def shelterDocument : Document where
  definitions := ⟨[("Animal", { properties := some ⟨[("owner", .ofModel "Owner")]⟩ }),
    ("Owner", { properties := some ⟨[("animals", .array (.ofModel "Animal"))]⟩ })]⟩

theorem closed_shelterDocument : shelterDocument.Closed := by
  constructor
  · intro e he name hn
    rcases List.mem_cons.1 he with rfl | he
    · rcases hn with h | ⟨h, _⟩ | ⟨h, _⟩ | ⟨h, he, hn⟩ <;> cases h
      cases List.mem_singleton.1 he
      cases Schema.mentions_ofModel.1 hn
      decide
    · cases List.mem_singleton.1 he
      rcases hn with h | ⟨h, _⟩ | ⟨h, _⟩ | ⟨h, he, hn⟩ <;> cases h
      cases List.mem_singleton.1 he
      cases Schema.mentions_ofModel.1 ((Schema.mentions_wrap (c := .list)).1 hn)
      decide
  · intro path verb o ho
    cases ho

/-- The owner of an animal, who is a person here, is defined already. -/
theorem closed_read_shelter :
    let models : Models := ⟨[⟨"Person", .record [⟨"pet", some ⟨"Animal", []⟩⟩]⟩,
      ⟨"Animal", .record [⟨"owner", some ⟨"Person", []⟩⟩]⟩]⟩
    let people : Method := {
      name := "people"
      returnType := ⟨"Vec", [⟨"Person", []⟩]⟩
      declaration := { operation := some {}, path := some "", verb := some .get } }
    let s := ({} : ResourceSet).addRoot
      { name := "People", api := some {}, path := some "/people", methods := [people] }
    shelterDocument.Closed ∧ (shelterDocument.read models s .standard).1.Closed := by
  intro models people s
  exact ⟨closed_shelterDocument, Document.closed_read closed_shelterDocument⟩

end Apidoc
