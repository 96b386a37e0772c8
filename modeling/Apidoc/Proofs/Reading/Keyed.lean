import Apidoc.Config
import Apidoc.Proofs.Document.Edits
import Apidoc.Proofs.Operation.Keyed
import Apidoc.Proofs.Operation.References
import Apidoc.Proofs.Reading.Registered

namespace Apidoc

variable {models : Models} {s : ResourceSet} {chain : VerbChain} {r : Resource}
  {context : Context} {route : Route} {o : Operation} {m : Method} {d : Document}

section Visits

theorem applyPatterns_keyed {patterns : Table String} {ps : List Parameter} (h : AllKeyed ps) :
    AllKeyed (applyPatterns patterns ps) := by
  intro p hp
  obtain ⟨q, hq, rfl⟩ := List.mem_map.1 hp
  split
  · exact (h q hq).congr rfl rfl
  · exact h q hq

namespace Operation

theorem Keyed.addParameter (h : o.Keyed) {p : Parameter} (hp : p.Keyed) :
    (o.addParameter p).Keyed := by
  unfold Operation.addParameter
  split
  · exact h
  · have hparameters : AllKeyed (o.parameters ++ [p]) :=
      AllKeyed.append h.parameters (allKeyed_some hp)
    exact { h with parameters := hparameters }

theorem Keyed.addTag (h : o.Keyed) (tag : String) : (o.addTag tag).Keyed := by
  unfold Operation.addTag
  split
  · exact h
  · exact { h with }

theorem Keyed.inContext (h : o.Keyed) (hcontext : AllKeyed context.parameters) :
    (o.inContext context route).Keyed := by
  have hfilled : (context.parameters.foldl Operation.addParameter o).Keyed :=
    h.foldl fun _ ho p hp => ho.addParameter (hcontext p hp)
  exact { hfilled with parameters := applyPatterns_keyed hfilled.parameters }

theorem Keyed.registered (h : o.Keyed) (verb : Option Verb) :
    (o.registered r context route verb).Keyed := by
  let inner := Context.descend r context route verb o
  let filled := ((route.info.tags.filter (· ≠ "")).foldl Operation.addTag o).orMedia inner.consumes
    inner.produces
  have htagged : ((route.info.tags.filter (· ≠ "")).foldl Operation.addTag o).Keyed :=
    h.foldl fun _ ho tag _ => ho.addTag tag
  have hfilled : filled.Keyed := { htagged with }
  have hsecurity : ∀ requirement ∈ r.security, requirement.keys.Nodup := by
    unfold Resource.security
    split
    · exact keyed_securityRequirements
    · exact fun _ hr => (List.not_mem_nil hr).elim
  have hclass : (if filled.tags.isEmpty then inner.tags.keys.foldl Operation.addTag filled
      else filled).Keyed := by
    split
    · exact hfilled.foldl fun _ ho tag _ => ho.addTag tag
    · exact hfilled
  exact hclass.addSecurities hsecurity

end Operation

/-- What an event writes into a document is keyed. -/
def Event.Keyed (e : Event) : Prop :=
  match e with
  | .edit (.model _ schema) => schema.Keyed
  | .edit (.operation _ _ o) => o.Keyed
  | _ => True

theorem visit_keyed {openNames : List String} (hI : AllKeyed context.parameters) :
    VisitMeets models s chain (fun _ => True) Event.Keyed
      (fun _ _ context => AllKeyed context.parameters) openNames r context m route := by
  have hdefines : Defines models (m.bodyTypes s) (buildVisible models s m) _ :=
    buildVisible_defines
  intro _
  constructor
  · intro e he
    obtain ⟨n, h, rfl⟩ := List.mem_map.1 he
    cases n with
    | warning w => trivial
    | model name schema =>
      obtain ⟨_, _, _, d, _, _, rfl⟩ := hdefines.whole h
      exact Models.keyed_schemaOf d
  · intro built hbuilt
    have hcontext : (built.inContext context route).Keyed :=
      (buildVisible_keyed built hbuilt).inContext hI
    constructor
    · intro e he
      rcases mem_registerRoute he with ⟨t, rfl⟩ | ⟨v, _, rfl⟩
      · trivial
      · exact hcontext.registered _
    · intro sub _ _
      exact hcontext.parameters

/-- All that a reading writes is keyed. -/
theorem readSet_keyed : ∀ e ∈ (readSet models s chain).notes, e.Keyed := by
  have hmeets : (readSet models s chain).Meets (fun _ => True) Event.Keyed fun _ => True := by
    apply readSet_meets (I := fun _ _ context => AllKeyed context.parameters)
    · trivial
    · intro w
      trivial
    · intro openNames r context _ t _
      trivial
    · intro openNames r context m route hI _ _
      exact visit_keyed hI
    · intro r _ _
      exact allKeyed_nil
  exact (hmeets fun _ _ => trivial).1

end Visits

theorem PathItem.keyed_empty : ({} : PathItem).Keyed := by
  intro verb o ho
  cases verb <;> cases ho

namespace Document

theorem Keyed.addOperation (h : d.Keyed) (ho : o.Keyed) (path : String) (verb : Verb) :
    (d.addOperation path verb o).Keyed := by
  have hbefore : ((d.paths.get? path).getD {}).Keyed := by
    cases hp : d.paths.get? path with
    | none => exact PathItem.keyed_empty
    | some item => exact h.paths _ (Table.mem_entries_of_get? hp)
  have hitem : (((d.paths.get? path).getD {}).set o verb).Keyed := by
    intro verb' o' ho'
    rw [PathItem.operation?_set] at ho'
    split at ho'
    · cases ho'
      exact ho
    · exact hbefore verb' o' ho'
  have hpaths : ∀ e ∈ (d.addOperation path verb o).paths.entries, e.2.Keyed := by
    intro e he
    rcases Table.mem_entries_put he with rfl | he
    · exact hitem
    · exact h.paths e he
  exact { h with templates := Table.nodup_keys_put h.templates, paths := hpaths }

theorem Keyed.addModel {schema : Schema} (h : d.Keyed) (hs : schema.Keyed) (name : String) :
    (d.addModel name schema).Keyed := by
  have hdefinitions : ∀ e ∈ (d.addModel name schema).definitions.entries, e.2.Keyed := by
    intro e he
    rcases Table.mem_entries_putNew he with rfl | he
    · exact hs
    · exact h.definitions e he
  exact { h with models := Table.nodup_keys_putNew h.models, definitions := hdefinitions }

theorem Keyed.apply {e : Edit} (h : d.Keyed) (he : Event.Keyed (.edit e)) : (d.apply e).Keyed := by
  cases e with
  | operation path verb o => exact h.addOperation he path verb
  | model name schema => exact h.addModel he name
  | tag t => exact { h with }
  | describeTags definitions => exact { h with }

theorem Keyed.applyAll {edits : List Edit} (h : d.Keyed)
    (he : ∀ e ∈ edits, Event.Keyed (.edit e)) : (d.applyAll edits).Keyed := by
  induction edits generalizing d with
  | nil => exact h
  | cons e edits ih =>
    have hhead := h.apply (he e List.mem_cons_self)
    exact ih hhead fun e' he' => he e' (List.mem_cons_of_mem _ he')

/-- Reading a keyed document leaves a keyed document, even if it fails. -/
theorem Keyed.read (h : d.Keyed) : (d.read models s chain).1.Keyed :=
  h.applyAll fun _ he => readSet_keyed _ (mem_edits.1 he)

end Document

theorem Config.keyed_document (c : Config) : c.document.Keyed where
  templates := List.nodup_nil
  paths _ he := (List.not_mem_nil he).elim
  models := List.nodup_nil
  definitions _ he := (List.not_mem_nil he).elim

/-- The document that a reading leaves of a configured one, whether it fails or not, is what is read
from what it is written as. No extension of its operations is named like a field. -/
theorem Config.reads_read (c : Config) :
    let d := (c.document.read models s chain).1
    Document.ofNode? d.toValue.toNode = some d ∧
      ∀ path verb o, d.operation? path verb = some o → ∀ k ∈ o.extensions.keys,
        k ∉ Operation.names := by
  intro d
  have hd : d.Keyed := c.keyed_document.read
  constructor
  · exact hd.reads.back
  · intro path verb o ho
    obtain ⟨item, hitem, ho⟩ := Option.bind_eq_some_iff.1 ho
    exact (hd.paths _ (Table.mem_entries_of_get? hitem) verb o ho).apart

end Apidoc
