import Apidoc.Document
import Apidoc.Proofs.Schema.Mentions

namespace Apidoc

variable {name : String}

def Response.BodyMentions (r : Response) (name : String) : Prop :=
  ∃ s, r.schema = some s ∧ s.Mentions name

def Response.HeadersMention (r : Response) (name : String) : Prop :=
  ∃ headers, r.headers = some headers ∧ ∃ e ∈ headers.entries, e.2.Mentions name

def Parameter.BodyMentions (p : Parameter) (name : String) : Prop :=
  p.location = .body ∧ ∃ s, p.schema = some s ∧ s.Mentions name

def Parameter.ItemsMention (p : Parameter) (name : String) : Prop :=
  p.location ≠ .body ∧ ∃ s, p.items = some s ∧ s.Mentions name

/-- The models in the bodies of an operation: those of its responses and of its body parameters. -/
def Operation.BodyMentions (o : Operation) (name : String) : Prop :=
  (∃ e ∈ o.responses.entries, e.2.BodyMentions name) ∨ ∃ p ∈ o.parameters, p.BodyMentions name

/-- The models beside the bodies of an operation: those of the headers of its responses and of the
items of its other parameters. -/
def Operation.MentionsBeside (o : Operation) (name : String) : Prop :=
  (∃ e ∈ o.responses.entries, e.2.HeadersMention name) ∨ ∃ p ∈ o.parameters, p.ItemsMention name

namespace Document

def MentionsBeside (d : Document) (name : String) : Prop :=
  ∃ path verb o, d.operation? path verb = some o ∧ o.MentionsBeside name

/-- A document is closed when it defines the models that its definitions and the bodies of its
operations mention. -/
structure Closed (d : Document) : Prop where
  definitions : ∀ e ∈ d.definitions.entries, ∀ name, e.2.Mentions name →
    name ∈ d.definitions.keys
  bodies : ∀ path verb o, d.operation? path verb = some o → ∀ name, o.BodyMentions name →
    name ∈ d.definitions.keys

end Document

end Apidoc
