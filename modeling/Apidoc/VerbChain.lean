import Apidoc.Error
import Apidoc.Resource

namespace Apidoc

/-- What one way of finding a verb answers, with the warnings it gives. -/
structure VerbAnswer where
  verb : Option Verb := none
  warnings : List Warning := []

/-- A way of finding the verb of a method. -/
abbrev VerbResolver := Method → VerbAnswer

namespace VerbResolver

/-- The verb that the operation annotation declares. -/
def operation : VerbResolver := fun m =>
  match m.operation? with
  | none => {}
  | some info =>
    let declared := Text.trim info.verb
    if declared = "" then {}
    else match Verb.parse? declared with
      | some v => { verb := some v }
      | none => { warnings := [.unsupportedVerb declared m.name] }

/-- The verb annotation of the method. -/
def standard : VerbResolver := fun m => { verb := m.verb? }

/-- The first verb that the annotations declare. -/
def ofAnnotations : List CustomAnnotation → VerbAnswer
  | [] => {}
  | a :: as =>
    match a.verb with
    | none => ofAnnotations as
    | some declared =>
      match Verb.parse? declared with
      | some v => { verb := some v }
      | none =>
        let rest := ofAnnotations as
        { rest with warnings := .unsupportedAnnotationVerb a.name declared :: rest.warnings }

/-- The first verb that a custom annotation of the method's own declaration stands for. -/
def custom : VerbResolver := fun m => ofAnnotations m.declaration.customAnnotations

end VerbResolver

/-- Ways of finding a verb, tried in order. -/
abbrev VerbChain := List VerbResolver

namespace VerbChain

def standard : VerbChain :=
  [VerbResolver.operation, VerbResolver.standard, VerbResolver.custom]

/-- The first verb found, with the warnings given until then. -/
def resolve : VerbChain → Method → VerbAnswer
  | [], _ => {}
  | r :: rs, m =>
    let answer := r m
    match answer.verb with
    | some v => { verb := some v, warnings := answer.warnings }
    | none =>
      let rest := resolve rs m
      { rest with warnings := answer.warnings ++ rest.warnings }

end VerbChain

end Apidoc
