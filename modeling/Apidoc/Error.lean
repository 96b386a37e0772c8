import Apidoc.Source.Type

namespace Apidoc

/-- Why resources cannot be read. -/
inductive Error where
  | badType (text : String) (fault : TypeFault)
  | unresolved (type : TypeRef)
  deriving DecidableEq

namespace Error

def message : Error → String
  | badType text .unsupported => "invalid type `" ++ text ++ "`: unsupported type form"
  | badType text .malformed => "invalid type `" ++ text ++ "`"
  | unresolved type => "type `" ++ type.text ++ "` could not be resolved to a model or scalar"

end Error

inductive Warning where
  | unsupportedVerb (declared method : String)
  | unsupportedAnnotationVerb (marker declared : String)
  | duplicateModel (name : String)
  | unknownBean (type : TypeRef)
  | recursiveBean (name : String)
  | resourceCycle (openNames : List String) (name : String)
  deriving DecidableEq

namespace Warning

def message : Warning → String
  | unsupportedVerb declared method => "Unsupported http method " ++ declared ++ " on " ++ method
  | unsupportedAnnotationVerb marker declared =>
    "Annotation " ++ marker ++ " names unsupported http method " ++ declared
  | duplicateModel name => "Duplicate model definition " ++ name ++ ", keeping the first"
  | unknownBean type => "No parameter bean named " ++ type.text ++ ", skipping parameter"
  | recursiveBean name => "Parameter bean " ++ name ++ " contains itself, skipping"
  | resourceCycle openNames name =>
    "Sub-resource cycle " ++ " -> ".intercalate openNames ++ " -> " ++ name ++ ", not descending"

end Warning

/-- A type reference from its text, as part of a reading. -/
def TypeRef.read (text : String) : Except Error TypeRef :=
  match TypeRef.parse text with
  | .ok t => .ok t
  | .error fault => .error (.badType text fault)

end Apidoc
