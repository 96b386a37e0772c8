import Apidoc.Config
import Apidoc.Json.Reader
import Apidoc.Json.Writer
import Apidoc.Record.Document
import Apidoc.Record.Resource
import Apidoc.Yaml.Reader
import Apidoc.Yaml.Writer

namespace Apidoc

inductive Format where
  | json
  | yaml
  deriving DecidableEq

namespace Format

def name : Format → String
  | json => "json"
  | yaml => "yaml"

def ofName? (s : String) : Option Format :=
  if s = "json" then some json else if s = "yaml" then some yaml else none

def read : Format → String → Option Node
  | json => Json.read
  | yaml => Yaml.read

def write : Format → Value → String
  | json => Json.write
  | yaml => Yaml.write

end Format

def Bundle.load? (format : Format) (text : String) : Option Bundle :=
  (format.read text).bind Bundle.ofNode?

def Config.load? (text : String) : Option Config :=
  (Format.yaml.read text).bind Config.ofNode?

def Document.text (format : Format) (d : Document) : String :=
  format.write d.toValue

end Apidoc
