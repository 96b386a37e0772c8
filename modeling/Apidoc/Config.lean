import Apidoc.Document
import Apidoc.Record

namespace Apidoc

structure Config where
  info : Info := {}
  host : Option String := none
  basePath : Option String := none
  schemes : List String := []
  consumes : List String := []
  produces : List String := []

namespace Config

/-- The title, the version and the description; what is not configured is the default. -/
def infoOfNode? (n : Node) : Option Info := do
  let r ← Record.of? ["title", "version", "description"] n
  let d : Info := {}
  return {
    title := ← r.field? "title" d.title Node.text?
    version := ← r.field? "version" d.version Node.text?
    description := ← r.field? "description" d.description (Node.optional? Node.text?) }

def ofNode? (n : Node) : Option Config := do
  let r ← Record.of? ["info", "host", "base_path", "schemes", "consumes", "produces"] n
  return {
    info := ← r.field? "info" {} infoOfNode?
    host := ← r.field? "host" none (Node.optional? Node.text?)
    basePath := ← r.field? "base_path" none (Node.optional? Node.text?)
    schemes := ← r.field? "schemes" [] Node.texts?
    consumes := ← r.field? "consumes" [] Node.texts?
    produces := ← r.field? "produces" [] Node.texts? }

def toValue (c : Config) : Value :=
  .object [
    ("info", .object [("title", .string c.info.title), ("version", .string c.info.version),
      ("description", Value.orNull .string c.info.description)]),
    ("host", Value.orNull .string c.host), ("base_path", Value.orNull .string c.basePath),
    ("schemes", Value.strings c.schemes), ("consumes", Value.strings c.consumes),
    ("produces", Value.strings c.produces)]

/-- An empty document with the configured parts. -/
def document (c : Config) : Document where
  info := c.info
  host := c.host
  basePath := c.basePath
  schemes := c.schemes
  consumes := c.consumes
  produces := c.produces

end Config

end Apidoc
