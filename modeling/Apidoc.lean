import Apidoc.Table
import Apidoc.Text.Blank
import Apidoc.Text.Digit
import Apidoc.Text.Identifier
import Apidoc.Double
import Apidoc.Value
import Apidoc.Scalar
import Apidoc.Json.Reader
import Apidoc.Json.Writer
import Apidoc.Yaml.Character
import Apidoc.Yaml.Cursor
import Apidoc.Yaml.Lexeme
import Apidoc.Yaml.Token
import Apidoc.Yaml.Tree
import Apidoc.Yaml.Reader
import Apidoc.Yaml.Writer
import Apidoc.Source.Token
import Apidoc.Source.Peg
import Apidoc.Source.Grammar
import Apidoc.TypeRef
import Apidoc.Source.Type
import Apidoc.Schema
import Apidoc.Path
import Apidoc.Verb
import Apidoc.Resource
import Apidoc.ResourceSet
import Apidoc.Document
import Apidoc.Error
import Apidoc.Logged
import Apidoc.Model
import Apidoc.Source.Definitions
import Apidoc.Annotation
import Apidoc.VerbChain
import Apidoc.Operation.Parameters
import Apidoc.Operation.Build
import Apidoc.Reading
import Apidoc.Record
import Apidoc.Record.Resource
import Apidoc.Record.Document
import Apidoc.Config
import Apidoc.Format
import Apidoc.Disk
import Apidoc.Scan
import Apidoc.Generate
import Apidoc.CommandLine
import Apidoc.Main
import Apidoc.Proofs.Logged
import Apidoc.Proofs.Distinct
import Apidoc.Proofs.Reading.Visit
import Apidoc.Proofs.Document.Edits
import Apidoc.Proofs.Reading.Trail
import Apidoc.Proofs.Operation.Build
import Apidoc.Proofs.Schema.Mentions
import Apidoc.Proofs.Model.Reach
import Apidoc.Proofs.Model.Mentions
import Apidoc.Proofs.Operation.Defines
import Apidoc.Proofs.Document.Mentions
import Apidoc.Proofs.Operation.References
import Apidoc.Proofs.Reading.References
import Apidoc.Proofs.Reading.Defined
import Apidoc.Proofs.Document.Replay
import Apidoc.Proofs.Reading.Again
import Apidoc.Proofs.Document.Order
import Apidoc.Proofs.Reading.Roots
import Apidoc.Proofs.Reading.Verbs
import Apidoc.Proofs.Path.Templates
import Apidoc.Proofs.Reading.Patterns
import Apidoc.Proofs.Model.Described
import Apidoc.Proofs.Operation.Bodies
import Apidoc.Proofs.Document.Growth
import Apidoc.Proofs.Reading.Failure
import Apidoc.Proofs.Reading.Stack
import Apidoc.Proofs.Reading.Keys
import Apidoc.Proofs.Document.Store
import Apidoc.Proofs.Path.Slashes
import Apidoc.Proofs.Reading.Paths
import Apidoc.Proofs.Reading.Inherited
import Apidoc.Proofs.Reading.MediaTypes
import Apidoc.Proofs.Reading.Tags
import Apidoc.Proofs.Reading.DeclaredTags
import Apidoc.Proofs.Operation.Alike
import Apidoc.Proofs.Reading.Alongside
import Apidoc.Proofs.Reading.DescribedTags
import Apidoc.Proofs.Document.Spared
import Apidoc.Proofs.Reading.Skipped
import Apidoc.Proofs.Operation.Shape
import Apidoc.Proofs.Reading.Shape
import Apidoc.Proofs.Path.Joined
import Apidoc.Proofs.Reading.Joined
import Apidoc.Proofs.Operation.Declarations
import Apidoc.Proofs.Reading.Replaced
import Apidoc.Proofs.Model.Optional
import Apidoc.Proofs.Operation.Optional
import Apidoc.Proofs.Operation.Transparent
import Apidoc.Proofs.Record.Written
import Apidoc.Proofs.Record.Document
import Apidoc.Proofs.Operation.Keyed
import Apidoc.Proofs.Reading.Keyed
import Apidoc.Proofs.ResourceSet.Bundles
import Apidoc.Proofs.Source.Peg
import Apidoc.Proofs.Source.Token
import Apidoc.Proofs.Source.Printed
import Apidoc.Proofs.Source.Type
import Apidoc.Proofs.Record.Resource
import Apidoc.Proofs.Record.Loaded
import Apidoc.Proofs.Path.Components
import Apidoc.Proofs.Model.Collected
import Apidoc.Proofs.Reading.Opens
import Apidoc.Proofs.Reading.FirstDescriptions
import Apidoc.Proofs.Disk.Entries
import Apidoc.Proofs.Disk.Paths
import Apidoc.Proofs.Disk.Saved
import Apidoc.Proofs.Disk.Files
import Apidoc.Proofs.Generate.Project
import Apidoc.Proofs.Generate.Again
import Apidoc.Proofs.Path.Parts
import Apidoc.Proofs.Operation.Codes
import Apidoc.Proofs.Operation.InPlace
import Apidoc.Proofs.Reading.InPlace
import Apidoc.Proofs.Operation.Implicit
import Apidoc.Proofs.Generate.Scanned
import Apidoc.Proofs.Model.Strict
import Apidoc.Proofs.Operation.Precedence
import Apidoc.Proofs.Operation.Beans
import Apidoc.Proofs.Source.Marks
import Apidoc.Proofs.Source.Arranged
import Apidoc.Proofs.Model.Required
import Apidoc.Proofs.ResourceSet.Calls
