import Permit.Catalog
import Permit.Condition
import Permit.Criteria.Basic
import Permit.Criteria.Document
import Permit.Criteria.Printer
import Permit.Decimal.Binary64
import Permit.Decimal.Extended
import Permit.Decimal.Layout
import Permit.Decimal.Shortest
import Permit.Decision
import Permit.Expression.Diagnostic
import Permit.Expression.Failure
import Permit.Expression.Literal
import Permit.Expression.Reader
import Permit.Json.Canonical
import Permit.Json.Codec
import Permit.Json.Decoder.Basic
import Permit.Json.Decoder.Record
import Permit.Json.Decoder.Variants
import Permit.Json.Draft
import Permit.Json.Failure
import Permit.Json.Printer
import Permit.Json.Reader
import Permit.Json.Scalar
import Permit.Json.Skip
import Permit.Json.Value
import Permit.Params
import Permit.Registry
import Permit.Resolution.Client
import Permit.Resolution.Http
import Permit.Resolution.Message
import Permit.Resolution.Owner
import Permit.Resolution.Server
import Permit.Rule
import Permit.RuleError
import Permit.Settings.Load
import Permit.Settings.Path
import Permit.Settings.Setting
import Permit.Text.Hidden
import Permit.Text.Quoted
import Permit.Text.Utf8
import Permit.Toml.Document
import Permit.Toml.Moment
import Permit.Toml.Number
import Permit.Toml.Reader
import Permit.Toml.Text
import Permit.Toml.Value
import Permit.Proofs.Regroup
import Permit.Proofs.SetAside
import Permit.Proofs.Documents
import Permit.Proofs.Grammar.Basic
import Permit.Proofs.Grammar.Words
import Permit.Proofs.Grammar.Literals
import Permit.Proofs.Grammar.Expressions
import Permit.Proofs.Flatten
import Permit.Proofs.Grammar.Writing
import Permit.Proofs.Rereading
import Permit.Proofs.Decimal.Rounding
import Permit.Proofs.Decimal.Shortest
import Permit.Proofs.Grammar.Floats
import Permit.Proofs.Json.Scalars
import Permit.Proofs.Json.Floats
import Permit.Proofs.Json.Reading
import Permit.Proofs.Json.Forms
import Permit.Proofs.Json.Decoding
import Permit.Proofs.Shape
import Permit.Proofs.Objects
import Permit.Proofs.Forwarding
import Permit.Proofs.ValueLeaves
import Permit.Proofs.Remote
import Permit.Proofs.Answers
import Permit.Proofs.Interpreters
import Permit.Proofs.Conditions
import Permit.Proofs.Nesting
import Permit.Proofs.Parameters
import Permit.Proofs.Binding
import Permit.Proofs.Registration
import Permit.Proofs.Extending
import Permit.Proofs.Requests
import Permit.Proofs.Queries
import Permit.Proofs.Messages
import Permit.Proofs.Utf8
import Permit.Proofs.Replies
import Permit.Proofs.Json.Drafts
import Permit.Proofs.Depth
import Permit.Proofs.Refusals
import Permit.Proofs.Alternating
import Permit.Proofs.Replacing
import Permit.Proofs.Chaining
import Permit.Proofs.Grammar.Places
import Permit.Proofs.Integers
import Permit.Proofs.Json.Tokens
import Permit.Proofs.Json.Pieces
import Permit.Proofs.Literals
import Permit.Proofs.Letters
import Permit.Proofs.Searching
import Permit.Proofs.Toml.Names
import Permit.Proofs.Settings.Fields
import Permit.Proofs.Layers
import Permit.Proofs.Settings.Adding
import Permit.Proofs.Variables
import Permit.Proofs.Decimal.Wholes
import Permit.Proofs.Settings.Wholes
import Permit.Proofs.Toml.Numbers
import Permit.Proofs.Toml.Places
import Permit.Proofs.Ports
import Permit.Proofs.Precedence
import Permit.Proofs.Rendering
