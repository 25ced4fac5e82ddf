import ScimQuery.Attribute.Order
import ScimQuery.Literal.Operand
import ScimQuery.Search.Body
import ScimQuery.Search.Query
import ScimQuery.Session.Call
import ScimQuery.Proofs.Attribute.Path
import ScimQuery.Proofs.Attribute.Scope
import ScimQuery.Proofs.Event.Resolution
import ScimQuery.Proofs.Expr.Writing
import ScimQuery.Proofs.Filter.Acceptance
import ScimQuery.Proofs.Filter.Proper
import ScimQuery.Proofs.Filter.ReadBack
import ScimQuery.Proofs.Filter.RoundTrip
import ScimQuery.Proofs.Literal.ReadBack
import ScimQuery.Proofs.Reading.Grammar
import ScimQuery.Proofs.Reading.Soundness
import ScimQuery.Proofs.Session.Calls
import ScimQuery.Proofs.Session.Chain
import ScimQuery.Proofs.Session.Meaning
import ScimQuery.Proofs.Filter.Refusal
import ScimQuery.Proofs.Filter.Unambiguity
import ScimQuery.Proofs.Session.Key
import ScimQuery.Proofs.Session.NormalForm
import ScimQuery.Proofs.Filter.Balance
import ScimQuery.Proofs.Filter.Bounds
import ScimQuery.Proofs.Filter.Canonical
import ScimQuery.Proofs.Text.Utf8
import ScimQuery.Proofs.Text.Percent
import ScimQuery.Proofs.Search.Fields
import ScimQuery.Proofs.Search.Query
import ScimQuery.Proofs.Search.Transport
import ScimQuery.Proofs.Json.Reading
import ScimQuery.Proofs.Search.Body
import ScimQuery.Proofs.Filter.Scoping
import ScimQuery.Proofs.Lexeme.Layout
import ScimQuery.Proofs.Filter.Encoding
import ScimQuery.Proofs.Attribute.Parts
import ScimQuery.Proofs.Filter.CaseBlind
import ScimQuery.Proofs.Json.Forms
import ScimQuery.Proofs.Literal.Lenient
import ScimQuery.Proofs.Literal.Wire
import ScimQuery.Proofs.Search.Paths
import ScimQuery.Proofs.Session.Protocol
import ScimQuery.Proofs.Event.Listing
import ScimQuery.Proofs.Expr.Scope
import ScimQuery.Proofs.Filter.PathWords
import ScimQuery.Proofs.Attribute.Distinct
