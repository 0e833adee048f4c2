import TreeQuery.Command.Arguments
import TreeQuery.Command.Check
import TreeQuery.Command.Run
import TreeQuery.Command.Topic
import TreeQuery.Document.Place
import TreeQuery.Document.Property
import TreeQuery.Document.Walk
import TreeQuery.Json.Basic
import TreeQuery.Json.Reader
import TreeQuery.Json.Writer
import TreeQuery.Number.Binary
import TreeQuery.Number.Layout
import TreeQuery.Number.Scientific
import TreeQuery.Number.Shortest
import TreeQuery.Query
import TreeQuery.Selector.Basic
import TreeQuery.Selector.Cursor
import TreeQuery.Selector.Encoding
import TreeQuery.Selector.Error
import TreeQuery.Selector.Literal
import TreeQuery.Selector.Match
import TreeQuery.Selector.Parser
import TreeQuery.Text.Blank
import TreeQuery.Text.Digits
import TreeQuery.Token.Basic
import TreeQuery.Token.Encoding
import TreeQuery.Token.Fragment
import TreeQuery.Token.Lexer
import TreeQuery.Main
import TreeQuery.Proofs.Document.Distinct
import TreeQuery.Proofs.Document.Context
import TreeQuery.Proofs.Selector.Meaning
import TreeQuery.Proofs.Document.Order
import TreeQuery.Proofs.Selector.Multiplicity
import TreeQuery.Proofs.Selector.Grammar
import TreeQuery.Proofs.Selector.Reading
import TreeQuery.Proofs.Token.Pieces
import TreeQuery.Proofs.Selector.Written
import TreeQuery.Proofs.Token.Found
import TreeQuery.Proofs.Token.Neighbours
import TreeQuery.Proofs.Selector.Shape
import TreeQuery.Proofs.Token.Boundary
import TreeQuery.Proofs.Selector.Graft
import TreeQuery.Proofs.Selector.Correspondence
import TreeQuery.Proofs.Selector.Subdocument
import TreeQuery.Proofs.Json.Reorder
import TreeQuery.Proofs.Selector.Reorder
import TreeQuery.Proofs.Selector.Conjunction
import TreeQuery.Proofs.Selector.NearestSibling
import TreeQuery.Proofs.Document.Parallel
import TreeQuery.Proofs.Selector.Parallel
import TreeQuery.Proofs.Selector.Resume
import TreeQuery.Proofs.Json.Edit
import TreeQuery.Proofs.Selector.Edit
import TreeQuery.Proofs.Selector.Refinement
import TreeQuery.Proofs.Document.Calls
import TreeQuery.Proofs.Selector.ConjunctionLaws
import TreeQuery.Proofs.Document.Holder
import TreeQuery.Proofs.Document.Visits
import TreeQuery.Proofs.Document.Inheritance
import TreeQuery.Proofs.Selector.Stage
import TreeQuery.Proofs.Selector.Progress
import TreeQuery.Proofs.Selector.Pinpoint
import TreeQuery.Proofs.Selector.Built
import TreeQuery.Proofs.Number.Value
import TreeQuery.Proofs.Selector.Saturation
import TreeQuery.Proofs.Json.Mirror
import TreeQuery.Proofs.Document.Mirror
import TreeQuery.Proofs.Selector.Mirror
import TreeQuery.Proofs.Selector.Truncation
import TreeQuery.Proofs.Selector.CombinatorRuns
import TreeQuery.Proofs.Token.Cover
import TreeQuery.Proofs.Token.Quoted
import TreeQuery.Proofs.Token.Gap
import TreeQuery.Proofs.Token.Stream
import TreeQuery.Proofs.Text.Respaced
import TreeQuery.Proofs.Token.Respaced
import TreeQuery.Proofs.Selector.Agreement
import TreeQuery.Proofs.Selector.Respaced
import TreeQuery.Proofs.Document.Refill
import TreeQuery.Proofs.Selector.Refill
import TreeQuery.Proofs.Text.Digits
import TreeQuery.Proofs.Document.Property
import TreeQuery.Proofs.Json.Equality
import TreeQuery.Proofs.Token.Encoding
import TreeQuery.Proofs.Selector.Encoding
import TreeQuery.Proofs.Selector.InPlace
