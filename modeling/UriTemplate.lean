import UriTemplate.Text.Quoted
import UriTemplate.Percent.Coding
import UriTemplate.Table
import UriTemplate.Number
import UriTemplate.Value.Key
import UriTemplate.Value.Written
import UriTemplate.Operator
import UriTemplate.Template.Parse
import UriTemplate.Template.Build
import UriTemplate.Expansion
import UriTemplate.Match.Search
import UriTemplate.Routes
import UriTemplate.Record
import UriTemplate.Resource.Wire
import UriTemplate.Resource.Catalogue
import UriTemplate.Resource.Session
import UriTemplate.Proofs.Lists
import UriTemplate.Proofs.Template.WellFormed
import UriTemplate.Proofs.Template.Grammar
import UriTemplate.Proofs.Template.Braces
import UriTemplate.Proofs.Template.Faults
import UriTemplate.Proofs.Template.Printing
import UriTemplate.Proofs.Percent.NormalForm
import UriTemplate.Proofs.Match.Reading
import UriTemplate.Proofs.Expansion.Content
import UriTemplate.Proofs.Expansion.Span
import UriTemplate.Proofs.Expansion.Matchable
import UriTemplate.Proofs.Match.Split
import UriTemplate.Proofs.Match.Segments
import UriTemplate.Proofs.Roundtrip.Recoverable
import UriTemplate.Proofs.Roundtrip.Values
import UriTemplate.Proofs.Roundtrip.Bytes
import UriTemplate.Proofs.Routes
import UriTemplate.Proofs.Routes.Stability
import UriTemplate.Proofs.Resource.Catalogue
import UriTemplate.Proofs.Template.Concatenation
import UriTemplate.Proofs.Resource.Session
import UriTemplate.Proofs.Resource.Dispatch
import UriTemplate.Proofs.Resource.Wire
import UriTemplate.Proofs.Resource.Cache
import UriTemplate.Proofs.Percent.Case
import UriTemplate.Proofs.Match.SplitCase
import UriTemplate.Proofs.Match.Spelling
import UriTemplate.Proofs.Match.Exhaustive
import UriTemplate.Proofs.Match.Shares
import UriTemplate.Proofs.Roundtrip.Positional
import UriTemplate.Proofs.Match.Runs
import UriTemplate.Proofs.Match.WellTyped
import UriTemplate.Proofs.Expansion.Dependence
import UriTemplate.Proofs.Match.Literal
import UriTemplate.Proofs.Expansion.Truncation
import UriTemplate.Proofs.Match.Boundaries
import UriTemplate.Proofs.Match.Overflow
