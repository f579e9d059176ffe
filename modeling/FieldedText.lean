import FieldedText.Text.Search
import FieldedText.Text.Blank
import FieldedText.Text.Lines
import FieldedText.Text.Quoted
import FieldedText.Number.Written
import FieldedText.Time.Instant
import FieldedText.Error
import FieldedText.Markup.Template
import FieldedText.Markup.Settings
import FieldedText.Data.Listing
import FieldedText.Data.Merge
import FieldedText.Data.Shown
import FieldedText.Data.Coercion
import FieldedText.Document.Rendering
import FieldedText.Document.Reading
import FieldedText.Document.Revision
import FieldedText.Json.Written
import FieldedText.Storage.Files
import FieldedText.Checked.Access
import FieldedText.Checked.Markup
import FieldedText.Checked.Segment
import FieldedText.Checked.Body
import FieldedText.Checked.Framing
import FieldedText.Checked.Document
import FieldedText.Proofs.Search
import FieldedText.Proofs.Lines
import FieldedText.Proofs.Directive
import FieldedText.Proofs.Line
import FieldedText.Proofs.Grammar
import FieldedText.Proofs.Header
import FieldedText.Proofs.Segment
import FieldedText.Proofs.Delimiter
import FieldedText.Proofs.Body
import FieldedText.Proofs.Template
import FieldedText.Proofs.ListTemplate
import FieldedText.Proofs.Framing
import FieldedText.Proofs.Settings
import FieldedText.Proofs.Rendering
import FieldedText.Proofs.Rendered
import FieldedText.Proofs.Reading
import FieldedText.Proofs.Revision
import FieldedText.Proofs.Regeneration
import FieldedText.Proofs.Headers
import FieldedText.Proofs.Preservation
import FieldedText.Proofs.Placement
import FieldedText.Proofs.Unchanged
import FieldedText.Proofs.Idempotence
import FieldedText.Proofs.Merge
import FieldedText.Proofs.ReadBack
import FieldedText.Proofs.Renewal
import FieldedText.Proofs.Splitting
import FieldedText.Proofs.Insertion
import FieldedText.Proofs.SelfRevision
import FieldedText.Document.Segmenter
import FieldedText.Proofs.Segmenter
import FieldedText.Proofs.Decimal
import FieldedText.Proofs.Decoding
import FieldedText.Proofs.Outline
import FieldedText.Proofs.Plain
import FieldedText.Proofs.Exchange
import FieldedText.Proofs.Rerendering
import FieldedText.Proofs.Untagged
import FieldedText.Proofs.RoundTrip
import FieldedText.Proofs.Access
import FieldedText.Proofs.CheckedMarkup
import FieldedText.Proofs.CheckedBody
import FieldedText.Proofs.CheckedFraming
import FieldedText.Proofs.NoPanic
import FieldedText.Proofs.Pattern
import FieldedText.Proofs.DelimiterPattern
import FieldedText.Proofs.Location
import FieldedText.Proofs.DirectivePattern
import FieldedText.Proofs.SingleBlock
import FieldedText.Proofs.HeaderPattern
import FieldedText.Proofs.Storing
import FieldedText.Proofs.Grouping
import FieldedText.Proofs.Cutting
import FieldedText.Proofs.Refilling
import FieldedText.Proofs.Untouched
import FieldedText.Proofs.Appending
import FieldedText.Proofs.Ordering
import FieldedText.Proofs.Listing
import FieldedText.Proofs.Positions
import FieldedText.Proofs.Relocation
import FieldedText.Proofs.Values
import FieldedText.Proofs.Coercion
import FieldedText.Proofs.Rereading
import FieldedText.Proofs.Binary
import FieldedText.Proofs.JsonTree
import FieldedText.Proofs.JsonStorage
import FieldedText.Proofs.Atomicity
import FieldedText.Proofs.Scanning
import FieldedText.Proofs.PlaceholderPattern
import FieldedText.Proofs.Renaming
