import GuiMarkup.Text.Blank
import GuiMarkup.Text.Position
import GuiMarkup.Markup.Entity
import GuiMarkup.Markup.Lexer
import GuiMarkup.Markup.Tree
import GuiMarkup.Markup.AttributeList
import GuiMarkup.Markup.Reader
import GuiMarkup.Markup.Writer
import GuiMarkup.Name
import GuiMarkup.KeyMap
import GuiMarkup.Instance.Value
import GuiMarkup.Query.Syntax
import GuiMarkup.Query.Parser
import GuiMarkup.Instance.Diagnostic
import GuiMarkup.Instance.Loader
import GuiMarkup.Instance.Emit
import GuiMarkup.Query.Eval
import GuiMarkup.Text.Split
import GuiMarkup.Instance.Document
import GuiMarkup.Style
import GuiMarkup.Resource
import GuiMarkup.Styling
import GuiMarkup.Session
import GuiMarkup.Decimal.Shortest
import GuiMarkup.Text.Unprintable
import GuiMarkup.Text.Quoted
import GuiMarkup.Yaml.Token
import GuiMarkup.Yaml.Scanner
import GuiMarkup.Yaml.Event
import GuiMarkup.Yaml.Document
import GuiMarkup.Yaml.Scalar
import GuiMarkup.Manifest
import GuiMarkup.Proofs.Query.Walking
import GuiMarkup.Proofs.Query.Selection
import GuiMarkup.Proofs.Styling.Provenance
import GuiMarkup.Proofs.Markup.Pieces
import GuiMarkup.Proofs.Markup.Rereading
import GuiMarkup.Proofs.Markup.Parsed
import GuiMarkup.Proofs.Markup.Built
import GuiMarkup.Proofs.Name.Display
import GuiMarkup.Proofs.Query.Grammar
import GuiMarkup.Proofs.Query.Steps
import GuiMarkup.Proofs.Query.Reading
import GuiMarkup.Proofs.Query.Printing
import GuiMarkup.Proofs.Query.Progress
import GuiMarkup.Proofs.Instance.Written
import GuiMarkup.Proofs.Instance.Quiet
import GuiMarkup.Proofs.Instance.Reloaded
import GuiMarkup.Proofs.Instance.Header
import GuiMarkup.Proofs.Instance.Saved
import GuiMarkup.Proofs.Query.Paths
import GuiMarkup.Proofs.Instance.Depth
import GuiMarkup.Proofs.Styling.Marked
import GuiMarkup.Proofs.Query.Preorder
import GuiMarkup.Proofs.Styling.Matches
import GuiMarkup.Proofs.Styling.Merge
import GuiMarkup.Proofs.Markup.Sections
import GuiMarkup.Proofs.Instance.Loops
import GuiMarkup.Proofs.Instance.Duplicates
import GuiMarkup.Proofs.Markup.Placement
import GuiMarkup.Proofs.Markup.Lines
import GuiMarkup.Proofs.Markup.Stretches
import GuiMarkup.Proofs.Styling.Reports
import GuiMarkup.Proofs.Instance.Accounted
import GuiMarkup.Proofs.Instance.Layout
import GuiMarkup.Proofs.Instance.Filled
import GuiMarkup.Proofs.Instance.Unplaced
import GuiMarkup.Proofs.Instance.Passes
import GuiMarkup.Proofs.Instance.RoundTrip
