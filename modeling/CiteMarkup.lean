import CiteMarkup.Main
import CiteMarkup.Naming
import CiteMarkup.Proofs.Chain.Citations
import CiteMarkup.Proofs.Chain.Collapse
import CiteMarkup.Proofs.Chain.Edits
import CiteMarkup.Proofs.Chain.Expanded
import CiteMarkup.Proofs.Chain.Expansion
import CiteMarkup.Proofs.Chain.Following
import CiteMarkup.Proofs.Chain.Keys
import CiteMarkup.Proofs.Chain.Links
import CiteMarkup.Proofs.Chain.Locators
import CiteMarkup.Proofs.Chain.Places
import CiteMarkup.Proofs.Chain.Renumbering
import CiteMarkup.Proofs.Chain.Rereading
import CiteMarkup.Proofs.Chain.Runs
import CiteMarkup.Proofs.Edit.Apply
import CiteMarkup.Proofs.Edit.Settle
import CiteMarkup.Proofs.Order.Stable
import CiteMarkup.Proofs.Page.Marks
import CiteMarkup.Proofs.Page.Split
import CiteMarkup.Proofs.Page.Veil
import CiteMarkup.Proofs.Reference.Outline
import CiteMarkup.Proofs.Reference.Records
import CiteMarkup.Proofs.Reference.Referents
import CiteMarkup.Proofs.Reference.Survey
import CiteMarkup.Proofs.Tag.Attributes
import CiteMarkup.Proofs.Tag.Places
import CiteMarkup.Proofs.Template.Params
import CiteMarkup.Proofs.Template.Places
import CiteMarkup.Proofs.Template.Split
import CiteMarkup.Proofs.Text.Read
import CiteMarkup.Proofs.Text.Scan
import CiteMarkup.Proofs.Text.Slice
import CiteMarkup.Proofs.Text.Split
import CiteMarkup.Proofs.Text.Value
import CiteMarkup.Proofs.Transform.Accounts
import CiteMarkup.Proofs.Transform.Bodies
import CiteMarkup.Proofs.Transform.Expanding
import CiteMarkup.Proofs.Transform.Following
import CiteMarkup.Proofs.Transform.Frame
import CiteMarkup.Proofs.Transform.Identities
import CiteMarkup.Proofs.Transform.Keeping
import CiteMarkup.Proofs.Transform.Leaves
import CiteMarkup.Proofs.Transform.Lists
import CiteMarkup.Proofs.Transform.Merging
import CiteMarkup.Proofs.Transform.Moving
import CiteMarkup.Proofs.Transform.Names
import CiteMarkup.Proofs.Transform.Places
import CiteMarkup.Proofs.Transform.Renaming
import CiteMarkup.Proofs.Transform.Silence
import CiteMarkup.Proofs.Reference.Catalogue
import CiteMarkup.Proofs.Reference.Rebuilt
import CiteMarkup.Proofs.Reference.Accounting
import CiteMarkup.Proofs.Transform.Located
import CiteMarkup.Proofs.Transform.Scale
import CiteMarkup.Proofs.Transform.Rereading
import CiteMarkup.Guarded.Chain
import CiteMarkup.Guarded.Model
import CiteMarkup.Guarded.Transform
import CiteMarkup.Proofs.Guarded.Chain
import CiteMarkup.Proofs.Guarded.Transform
import CiteMarkup.Proofs.Transform.Retagging
import CiteMarkup.Proofs.Order.Firsts
import CiteMarkup.Proofs.Page.Signs
import CiteMarkup.Proofs.Reference.Filed
import CiteMarkup.Proofs.Edit.Substitution
import CiteMarkup.Proofs.Transform.Classes
import CiteMarkup.Proofs.Transform.Conserving
import CiteMarkup.Proofs.Order.Natural
import CiteMarkup.Proofs.Order.Passages
import CiteMarkup.Proofs.Tag.Tidied
import CiteMarkup.Proofs.Reference.Told
import CiteMarkup.Proofs.Transform.Filing
import CiteMarkup.Proofs.Transform.Signs
import CiteMarkup.Proofs.Transform.Retold
import CiteMarkup.Proofs.Transform.Again
import CiteMarkup.Proofs.Transform.Regathered
import CiteMarkup.Proofs.Transform.Relisted
import CiteMarkup.Proofs.Transform.Idempotent
import CiteMarkup.Proofs.Chain.RoundTrip
import CiteMarkup.Proofs.Chain.Written
import CiteMarkup.Proofs.Template.Brackets
import CiteMarkup.Proofs.Transform.Routing
import CiteMarkup.Proofs.Chain.Bindings
import CiteMarkup.Proofs.Chain.InPlace
import CiteMarkup.Proofs.Chain.Renaming
import CiteMarkup.Proofs.Template.Found
import CiteMarkup.Proofs.Page.Edges
import CiteMarkup.Proofs.Chain.Joining
import CiteMarkup.Proofs.Tag.ReadBack
import CiteMarkup.Proofs.Chain.Blocks
import CiteMarkup.Proofs.Order.Names
import CiteMarkup.Proofs.Reference.Readers
import CiteMarkup.Proofs.Template.Offsets
import CiteMarkup.Proofs.Template.Blocks
import CiteMarkup.Proofs.Template.Woven
import CiteMarkup.Proofs.Template.Braces
import CiteMarkup.Proofs.Tag.Leading
import CiteMarkup.Proofs.Tag.Rewritten
import CiteMarkup.Proofs.Tag.Anew
import CiteMarkup.Proofs.Tag.Normalized
import CiteMarkup.Proofs.Page.Protected
import CiteMarkup.Proofs.Chain.Spans
import CiteMarkup.Proofs.Chain.Positions
import CiteMarkup.Proofs.Metadata.Fields
import CiteMarkup.Proofs.Order.Letters
