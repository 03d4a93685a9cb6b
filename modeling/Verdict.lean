import Verdict.Chart
import Verdict.Draft
import Verdict.Source
import Verdict.TruthTable
import Verdict.Proofs.Members
import Verdict.Proofs.Walks
import Verdict.Proofs.Compaction
import Verdict.Proofs.NormalForm
import Verdict.Proofs.Clues
import Verdict.Proofs.Ways
import Verdict.Proofs.Choice
import Verdict.Proofs.Selection
import Verdict.Proofs.Judgement
import Verdict.Proofs.Precedence
import Verdict.Proofs.Chaining
import Verdict.Proofs.Footprint
import Verdict.Proofs.NamingFault
import Verdict.Proofs.Renaming
import Verdict.Proofs.Likeness
import Verdict.Proofs.Equality
import Verdict.Proofs.Representation
import Verdict.Proofs.Alternatives
import Verdict.Proofs.Expansion
import Verdict.Proofs.Size
import Verdict.Proofs.Utf8
import Verdict.Proofs.Wire
import Verdict.Proofs.PostOrder
import Verdict.Proofs.Storable
import Verdict.Proofs.Storage
import Verdict.Proofs.Tampering
import Verdict.Proofs.Unfolding
import Verdict.Proofs.Placing
import Verdict.Proofs.Decoding
import Verdict.Proofs.Stretches
import Verdict.Proofs.Layout
import Verdict.Proofs.Syntax
import Verdict.Proofs.Crowding
import Verdict.Proofs.Combinations
import Verdict.Proofs.Parsing
import Verdict.Proofs.Resuming
import Verdict.Proofs.Cutting
import Verdict.Proofs.Continuation
import Verdict.Proofs.Positions
import Verdict.Proofs.SetOrder
import Verdict.Proofs.JsonForms
import Verdict.Proofs.JsonSkipping
import Verdict.Proofs.JsonReading
import Verdict.Proofs.JsonPresentation
import Verdict.Proofs.Markdown
import Verdict.Proofs.InsertionOrder
import Verdict.Proofs.Tables
import Verdict.Proofs.Charts
import Verdict.Proofs.Logging
