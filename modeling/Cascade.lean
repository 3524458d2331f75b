import Cascade.Directive
import Cascade.Main
import Cascade.Proofs.Comparisons
import Cascade.Proofs.Declarations
import Cascade.Proofs.Digest
import Cascade.Proofs.InPlaceEvaluation
import Cascade.Proofs.Inlining
import Cascade.Proofs.Layouts
import Cascade.Proofs.Nesting
import Cascade.Proofs.ParserEnds
import Cascade.Proofs.ReadBack
import Cascade.Proofs.ReducedShape
import Cascade.Proofs.RingCursor
import Cascade.Proofs.RoundTrip
import Cascade.Proofs.Scoped
import Cascade.Proofs.SelectorForms
import Cascade.Proofs.Spacing
import Cascade.Proofs.StageLinks
import Cascade.Proofs.StoredValues
import Cascade.Proofs.TokenTexts
import Cascade.Proofs.Unused
import Cascade.Proofs.VisibleMixins
