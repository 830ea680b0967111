import Straightline.Binary32
import Straightline.Command.Run
import Straightline.Compile
import Straightline.Main
import Straightline.Pipeline
import Straightline.Proofs.Computes
import Straightline.Proofs.Consistency
import Straightline.Proofs.Constants
import Straightline.Proofs.Destinations
import Straightline.Proofs.Graph
import Straightline.Proofs.Holding
import Straightline.Proofs.Lowered
import Straightline.Proofs.Meaning
import Straightline.Proofs.Outcome
import Straightline.Proofs.Preservation
import Straightline.Proofs.Program
import Straightline.Proofs.Reading
import Straightline.Proofs.Rendering
import Straightline.Proofs.Rewrites
import Straightline.Proofs.RoundTrip
import Straightline.Proofs.Rounding
import Straightline.Proofs.Soundness
import Straightline.Proofs.Spelling
import Straightline.Proofs.Tame
import Straightline.Proofs.Tokens
import Straightline.Proofs.Transforms
import Straightline.Proofs.Writable
import Straightline.Settings.File
import Straightline.Source.Reader
import Straightline.Proofs.Rereading
import Straightline.Proofs.Closure
import Straightline.Proofs.Capture
import Straightline.Proofs.Immediates
import Straightline.Proofs.Slots
import Straightline.Proofs.Borrowing
import Straightline.Proofs.Histories
import Straightline.Proofs.Blanks
import Straightline.Proofs.Numerals
import Straightline.Proofs.Grammar
import Straightline.Proofs.Runs
import Straightline.Proofs.Merging
import Straightline.Proofs.Fusing
import Straightline.Proofs.Renaming
import Straightline.Proofs.Forwarding
import Straightline.Proofs.Unsupported
import Straightline.Proofs.Lifting
import Straightline.Proofs.Materializing
import Straightline.Proofs.Identities
import Straightline.Proofs.Overwriting
import Straightline.Proofs.Slicing
import Straightline.Proofs.Repetition
import Straightline.Proofs.Analyzing
import Straightline.Proofs.Visiting
import Straightline.Proofs.Saturating
import Straightline.Proofs.Naming
