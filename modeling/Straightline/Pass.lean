import Straightline.Pass.Algebra
import Straightline.Pass.DeadCode
import Straightline.Pass.Duplicates
import Straightline.Pass.Fusion
import Straightline.Pass.Lift
import Straightline.Pass.Moves

/-!
# Applying passes

What each pass does to the program.
-/

set_option autoImplicit false

namespace Straightline

/-- Applies a pass to the program. -/
def Pass.apply : Pass → Action Unit
  | analysis => analyze
  | fusion => Straightline.fusion
  | algebra => Straightline.algebra
  | deadCode => Straightline.deadCode
  | moves => Straightline.moves
  | duplicates => Straightline.duplicates
  | lift slots => Straightline.lift slots

end Straightline
