import Straightline.Value

/-!
# Faults

A fault stops the operation at hand and everything around it: an instruction that does not exist, a
misuse of the program order, or an access that conflicts with one still in progress. Faults are
defects of the caller. What a program text can do wrong is reported as an ordinary result instead.
-/

set_option autoImplicit false

namespace Straightline

/-- The two ways to access an instruction. -/
inductive Access where
  | view
  | update
deriving DecidableEq, Repr

/-- The name of an access. -/
def Access.text : Access → String
  | view => "view"
  | update => "update"

/-- What went wrong. -/
inductive Fault where
  /-- There is no instruction with this identity. -/
  | invalid (id : InstId)
  /-- An instruction that has a neighbour was to be inserted once more. -/
  | alreadyLinked
  /-- An instruction outside the program order was to be removed from it. -/
  | unlinkedTwice (id : InstId)
  /-- An access was requested while a conflicting one was held. -/
  | aliasing (id : InstId) (wanted held : Access)
  /-- A walk along the links does not come to an end. -/
  | endless
  /-- A pipeline was to be run where none was set up. -/
  | noPipeline
deriving DecidableEq, Repr

/-- The wording of a fault. -/
def Fault.message : Fault → String
  | invalid id => "ir: invalid instruction " ++ id.text
  | alreadyLinked => "ir: inserting an instruction that is already linked"
  | unlinkedTwice id => "ir: unlinking instruction " ++ id.text ++ " twice"
  | aliasing id wanted held =>
    "Aliasing violation on " ++ id.text ++ ": " ++ wanted.text ++ " requested while "
      ++ held.text ++ " is held"
  | endless => "ir: the program order has no end"
  | noPipeline => "no pipeline"

end Straightline
