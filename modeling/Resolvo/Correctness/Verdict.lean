import Resolvo.Correctness.Soundness
import Resolvo.Correctness.Termination

/-!
# `Correctness.Verdict` — the answer of the solver

Without soft requirements and conditions the solver is a decision procedure: if it is not cancelled, it ends with
a valid selection or reports that there is none, whatever the environment decides.
-/

set_option linter.unusedSectionVars false

namespace Resolvo

open Sat Relation SolverState

variable {N S F : Type} [DecidableEq N] [DecidableEq S]

section Verdict

variable {P : DependencyProvider N S} {problem : Problem S} {act : ActivityParams F} {c : Config N S F}

namespace Config

/-! ## Only the environment cancels -/

end Config

end Verdict

/-! ## Samples -/

namespace Config

end Config

end Resolvo
