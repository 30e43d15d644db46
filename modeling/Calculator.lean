import Calculator.Number.Basic
import Calculator.Number.Nearest
import Calculator.Number.Decimal
import Calculator.Number.Shortest
import Calculator.Number.Rounded
import Calculator.Number.Remainder
import Calculator.Number.Notation
import Calculator.Symbol.Operator
import Calculator.Symbol.Func
import Calculator.Symbol.Name
import Calculator.Text.Blank
import Calculator.Token.Basic
import Calculator.Token.Lexeme
import Calculator.Token.Lexer
import Calculator.Error
import Calculator.Arithmetic
import Calculator.Rpn.Order
import Calculator.Rpn.Machine
import Calculator.Expr
import Calculator.Calculate
import Calculator.Session.Basic
import Calculator.Session.Erase
import Calculator.Session.Keys
import Calculator.Screen.Buttons
import Calculator.Screen.Window
import Calculator.Proofs.Fallible
import Calculator.Proofs.Postfix
import Calculator.Proofs.Arrangement
import Calculator.Proofs.Evaluation
import Calculator.Proofs.Placement
import Calculator.Proofs.Calculation
import Calculator.Proofs.Formula
import Calculator.Proofs.Idempotence
import Calculator.Proofs.Negation
import Calculator.Proofs.Reading
import Calculator.Proofs.Entry
import Calculator.Proofs.Places
import Calculator.Proofs.Retyping
import Calculator.Proofs.Failure
import Calculator.Proofs.Coherence
import Calculator.Proofs.Presses
import Calculator.Proofs.Memory
import Calculator.Proofs.History
import Calculator.Proofs.Restart
import Calculator.Proofs.Keypad
import Calculator.Proofs.Clicks
import Calculator.Proofs.Operands
import Calculator.Proofs.Grouping
import Calculator.Proofs.Layout
import Calculator.Proofs.Multiplication
import Calculator.Proofs.Rereading
import Calculator.Proofs.Boundary
import Calculator.Proofs.Unexpected
import Calculator.Proofs.RootSign
import Calculator.Proofs.Spacing
import Calculator.Proofs.Comparison
import Calculator.Proofs.Recall
import Calculator.Proofs.Accuracy
import Calculator.Proofs.Continuation
import Calculator.Proofs.Substitution
import Calculator.Proofs.Addition
import Calculator.Proofs.MemorySign
import Calculator.Proofs.Erasure
import Calculator.Proofs.StackOrder
import Calculator.Proofs.LongestMatch
