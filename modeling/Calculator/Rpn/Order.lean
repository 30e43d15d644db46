/-
# From infix order to reverse Polish notation

The tokens of an expression are put in the order in which a stack machine wants
them: operands first, then their operator or function. Values go out at once.
Operators, functions and opening parentheses wait on a stack. An operator that
arrives first lets those out that take their operands before it, down to a
function or parenthesis; a closing parenthesis lets out everything to its
partner, and then the function that stands before it. A sign where a value is
awaited is no operation on two operands: a plus is dropped, and a minus waits as
the prefix minus.

Key definitions: `Pending`, `Waiting`, `Waiting.step`, `Waiting.arrange`, `toRpn`.
Key theorems: `Waiting.step_op_cases`, `Waiting.arrange_cons`, `closeGroup_eq_error_iff`.
-/
import Calculator.Error

namespace Calculator

/-- What may wait on the stack; a closing parenthesis never does. -/
inductive Pending where
  | op (o : Operator)
  | func (f : Func)
  /-- An opening parenthesis. -/
  | group
deriving DecidableEq, Repr

namespace Pending

/-- The token it goes out as; an opening parenthesis is only taken off. -/
def token? : Pending → Option Token
  | op o => some (.op o)
  | func f => some (.func f)
  | group => none

/-- Whether it goes out before `incoming` waits in its place. -/
def precedes (incoming : Operator) : Pending → Bool
  | op earlier => incoming.waitsFor earlier
  | _ => false

end Pending

/-- The tokens of a stack, top first. -/
def released (stack : List Pending) : List Token := stack.filterMap Pending.token?

/-- What is before the next opening parenthesis goes out, then the function
before that parenthesis. Without one the parentheses do not match. -/
def closeGroup (stack : List Pending) : Except CalcError (List Token × List Pending) :=
  let inside := released (stack.takeWhile (· ≠ .group))
  match stack.dropWhile (· ≠ .group) with
  | [] => .error .unmatchedParentheses
  | _ :: .func f :: below => .ok (inside ++ [.func f], below)
  | _ :: below => .ok (inside, below)

/-- What is left on the stack goes out at the end, unless a parenthesis is
still open. -/
def finish (stack : List Pending) : Except CalcError (List Token) :=
  if .group ∈ stack then .error .unmatchedParentheses else .ok (released stack)

/-- The state between two tokens. -/
structure Waiting where
  /-- The operators, functions and opening parentheses that wait, the last one
  first. -/
  stack : List Pending := []
  /-- Whether a value has just ended, so that a sign is an operator. -/
  afterValue : Bool := false
deriving DecidableEq

namespace Waiting

/-- What one token sends out, and the state after it. -/
def step (w : Waiting) (t : Token) : Except CalcError (List Token × Waiting) :=
  match t with
  | .num _ | .const _ | .var _ => .ok ([t], ⟨w.stack, true⟩)
  | .func f => .ok ([], ⟨.func f :: w.stack, false⟩)
  | .lpar => .ok ([], ⟨.group :: w.stack, false⟩)
  | .rpar => (closeGroup w.stack).map fun (out, below) => (out, ⟨below, true⟩)
  | .op o =>
    if w.afterValue = false ∧ o = .plus then .ok ([], w)
    else if w.afterValue = false ∧ o = .minus then .ok ([], ⟨.op .negate :: w.stack, false⟩)
    else
      .ok (released (w.stack.takeWhile (Pending.precedes o)),
        ⟨.op o :: w.stack.dropWhile (Pending.precedes o), false⟩)

theorem step_plus {w : Waiting} (h : w.afterValue = false) : w.step (.op .plus) = .ok ([], w) :=
  if_pos ⟨h, rfl⟩

theorem step_minus {w : Waiting} (h : w.afterValue = false) :
    w.step (.op .minus) = .ok ([], ⟨.op .negate :: w.stack, false⟩) := by
  rw [step, if_neg (by simp), if_pos ⟨h, rfl⟩]

theorem step_operator {w : Waiting} {o : Operator}
    (h : w.afterValue = true ∨ o ≠ .plus ∧ o ≠ .minus) :
    w.step (.op o) = .ok (released (w.stack.takeWhile (Pending.precedes o)),
      ⟨.op o :: w.stack.dropWhile (Pending.precedes o), false⟩) := by
  rw [step, if_neg, if_neg]
  · rintro ⟨hvalue, rfl⟩
    simp [hvalue] at h
  · rintro ⟨hvalue, rfl⟩
    simp [hvalue] at h

/-- **What an operator does.** A sign where a value is awaited is dropped or waits
as the prefix minus; any other operator waits above what it does not let out. -/
theorem step_op_cases (w : Waiting) (o : Operator) :
    (w.afterValue = false ∧ o = .plus ∧ w.step (.op o) = .ok ([], w)) ∨
      (w.afterValue = false ∧ o = .minus ∧
        w.step (.op o) = .ok ([], ⟨.op .negate :: w.stack, false⟩)) ∨
      (w.afterValue = true ∨ o ≠ .plus ∧ o ≠ .minus) ∧
        w.step (.op o) = .ok (released (w.stack.takeWhile (Pending.precedes o)),
          ⟨.op o :: w.stack.dropWhile (Pending.precedes o), false⟩) := by
  by_cases hplus : w.afterValue = false ∧ o = .plus
  · obtain ⟨hvalue, rfl⟩ := hplus
    exact .inl ⟨hvalue, rfl, step_plus hvalue⟩
  by_cases hminus : w.afterValue = false ∧ o = .minus
  · obtain ⟨hvalue, rfl⟩ := hminus
    exact .inr (.inl ⟨hvalue, rfl, step_minus hvalue⟩)
  · have hother : w.afterValue = true ∨ o ≠ .plus ∧ o ≠ .minus := by
      cases hvalue : w.afterValue <;> simp_all
    exact .inr (.inr ⟨hother, step_operator hother⟩)

/-- All that is sent out from here to the end of the tokens. -/
def arrange (w : Waiting) : List Token → Except CalcError (List Token)
  | [] => finish w.stack
  | t :: ts =>
    match w.step t with
    | .error e => .error e
    | .ok (out, next) => (next.arrange ts).map (out ++ ·)

@[simp] theorem arrange_nil (w : Waiting) : w.arrange [] = finish w.stack := rfl

theorem arrange_cons {w next : Waiting} {t : Token} {out : List Token}
    (h : w.step t = .ok (out, next)) (ts : List Token) :
    w.arrange (t :: ts) = (next.arrange ts).map (out ++ ·) := by
  rw [arrange, h]

end Waiting

/-- The tokens of an expression in reverse Polish notation. -/
def toRpn (ts : List Token) : Except CalcError (List Token) := Waiting.arrange {} ts

theorem dropWhile_ne_group_eq_nil_iff (stack : List Pending) :
    stack.dropWhile (· ≠ .group) = [] ↔ Pending.group ∉ stack := by
  induction stack with
  | nil => simp
  | cons p below ih =>
    by_cases hp : p = .group
    · simp [hp]
    · rw [List.dropWhile_cons_of_pos (by simpa using hp), ih]
      simp [Ne.symm hp]

/-- A closing parenthesis fails only where no opening one waits. -/
theorem closeGroup_eq_error_iff (stack : List Pending) (e : CalcError) :
    closeGroup stack = .error e ↔ Pending.group ∉ stack ∧ e = .unmatchedParentheses := by
  rw [← dropWhile_ne_group_eq_nil_iff]
  unfold closeGroup
  split <;> rename_i h <;> rw [h]
  · exact ⟨fun he => by cases he; exact ⟨rfl, rfl⟩, fun ⟨_, he⟩ => he ▸ rfl⟩
  · simp
  · simp

end Calculator
