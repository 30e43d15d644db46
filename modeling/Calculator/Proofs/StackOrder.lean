/-
# The order on the stack

Functions and opening parentheses are barriers on the stack. Between two of them the
operators get tighter from the bottom to the top: each is tighter than the one below it,
or both are as tight as any, since a prefix minus waits at once and a power lets nothing
of its own level out (`Layered`). A token takes something off the top of the stack, puts
a barrier or a prefix minus on it, or puts an operator on what this operator does not let
out; so the stack is layered after every token (`Layered.read`). Between two barriers
there is one additive operator at most, above it one multiplicative operator at most,
and above those there are powers and prefix minuses (`Layered.exists_levels`).

Key definitions: `Operator.MayStandOn`, `Pending.MayStandOn`, `Layered`.
Key theorems: `Layered.cons_operator`, `Layered.step`, `Layered.read`,
`Layered.exists_levels`, `exists_split_precedes`, `Waiting.layered_between_barriers`.
-/
import Mathlib.Data.List.Chain
import Calculator.Proofs.Operands

namespace Calculator

/-! ### Tighter and tighter -/

namespace Operator

theorem precedence_bounds (o : Operator) : 1 ≤ o.precedence ∧ o.precedence ≤ 3 := by
  cases o <;> decide

theorem precedence_eq_three_iff {o : Operator} : o.precedence = 3 ↔ o = .power ∨ o = .negate := by
  cases o <;> decide

/-- The operator is tighter than the one below it, or no operator is tighter than
either of them. -/
def MayStandOn (upper lower : Operator) : Prop :=
  lower.precedence < upper.precedence ∨ lower.precedence = 3 ∧ upper.precedence = 3

/-- The tightest operators may stand on all. -/
theorem mayStandOn_of_tightest {o : Operator} (h : o.precedence = 3) (lower : Operator) :
    o.MayStandOn lower := by
  have hle := lower.precedence_bounds.2
  unfold MayStandOn
  omega

/-- An operator may stand on what it does not let out. -/
theorem mayStandOn_of_not_waitsFor {o lower : Operator} (h : o.waitsFor lower = false) :
    o.MayStandOn lower := by
  unfold waitsFor at h
  cases hassoc : o.associativity with
  | left =>
    rw [hassoc] at h
    exact .inl (Nat.lt_of_not_le (of_decide_eq_false h))
  | right =>
    have htight : o.precedence = 3 := by
      cases o <;> first | rfl | cases hassoc
    exact mayStandOn_of_tightest htight lower

end Operator

namespace Pending

/-- Between two operators their precedences decide; next to a barrier anything may
stand. -/
def MayStandOn : (upper lower : Pending) → Prop
  | op o, op lower => o.MayStandOn lower
  | _, _ => True

/-- The token that waits. -/
def toToken : Pending → Token
  | op o => .op o
  | func f => .func f
  | group => .lpar

end Pending

/-- On a stack, top first, each operator may stand on the one right below it. -/
def Layered (stack : List Pending) : Prop := stack.IsChain Pending.MayStandOn

namespace Layered

variable {stack : List Pending}

theorem nil : Layered [] := List.isChain_nil

theorem of_isInfix {part : List Pending} (h : Layered stack) (hpart : part <:+: stack) :
    Layered part :=
  List.IsChain.infix h hpart

theorem of_isSuffix {below : List Pending} (h : Layered stack) (hbelow : below <:+ stack) :
    Layered below :=
  h.of_isInfix hbelow.isInfix

theorem cons_func (h : Layered stack) (f : Func) : Layered (.func f :: stack) :=
  List.isChain_cons.mpr ⟨fun _ _ => trivial, h⟩

theorem cons_group (h : Layered stack) : Layered (.group :: stack) :=
  List.isChain_cons.mpr ⟨fun _ _ => trivial, h⟩

theorem cons_op {o : Operator} (h : Layered stack)
    (ho : ∀ lower, stack.head? = some (.op lower) → o.MayStandOn lower) :
    Layered (.op o :: stack) := by
  refine List.isChain_cons.mpr ⟨fun p hp => ?_, h⟩
  cases p with
  | op lower => exact ho lower hp
  | func | group => trivial

/-- A prefix minus waits at once. -/
theorem cons_negate (h : Layered stack) : Layered (.op .negate :: stack) :=
  h.cons_op fun lower _ => Operator.mayStandOn_of_tightest rfl lower

/-- **An operator waits on what it does not let out**, and the stack is layered again. -/
theorem cons_operator (h : Layered stack) (o : Operator) :
    Layered (.op o :: stack.dropWhile (Pending.precedes o)) := by
  refine (h.of_isSuffix (List.dropWhile_suffix _)).cons_op fun lower hlower => ?_
  have hkept := List.head?_dropWhile_not (Pending.precedes o) stack
  rw [hlower] at hkept
  exact Operator.mayStandOn_of_not_waitsFor hkept

/-! ### After every token -/

/-- **One token keeps the stack layered.** -/
theorem step {w next : Waiting} {t : Token} {out : List Token} (h : Layered w.stack)
    (hstep : w.step t = .ok (out, next)) : Layered next.stack := by
  cases Waiting.step_eq_ok_iff.mp hstep with
  | atom | prefixPlus => exact h
  | func f => exact h.cons_func f
  | opening => exact h.cons_group
  | @closing held below => exact h.of_isSuffix ⟨held ++ [.group], by simp⟩
  | @call held below _ _ f => exact h.of_isSuffix ⟨held ++ [.group, .func f], by simp⟩
  | prefixMinus => exact h.cons_negate
  | operator => exact h.cons_operator _

/-- **So do all that are read.** -/
theorem read : ∀ {ts : List Token} {w last : Waiting} {out : List Token}, Layered w.stack →
    w.read ts = .ok (out, last) → Layered last.stack
  | [], _, _, _, h, hread => by
    cases hread
    exact h
  | _ :: _, _, _, _, h, hread => by
    obtain ⟨_, _, _, hstep, hlater, -⟩ := Waiting.read_cons_eq_ok_iff.mp hread
    exact (h.step hstep).read hlater

/-! ### Between two barriers -/

/-- No operator stands on one that is as tight, the tightest apart. -/
theorem eq_nil_of_tighter {o : Operator} {level rest : List Operator} (ho : o.precedence ≠ 3)
    (hlevel : ∀ e ∈ level, o.precedence ≤ e.precedence)
    (hnext : ∀ e ∈ (level ++ rest).head?, o.MayStandOn e) : level = [] := by
  cases level with
  | nil => rfl
  | cons e level =>
    have hbelow := hnext e (by simp)
    have htight := hlevel e (by simp)
    unfold Operator.MayStandOn at hbelow
    omega

/-- **Operators right above each other**, top first: powers and prefix minuses, then one
multiplicative operator at most, then one additive operator at most. The induction is
from the bottom to the top; below an operator there is nothing that is tighter. -/
theorem exists_levels : ∀ {ops : List Operator}, Layered (ops.map .op) →
    ∃ tight factor term, ops = tight ++ (factor ++ term) ∧
      (∀ o ∈ tight, o.precedence = 3) ∧
      (factor.length ≤ 1 ∧ ∀ o ∈ factor, o.precedence = 2) ∧
      (term.length ≤ 1 ∧ ∀ o ∈ term, o.precedence = 1)
  | [], _ => ⟨[], [], [], by simp⟩
  | o :: ops, h => by
    rw [Layered, List.map_cons, List.isChain_cons] at h
    obtain ⟨tight, factor, term, rfl, htight, hfactor, hterm⟩ := exists_levels h.2
    have hnext : ∀ e ∈ (tight ++ (factor ++ term)).head?, o.MayStandOn e := fun e he =>
      h.1 (.op e) (by simpa using he)
    have hbounds := o.precedence_bounds
    by_cases hthree : o.precedence = 3
    · have htight' : ∀ e ∈ o :: tight, e.precedence = 3 :=
        List.forall_mem_cons.mpr ⟨hthree, htight⟩
      exact ⟨o :: tight, factor, term, rfl, htight', hfactor, hterm⟩
    obtain rfl : tight = [] :=
      eq_nil_of_tighter hthree (fun e he => by rw [htight e he]; omega) hnext
    obtain rfl : factor = [] :=
      eq_nil_of_tighter hthree (fun e he => by rw [hfactor.2 e he]; omega) hnext
    by_cases htwo : o.precedence = 2
    · exact ⟨[], [o], term, rfl, by simp, by simp [htwo], hterm⟩
    · have hone : o.precedence = 1 := by omega
      have hlast : ∀ e ∈ (term ++ []).head?, o.MayStandOn e := by simpa using hnext
      obtain rfl : term = [] :=
        eq_nil_of_tighter hthree (fun e he => by rw [hterm.2 e he, hone]) hlast
      exact ⟨[], [], [o], rfl, by simp, by simp, by simp [hone]⟩

end Layered

/-! ### What an operator lets out -/

theorem exists_map_op : ∀ {stack : List Pending}, (∀ p ∈ stack, ∃ o, p = .op o) →
    ∃ ops : List Operator, stack = ops.map .op
  | [], _ => ⟨[], rfl⟩
  | p :: stack, h => by
    obtain ⟨⟨o, rfl⟩, hstack⟩ := List.forall_mem_cons.mp h
    obtain ⟨ops, rfl⟩ := exists_map_op hstack
    exact ⟨o :: ops, rfl⟩

theorem released_map_op (ops : List Operator) : released (ops.map .op) = ops.map .op := by
  induction ops with
  | nil => rfl
  | cons o ops ih => rw [List.map_cons, released_op_cons, ih, List.map_cons]

/-- **An operator lets out operators only**, those above the first barrier. -/
theorem exists_split_precedes (o : Operator) (stack : List Pending) :
    ∃ gone : List Operator, stack = gone.map .op ++ stack.dropWhile (Pending.precedes o) ∧
      released (stack.takeWhile (Pending.precedes o)) = gone.map .op := by
  have hops : ∀ p ∈ stack.takeWhile (Pending.precedes o), ∃ earlier, p = .op earlier := by
    intro p hp
    have hout := List.all_eq_true.mp List.all_takeWhile p hp
    cases p with
    | op earlier => exact ⟨earlier, rfl⟩
    | func | group => cases hout
  obtain ⟨gone, hgone⟩ := exists_map_op hops
  refine ⟨gone, ?_, ?_⟩
  · rw [← hgone, List.takeWhile_append_dropWhile]
  · rw [hgone, released_map_op]

theorem toToken_ne_rpar (p : Pending) : p.toToken ≠ .rpar := by
  cases p <;> simp [Pending.toToken]

/-- **The operators that wait get tighter from barrier to barrier.** Whatever the list of
tokens, after each beginning of it that is read the stack, on which the rest is arranged,
holds no closing parenthesis. An operator on it that stands right above another is
tighter, or both are as tight as any. So operators that stand right above each other
are, from the top, powers and prefix minuses, then one multiplicative operator at most,
then one additive operator at most. An operator that arrives lets operators out and no
barrier, and what stays is layered with the operator on top. -/
theorem Waiting.layered_between_barriers (ts : List Token) :
    (∀ us vs out w, us ++ vs = ts → Waiting.read {} us = .ok (out, w) →
      toRpn ts = (w.arrange vs).map (out ++ ·) ∧
        .rpar ∉ w.stack.map Pending.toToken ∧
        Layered w.stack ∧
        (∀ upper lower, [.op upper, .op lower] <:+: w.stack →
          lower.precedence ≤ upper.precedence ∧
            (lower.precedence < upper.precedence ∨
              lower.precedence = 3 ∧ upper.precedence = 3)) ∧
        ∀ ops : List Operator, ops.map .op <:+: w.stack →
          ∃ tight factor term, ops = tight ++ (factor ++ term) ∧
            (∀ o ∈ tight, o = .power ∨ o = .negate) ∧
            (factor.length ≤ 1 ∧ ∀ o ∈ factor, o.precedence = 2) ∧
            (term.length ≤ 1 ∧ ∀ o ∈ term, o.precedence = 1)) ∧
      ∀ stack, Layered stack → ∀ o, ∃ gone : List Operator,
        stack = gone.map .op ++ stack.dropWhile (Pending.precedes o) ∧
          released (stack.takeWhile (Pending.precedes o)) = gone.map .op ∧
          Layered (.op o :: stack.dropWhile (Pending.precedes o)) := by
  constructor
  · rintro us vs out w rfl hread
    have hlayered : Layered w.stack := Layered.nil.read hread
    refine ⟨?_, ?_, hlayered, fun upper lower hpair => ?_, fun ops hops => ?_⟩
    · rw [toRpn, arrange_append, hread]
      rfl
    · intro hmem
      obtain ⟨p, -, hp⟩ := List.mem_map.mp hmem
      exact toToken_ne_rpar p hp
    · have hstand := (List.isChain_cons_cons.mp (hlayered.of_isInfix hpair)).1
      unfold Pending.MayStandOn Operator.MayStandOn at hstand
      exact ⟨by omega, hstand⟩
    · obtain ⟨tight, factor, term, hsplit, htight, hfactor, hterm⟩ :=
        Layered.exists_levels (hlayered.of_isInfix hops)
      exact ⟨tight, factor, term, hsplit,
        fun o ho => Operator.precedence_eq_three_iff.mp (htight o ho), hfactor, hterm⟩
  · intro stack hlayered o
    obtain ⟨gone, hsplit, hreleased⟩ := exists_split_precedes o stack
    exact ⟨gone, hsplit, hreleased, hlayered.cons_operator o⟩

/-- `sin(x+y*-e^-π`: five operators wait on two barriers, three of them as tight as any;
a second plus would let them all out. -/
theorem Waiting.layered_between_barriers_of_signed_power :
    let us : List Token := [.func .sin, .lpar, .var .x, .op .plus, .var .y, .op .times,
      .op .minus, .const .e, .op .power, .op .minus, .const .pi]
    let out : List Token := [.var .x, .var .y, .const .e, .const .pi]
    let ops : List Operator := [.negate, .power, .negate, .times, .plus]
    let w : Waiting := ⟨ops.map .op ++ [.group, .func .sin], true⟩
    Waiting.read {} us = .ok (out, w) ∧
      toRpn (us ++ [.rpar]) = (w.arrange [.rpar]).map (out ++ ·) ∧
      Layered w.stack ∧
      (∃ tight factor term, ops = tight ++ (factor ++ term) ∧
        (∀ o ∈ tight, o = .power ∨ o = .negate) ∧ factor.length ≤ 1 ∧ term.length ≤ 1) ∧
      ∃ gone : List Operator,
        w.stack = gone.map .op ++ w.stack.dropWhile (Pending.precedes .plus) := by
  intro us out ops w
  have hread : Waiting.read {} us = .ok (out, w) := by decide +kernel
  obtain ⟨hstack, hrelease⟩ := layered_between_barriers (us ++ [.rpar])
  obtain ⟨harrange, -, hlayered, -, hlevels⟩ := hstack us [.rpar] out w rfl hread
  have hops : ops.map .op <:+: w.stack := ⟨[], [.group, .func .sin], rfl⟩
  obtain ⟨tight, factor, term, hsplit, htight, ⟨hfactor, -⟩, hterm, -⟩ := hlevels ops hops
  obtain ⟨gone, hgone, -⟩ := hrelease w.stack hlayered .plus
  exact ⟨hread, harrange, hlayered, ⟨tight, factor, term, hsplit, htight, hfactor, hterm⟩,
    gone, hgone⟩

end Calculator
