/-
# The lists that the stack machine accepts

A list of tokens in reverse Polish notation is the list of a tree, every node
after its operands, exactly if it holds no parenthesis and a count of the values
on the stack never runs short and ends at one (`Expr.exists_rpn_iff`); and it is the
list of one tree only (`Expr.rpn_injective`). On any other list the machine fails
(`exists_rpn_of_evalRpn_eq_ok`). Where no token fails by its value, the count
alone says how: at the first token that finds too few values, or else by the
number of values left at the end (`evalRpn_of_smooth`).

Key definitions: `Token.arity`, `depth`, `Machine.Smooth`, `countError`.
Key theorems: `Expr.rpn_injective`, `Expr.exists_rpn_iff`, `Machine.depth_of_run`,
`exists_rpn_of_evalRpn_eq_ok`, `evalRpn_of_smooth`.
-/
import Mathlib.Algebra.Ring.Nat
import Calculator.Expr
import Calculator.Proofs.Fallible

namespace Calculator

/-! ### Counting the values on the stack -/

namespace Token

/-- How many values the token takes off the stack. -/
def arity : Token → Nat
  | func _ => 1
  | op o => o.arity
  | _ => 0

def isParenthesis : Token → Bool
  | lpar | rpar => true
  | _ => false

end Token

/-- How many values are on the stack after the tokens, if there are `n` before
them, or else the first token that finds fewer than it takes. -/
def depth : Nat → List Token → Except Token Nat
  | n, [] => .ok n
  | n, t :: ts => if n < t.arity then .error t else depth (n - t.arity + 1) ts

theorem depth_cons_of_lt {n : Nat} {t : Token} (h : n < t.arity) (ts : List Token) :
    depth n (t :: ts) = .error t := if_pos h

theorem depth_cons_of_le {n : Nat} {t : Token} (h : t.arity ≤ n) (ts : List Token) :
    depth n (t :: ts) = depth (n - t.arity + 1) ts := if_neg (Nat.not_lt.mpr h)

/-- Each token puts one value on the stack and takes its operands off. -/
theorem length_add_of_depth : ∀ {ts : List Token} {n m : Nat}, depth n ts = .ok m →
    n + ts.length = m + (ts.map Token.arity).sum
  | [], n, m, h => by cases h; rfl
  | t :: ts, n, m, h => by
    by_cases ht : n < t.arity
    · rw [depth_cons_of_lt ht] at h
      cases h
    · rw [depth_cons_of_le (Nat.not_lt.mp ht)] at h
      have ih := length_add_of_depth h
      simp only [List.length_cons, List.map_cons, List.sum_cons]
      omega

namespace Expr

/-! ### The list of a tree -/

theorem arity_op {o : Operator} (h : o ≠ .negate) : (Token.op o).arity = 2 := by
  cases o <;> first | rfl | exact absurd rfl h

theorem depth_rpn_append : ∀ (t : Expr) (n : Nat) (ts : List Token),
    depth n (t.rpn ++ ts) = depth (n + 1) ts
  | num _, n, ts | const _, n, ts | var _, n, ts => rfl
  | func f a, n, ts => by
    rw [rpn, List.append_assoc, depth_rpn_append a]
    exact depth_cons_of_le (Nat.le_add_left 1 n) ts
  | negate a, n, ts => by
    rw [rpn, List.append_assoc, depth_rpn_append a]
    exact depth_cons_of_le (Nat.le_add_left 1 n) ts
  | binary o h a b, n, ts => by
    have ho := arity_op h
    rw [rpn, List.append_assoc, List.append_assoc, depth_rpn_append a, depth_rpn_append b]
    refine (depth_cons_of_le (by omega) ts).trans ?_
    rw [ho]
    rfl

theorem depth_rpn (t : Expr) : depth 0 t.rpn = .ok 1 := by
  have h := depth_rpn_append t 0 []
  rwa [List.append_nil] at h

theorem isParenthesis_of_mem_rpn : ∀ (t : Expr), ∀ s ∈ t.rpn, s.isParenthesis = false
  | num _, s, h | const _, s, h | var _, s, h => by
    rw [List.mem_singleton.mp h]
    rfl
  | func f a, s, h => by
    rcases List.mem_append.mp h with h | h
    · exact isParenthesis_of_mem_rpn a s h
    · rw [List.mem_singleton.mp h]
      rfl
  | negate a, s, h => by
    rcases List.mem_append.mp h with h | h
    · exact isParenthesis_of_mem_rpn a s h
    · rw [List.mem_singleton.mp h]
      rfl
  | binary o _ a b, s, h => by
    rcases List.mem_append.mp h with h | h
    · rcases List.mem_append.mp h with h | h
      · exact isParenthesis_of_mem_rpn a s h
      · exact isParenthesis_of_mem_rpn b s h
    · rw [List.mem_singleton.mp h]
      rfl

/-- The token of the last node. -/
def root : Expr → Token
  | num v => .num v
  | const c => .const c
  | var v => .var v
  | func f _ => .func f
  | negate _ => .op .negate
  | binary o _ _ _ => .op o

/-- The tokens of the operands of the last node. -/
def operandsRpn : Expr → List Token
  | func _ a | negate a => a.rpn
  | binary _ _ a b => a.rpn ++ b.rpn
  | _ => []

theorem rpn_eq (t : Expr) : t.rpn = t.operandsRpn ++ [t.root] := by
  cases t <;> rfl

theorem eq_of_append_rpn_eq {a b : Expr} {us vs : List Token} (h : us ++ a.rpn = vs ++ b.rpn) :
    us ++ a.operandsRpn = vs ++ b.operandsRpn ∧ a.root = b.root := by
  rw [rpn_eq, rpn_eq b, ← List.append_assoc, ← List.append_assoc] at h
  obtain ⟨h, hroot⟩ := List.append_inj' h rfl
  exact ⟨h, List.singleton_inj.mp hroot⟩

/-- A list ends with the list of one tree at most: the last token is the tree's
root, and the lists of its operands end right before it. -/
theorem rpn_append_inj : ∀ (a b : Expr) (us vs : List Token), us ++ a.rpn = vs ++ b.rpn →
    a = b ∧ us = vs := by
  intro a
  induction a with
  | num v | const c | var v =>
    intro b us vs h
    obtain ⟨h, hroot⟩ := eq_of_append_rpn_eq h
    cases b <;> cases hroot
    simpa [operandsRpn] using h
  | func f a ih =>
    intro b us vs h
    obtain ⟨h, hroot⟩ := eq_of_append_rpn_eq h
    cases b <;> cases hroot
    obtain ⟨rfl, hu⟩ := ih _ us vs h
    exact ⟨rfl, hu⟩
  | negate a ih =>
    intro b us vs h
    obtain ⟨h, hroot⟩ := eq_of_append_rpn_eq h
    cases b with
    | negate b =>
      obtain ⟨rfl, hu⟩ := ih b us vs h
      exact ⟨rfl, hu⟩
    | binary o two => cases hroot; exact absurd rfl two
    | _ => cases hroot
  | binary o two a b iha ihb =>
    intro c us vs h
    obtain ⟨h, hroot⟩ := eq_of_append_rpn_eq h
    cases c with
    | negate => cases hroot; exact absurd rfl two
    | binary p two' c d =>
      cases hroot
      rw [operandsRpn, operandsRpn, ← List.append_assoc, ← List.append_assoc] at h
      obtain ⟨rfl, hleft⟩ := ihb d _ _ h
      obtain ⟨rfl, hu⟩ := iha c us vs hleft
      exact ⟨rfl, hu⟩
    | _ => cases hroot

/-- **Reverse Polish notation needs no parentheses.** Two trees with one list are
one tree. -/
theorem rpn_injective {a b : Expr} (h : a.rpn = b.rpn) : a = b := (rpn_append_inj a b [] [] h).1

/-! ### The lists of trees -/

/-- The tokens of a stack of trees, the top one last. -/
def stackRpn (stack : List Expr) : List Token := stack.reverse.flatMap rpn

theorem stackRpn_cons (t : Expr) (stack : List Expr) :
    stackRpn (t :: stack) = stackRpn stack ++ t.rpn := by
  simp [stackRpn]

/-- A token that finds its operands makes one tree of them. -/
theorem exists_stackRpn_cons {t : Token} (ht : t.isParenthesis = false) {stack : List Expr}
    (h : t.arity ≤ stack.length) :
    ∃ a : Expr, stackRpn (a :: stack.drop t.arity) = stackRpn stack ++ [t] := by
  cases t with
  | num v => exact ⟨num v, stackRpn_cons ..⟩
  | const c => exact ⟨const c, stackRpn_cons ..⟩
  | var v => exact ⟨var v, stackRpn_cons ..⟩
  | lpar | rpar => cases ht
  | func f =>
    obtain ⟨a, below, rfl⟩ := List.exists_cons_of_length_pos h
    refine ⟨func f a, ?_⟩
    rw [stackRpn_cons, stackRpn_cons, List.append_assoc]
    rfl
  | op o =>
    by_cases ho : o = .negate
    · subst ho
      obtain ⟨a, below, rfl⟩ := List.exists_cons_of_length_pos h
      refine ⟨negate a, ?_⟩
      rw [stackRpn_cons, stackRpn_cons, List.append_assoc]
      rfl
    · have harity : (Token.op o).arity = 2 := arity_op ho
      rw [harity] at h ⊢
      match stack, h with
      | b :: a :: below, _ =>
        refine ⟨binary o ho a b, ?_⟩
        rw [stackRpn_cons, stackRpn_cons, stackRpn_cons, rpn]
        simp

/-- Tokens that never find too few values make trees of what is on the stack and
of themselves. -/
theorem exists_stackRpn : ∀ (ts : List Token) (stack : List Expr) {n : Nat},
    (∀ t ∈ ts, t.isParenthesis = false) → depth stack.length ts = .ok n →
    ∃ trees : List Expr, trees.length = n ∧ stackRpn trees = stackRpn stack ++ ts
  | [], stack, n, _, hd => by
    cases hd
    exact ⟨stack, rfl, (List.append_nil _).symm⟩
  | t :: ts, stack, n, hp, hd => by
    by_cases hlt : stack.length < t.arity
    · rw [depth_cons_of_lt hlt] at hd
      cases hd
    · have hle := Nat.not_lt.mp hlt
      obtain ⟨a, ha⟩ := exists_stackRpn_cons (hp t List.mem_cons_self) hle
      rw [depth_cons_of_le hle] at hd
      have hlen : (a :: stack.drop t.arity).length = stack.length - t.arity + 1 := by simp
      obtain ⟨trees, hn, htrees⟩ := exists_stackRpn ts (a :: stack.drop t.arity)
        (fun s hs => hp s (List.mem_cons_of_mem t hs)) (hlen ▸ hd)
      refine ⟨trees, hn, ?_⟩
      rw [htrees, ha, List.append_assoc, List.singleton_append]

/-- **Which lists are those of a tree.** Those without a parenthesis on which the
count of values never runs short and ends at one. -/
theorem exists_rpn_iff {ts : List Token} :
    (∃ t : Expr, t.rpn = ts) ↔ (∀ t ∈ ts, t.isParenthesis = false) ∧ depth 0 ts = .ok 1 := by
  constructor
  · rintro ⟨t, rfl⟩
    exact ⟨isParenthesis_of_mem_rpn t, depth_rpn t⟩
  · rintro ⟨hp, hd⟩
    obtain ⟨trees, hlen, htrees⟩ := exists_stackRpn ts [] hp hd
    obtain ⟨t, rfl⟩ := List.length_eq_one_iff.mp hlen
    exact ⟨t, by simpa [stackRpn] using htrees⟩

end Expr

/-! ### The machine and the count -/

namespace Machine

variable {ctx : Context}

/-- A token that finds too few values is an error. -/
theorem step_of_length_lt {stack : List Number} {t : Token} (h : stack.length < t.arity) :
    step ctx stack t = .error (.missingOperand t) := by
  cases t with
  | func f =>
    have : stack = [] := List.length_eq_zero_iff.mp (Nat.lt_one_iff.mp h)
    rw [this]
    rfl
  | op o =>
    have : operate ctx stack (.op o) = .error (.missingOperand (.op o)) := if_pos h
    rw [step, this]
  | _ => exact absurd h (Nat.not_lt_zero _)

/-- What a token leaves of the stack is all but its operands. -/
theorem operate_eq_ok {stack below : List Number} {t : Token} {v : Number}
    (h : operate ctx stack t = .ok (v, below)) :
    t.isParenthesis = false ∧ t.arity ≤ stack.length ∧ below = stack.drop t.arity := by
  cases t with
  | num | const | var =>
    cases h
    exact ⟨rfl, Nat.zero_le _, rfl⟩
  | lpar | rpar => cases h
  | func f =>
    match stack, h with
    | a :: rest, h =>
      obtain ⟨_, _, hpair⟩ := map_eq_ok_iff.mp h
      cases hpair
      exact ⟨rfl, Nat.le_add_left .., rfl⟩
  | op o =>
    change (if stack.length < o.arity then Except.error (EvalError.missingOperand (Token.op o))
      else (o.apply (stack.take o.arity).reverse).map (·, stack.drop o.arity)) = _ at h
    split at h
    · cases h
    · rename_i hlen
      obtain ⟨_, _, hpair⟩ := map_eq_ok_iff.mp h
      cases hpair
      exact ⟨rfl, Nat.not_lt.mp hlen, rfl⟩

theorem length_of_step {stack next : List Number} {t : Token} (h : step ctx stack t = .ok next) :
    t.isParenthesis = false ∧ t.arity ≤ stack.length ∧
      next.length = stack.length - t.arity + 1 := by
  unfold step at h
  split at h
  · cases h
  · rename_i v below hop
    obtain ⟨hp, hle, rfl⟩ := operate_eq_ok hop
    obtain ⟨_, _, rfl⟩ := map_eq_ok_iff.mp h
    exact ⟨hp, hle, by simp⟩

/-- A run that comes to its end has met no parenthesis, and the count of its
values is the count of the list. -/
theorem depth_of_run : ∀ {ts : List Token} {stack last : List Number},
    run ctx stack ts = .ok last →
    (∀ t ∈ ts, t.isParenthesis = false) ∧ depth stack.length ts = .ok last.length
  | [], stack, last, h => by
    cases h
    exact ⟨fun _ ht => absurd ht List.not_mem_nil, rfl⟩
  | t :: ts, stack, last, h => by
    unfold run at h
    split at h
    · cases h
    · rename_i next hstep
      obtain ⟨hp, hle, hlen⟩ := length_of_step hstep
      obtain ⟨hps, hd⟩ := depth_of_run h
      refine ⟨List.forall_mem_cons.mpr ⟨hp, hps⟩, ?_⟩
      rw [depth_cons_of_le hle, ← hlen, hd]

/-- No token of the list fails where it finds its operands: no application is an
error, no value is undefined, and no token is a parenthesis. -/
def Smooth (ctx : Context) : List Number → List Token → Prop
  | _, [] => True
  | stack, t :: ts =>
    t.arity ≤ stack.length → ∃ next, step ctx stack t = .ok next ∧ Smooth ctx next ts

/-- A smooth run goes as the count of its values goes. -/
theorem run_of_smooth : ∀ {ts : List Token} {stack : List Number}, Smooth ctx stack ts →
    (∃ t, depth stack.length ts = .error t ∧ run ctx stack ts = .error (.missingOperand t)) ∨
      ∃ last, depth stack.length ts = .ok last.length ∧ run ctx stack ts = .ok last
  | [], stack, _ => .inr ⟨stack, rfl, rfl⟩
  | t :: ts, stack, h => by
    by_cases hlt : stack.length < t.arity
    · refine .inl ⟨t, depth_cons_of_lt hlt ts, ?_⟩
      rw [run, step_of_length_lt hlt]
    · have hle := Nat.not_lt.mp hlt
      obtain ⟨next, hstep, hsmooth⟩ := h hle
      have hlen := (length_of_step hstep).2.2
      rw [depth_cons_of_le hle, ← hlen, run, hstep]
      exact run_of_smooth hsmooth

end Machine

/-- How a list fails that is not the list of a tree, unless a value on the way
fails first. -/
def countError (ts : List Token) : EvalError :=
  match depth 0 ts with
  | .error t => .missingOperand t
  | .ok n => .valuesLeft n

/-- **The machine accepts the lists of trees only.** -/
theorem exists_rpn_of_evalRpn_eq_ok {ctx : Context} {ts : List Token} {v : Number}
    (h : evalRpn ctx ts = .ok v) : ∃ t : Expr, t.rpn = ts := by
  unfold evalRpn at h
  split at h
  · cases h
  · rename_i stack hrun
    have hd := Machine.depth_of_run hrun
    unfold Machine.result at h
    split at h
    · exact Expr.exists_rpn_iff.mpr hd
    · cases h

theorem evalRpn_of_smooth {ctx : Context} {ts : List Token} (h : Machine.Smooth ctx [] ts)
    (hne : ∀ t : Expr, t.rpn ≠ ts) : evalRpn ctx ts = .error (countError ts) := by
  rcases Machine.run_of_smooth h with ⟨t, hd, hrun⟩ | ⟨stack, hd, hrun⟩
  · change depth 0 ts = _ at hd
    rw [evalRpn, hrun, countError, hd]
  · change depth 0 ts = _ at hd
    rw [evalRpn, hrun, countError, hd]
    rcases stack with _ | ⟨v, _ | ⟨w, below⟩⟩
    · rfl
    · obtain ⟨t, ht⟩ := Expr.exists_rpn_iff.mpr (Machine.depth_of_run hrun)
      exact absurd ht (hne t)
    · rfl

end Calculator
