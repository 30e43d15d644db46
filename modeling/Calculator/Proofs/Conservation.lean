/-
# Nothing is lost in the arrangement

What goes out in reverse Polish notation is what came in, in another order:
without parentheses, without the pluses that are prefixes, and with the prefix
minus for the minuses that are (`Waiting.arrange_perm`). Whether a sign is a prefix is
seen from the token before it. Nothing but parentheses can stop the arrangement
(`Waiting.arrange_cases`). Counting values gives its balance: every operand that
stands right after a value is one value too many in it, and every missing operand
one too few (`length_symbols`).

Key definitions: `Token.emitted`, `symbols`, `Waiting.Move`.
Key theorems: `closeGroup_cases`, `Waiting.step_eq_ok_iff`, `Waiting.step_emits`,
`Waiting.arrange_perm`, `Waiting.arrange_cases`, `length_symbols`,
`juxtapositions_eq_omissions_of_toRpn`.
-/
import Mathlib.Algebra.Ring.Nat
import Calculator.Proofs.Arrangement
import Calculator.Proofs.Placement

namespace Calculator

/-- What the token becomes in reverse Polish notation. -/
def Token.emitted (afterValue : Bool) : Token → List Token
  | lpar | rpar => []
  | op .plus => if afterValue then [op .plus] else []
  | op .minus => if afterValue then [op .minus] else [op .negate]
  | t => [t]

/-- What the tokens become, in the order of the tokens. -/
def symbols (afterValue : Bool) : List Token → List Token
  | [] => []
  | t :: ts => t.emitted afterValue ++ symbols t.isValue ts

/-- A sign is read by the token right before it. -/
theorem symbols_append (us : List Token) : ∀ (ts : List Token) (afterValue : Bool),
    symbols afterValue (ts ++ us) = symbols afterValue ts ++
      symbols ((ts.getLast?.map Token.isValue).getD afterValue) us
  | [], _ => rfl
  | t :: ts, afterValue => by
    rw [List.cons_append, symbols, symbols_append us ts, symbols, List.append_assoc,
      List.getLast?_cons]
    cases ts.getLast? <;> rfl

theorem Token.eq_or_eq_negate_of_mem_emitted {afterValue : Bool} {s t : Token}
    (h : t ∈ s.emitted afterValue) : t = s ∨ t = .op .negate := by
  unfold emitted at h
  split at h
  · cases h
  · cases h
  · split at h
    · exact .inl (List.mem_singleton.mp h)
    · cases h
  · split at h
    · exact .inl (List.mem_singleton.mp h)
    · exact .inr (List.mem_singleton.mp h)
  · exact .inl (List.mem_singleton.mp h)

/-- A token that goes out came in, or is the prefix minus. -/
theorem mem_or_eq_negate_of_mem_symbols : ∀ {ts : List Token} {afterValue : Bool} {t : Token},
    t ∈ symbols afterValue ts → t ∈ ts ∨ t = .op .negate
  | [], _, _, h => by cases h
  | s :: ts, afterValue, t, h => by
    rcases List.mem_append.mp h with h | h
    · rcases Token.eq_or_eq_negate_of_mem_emitted h with rfl | rfl
      · exact .inl List.mem_cons_self
      · exact .inr rfl
    · exact (mem_or_eq_negate_of_mem_symbols h).imp_left (List.mem_cons_of_mem s)

/-! ### The stack keeps what it does not send -/

theorem released_takeWhile_append (p : Pending → Bool) (stack : List Pending) :
    released (stack.takeWhile p) ++ released (stack.dropWhile p) = released stack := by
  rw [← released_append, List.takeWhile_append_dropWhile]

/-- Taking no opening parenthesis off the stack leaves them all. -/
theorem count_group_dropWhile {p : Pending → Bool} (hp : p .group = false) (stack : List Pending) :
    (stack.dropWhile p).count .group = stack.count .group := by
  have htake : (stack.takeWhile p).count .group = 0 := by
    refine List.count_eq_zero.mpr fun hmem => ?_
    rw [List.all_eq_true.mp List.all_takeWhile _ hmem] at hp
    cases hp
  have hsplit := congrArg (List.count .group) (List.takeWhile_append_dropWhile (p := p) (l := stack))
  rwa [List.count_append, htake, Nat.zero_add] at hsplit

/-- **What a closing parenthesis does.** It sends out what is held above its partner,
and the function right below that one, if there is one. -/
theorem closeGroup_cases {stack below : List Pending} {out : List Token}
    (h : closeGroup stack = .ok (out, below)) :
    ∃ held outside, stack = held ++ .group :: outside ∧ .group ∉ held ∧
      ((∃ f, outside = .func f :: below ∧ out = released held ++ [.func f]) ∨
        ((∀ f, outside.head? ≠ some (.func f)) ∧ outside = below ∧ out = released held)) := by
  have hsplit := List.takeWhile_append_dropWhile (p := (· ≠ .group)) (l := stack)
  have hheld : .group ∉ stack.takeWhile (· ≠ .group) := fun hmem => by
    simpa using List.all_eq_true.mp List.all_takeWhile _ hmem
  have hhead := List.head?_dropWhile_not (· ≠ .group) stack
  unfold closeGroup at h
  cases hdrop : stack.dropWhile (· ≠ .group) with
  | nil =>
    rw [hdrop] at h
    cases h
  | cons p outside =>
    rw [hdrop] at h hhead hsplit
    have hp : p = .group := by simpa using hhead
    subst hp
    refine ⟨_, outside, hsplit.symm, hheld, ?_⟩
    match outside, h with
    | .func f :: outside, h =>
      cases h
      exact .inl ⟨f, rfl, rfl⟩
    | [], h | .op _ :: _, h | .group :: _, h =>
      cases h
      exact .inr ⟨fun f => by simp, rfl, rfl⟩

namespace Waiting

theorem step_of_isAtom {t : Token} (ht : t.isAtom = true) (w : Waiting) :
    w.step t = .ok ([t], ⟨w.stack, true⟩) := by
  cases t with
  | num | const | var => rfl
  | func | op | lpar | rpar => cases ht

/-- What a token does: the state it meets, the token, what it sends out, and the state
it leaves. -/
inductive Move : (w : Waiting) → (t : Token) → (out : List Token) → (next : Waiting) → Prop where
  | atom {stack : List Pending} {afterValue : Bool} {t : Token} (ht : t.isAtom = true) :
      Move ⟨stack, afterValue⟩ t [t] ⟨stack, true⟩
  | func {stack : List Pending} {afterValue : Bool} (f : Func) :
      Move ⟨stack, afterValue⟩ (.func f) [] ⟨.func f :: stack, false⟩
  | opening {stack : List Pending} {afterValue : Bool} :
      Move ⟨stack, afterValue⟩ .lpar [] ⟨.group :: stack, false⟩
  | closing {held below : List Pending} {afterValue : Bool} (hheld : .group ∉ held)
      (hbelow : ∀ f, below.head? ≠ some (.func f)) :
      Move ⟨held ++ .group :: below, afterValue⟩ .rpar (released held) ⟨below, true⟩
  /-- A closing parenthesis that ends the argument of a function. -/
  | call {held below : List Pending} {afterValue : Bool} (hheld : .group ∉ held) (f : Func) :
      Move ⟨held ++ .group :: .func f :: below, afterValue⟩ .rpar (released held ++ [.func f])
        ⟨below, true⟩
  | prefixPlus {stack : List Pending} : Move ⟨stack, false⟩ (.op .plus) [] ⟨stack, false⟩
  | prefixMinus {stack : List Pending} :
      Move ⟨stack, false⟩ (.op .minus) [] ⟨.op .negate :: stack, false⟩
  | operator {stack : List Pending} {afterValue : Bool} {o : Operator}
      (ho : afterValue = true ∨ o ≠ .plus ∧ o ≠ .minus) :
      Move ⟨stack, afterValue⟩ (.op o) (released (stack.takeWhile (Pending.precedes o)))
        ⟨.op o :: stack.dropWhile (Pending.precedes o), false⟩

variable {w next : Waiting} {t : Token} {out : List Token}

theorem move_of_step (h : w.step t = .ok (out, next)) : Move w t out next := by
  obtain ⟨stack, afterValue⟩ := w
  cases t with
  | num | const | var =>
    cases h
    exact .atom rfl
  | func f =>
    cases h
    exact .func f
  | lpar =>
    cases h
    exact .opening
  | rpar =>
    obtain ⟨⟨out', below⟩, hclose, hpair⟩ := map_eq_ok_iff.mp h
    cases hpair
    obtain ⟨held, outside, rfl, hheld, hcases⟩ := closeGroup_cases hclose
    rcases hcases with ⟨f, rfl, rfl⟩ | ⟨hbelow, rfl, rfl⟩
    · exact .call hheld f
    · exact .closing hheld hbelow
  | op o =>
    rcases step_op_cases ⟨stack, afterValue⟩ o with
      ⟨hvalue, rfl, hstep⟩ | ⟨hvalue, rfl, hstep⟩ | ⟨hvalue, hstep⟩ <;>
      cases h.symm.trans hstep
    · obtain rfl : afterValue = false := hvalue
      exact .prefixPlus
    · obtain rfl : afterValue = false := hvalue
      exact .prefixMinus
    · exact .operator hvalue

theorem Move.step (h : Move w t out next) : w.step t = .ok (out, next) := by
  cases h with
  | atom ht => exact step_of_isAtom ht _
  | func | opening => rfl
  | closing hheld hbelow => exact step_rpar _ hheld hbelow
  | call hheld f => exact step_rpar_func _ hheld f _
  | prefixPlus => exact step_plus rfl
  | prefixMinus => exact step_minus rfl
  | operator ho => exact step_operator ho

/-- **The moves are all that a token can do.** -/
theorem step_eq_ok_iff : w.step t = .ok (out, next) ↔ Move w t out next :=
  ⟨move_of_step, Move.step⟩

/-- What a step does: it keeps track of the value before it, sends or keeps what
the token becomes, and counts the open parentheses. -/
theorem step_emits (h : w.step t = .ok (out, next)) :
    next.afterValue = t.isValue ∧
      (out ++ released next.stack).Perm (released w.stack ++ t.emitted w.afterValue) ∧
      ∀ ts, balanced (w.stack.count .group) (t :: ts) = balanced (next.stack.count .group) ts := by
  cases step_eq_ok_iff.mp h with
  | @atom stack afterValue t ht =>
    have hemitted : t.emitted afterValue = [t] := by
      cases t <;> first | rfl | cases ht
    refine ⟨(Token.isValue_of_isAtom ht).symm, ?_, fun ts => ?_⟩
    · rw [hemitted]
      exact (List.perm_append_singleton ..).symm
    · cases t <;> first | rfl | cases ht
  | func f => exact ⟨rfl, (List.perm_append_singleton ..).symm, fun _ => rfl⟩
  | opening => exact ⟨rfl, .of_eq (List.append_nil _).symm, fun ts => by simp [balanced]⟩
  | @closing held below _ hheld =>
    refine ⟨rfl, .of_eq ?_, fun ts => ?_⟩
    · rw [released_append, Token.emitted, List.append_nil]
      rfl
    · simp [List.count_eq_zero.mpr hheld, balanced]
  | @call held below _ hheld f =>
    refine ⟨rfl, .of_eq ?_, fun ts => ?_⟩
    · rw [released_append, Token.emitted, List.append_nil, List.append_assoc]
      rfl
    · simp [List.count_eq_zero.mpr hheld, balanced]
  | prefixPlus => exact ⟨rfl, .of_eq (List.append_nil _).symm, fun _ => rfl⟩
  | prefixMinus => exact ⟨rfl, (List.perm_append_singleton ..).symm, fun _ => rfl⟩
  | @operator stack afterValue o ho =>
    have hemitted : (Token.op o).emitted afterValue = [.op o] := by
      cases afterValue <;> cases o <;> simp_all [Token.emitted]
    refine ⟨rfl, ?_, fun ts => ?_⟩
    · rw [hemitted, released_op_cons]
      refine List.perm_middle.trans ?_
      rw [released_takeWhile_append]
      exact (List.perm_append_singleton ..).symm
    · rw [List.count_cons_of_ne (by simp), count_group_dropWhile rfl]
      rfl

/-- What goes out from here to the end is what waits and what comes in. -/
theorem arrange_perm : ∀ {ts : List Token} {w : Waiting} {out : List Token},
    w.arrange ts = .ok out → out.Perm (released w.stack ++ symbols w.afterValue ts)
  | [], w, out, h => by
    rw [arrange_nil, finish] at h
    split at h <;> cases h
    exact .of_eq (List.append_nil _).symm
  | t :: ts, w, out, h => by
    unfold arrange at h
    split at h
    · cases h
    · rename_i sent next hstep
      obtain ⟨later, hlater, rfl⟩ := map_eq_ok_iff.mp h
      obtain ⟨hvalue, hperm, -⟩ := step_emits hstep
      have ih := arrange_perm hlater
      rw [hvalue] at ih
      refine (ih.append_left sent).trans ?_
      rw [← List.append_assoc, symbols, ← List.append_assoc]
      exact hperm.append_right _

/-- Only a closing parenthesis stops the arrangement on the way. -/
theorem step_eq_error {w : Waiting} {t : Token} {e : CalcError} (h : w.step t = .error e) :
    t = .rpar ∧ closeGroup w.stack = .error e := by
  cases t with
  | rpar => exact ⟨rfl, map_eq_error_iff.mp h⟩
  | op o =>
    rcases step_op_cases w o with ⟨-, -, hstep⟩ | ⟨-, -, hstep⟩ | ⟨-, hstep⟩ <;>
      cases h.symm.trans hstep
  | _ => cases h

/-- **The parentheses alone stop the arrangement.** The opening ones that wait are
counted with those of the tokens to come. -/
theorem arrange_cases : ∀ (ts : List Token) (w : Waiting),
    (balanced (w.stack.count .group) ts = true ∧ ∃ out, w.arrange ts = .ok out) ∨
      (balanced (w.stack.count .group) ts = false ∧ w.arrange ts = .error .unmatchedParentheses)
  | [], w => by
    rw [arrange_nil, finish]
    by_cases hgroup : Pending.group ∈ w.stack
    · have hopen : w.stack.count .group ≠ 0 := Nat.ne_of_gt (List.count_pos_iff.mpr hgroup)
      exact .inr ⟨beq_eq_false_iff_ne.mpr hopen, if_pos hgroup⟩
    · have hclosed : w.stack.count .group = 0 := List.count_eq_zero.mpr hgroup
      exact .inl ⟨beq_iff_eq.mpr hclosed, _, if_neg hgroup⟩
  | t :: ts, w => by
    cases hstep : w.step t with
    | error e =>
      obtain ⟨rfl, hclose⟩ := step_eq_error hstep
      obtain ⟨hgroup, rfl⟩ := (closeGroup_eq_error_iff ..).mp hclose
      rw [arrange, hstep, List.count_eq_zero.mpr hgroup]
      exact .inr ⟨rfl, rfl⟩
    | ok result =>
      obtain ⟨sent, next⟩ := result
      rw [(step_emits hstep).2.2 ts, arrange_cons hstep]
      rcases arrange_cases ts next with ⟨hbalanced, out, hout⟩ | ⟨hbalanced, herror⟩
      · exact .inl ⟨hbalanced, _, map_eq_ok_iff.mpr ⟨out, hout, rfl⟩⟩
      · exact .inr ⟨hbalanced, map_eq_error_iff.mpr herror⟩

end Waiting

/-! ### Counting values -/

/-- How a token changes the count of values, and the faults it meets. -/
theorem length_emitted {t : Token} (afterValue : Bool) (ht : t ≠ .op .negate) :
    (t.emitted afterValue).length + (!afterValue && t.endsOperand).toNat + afterValue.toNat =
      (afterValue && t.beginsOperand).toNat + ((t.emitted afterValue).map Token.arity).sum +
        t.isValue.toNat := by
  cases t with
  | op o => cases o <;> cases afterValue <;> first | rfl | exact absurd rfl ht
  | _ => cases afterValue <;> rfl

/-- Each operand right after a value leaves one value more at the end, and each
missing operand one less. -/
theorem length_symbols : ∀ {ts : List Token} {afterValue : Bool}, .op .negate ∉ ts →
    (symbols afterValue ts).length + omissions afterValue ts + afterValue.toNat =
      1 + juxtapositions afterValue ts + ((symbols afterValue ts).map Token.arity).sum
  | [], afterValue, _ => by cases afterValue <;> rfl
  | t :: ts, afterValue, hneg => by
    have ih := @length_symbols ts t.isValue fun h => hneg (List.mem_cons_of_mem t h)
    have ht := length_emitted afterValue fun h => hneg (h ▸ List.mem_cons_self)
    simp only [symbols, juxtapositions, omissions, List.length_append, List.map_append,
      List.sum_append]
    omega

theorem balanced_of_toRpn {ts out : List Token} (h : toRpn ts = .ok out) :
    balanced 0 ts = true := by
  rcases Waiting.arrange_cases ts {} with ⟨hbalanced, -⟩ | ⟨-, herror⟩
  · exact hbalanced
  · cases herror.symm.trans h

/-- **Faults cancel out or show.** If the arrangement of the tokens is the list of
a tree, as many operands stand right after a value as are missing elsewhere. -/
theorem juxtapositions_eq_omissions_of_toRpn {ts : List Token} {t : Expr}
    (hneg : .op .negate ∉ ts) (h : toRpn ts = .ok t.rpn) :
    juxtapositions false ts = omissions false ts := by
  have hperm : t.rpn.Perm (symbols false ts) := Waiting.arrange_perm h
  have hcount := @length_symbols ts false hneg
  have htree := length_add_of_depth t.depth_rpn
  have hlength := hperm.length_eq
  have harity := (hperm.map Token.arity).sum_nat
  simp only [Bool.toNat_false] at hcount
  omega

/-- If the arrangement of tokens that are no expression is the list of a tree,
both faults occur in them. -/
theorem juxtapositions_pos_of_toRpn {ts : List Token} {t : Expr} (hneg : .op .negate ∉ ts)
    (h : toRpn ts = .ok t.rpn) (hne : ¬ Derivable ts) : 0 < juxtapositions false ts := by
  refine Nat.pos_of_ne_zero fun hzero => hne ((derivable_iff ts).mpr ⟨hneg, hzero, ?_, ?_⟩)
  · rw [← juxtapositions_eq_omissions_of_toRpn hneg h, hzero]
  · exact balanced_of_toRpn h

end Calculator
