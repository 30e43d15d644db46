/-
# Infix expressions are arranged into their trees

While the tokens of an expression are read, part of its tree goes out and the
rest waits on top of the stack, in `held`; out and held together are the tree in
reverse Polish notation (`Waiting.Reads`). What is held of a closed expression
are operators only, none looser than the expression's level (`Holds`), so the
next operator lets all of them out and nothing below them. A function held on
the stack stops both: operators stay above it until its group ends, and a group
that ends right above it takes it along.

Key definitions: `Waiting.Sends`, `Waiting.Reads`, `Level.floor`, `Holds`,
`Level.Admits`.
Key theorems: `Waiting.Reads.binary`, `Parses.reads`, `toRpn_of_parses`.
-/
import Calculator.Proofs.Grammar
import Calculator.Proofs.Postfix
import Calculator.Rpn.Order

namespace Calculator

@[simp] theorem released_nil : released [] = [] := rfl

@[simp] theorem released_op_cons (o : Operator) (stack : List Pending) :
    released (.op o :: stack) = .op o :: released stack := rfl

@[simp] theorem released_append (stack below : List Pending) :
    released (stack ++ below) = released stack ++ released below := List.filterMap_append ..

namespace Waiting

/-! ### Reading tokens -/

/-- Reading the tokens sends `out` out and leads from one state to another,
whatever comes after. -/
def Sends (w : Waiting) (ts out : List Token) (next : Waiting) : Prop :=
  ∀ rest, w.arrange (ts ++ rest) = (next.arrange rest).map (out ++ ·)

theorem Sends.nil (w : Waiting) : w.Sends [] [] w := fun rest => by
  cases h : w.arrange rest <;> simp [h, Except.map]

theorem Sends.of_step {w next : Waiting} {t : Token} {out : List Token}
    (h : w.step t = .ok (out, next)) : w.Sends [t] out next := fun rest => arrange_cons h rest

theorem Sends.trans {w w' next : Waiting} {ts us out out' : List Token} (h : w.Sends ts out w')
    (h' : w'.Sends us out' next) : w.Sends (ts ++ us) (out ++ out') next := fun rest => by
  rw [List.append_assoc, h, h']
  cases next.arrange rest <;> simp [Except.map]

theorem Sends.cons {w w' next : Waiting} {t : Token} {us out out' : List Token}
    (h : w.step t = .ok (out, w')) (h' : w'.Sends us out' next) :
    w.Sends (t :: us) (out ++ out') next := Sends.trans (Sends.of_step h) h'

/-- A token that sends nothing. -/
theorem Sends.cons_silent {w w' next : Waiting} {t : Token} {us out : List Token}
    (h : w.step t = .ok ([], w')) (h' : w'.Sends us out next) : w.Sends (t :: us) out next :=
  Sends.cons h h'

/-- Pluses where a value is awaited send nothing and change nothing. -/
theorem sends_pluses (stack : List Pending) :
    ∀ n : Nat, Sends ⟨stack, false⟩ (List.replicate n (.op .plus)) [] ⟨stack, false⟩
  | 0 => Sends.nil _
  | n + 1 => by
    have hplus : step ⟨stack, false⟩ (.op .plus) = .ok ([], ⟨stack, false⟩) := rfl
    exact Sends.cons_silent hplus (sends_pluses stack n)

/-- An operator after a value lets out what binds tighter, and waits itself. -/
theorem step_op {held stack : List Pending} {o : Operator}
    (hheld : ∀ p ∈ held, p.precedes o = true) (hstack : stack.takeWhile (Pending.precedes o) = []) :
    step ⟨held ++ stack, true⟩ (.op o) = .ok (released held, ⟨.op o :: stack, false⟩) := by
  have hdrop : stack.dropWhile (Pending.precedes o) = stack := by
    have := List.takeWhile_append_dropWhile (p := Pending.precedes o) (l := stack)
    rwa [hstack, List.nil_append] at this
  simp [step, List.takeWhile_append_of_pos hheld, List.dropWhile_append_of_pos hheld, hstack, hdrop]

theorem dropWhile_held {held : List Pending} (hheld : .group ∉ held) (stack : List Pending) :
    (held ++ .group :: stack).takeWhile (· ≠ .group) = held ∧
      (held ++ .group :: stack).dropWhile (· ≠ .group) = .group :: stack := by
  have hne : ∀ p ∈ held, decide (p ≠ .group) = true := fun p hp =>
    decide_eq_true fun he => hheld (he ▸ hp)
  rw [List.takeWhile_append_of_pos hne, List.dropWhile_append_of_pos hne]
  simp

/-- A group ends where no function waits for it. -/
theorem step_rpar {held stack : List Pending} (afterValue : Bool) (hheld : .group ∉ held)
    (hstack : ∀ f, stack.head? ≠ some (.func f)) :
    step ⟨held ++ .group :: stack, afterValue⟩ .rpar = .ok (released held, ⟨stack, true⟩) := by
  obtain ⟨htake, hdrop⟩ := dropWhile_held hheld stack
  rw [step, closeGroup, htake, hdrop]
  cases stack with
  | nil => rfl
  | cons p stack =>
    cases p with
    | op | group => rfl
    | func f => exact absurd rfl (hstack f)

/-- A group ends right above the function that waits for it. -/
theorem step_rpar_func {held : List Pending} (afterValue : Bool) (hheld : .group ∉ held)
    (f : Func) (stack : List Pending) :
    step ⟨held ++ .group :: .func f :: stack, afterValue⟩ .rpar =
      .ok (released held ++ [.func f], ⟨stack, true⟩) := by
  obtain ⟨htake, hdrop⟩ := dropWhile_held hheld (.func f :: stack)
  rw [step, closeGroup, htake, hdrop]
  rfl

/-! ### Reading an expression -/

/-- The tokens of an expression, read where a value is awaited: part of the tree
goes out and the rest is held on the stack. -/
structure Reads (stack : List Pending) (ts : List Token) (t : Expr) (held : List Pending) :
    Prop where
  noGroup : .group ∉ held
  sends : ∃ out, Sends ⟨stack, false⟩ ts out ⟨held ++ stack, true⟩ ∧ out ++ released held = t.rpn

theorem Reads.atom {stack : List Pending} {s : Token} {t : Expr} (ht : t.rpn = [s])
    (hs : step ⟨stack, false⟩ s = .ok ([s], ⟨stack, true⟩)) : Reads stack [s] t [] :=
  ⟨List.not_mem_nil, [s], Sends.of_step hs, ht.symm⟩

theorem Reads.group {stack held : List Pending} {ts : List Token} {t : Expr}
    (hstack : ∀ f, stack.head? ≠ some (.func f)) (inner : Reads (.group :: stack) ts t held) :
    Reads stack (.lpar :: (ts ++ [.rpar])) t [] := by
  obtain ⟨out, hsends, hout⟩ := inner.sends
  have hopen : step ⟨stack, false⟩ .lpar = .ok ([], ⟨.group :: stack, false⟩) := rfl
  have hclose := Sends.of_step (step_rpar true inner.noGroup hstack)
  refine ⟨List.not_mem_nil, out ++ released held, Sends.cons_silent hopen (hsends.trans hclose), ?_⟩
  rw [released_nil, List.append_nil, hout]

theorem Reads.call {stack held : List Pending} {ts : List Token} {t : Expr} (f : Func)
    (pluses : Nat) (argument : Reads (.group :: .func f :: stack) ts t held) :
    Reads stack (.func f :: (List.replicate pluses (.op .plus) ++ .lpar :: (ts ++ [.rpar])))
      (.func f t) [] := by
  obtain ⟨out, hsends, hout⟩ := argument.sends
  have hfunc : step ⟨stack, false⟩ (.func f) = .ok ([], ⟨.func f :: stack, false⟩) := rfl
  have hopen : step ⟨.func f :: stack, false⟩ .lpar =
    .ok ([], ⟨.group :: .func f :: stack, false⟩) := rfl
  have hclose := Sends.of_step (step_rpar_func true argument.noGroup f stack)
  refine ⟨List.not_mem_nil, out ++ (released held ++ [.func f]),
    Sends.cons_silent hfunc ((sends_pluses _ pluses).trans (Sends.cons_silent hopen (hsends.trans hclose))), ?_⟩
  rw [released_nil, List.append_nil, ← List.append_assoc, hout, Expr.rpn]

/-- A function without parentheses waits below its argument. -/
theorem Reads.bareCall {stack held : List Pending} {ts : List Token} {t : Expr} (f : Func)
    (argument : Reads (.func f :: stack) ts t held) :
    Reads stack (.func f :: ts) (.func f t) (held ++ [.func f]) := by
  obtain ⟨out, hsends, hout⟩ := argument.sends
  have hfunc : step ⟨stack, false⟩ (.func f) = .ok ([], ⟨.func f :: stack, false⟩) := rfl
  refine ⟨by simpa using argument.noGroup, out, ?_, ?_⟩
  · rw [List.append_assoc]
    exact Sends.cons_silent hfunc hsends
  · rw [released_append, ← List.append_assoc, hout, Expr.rpn]
    rfl

/-- So does a prefix minus below its operand. -/
theorem Reads.negate {stack held : List Pending} {ts : List Token} {t : Expr}
    (operand : Reads (.op .negate :: stack) ts t held) :
    Reads stack (.op .minus :: ts) (.negate t) (held ++ [.op .negate]) := by
  obtain ⟨out, hsends, hout⟩ := operand.sends
  have hminus : step ⟨stack, false⟩ (.op .minus) =
    .ok ([], ⟨.op .negate :: stack, false⟩) := rfl
  refine ⟨by simpa using operand.noGroup, out, ?_, ?_⟩
  · rw [List.append_assoc]
    exact Sends.cons_silent hminus hsends
  · rw [released_append, ← List.append_assoc, hout, Expr.rpn]
    rfl

theorem Reads.plus {stack held : List Pending} {ts : List Token} {t : Expr}
    (operand : Reads stack ts t held) : Reads stack (.op .plus :: ts) t held := by
  obtain ⟨out, hsends, hout⟩ := operand.sends
  have hplus : step ⟨stack, false⟩ (.op .plus) = .ok ([], ⟨stack, false⟩) := rfl
  exact ⟨operand.noGroup, out, Sends.cons_silent hplus hsends, hout⟩

/-- An operator on two operands: it lets out what is held of the left one and
nothing else, and waits below the right one. -/
theorem Reads.binary {stack held held' : List Pending} {ts us : List Token} {a b : Expr}
    {o : Operator} (two : o ≠ .negate) (left : Reads stack ts a held)
    (hheld : ∀ p ∈ held, p.precedes o = true)
    (hstack : stack.takeWhile (Pending.precedes o) = [])
    (right : Reads (.op o :: stack) us b held') :
    Reads stack (ts ++ .op o :: us) (.binary o two a b) (held' ++ [.op o]) := by
  obtain ⟨out, hsends, hout⟩ := left.sends
  obtain ⟨out', hsends', hout'⟩ := right.sends
  refine ⟨by simpa using right.noGroup, out ++ (released held ++ out'), ?_, ?_⟩
  · rw [List.append_assoc]
    exact hsends.trans (Sends.cons (step_op hheld hstack) hsends')
  · rw [released_append, Expr.rpn, ← hout, ← hout']
    simp

end Waiting

/-! ### The levels and the stack -/

/-- No operator that is held of a closed expression of the level is looser than
this. -/
def Level.floor : Level → Nat
  | .sum => 1
  | .product => 2
  | .signed | .power => 3
  | .atom => 4

/-- What is held of a closed expression of the level: operators, and none of them
looser than the level. -/
def Holds (l : Level) (held : List Pending) : Prop :=
  ∀ p ∈ held, ∃ o, p = .op o ∧ l.floor ≤ o.precedence

theorem Holds.mono {l l' : Level} {held : List Pending} (h : Holds l held)
    (hle : l'.floor ≤ l.floor) : Holds l' held := fun p hp => by
  obtain ⟨o, rfl, ho⟩ := h p hp
  exact ⟨o, rfl, Nat.le_trans hle ho⟩

theorem Holds.append {l : Level} {held : List Pending} {o : Operator} (h : Holds l held)
    (ho : l.floor ≤ o.precedence) : Holds l (held ++ [.op o]) := fun p hp => by
  rcases List.mem_append.mp hp with hp | hp
  · exact h p hp
  · exact ⟨o, List.mem_singleton.mp hp, ho⟩

/-- An expression of the level may be read on the stack: if the level has
operators that group to the left, the operator on top of the stack is looser. -/
def Level.Admits (l : Level) (stack : List Pending) : Prop :=
  l.floor < 3 → ∀ o, stack.head? = some (.op o) → o.precedence < l.floor

theorem Level.admits_cons {l : Level} {p : Pending} (stack : List Pending)
    (hp : ∀ o, p = .op o → o.precedence < l.floor) : l.Admits (p :: stack) :=
  fun _ o ho => hp o (Option.some.inj ho)

theorem Level.admits_of_floor {l : Level} (hl : 3 ≤ l.floor) (stack : List Pending) :
    l.Admits stack := fun h => absurd h (Nat.not_lt.mpr hl)

theorem Level.Admits.mono {l l' : Level} {stack : List Pending} (h : l.Admits stack)
    (hle : l.floor ≤ l'.floor) : l'.Admits stack := fun hlt o ho =>
  Nat.lt_of_lt_of_le (h (Nat.lt_of_le_of_lt hle hlt) o ho) hle

/-- What is held of a left operand goes out before the operator. -/
theorem Holds.precedes {l : Level} {held : List Pending} {o : Operator} (h : Holds l held)
    (ho : o.precedence < l.floor ∨ o.precedence = l.floor ∧ o.associativity = .left) :
    ∀ p ∈ held, p.precedes o = true := fun p hp => by
  obtain ⟨earlier, rfl, hearlier⟩ := h p hp
  change o.waitsFor earlier = true
  unfold Operator.waitsFor
  split
  · exact decide_eq_true (by omega)
  · rename_i hassoc
    rcases ho with ho | ⟨-, ho⟩
    · exact decide_eq_true (by omega)
    · rw [ho] at hassoc
      cases hassoc

theorem takeWhile_precedes_eq_nil {stack : List Pending} {o : Operator}
    (h : ∀ earlier, stack.head? = some (.op earlier) → o.waitsFor earlier = false) :
    stack.takeWhile (Pending.precedes o) = [] := by
  match stack with
  | [] => rfl
  | .op earlier :: below =>
    have hfalse : Pending.precedes o (.op earlier) = false := h earlier rfl
    simp [hfalse]
  | .func _ :: _ | .group :: _ => rfl

/-- What is below a left operand stays there. -/
theorem Level.Admits.takeWhile_precedes {l : Level} {stack : List Pending} {o : Operator}
    (h : l.Admits stack) (hl : l.floor < 3) (ho : o.precedence = l.floor)
    (hassoc : o.associativity = .left) : stack.takeWhile (Pending.precedes o) = [] :=
  takeWhile_precedes_eq_nil fun earlier hearlier => by
    have hlt := h hl earlier hearlier
    unfold Operator.waitsFor
    rw [hassoc]
    exact decide_eq_false (by omega)

/-- Nothing binds tighter than the power. -/
theorem takeWhile_precedes_power (stack : List Pending) :
    stack.takeWhile (Pending.precedes .power) = [] :=
  takeWhile_precedes_eq_nil fun earlier _ => by cases earlier <;> rfl

/-- An operator that groups to the left takes what is held of its left operand and
is held itself with its right one. -/
theorem exists_reads_left {l r : Level} {x : Extent} {stack held held' : List Pending}
    {ts us : List Token} {a b : Expr} {o : Operator} (two : o ≠ .negate) (hl : l.floor < 3)
    (hlr : l.floor ≤ r.floor) (ho : o.precedence = l.floor ∧ o.associativity = .left)
    (hadmits : l.Admits stack) (left : Waiting.Reads stack ts a held) (hholds : Holds l held)
    (right : Waiting.Reads (.op o :: stack) us b held') (hholds' : x = .closed → Holds r held') :
    ∃ held'', Waiting.Reads stack (ts ++ .op o :: us) (.binary o two a b) held'' ∧
      (x = .closed → Holds l held'') := by
  have htake := hadmits.takeWhile_precedes hl ho.1 ho.2
  refine ⟨_, .binary two left (hholds.precedes (.inr ho)) htake right, fun hx => ?_⟩
  exact ((hholds' hx).mono hlr).append (Nat.le_of_eq ho.1.symm)

/-- **Expressions are read as their trees.** The induction is on the derivation;
an expression that opens a group must not stand right after a function, which
would take that group for its argument. -/
theorem Parses.reads {l : Level} {x : Extent} {ts : List Token} {t : Expr} (h : Parses l x ts t) :
    ∀ {stack : List Pending}, l.Admits stack →
      (∀ f, stack.head? = some (.func f) → ¬ OpensGroup ts) →
      ∃ held, Waiting.Reads stack ts t held ∧ (x = .closed → Holds l held) := by
  induction h with
  | num | const | var =>
    intro stack _ _
    exact ⟨[], .atom rfl rfl, fun _ p hp => absurd hp List.not_mem_nil⟩
  | group _ ih =>
    intro stack _ hfunc
    obtain ⟨held, hreads, -⟩ := ih (Level.admits_cons (p := .group) stack fun o ho => by cases ho)
      (fun f hf => by cases hf)
    refine ⟨[], .group (fun f hf => ?_) hreads, fun _ p hp => absurd hp List.not_mem_nil⟩
    exact hfunc f hf (opensGroup_lpar_cons _)
  | call f pluses _ ih =>
    intro stack _ _
    obtain ⟨held, hreads, -⟩ := ih
      (Level.admits_cons (p := .group) (.func f :: stack) fun o ho => by cases ho)
      (fun g hg => by cases hg)
    exact ⟨[], .call f pluses hreads, fun _ p hp => absurd hp List.not_mem_nil⟩
  | bareCall f _ bare ih =>
    intro stack _ _
    obtain ⟨held, hreads, -⟩ := ih (Level.admits_cons (p := .func f) stack fun o ho => by cases ho)
      (fun g _ => bare)
    exact ⟨_, .bareCall f hreads, fun hx => by cases hx⟩
  | atom _ ih =>
    intro stack _ hfunc
    obtain ⟨held, hreads, hholds⟩ := ih (Level.admits_of_floor (by decide) stack) hfunc
    exact ⟨held, hreads, fun hx => (hholds hx).mono (by decide)⟩
  | power two _ _ ihleft ihright =>
    intro stack _ hfunc
    obtain ⟨held, hleft, hholds⟩ := ihleft (Level.admits_of_floor (by decide) stack)
      (fun f hf hopens => hfunc f hf (hopens.append _))
    obtain ⟨held', hright, hholds'⟩ := ihright
      (Level.admits_of_floor (by decide) (.op .power :: stack)) (fun f hf => by cases hf)
    refine ⟨_, .binary two hleft ?_ (takeWhile_precedes_power stack) hright, fun hx => ?_⟩
    · exact (hholds rfl).precedes (.inl (by decide))
    · exact (hholds' hx).append (by decide)
  | unsigned _ ih =>
    intro stack hadmits hfunc
    obtain ⟨held, hreads, hholds⟩ := ih (hadmits.mono (by decide)) hfunc
    exact ⟨held, hreads, fun hx => (hholds hx).mono (by decide)⟩
  | minus _ ih =>
    intro stack _ _
    obtain ⟨held, hreads, hholds⟩ := ih
      (Level.admits_of_floor (by decide) (.op .negate :: stack)) (fun f hf => by cases hf)
    exact ⟨_, .negate hreads, fun hx => (hholds hx).append (by decide)⟩
  | plus _ ih =>
    intro stack hadmits hfunc
    obtain ⟨held, hreads, hholds⟩ := ih hadmits
      (fun f hf hopens => hfunc f hf ((opensGroup_plus_cons _).mpr hopens))
    exact ⟨held, .plus hreads, hholds⟩
  | factor _ ih | term _ ih =>
    intro stack hadmits hfunc
    obtain ⟨held, hreads, hholds⟩ := ih (hadmits.mono (by decide)) hfunc
    exact ⟨held, hreads, fun hx => (hholds hx).mono (by decide)⟩
  | @product _ _ _ _ _ o ho two _ _ ihleft ihright =>
    intro stack hadmits hfunc
    have hlevel : o.precedence = 2 ∧ o.associativity = .left := by
      rcases ho with rfl | rfl | rfl <;> exact ⟨rfl, rfl⟩
    obtain ⟨held, hleft, hholds⟩ := ihleft hadmits
      (fun f hf hopens => hfunc f hf (hopens.append _))
    obtain ⟨held', hright, hholds'⟩ := ihright
      (Level.admits_of_floor (by decide) (.op o :: stack)) (fun f hf => by cases hf)
    exact exists_reads_left two (by decide) (by decide) hlevel hadmits hleft (hholds rfl) hright
      hholds'
  | @sum _ _ _ _ _ o ho two _ _ ihleft ihright =>
    intro stack hadmits hfunc
    have hlevel : o.precedence = 1 ∧ o.associativity = .left := by
      rcases ho with rfl | rfl <;> exact ⟨rfl, rfl⟩
    obtain ⟨held, hleft, hholds⟩ := ihleft hadmits
      (fun f hf hopens => hfunc f hf (hopens.append _))
    obtain ⟨held', hright, hholds'⟩ := ihright
      (Level.admits_cons (p := .op o) stack fun p hp => by cases hp; rw [hlevel.1]; decide)
      (fun f hf => by cases hf)
    exact exists_reads_left two (by decide) (by decide) hlevel hadmits hleft (hholds rfl) hright
      hholds'

/-- An expression read from the start is finished with its tree. -/
theorem arrange_of_parses {x : Extent} {ts : List Token} {t : Expr} (h : Parses .sum x ts t) :
    Waiting.arrange {} ts = .ok t.rpn := by
  have hadmits : Level.Admits .sum [] := fun _ _ ho => by cases ho
  obtain ⟨held, ⟨hgroup, out, hsends, hout⟩, -⟩ := h.reads hadmits fun _ hf => by cases hf
  have hrun := hsends []
  rw [List.append_nil, List.append_nil] at hrun
  rw [hrun, Waiting.arrange_nil, finish, if_neg hgroup, ← hout]
  rfl

/-- **The arrangement of an expression is its tree.** The tokens of every
expression of the language, arranged in reverse Polish notation, are the list of
its tree; so it has one tree only. -/
theorem toRpn_of_parses {x : Extent} {ts : List Token} {t : Expr} (h : Parses .sum x ts t) :
    toRpn ts = .ok t.rpn ∧ ∀ x' t', Parses .sum x' ts t' → t' = t := by
  refine ⟨arrange_of_parses h, fun x' t' h' => ?_⟩
  have heq := (arrange_of_parses h').symm.trans (arrange_of_parses h)
  exact Expr.rpn_injective (Except.ok.inj heq)

/-- `-2^-3^2 * sin(x) - ln y + 1`: the powers group to the right and before the
signs, and the logarithm takes the sum. -/
theorem toRpn_signed_powers_and_bare_logarithm :
    toRpn [.op .minus, .num 2, .op .power, .op .minus, .num 3, .op .power, .num 2, .op .times,
        .func .sin, .lpar, .var .x, .rpar, .op .minus, .func .ln, .var .y, .op .plus, .num 1] =
      .ok [.num 2, .num 3, .num 2, .op .power, .op .negate, .op .power, .op .negate, .var .x,
        .func .sin, .op .times, .var .y, .num 1, .op .plus, .func .ln, .op .minus] := by
  have hpower : Parses .signed .closed [.num 3, .op .power, .num 2] _ :=
    .unsigned (.power (by decide) (.num 3) (.unsigned (.atom (.num 2))))
  have hfactor : Parses .signed .closed
      [.op .minus, .num 2, .op .power, .op .minus, .num 3, .op .power, .num 2] _ :=
    .minus (.unsigned (.power (by decide) (.num 2) (.minus hpower)))
  have hsin : Parses .signed .closed [.func .sin, .lpar, .var .x, .rpar] _ :=
    .unsigned (.atom (.call .sin 0 (Parses.sum_of_atom (.var .x))))
  have hargument : Parses .sum .closed [.var .y, .op .plus, .num 1] _ :=
    .sum (.inl rfl) (by decide) (Parses.sum_of_atom (.var .y))
      (.factor (.unsigned (.atom (.num 1))))
  have hln : Parses .product .toEnd [.func .ln, .var .y, .op .plus, .num 1] _ :=
    .factor (.unsigned (.atom (.bareCall .ln hargument (by decide))))
  exact (toRpn_of_parses (.sum (.inr rfl) (by decide)
    (.term (.product (.inl rfl) (by decide) (.factor hfactor) hsin)) hln)).1

end Calculator
