/-
# The infix language

The grammar of the calculator, on tokens:

    sum     ::= product | sum (+ | -) product
    product ::= signed | product (* | / | %) signed
    signed  ::= - signed | + signed | power
    power   ::= atom | atom ^ signed
    atom    ::= number | constant | variable | ( sum ) | function +* ( sum )

A prefix plus means nothing, also between a function and its parenthesis. A
function with no parenthesis after it takes the whole rest of its group as its
argument, so it can only be the last operand there: the expression then reaches
to the end of its group. `Parses` relates the tokens of an expression to its
tree.

Key definitions: `Level`, `Extent`, `OpensGroup`, `Parses`, `Derivable`.
Key theorem: `Parses.opensGroup_append_iff`.
-/
import Calculator.Expr

namespace Calculator

/-- The levels of the grammar, from the loosest to the tightest. -/
inductive Level where
  | sum
  | product
  | signed
  | power
  | atom
deriving DecidableEq, Repr

/-- How far an expression reaches. -/
inductive Extent where
  /-- It is complete, and an operator may follow. -/
  | closed
  /-- It ends with a function without parentheses, and nothing more can follow in
  its group. -/
  | toEnd
deriving DecidableEq, Repr

/-- Whether the tokens begin, after any number of pluses, with an opening
parenthesis. -/
def OpensGroup (ts : List Token) : Prop := (ts.dropWhile (· = .op .plus)).head? = some .lpar

instance (ts : List Token) : Decidable (OpensGroup ts) := inferInstanceAs (Decidable (_ = _))

/-- The tokens are an expression of the level, and this is its tree. -/
inductive Parses : Level → Extent → List Token → Expr → Prop where
  | num (v : Number) : Parses .atom .closed [.num v] (.num v)
  | const (c : Constant) : Parses .atom .closed [.const c] (.const c)
  | var (v : Variable) : Parses .atom .closed [.var v] (.var v)
  | group {x : Extent} {ts : List Token} {t : Expr} (inner : Parses .sum x ts t) :
      Parses .atom .closed (.lpar :: (ts ++ [.rpar])) t
  | call {x : Extent} {ts : List Token} {t : Expr} (f : Func) (pluses : Nat)
      (argument : Parses .sum x ts t) :
      Parses .atom .closed
        (.func f :: (List.replicate pluses (.op .plus) ++ .lpar :: (ts ++ [.rpar]))) (.func f t)
  | bareCall {x : Extent} {ts : List Token} {t : Expr} (f : Func) (argument : Parses .sum x ts t)
      (bare : ¬ OpensGroup ts) : Parses .atom .toEnd (.func f :: ts) (.func f t)
  | atom {x : Extent} {ts : List Token} {t : Expr} (h : Parses .atom x ts t) :
      Parses .power x ts t
  | power {x : Extent} {ts us : List Token} {a b : Expr} (two : .power ≠ Operator.negate)
      (left : Parses .atom .closed ts a) (right : Parses .signed x us b) :
      Parses .power x (ts ++ .op .power :: us) (.binary .power two a b)
  | unsigned {x : Extent} {ts : List Token} {t : Expr} (h : Parses .power x ts t) :
      Parses .signed x ts t
  | minus {x : Extent} {ts : List Token} {t : Expr} (h : Parses .signed x ts t) :
      Parses .signed x (.op .minus :: ts) (.negate t)
  | plus {x : Extent} {ts : List Token} {t : Expr} (h : Parses .signed x ts t) :
      Parses .signed x (.op .plus :: ts) t
  | factor {x : Extent} {ts : List Token} {t : Expr} (h : Parses .signed x ts t) :
      Parses .product x ts t
  | product {x : Extent} {ts us : List Token} {a b : Expr} {o : Operator}
      (ho : o = .times ∨ o = .divide ∨ o = .modulo) (two : o ≠ .negate)
      (left : Parses .product .closed ts a) (right : Parses .signed x us b) :
      Parses .product x (ts ++ .op o :: us) (.binary o two a b)
  | term {x : Extent} {ts : List Token} {t : Expr} (h : Parses .product x ts t) :
      Parses .sum x ts t
  | sum {x : Extent} {ts us : List Token} {a b : Expr} {o : Operator}
      (ho : o = .plus ∨ o = .minus) (two : o ≠ .negate)
      (left : Parses .sum .closed ts a) (right : Parses .product x us b) :
      Parses .sum x (ts ++ .op o :: us) (.binary o two a b)

/-- The tokens are an expression of the infix language. -/
def Derivable (ts : List Token) : Prop := ∃ x t, Parses .sum x ts t

/-! ### Groups at the beginning of a list -/

@[simp] theorem opensGroup_plus_cons (ts : List Token) :
    OpensGroup (.op .plus :: ts) ↔ OpensGroup ts := by
  simp [OpensGroup]

@[simp] theorem opensGroup_lpar_cons (ts : List Token) : OpensGroup (.lpar :: ts) := by
  simp [OpensGroup]

theorem OpensGroup.append {ts : List Token} (h : OpensGroup ts) (us : List Token) :
    OpensGroup (ts ++ us) := by
  induction ts with
  | nil => cases h
  | cons t ts ih =>
    by_cases ht : t = .op .plus
    · subst ht
      rw [List.cons_append, opensGroup_plus_cons]
      exact ih ((opensGroup_plus_cons ts).mp h)
    · simpa [OpensGroup, ht] using h

theorem OpensGroup.of_append {ts us : List Token} (h : OpensGroup (ts ++ us))
    (hts : ∃ s ∈ ts, s ≠ .op .plus) : OpensGroup ts := by
  induction ts with
  | nil =>
    obtain ⟨s, hs, -⟩ := hts
    cases hs
  | cons t ts ih =>
    by_cases ht : t = .op .plus
    · subst ht
      rw [opensGroup_plus_cons]
      refine ih ((opensGroup_plus_cons _).mp h) ?_
      obtain ⟨s, hs, hne⟩ := hts
      rcases List.mem_cons.mp hs with rfl | hs
      · exact absurd rfl hne
      · exact ⟨s, hs, hne⟩
    · simpa [OpensGroup, ht] using h

namespace Parses

/-- An expression is more than pluses. -/
theorem exists_ne_plus {l : Level} {x : Extent} {ts : List Token} {t : Expr}
    (h : Parses l x ts t) : ∃ s ∈ ts, s ≠ .op .plus := by
  induction h with
  | num | const | var | group | call | bareCall | minus =>
    exact ⟨_, List.mem_cons_self, by simp⟩
  | atom _ ih | unsigned _ ih | factor _ ih | term _ ih => exact ih
  | plus _ ih =>
    obtain ⟨s, hs, hne⟩ := ih
    exact ⟨s, List.mem_cons_of_mem _ hs, hne⟩
  | power _ _ _ ih | product _ _ _ _ ih | sum _ _ _ _ ih =>
    obtain ⟨s, hs, hne⟩ := ih
    exact ⟨s, List.mem_append_left _ hs, hne⟩

theorem opensGroup_append_iff {l : Level} {x : Extent} {ts : List Token} {t : Expr}
    (h : Parses l x ts t) (us : List Token) : OpensGroup (ts ++ us) ↔ OpensGroup ts :=
  ⟨fun hopens => hopens.of_append h.exists_ne_plus, fun hopens => hopens.append us⟩

/-! ### Expressions of a tighter level -/

theorem sum_of_signed {x : Extent} {ts : List Token} {t : Expr} (h : Parses .signed x ts t) :
    Parses .sum x ts t := .term (.factor h)

theorem sum_of_atom {x : Extent} {ts : List Token} {t : Expr} (h : Parses .atom x ts t) :
    Parses .sum x ts t := sum_of_signed (.unsigned (.atom h))

end Parses
end Calculator
