/-
# Misplaced operands

Two things can be wrong with the places of operands in a list of tokens: one
begins right after a value has ended (`2 3`), or none is where one is needed
(`2 +`, `( )`, `* 2`). Both are seen from two neighbouring tokens; a sign where a
value is awaited is a prefix, and is in its place. A list is an expression of the
infix language exactly if it has no such place, its parentheses match, and it
holds no prefix minus, which has no token of its own in a text
(`derivable_iff`).

Key definitions: `juxtapositions`, `omissions`, `balanced`, `WellPlaced`.
Key theorems: `Parses.wellPlaced`, `WellPlaced.exists_append`, `derivable_iff`.
-/
import Calculator.Proofs.Grammar

namespace Calculator

namespace Token

/-- Whether an operand begins with the token. -/
def beginsOperand : Token → Bool
  | rpar | op _ => false
  | _ => true

/-- Whether a value must have ended right before the token; a sign can do without. -/
def endsOperand : Token → Bool
  | rpar => true
  | op o => o ≠ .plus && o ≠ .minus
  | _ => false

end Token

/-- The number of operands that begin right after a value. -/
def juxtapositions (afterValue : Bool) : List Token → Nat
  | [] => 0
  | t :: ts => (afterValue && t.beginsOperand).toNat + juxtapositions t.isValue ts

/-- The number of places where an operand is missing, the end of the list among
them. -/
def omissions (afterValue : Bool) : List Token → Nat
  | [] => (!afterValue).toNat
  | t :: ts => (!afterValue && t.endsOperand).toNat + omissions t.isValue ts

/-- Whether the parentheses match, where `n` are open before the list. -/
def balanced : Nat → List Token → Bool
  | n, [] => n == 0
  | n, .lpar :: ts => balanced (n + 1) ts
  | 0, .rpar :: _ => false
  | n + 1, .rpar :: ts => balanced n ts
  | n, _ :: ts => balanced n ts

/-- Every operand is in its place and the parentheses match, where `n` are open
before the tokens; `afterValue` says whether a value has just ended. -/
inductive WellPlaced : (afterValue : Bool) → (n : Nat) → List Token → Prop where
  | nil : WellPlaced true 0 []
  | atom {n : Nat} {t : Token} {ts : List Token} (ht : t.isAtom = true)
      (h : WellPlaced true n ts) : WellPlaced false n (t :: ts)
  | func {n : Nat} {ts : List Token} (f : Func) (h : WellPlaced false n ts) :
      WellPlaced false n (.func f :: ts)
  | sign {n : Nat} {o : Operator} {ts : List Token} (ho : o = .plus ∨ o = .minus)
      (h : WellPlaced false n ts) : WellPlaced false n (.op o :: ts)
  | lpar {n : Nat} {ts : List Token} (h : WellPlaced false (n + 1) ts) :
      WellPlaced false n (.lpar :: ts)
  | rpar {n : Nat} {ts : List Token} (h : WellPlaced true n ts) :
      WellPlaced true (n + 1) (.rpar :: ts)
  | binary {n : Nat} {o : Operator} {ts : List Token} (ho : o ≠ .negate)
      (h : WellPlaced false n ts) : WellPlaced true n (.op o :: ts)

namespace WellPlaced

theorem counts {afterValue : Bool} {n : Nat} {ts : List Token} (h : WellPlaced afterValue n ts) :
    .op .negate ∉ ts ∧ juxtapositions afterValue ts = 0 ∧ omissions afterValue ts = 0 ∧
      balanced n ts = true := by
  induction h with
  | nil => exact ⟨List.not_mem_nil, rfl, rfl, rfl⟩
  | @atom n t ts ht _ ih =>
    cases t <;> simp_all [juxtapositions, omissions, balanced, Token.isAtom, Token.isValue,
      Token.endsOperand]
  | func f _ ih =>
    simp_all [juxtapositions, omissions, balanced, Token.isAtom, Token.isValue, Token.endsOperand]
  | sign ho _ ih =>
    rcases ho with rfl | rfl <;> simp_all [juxtapositions, omissions, balanced, Token.isAtom,
      Token.isValue, Token.endsOperand]
  | lpar _ ih =>
    simp_all [juxtapositions, omissions, balanced, Token.isAtom, Token.isValue, Token.endsOperand]
  | rpar _ ih =>
    simp_all [juxtapositions, omissions, balanced, Token.isValue, Token.beginsOperand]
  | binary ho _ ih =>
    simp_all [juxtapositions, omissions, balanced, Token.isAtom, Token.isValue,
      Token.beginsOperand, Ne.symm ho]

theorem of_counts : ∀ {ts : List Token} {afterValue : Bool} {n : Nat}, .op .negate ∉ ts →
    juxtapositions afterValue ts = 0 → omissions afterValue ts = 0 → balanced n ts = true →
    WellPlaced afterValue n ts
  | [], afterValue, n, _, _, homit, hbalanced => by
    cases afterValue with
    | false => cases homit
    | true =>
      have hn : n = 0 := by simpa [balanced] using hbalanced
      rw [hn]
      exact .nil
  | t :: ts, afterValue, n, hneg, hjuxt, homit, hbalanced => by
    simp only [juxtapositions, omissions, Nat.add_eq_zero_iff, Bool.toNat_eq_zero] at hjuxt homit
    obtain ⟨hbegins, hjuxt⟩ := hjuxt
    obtain ⟨hends, homit⟩ := homit
    have hneg' := fun h => hneg (List.mem_cons_of_mem t h)
    cases t with
    | num | const | var =>
      cases afterValue with
      | true => cases hbegins
      | false => exact .atom rfl (of_counts hneg' hjuxt homit hbalanced)
    | func f =>
      cases afterValue with
      | true => cases hbegins
      | false => exact .func f (of_counts hneg' hjuxt homit hbalanced)
    | lpar =>
      cases afterValue with
      | true => cases hbegins
      | false => exact .lpar (of_counts hneg' hjuxt homit hbalanced)
    | rpar =>
      cases afterValue with
      | false => cases hends
      | true =>
        cases n with
        | zero => cases hbalanced
        | succ n => exact .rpar (of_counts hneg' hjuxt homit hbalanced)
    | op o =>
      have htail := of_counts hneg' hjuxt homit hbalanced
      cases afterValue with
      | true => exact .binary (fun ho => hneg (ho ▸ List.mem_cons_self)) htail
      | false =>
        refine .sign ?_ htail
        cases o <;> first | exact .inl rfl | exact .inr rfl | cases hends

theorem iff_counts {afterValue : Bool} {n : Nat} {ts : List Token} :
    WellPlaced afterValue n ts ↔ .op .negate ∉ ts ∧ juxtapositions afterValue ts = 0 ∧
      omissions afterValue ts = 0 ∧ balanced n ts = true :=
  ⟨counts, fun ⟨hneg, hjuxt, homit, hbalanced⟩ => of_counts hneg hjuxt homit hbalanced⟩

theorem pluses {n : Nat} {ts : List Token} (h : WellPlaced false n ts) :
    ∀ pluses : Nat, WellPlaced false n (List.replicate pluses (.op .plus) ++ ts)
  | 0 => h
  | k + 1 => .sign (.inl rfl) (h.pluses k)

end WellPlaced

/-! ### Expressions have their operands in place -/

/-- An expression stands where a value is awaited, and is one. -/
theorem Parses.wellPlaced {l : Level} {x : Extent} {ts : List Token} {t : Expr}
    (h : Parses l x ts t) : ∀ {n : Nat} {rest : List Token}, WellPlaced true n rest →
      WellPlaced false n (ts ++ rest) := by
  induction h with
  | num | const | var => exact fun hrest => .atom rfl hrest
  | group _ ih =>
    intro n rest hrest
    rw [List.cons_append, List.append_assoc]
    exact .lpar (ih (.rpar hrest))
  | call f pluses _ ih =>
    intro n rest hrest
    rw [List.cons_append, List.append_assoc, List.cons_append, List.append_assoc]
    exact .func f (WellPlaced.pluses (.lpar (ih (.rpar hrest))) pluses)
  | bareCall f _ _ ih => exact fun hrest => .func f (ih hrest)
  | minus _ ih => exact fun hrest => .sign (.inr rfl) (ih hrest)
  | plus _ ih => exact fun hrest => .sign (.inl rfl) (ih hrest)
  | atom _ ih | unsigned _ ih | factor _ ih | term _ ih => exact ih
  | power two _ _ ihleft ihright | product _ two _ _ ihleft ihright
  | sum _ two _ _ ihleft ihright =>
    intro n rest hrest
    rw [List.append_assoc]
    exact ihleft (.binary two (ihright hrest))

/-! ### Well placed operands make an expression -/

namespace Parses

/-- What is put before every signed expression can be put before a product: it
goes to the first factor. -/
theorem exists_append_product {pre : List Token}
    (hpre : ∀ {x : Extent} {ts : List Token} {t : Expr}, Parses .signed x ts t →
      ∃ t', Parses .product x (pre ++ ts) t') :
    ∀ {x : Extent} {ts : List Token} {t : Expr}, Parses .product x ts t →
      ∃ t', Parses .product x (pre ++ ts) t' := by
  intro x ts t h
  generalize hl : Level.product = l at h
  induction h with
  | factor h => exact hpre h
  | product ho two _ hright ihleft =>
    obtain ⟨t', ht'⟩ := ihleft hl
    rw [← List.append_assoc]
    exact ⟨_, .product ho two ht' hright⟩
  | _ => cases hl

/-- What is put before every product can be put before a sum: it goes to the
first term. -/
theorem exists_append_sum {pre : List Token}
    (hpre : ∀ {x : Extent} {ts : List Token} {t : Expr}, Parses .product x ts t →
      ∃ t', Parses .sum x (pre ++ ts) t') :
    ∀ {x : Extent} {ts : List Token} {t : Expr}, Parses .sum x ts t →
      ∃ t', Parses .sum x (pre ++ ts) t' := by
  intro x ts t h
  generalize hl : Level.sum = l at h
  induction h with
  | term h => exact hpre h
  | sum ho two _ hright ihleft =>
    obtain ⟨t', ht'⟩ := ihleft hl
    rw [← List.append_assoc]
    exact ⟨_, .sum ho two ht' hright⟩
  | _ => cases hl

/-- So what is put before every signed expression can be put before a sum. -/
theorem exists_append {pre : List Token}
    (hpre : ∀ {x : Extent} {ts : List Token} {t : Expr}, Parses .signed x ts t →
      ∃ t', Parses .product x (pre ++ ts) t')
    {x : Extent} {ts : List Token} {t : Expr} (h : Parses .sum x ts t) :
    ∃ t', Parses .sum x (pre ++ ts) t' :=
  exists_append_sum (fun h => by
    obtain ⟨t', ht'⟩ := exists_append_product hpre h
    exact ⟨t', .term ht'⟩) h

/-- A sign before a sum is the sign of its first factor. -/
theorem exists_sign {x : Extent} {ts : List Token} {t : Expr} {o : Operator}
    (ho : o = .plus ∨ o = .minus) (h : Parses .sum x ts t) :
    ∃ t', Parses .sum x ([.op o] ++ ts) t' :=
  exists_append (fun h => by
    rcases ho with rfl | rfl
    · exact ⟨_, .factor (.plus h)⟩
    · exact ⟨_, .factor (.minus h)⟩) h

/-- An operand and an operator before a sum belong to its first factor, its first
product or the sum itself, by the level of the operator. -/
theorem exists_binary {x : Extent} {us ts : List Token} {a t : Expr} {o : Operator}
    (ho : o ≠ .negate) (ha : Parses .atom .closed us a) (h : Parses .sum x ts t) :
    ∃ t', Parses .sum x (us ++ .op o :: ts) t' := by
  rw [List.append_cons]
  cases o with
  | negate => exact absurd rfl ho
  | power =>
    refine exists_append (fun h => ?_) h
    rw [← List.append_cons]
    exact ⟨_, .factor (.unsigned (.power ho ha h))⟩
  | times | divide | modulo =>
    refine exists_append (fun h => ?_) h
    rw [← List.append_cons]
    exact ⟨_, .product (by decide) ho (.factor (.unsigned (.atom ha))) h⟩
  | plus | minus =>
    refine exists_append_sum (fun h => ?_) h
    rw [← List.append_cons]
    exact ⟨_, .sum (by decide) ho (sum_of_atom ha) h⟩

/-- A function before an expression that opens a group takes that group as its
argument, and is the first atom of the same expression. -/
theorem exists_call (f : Func) {l : Level} {x : Extent} {ts : List Token} {t : Expr}
    (h : Parses l x ts t) : ∀ pluses : Nat, OpensGroup ts →
      ∃ t', Parses l x (.func f :: (List.replicate pluses (.op .plus) ++ ts)) t' := by
  induction h with
  | num | const | var | call | bareCall => exact fun _ hopens => by simp [OpensGroup] at hopens
  | minus => exact fun _ hopens => by simp [OpensGroup] at hopens
  | group inner => exact fun pluses _ => ⟨_, .call f pluses inner⟩
  | plus _ ih =>
    intro pluses hopens
    obtain ⟨t', ht'⟩ := ih (pluses + 1) ((opensGroup_plus_cons _).mp hopens)
    exact ⟨t', by rwa [List.replicate_succ', List.append_assoc] at ht'⟩
  | atom _ ih =>
    intro pluses hopens
    obtain ⟨t', ht'⟩ := ih pluses hopens
    exact ⟨t', .atom ht'⟩
  | unsigned _ ih =>
    intro pluses hopens
    obtain ⟨t', ht'⟩ := ih pluses hopens
    exact ⟨t', .unsigned ht'⟩
  | factor _ ih =>
    intro pluses hopens
    obtain ⟨t', ht'⟩ := ih pluses hopens
    exact ⟨t', .factor ht'⟩
  | term _ ih =>
    intro pluses hopens
    obtain ⟨t', ht'⟩ := ih pluses hopens
    exact ⟨t', .term ht'⟩
  | power two left right ihleft =>
    intro pluses hopens
    obtain ⟨t', ht'⟩ := ihleft pluses ((left.opensGroup_append_iff _).mp hopens)
    rw [← List.append_assoc, ← List.cons_append]
    exact ⟨_, .power two ht' right⟩
  | product ho two left right ihleft =>
    intro pluses hopens
    obtain ⟨t', ht'⟩ := ihleft pluses ((left.opensGroup_append_iff _).mp hopens)
    rw [← List.append_assoc, ← List.cons_append]
    exact ⟨_, .product ho two ht' right⟩
  | sum ho two left right ihleft =>
    intro pluses hopens
    obtain ⟨t', ht'⟩ := ihleft pluses ((left.opensGroup_append_iff _).mp hopens)
    rw [← List.append_assoc, ← List.cons_append]
    exact ⟨_, .sum ho two ht' right⟩

/-- A function before an expression. -/
theorem exists_func (f : Func) {x : Extent} {ts : List Token} {t : Expr} (h : Parses .sum x ts t) :
    ∃ x' t', Parses .sum x' (.func f :: ts) t' := by
  by_cases hopens : OpensGroup ts
  · obtain ⟨t', ht'⟩ := exists_call f h 0 hopens
    exact ⟨x, t', ht'⟩
  · exact ⟨.toEnd, _, sum_of_atom (.bareCall f h hopens)⟩

end Parses

/-- What can follow a value in its group: nothing, or an operator and an
expression. -/
def Continues (ts : List Token) : Prop :=
  ts = [] ∨ ∃ o us, o ≠ .negate ∧ Derivable us ∧ ts = .op o :: us

/-- What can follow an expression, where `n` parentheses are open: each closes a
group, and that group is a value. -/
inductive Follows : Nat → List Token → Prop where
  | nil : Follows 0 []
  | rpar {n : Nat} {us rest : List Token} (hus : Continues us) (h : Follows n rest) :
      Follows (n + 1) (.rpar :: (us ++ rest))

theorem Continues.derivable {us ts : List Token} {a : Expr} (ha : Parses .atom .closed us a)
    (h : Continues ts) : Derivable (us ++ ts) := by
  rcases h with rfl | ⟨o, vs, ho, ⟨x, t, ht⟩, rfl⟩
  · rw [List.append_nil]
    exact ⟨.closed, a, Parses.sum_of_atom ha⟩
  · obtain ⟨t', ht'⟩ := Parses.exists_binary ho ha ht
    exact ⟨x, t', ht'⟩

/-- Well placed tokens begin with an expression, or after a value with what can
follow it, up to the parenthesis that closes its group. -/
theorem WellPlaced.exists_append {afterValue : Bool} {n : Nat} {ts : List Token}
    (h : WellPlaced afterValue n ts) : ∃ us rest, ts = us ++ rest ∧ Follows n rest ∧
      if afterValue then Continues us else Derivable us := by
  induction h with
  | nil => exact ⟨[], [], rfl, .nil, .inl rfl⟩
  | @atom _ s _ hs _ ih =>
    obtain ⟨us, rest, rfl, hrest, hus⟩ := ih
    refine ⟨s :: us, rest, rfl, hrest, ?_⟩
    cases s with
    | num v => exact Continues.derivable (.num v) hus
    | const c => exact Continues.derivable (.const c) hus
    | var v => exact Continues.derivable (.var v) hus
    | _ => cases hs
  | func f _ ih =>
    obtain ⟨us, rest, rfl, hrest, ⟨x, t, ht⟩⟩ := ih
    exact ⟨.func f :: us, rest, rfl, hrest, Parses.exists_func f ht⟩
  | @sign _ o _ ho _ ih =>
    obtain ⟨us, rest, rfl, hrest, ⟨x, t, ht⟩⟩ := ih
    exact ⟨.op o :: us, rest, rfl, hrest, x, Parses.exists_sign ho ht⟩
  | lpar _ ih =>
    obtain ⟨us, rest, rfl, hrest, ⟨x, t, ht⟩⟩ := ih
    cases hrest with
    | @rpar _ vs rest hvs hrest =>
      refine ⟨.lpar :: (us ++ [.rpar]) ++ vs, rest, by simp, hrest, ?_⟩
      exact Continues.derivable (.group ht) hvs
  | rpar _ ih =>
    obtain ⟨us, rest, rfl, hrest, hus⟩ := ih
    exact ⟨[], .rpar :: (us ++ rest), rfl, .rpar hus hrest, .inl rfl⟩
  | @binary _ o _ ho _ ih =>
    obtain ⟨us, rest, rfl, hrest, hus⟩ := ih
    exact ⟨.op o :: us, rest, rfl, hrest, .inr ⟨o, us, ho, hus, rfl⟩⟩

/-- **The language by its neighbours.** A list is an expression exactly if no
operand stands right after a value, none is missing, and the parentheses match. -/
theorem derivable_iff (ts : List Token) :
    Derivable ts ↔ .op .negate ∉ ts ∧ juxtapositions false ts = 0 ∧ omissions false ts = 0 ∧
      balanced 0 ts = true := by
  rw [← WellPlaced.iff_counts]
  constructor
  · rintro ⟨x, t, h⟩
    have := h.wellPlaced .nil
    rwa [List.append_nil] at this
  · intro h
    obtain ⟨us, rest, rfl, hrest, hus⟩ := h.exists_append
    cases hrest
    rw [List.append_nil]
    exact hus

instance (ts : List Token) : Decidable (Derivable ts) := decidable_of_iff' _ (derivable_iff ts)

/-- A sum under a function without parentheses, which reaches to the end. -/
example : Derivable [.num 2, .op .times, .func .sin, .num 3, .op .plus, .num 4] := by decide

end Calculator
