/-
# What is written is read back

The numeral of a decimal is one of the numerals that a text may hold, and reads
back to a decimal of the same value: only trailing zeros are left out
(`digitsValue_fractionDigits`). The shortest decimal of a number reads back to
the number, so the text of a finite number is a numeral, perhaps with a minus
sign before it, and its value is the number, rounded like every result
(`calculate_text`).

Key definition: `Decimal.toNumeral`.
Key theorems: `Decimal.text_toNumeral`, `Decimal.toNumber_toNumeral`,
`Number.toList_text`, `calculate_text`.
-/
import Calculator.Proofs.Formula
import Calculator.Proofs.Negation

namespace Calculator
namespace Decimal

/-! ### The digits of a numeral -/

theorem digitsValue_append (ds es : List Char) :
    digitsValue (ds ++ es) = digitsValue ds * Nat.pow 10 es.length + digitsValue es := by
  have hfold : digitsValue (ds ++ es) = Nat.ofDigitChars 10 es (Nat.ofDigitChars 10 ds 0) :=
    Nat.ofDigitChars_append 0
  rw [hfold, Nat.ofDigitChars_eq_ofDigitChars_zero, Nat.mul_comm]
  rfl

theorem pow_mul_pow_sub {a b : Nat} (h : a ≤ b) :
    Nat.pow 10 a * Nat.pow 10 (b - a) = Nat.pow 10 b := by
  refine (Nat.pow_add 10 _ _).symm.trans ?_
  rw [Nat.add_sub_cancel' h]
  rfl

theorem digitsValue_toDigits (n : Nat) : digitsValue (Nat.toDigits 10 n) = n :=
  Nat.ofDigitChars_ten_toDigits

theorem isDigit_of_mem_fractionDigits : ∀ {places r : Nat} {c : Char}, r < Nat.pow 10 places →
    c ∈ fractionDigits places r → c.isDigit = true
  | 0, _, _, _, hc => by cases hc
  | places + 1, r, c, hr, hc => by
    have hpow : 0 < Nat.pow 10 places := Nat.pow_pos (by decide)
    unfold fractionDigits at hc
    split at hc
    · cases hc
    · rcases List.mem_cons.mp hc with rfl | hc
      · rw [Nat.isDigit_digitChar, decide_eq_true_eq]
        exact Nat.div_lt_of_lt_mul hr
      · exact isDigit_of_mem_fractionDigits (Nat.mod_lt _ hpow) hc

/-- The digits that are left out are zeros. -/
theorem digitsValue_fractionDigits : ∀ {places r : Nat}, r < Nat.pow 10 places →
    digitsValue (fractionDigits places r) *
      Nat.pow 10 (places - (fractionDigits places r).length) = r
  | 0, r, hr => by
    have hzero : r = 0 := Nat.lt_one_iff.mp hr
    rw [hzero]
    rfl
  | places + 1, r, hr => by
    have hpow : 0 < Nat.pow 10 places := Nat.pow_pos (by decide)
    unfold fractionDigits
    split
    · rename_i hzero
      rw [hzero]
      exact Nat.zero_mul _
    · have hdigit : r / Nat.pow 10 places < 10 := Nat.div_lt_of_lt_mul hr
      have ih := digitsValue_fractionDigits (Nat.mod_lt r hpow)
      have hlength := fractionDigits_length_le places (r % Nat.pow 10 places)
      have hhead : digitsValue [Nat.digitChar (r / Nat.pow 10 places)] = r / Nat.pow 10 places :=
        (Nat.ofDigitChars_cons_digitChar_of_lt_ten hdigit).trans (Nat.zero_add _)
      rw [← List.singleton_append, digitsValue_append, hhead, List.length_append,
        List.length_singleton, Nat.add_comm 1, Nat.add_sub_add_right, Nat.add_mul, ih,
        Nat.mul_assoc, pow_mul_pow_sub hlength, Nat.mul_comm, Nat.div_add_mod]

/-- The digits after the point. -/
def fraction (d : Decimal) : List Char :=
  fractionDigits d.places (d.coefficient % Nat.pow 10 d.places)

theorem mod_pow_lt (d : Decimal) : d.coefficient % Nat.pow 10 d.places < Nat.pow 10 d.places :=
  Nat.mod_lt _ (Nat.pow_pos (by decide))

/-- The numeral of a decimal, by its parts. -/
def toNumeral (d : Decimal) : Numeral where
  whole := Nat.toDigits 10 (d.coefficient / Nat.pow 10 d.places)
  fraction := if d.fraction = [] then none else some d.fraction
  isDigit_whole := fun _ => Nat.isDigit_of_mem_toDigits (by decide) (by decide)
  isDigit_fraction := by
    intro c hc
    split at hc
    · cases hc
    · exact isDigit_of_mem_fractionDigits d.mod_pow_lt hc
  hasDigit := List.append_ne_nil_of_left_ne_nil Nat.toDigits_ne_nil _

theorem whole_toNumeral_ne_nil (d : Decimal) : d.toNumeral.whole ≠ [] := Nat.toDigits_ne_nil

theorem fraction_toNumeral (d : Decimal) :
    d.toNumeral.fraction = if d.fraction = [] then none else some d.fraction := rfl

theorem getD_fraction_toNumeral (d : Decimal) : d.toNumeral.fraction.getD [] = d.fraction := by
  rw [fraction_toNumeral]
  split <;> rename_i h
  · exact h.symm
  · rfl

theorem text_toNumeral (d : Decimal) : d.toNumeral.text = d.numeral := by
  have htail : d.toNumeral.tail = pointed d.fraction := by
    rw [Numeral.tail, fraction_toNumeral]
    cases d.fraction <;> rfl
  rw [Numeral.text, htail]
  rfl

/-- **A decimal's numeral reads back.** -/
theorem toNumber_toNumeral (d : Decimal) : d.toNumeral.toNumber = d.toNumber := by
  have hvalue := digitsValue_fractionDigits d.mod_pow_lt
  have hlength := fractionDigits_length_le d.places (d.coefficient % Nat.pow 10 d.places)
  rw [← fraction] at hvalue hlength
  have hrank : (ofDigits d.toNumeral.whole d.fraction).rank = d.rank := by
    have hscale : 0 < Nat.pow 10 (d.places - d.fraction.length) := Nat.pow_pos (by decide)
    have hwhole : digitsValue d.toNumeral.whole = d.coefficient / Nat.pow 10 d.places :=
      digitsValue_toDigits _
    rw [ofDigits, rank, rank, digitsValue_append, hwhole,
      ← Number.nearestRank_mul_right _ _ _ hscale, Nat.add_mul, hvalue, Nat.mul_assoc,
      pow_mul_pow_sub hlength, Nat.mul_comm, Nat.div_add_mod]
  rw [Numeral.toNumber, getD_fraction_toNumeral, toNumber, hrank, toNumber]

end Decimal

namespace Number

/-- The numeral of the magnitude of a finite number. -/
def magnitude (v : Number) : Numeral := (Decimal.shortest (rank v)).toNumeral

theorem toNumber_magnitude {v : Number} : v.magnitude.toNumber = ofRank false (rank v) := by
  rw [magnitude, Decimal.toNumber_toNumeral, Decimal.toNumber, Decimal.rank_shortest]

theorem numeral_of_isFinite {v : Number} (h : v.IsFinite) : v.numeral = v.magnitude.text := by
  rw [numeral, if_pos (show rank v < infiniteRank from h), magnitude, Decimal.text_toNumeral]

/-- The text of a finite number is a numeral, with a minus sign before it or not. -/
theorem toList_text {v : Number} (h : v.IsFinite) :
    v.text.toList = if isNegative v then '-' :: v.magnitude.text else v.magnitude.text := by
  rw [text, if_neg (not_isNaN_of_isFinite h), String.toList_ofList, numeral_of_isFinite h]

/-- A finite number is the number its text is the numeral of, or its negative. -/
theorem eq_magnitude {v : Number} (h : v.IsFinite) :
    v = if isNegative v then -v.magnitude.toNumber else v.magnitude.toNumber := by
  have hv := ofRank_rank (not_isNaN_of_isFinite h)
  rw [toNumber_magnitude, neg_ofRank, Bool.not_false]
  split <;> rename_i hsign <;> simpa [hsign] using hv.symm

end Number

/-! ### The value of a number's text -/

/-- The expression that the text of a finite number is. -/
def Expr.ofNumber (v : Number) : Expr :=
  if v.isNegative then .negate (.num v.magnitude.toNumber) else .num v.magnitude.toNumber

theorem Expr.defined_of_isFinite {v : Number} (h : v.IsFinite) : defined v = .ok v :=
  if_neg (Number.not_isNaN_of_isFinite h)

theorem Expr.value_ofNumber (ctx : Context) {v : Number} (h : v.IsFinite) :
    (ofNumber v).value ctx = .ok v := by
  have hmagnitude : v.magnitude.toNumber.IsFinite := by
    rw [Number.toNumber_magnitude, Number.IsFinite, Number.rank_ofRank, Nat.min_eq_left h.le]
    exact h
  have hv := Number.eq_magnitude h
  rw [ofNumber]
  generalize v.magnitude.toNumber = x at *
  split <;> rename_i hsign
  · rw [if_pos hsign] at hv
    subst hv
    exact bind_eq_ok_iff.mpr ⟨x, defined_of_isFinite hmagnitude, defined_of_isFinite h⟩
  · rw [if_neg hsign] at hv
    subst hv
    exact defined_of_isFinite h

/-- A numeral, with a minus sign before it or not, is cut into tokens whose
arrangement is the list of its tree. It is any numeral, since checking this for
the numeral of a number would compute its digits. -/
theorem tokenize_signed (negative : Bool) (n : Numeral) : ∃ ts,
    tokenize (if negative then '-' :: n.text else n.text) = .ok ts ∧
      toRpn ts = .ok (if negative then Expr.negate (.num n.toNumber) else .num n.toNumber).rpn := by
  cases negative with
  | false => exact ⟨[.num n.toNumber], tokenize_of_cuts n.cuts_text, rfl⟩
  | true =>
    have hminus : Lexeme.ofSign? '-' = some (.token (.op .minus)) := rfl
    exact ⟨[.op .minus, .num n.toNumber], tokenize_of_cuts (n.cuts_text.cons hminus), rfl⟩

/-- Tokens that are arranged as the list of the number's tree have the number as their
value, rounded like every result. -/
theorem calculate_of_ofNumber (ctx : Context) {s : String} {ts : List Token} {v : Number}
    (h : v.IsFinite) (htokens : tokenize s.toList = .ok ts)
    (hrpn : toRpn ts = .ok (Expr.ofNumber v).rpn) :
    ∃ w, calculate ctx s = .ok (v.rounded, w) := by
  refine ⟨_, calculate_eq_ok_iff.mpr ⟨ts, _, tokenize_trim htokens, hrpn, ?_, rfl⟩⟩
  exact bind_eq_ok_iff.mpr ⟨v, Expr.value_ofNumber ctx h, if_pos h⟩

/-- **A number's text has the number as its value**, rounded like every result. -/
theorem calculate_text (ctx : Context) {v : Number} (h : v.IsFinite) :
    ∃ w, calculate ctx v.text = .ok (v.rounded, w) := by
  obtain ⟨ts, htokens, hrpn⟩ := tokenize_signed v.isNegative v.magnitude
  rw [← Number.toList_text h] at htokens
  rw [← Expr.ofNumber] at hrpn
  exact calculate_of_ofNumber ctx h htokens hrpn

end Calculator
