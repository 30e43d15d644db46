/-
# Formulas written without blanks

A formula is written with parentheses around every operand of an operator and
around the argument of a function, and with nothing else: `(a)op(b)`, `f(a)`,
`-(a)`, and `(a)(b)` for a product. Its text is cut into the lexemes it is made
of (`cuts_text`), its tokens are those with the multiplications written out
(`toTokens_lexemes`) and parse as its tree (`parses_tokens`), so the text has the
value of the tree (`evaluate_text`).

Key definitions: `Numeral`, `Numeral.Stops`, `Formula`, `Formula.text`, `Formula.tree`.
Key theorems: `Numeral.exists_text_append`, `Numeral.ofText?_text`,
`Numeral.first?_text_append`,
`Formula.cuts_text`, `Formula.toTokens_lexemes`, `Formula.parses_tokens`,
`Formula.evaluate_text`.
-/
import Mathlib.Data.List.TakeWhile
import Calculator.Proofs.Calculation
import Calculator.Proofs.Rounding

namespace Calculator

/-! ### Numerals -/

/-- Without an exponent the number is the decimal's. -/
theorem Scientific.toNumber_zero (d : Decimal) : toNumber false ⟨d, 0⟩ = d.toNumber := by
  have hone : Nat.pow 10 0 = 1 := rfl
  rw [toNumber]
  simp only [Int.natAbs_zero, Nat.zero_min, Int.lt_irrefl, if_false, hone, Nat.mul_one]
  rw [Number.ofFraction, Decimal.toNumber, Decimal.rank]

/-- Digits with or without a point among them, one digit at least. -/
structure Numeral where
  whole : List Char
  /-- The digits after the point, if there is a point. -/
  fraction : Option (List Char)
  isDigit_whole : ∀ c ∈ whole, c.isDigit = true
  isDigit_fraction : ∀ c ∈ fraction.getD [], c.isDigit = true
  hasDigit : whole ++ fraction.getD [] ≠ []

namespace Numeral

/-- The point and what follows it. -/
def tail (n : Numeral) : List Char :=
  match n.fraction with
  | none => []
  | some ds => '.' :: ds

def text (n : Numeral) : List Char := n.whole ++ n.tail

/-- The double nearest to the decimal that the digits write. -/
def toNumber (n : Numeral) : Number := (Decimal.ofDigits n.whole (n.fraction.getD [])).toNumber

theorem tail_cases (n : Numeral) :
    (n.fraction = none ∧ n.tail = []) ∨ ∃ ds, n.fraction = some ds ∧ n.tail = '.' :: ds := by
  unfold tail
  cases n.fraction with
  | none => exact .inl ⟨rfl, rfl⟩
  | some ds => exact .inr ⟨ds, rfl, rfl⟩

/-- The numeral does not go on into the text: no digit comes next, and no point
unless the numeral has one. -/
def Stops (n : Numeral) (rest : List Char) : Prop :=
  ∀ c ∈ rest.head?, c.isDigit = false ∧ (c = '.' → n.fraction ≠ none)

theorem stops_nil (n : Numeral) : n.Stops [] := nofun

section Stops
variable {n : Numeral} {rest : List Char} (h : n.Stops rest)
include h

theorem Stops.not_isDigit : ∀ c ∈ rest.head?, c.isDigit = false := fun c hc => (h c hc).1

theorem takeWhile_text_append : (n.text ++ rest).takeWhile Char.isDigit = n.whole := by
  rw [text, List.append_assoc, List.takeWhile_append_of_pos n.isDigit_whole]
  rcases n.tail_cases with ⟨-, htail⟩ | ⟨ds, -, htail⟩
  · have hrest := takeWhile_append_of_head h.not_isDigit []
    rw [htail, hrest]
    exact List.append_nil _
  · simp [htail]

theorem dropWhile_text_append : (n.text ++ rest).dropWhile Char.isDigit = n.tail ++ rest := by
  rw [text, List.append_assoc, List.dropWhile_append_of_pos n.isDigit_whole]
  rcases n.tail_cases with ⟨-, htail⟩ | ⟨ds, -, htail⟩
  · rw [htail]
    exact dropWhile_append_of_head h.not_isDigit []
  · simp [htail]

theorem numeralLength_text_append : numeralLength (n.text ++ rest) = n.text.length := by
  unfold numeralLength
  rw [takeWhile_text_append h, dropWhile_text_append h, text, List.length_append]
  have hdigit := n.hasDigit
  have hfraction := n.isDigit_fraction
  rcases n.tail_cases with ⟨hnone, htail⟩ | ⟨ds, hds, htail⟩
  · have hpoint : rest.head? ≠ some '.' := fun hc => (h '.' hc).2 rfl hnone
    cases rest with
    | nil => simp [htail]
    | cons c rest =>
      have hc : c ≠ '.' := by simpa using hpoint
      simp [htail, hc]
  · simp only [hds, Option.getD_some] at hdigit hfraction
    have hlength : n.whole.length + ds.length ≠ 0 := by
      rw [← List.length_append]
      exact List.length_eq_zero_iff.not.mpr hdigit
    have htake : (ds ++ rest).takeWhile Char.isDigit = ds := by
      rw [takeWhile_append_of_head h.not_isDigit, List.takeWhile_eq_self_iff.mpr hfraction]
    simp only [htail, List.cons_append, htake, if_neg hlength, List.length_cons]
    omega

end Stops

theorem takeWhile_text (n : Numeral) : n.text.takeWhile Char.isDigit = n.whole := by
  simpa using takeWhile_text_append n.stops_nil

theorem dropWhile_text (n : Numeral) : n.text.dropWhile Char.isDigit = n.tail := by
  simpa using dropWhile_text_append n.stops_nil

theorem ofNumeral_text (n : Numeral) :
    Decimal.ofNumeral n.text = .ofDigits n.whole (n.fraction.getD []) := by
  rw [Decimal.ofNumeral, n.takeWhile_text, n.dropWhile_text]
  rcases n.tail_cases with ⟨hfraction, htail⟩ | ⟨ds, hfraction, htail⟩ <;> simp [hfraction, htail]

theorem text_ne_nil (n : Numeral) : n.text ≠ [] := by
  intro hnil
  obtain ⟨hwhole, htail⟩ := List.append_eq_nil_iff.mp hnil
  rcases n.tail_cases with ⟨hfraction, -⟩ | ⟨ds, -, hds⟩
  · exact n.hasDigit (by simp [hwhole, hfraction])
  · simp [hds] at htail

theorem isDigit_or_eq_point_of_mem_text (n : Numeral) {c : Char} (h : c ∈ n.text) :
    c.isDigit = true ∨ c = '.' := by
  have hfraction := n.isDigit_fraction
  rcases List.mem_append.mp h with hwhole | htail
  · exact .inl (n.isDigit_whole c hwhole)
  · rcases n.tail_cases with ⟨-, hnil⟩ | ⟨ds, hds, hcons⟩
    · simp [hnil] at htail
    · rw [hds] at hfraction
      rw [hcons] at htail
      rcases List.mem_cons.mp htail with hpoint | hdigit
      · exact .inr hpoint
      · exact .inl (hfraction c hdigit)

theorem not_mem_text (n : Numeral) {c : Char} (hdigit : c.isDigit = false) (hpoint : c ≠ '.') :
    c ∉ n.text := fun hc => by
  rcases n.isDigit_or_eq_point_of_mem_text hc with h | h
  · cases hdigit.symm.trans h
  · exact hpoint h

/-- A numeral has no letters. -/
theorem map_toLower_text (n : Numeral) : n.text.map Char.toLower = n.text := by
  refine (List.map_congr_left fun c hc => ?_).trans (List.map_id' _)
  refine toLower_of_toNat (.inl ?_)
  rcases n.isDigit_or_eq_point_of_mem_text hc with hdigit | rfl
  · have hrange := (isDigit_iff c).mp hdigit
    omega
  · decide

/-- **The text of a numeral is a number's**, and this number is its own. -/
theorem ofText?_text (n : Numeral) : Number.ofText? (String.ofList n.text) = some n.toNumber := by
  have hlength := numeralLength_text_append n.stops_nil
  rw [List.append_nil] at hlength
  have hunsigned : Number.ofUnsigned? false n.text = some n.toNumber := by
    have hinf : ¬ (n.text = "inf".toList ∨ n.text = "infinity".toList) := by
      rintro (h | h) <;>
        exact n.not_mem_text (c := 'i') (by decide) (by decide) (by simp [h])
    have hnan : n.text ≠ "nan".toList := fun h =>
      n.not_mem_text (c := 'n') (by decide) (by decide) (by simp [h])
    have hne : n.text.length ≠ 0 := List.length_eq_zero_iff.not.mpr n.text_ne_nil
    rw [Number.ofUnsigned?]
    simp only [n.map_toLower_text, if_neg hinf, if_neg hnan]
    rw [Scientific.ofText?]
    simp only [hlength, if_neg hne, List.take_length, List.drop_length, n.ofNumeral_text]
    rw [Option.map_some, Scientific.toNumber_zero, toNumber]
  rw [Number.ofText?, String.toList_ofList]
  split
  · rename_i cs h
    exact absurd (by simp [h]) (n.not_mem_text (c := '-') (by decide) (by decide))
  · rename_i cs h
    exact absurd (by simp [h]) (n.not_mem_text (c := '+') (by decide) (by decide))
  · exact hunsigned

/-- What a text begins with is a numeral where it has the length of one. -/
theorem exists_text_append {cs : List Char} (h : numeralLength cs ≠ 0) :
    ∃ (n : Numeral) (rest : List Char), cs = n.text ++ rest ∧ n.Stops rest := by
  have hsplit := List.takeWhile_append_dropWhile (p := Char.isDigit) (l := cs)
  have hwhole : ∀ c ∈ cs.takeWhile Char.isDigit, c.isDigit = true :=
    List.all_eq_true.mp List.all_takeWhile
  have hhead := List.head?_dropWhile_not Char.isDigit cs
  unfold numeralLength at h
  simp only at h
  generalize cs.takeWhile Char.isDigit = whole at *
  generalize cs.dropWhile Char.isDigit = rest at *
  by_cases hpoint : rest.head? = some '.'
  · obtain ⟨later, rfl⟩ := List.head?_eq_some_iff.mp hpoint
    have hsplit' := List.takeWhile_append_dropWhile (p := Char.isDigit) (l := later)
    have hfraction : ∀ c ∈ later.takeWhile Char.isDigit, c.isDigit = true :=
      List.all_eq_true.mp List.all_takeWhile
    have hhead' := List.head?_dropWhile_not Char.isDigit later
    have hdigit : whole ++ later.takeWhile Char.isDigit ≠ [] := by
      intro hnil
      obtain ⟨hwhole, hlater⟩ := List.append_eq_nil_iff.mp hnil
      simp [hwhole, hlater] at h
    refine ⟨⟨whole, some (later.takeWhile Char.isDigit), hwhole, hfraction, hdigit⟩,
      later.dropWhile Char.isDigit, ?_, fun c hc => ⟨?_, fun _ => by simp⟩⟩
    · simp [text, tail, hsplit, hsplit']
    · rw [Option.mem_def.mp hc] at hhead'
      simpa using hhead'
  · have hdigit : whole ++ (none : Option (List Char)).getD [] ≠ [] := by
      rintro hnil
      have hnone : whole = [] := by simpa using hnil
      cases rest with
      | nil => simp [hnone] at h
      | cons c rest =>
        have hc : c ≠ '.' := by simpa using hpoint
        simp [hnone, hc] at h
    refine ⟨⟨whole, none, hwhole, nofun, hdigit⟩, rest, ?_, fun c hc => ⟨?_, ?_⟩⟩
    · simp [text, tail, hsplit]
    · rw [Option.mem_def.mp hc] at hhead
      simpa using hhead
    · rintro rfl
      exact absurd hc hpoint

theorem ofNumeral?_text_append {n : Numeral} {rest : List Char} (h : n.Stops rest) :
    Lexeme.ofNumeral? (n.text ++ rest) = some (.token (.num n.toNumber), n.text.length) := by
  rw [Lexeme.ofNumeral?_eq_some_iff, numeralLength_text_append h, List.take_left]
  exact ⟨List.length_eq_zero_iff.not.mpr n.text_ne_nil, rfl, n.toNumber, n.ofText?_text, rfl⟩

/-- A numeral is the first lexeme where it stands, if it does not go on. -/
theorem first?_text_append {n : Numeral} {rest : List Char} (h : n.Stops rest) :
    Lexeme.first? (n.text ++ rest) = some (.token (.num n.toNumber), n.text.length) := by
  have hnumeral := ofNumeral?_text_append h
  cases htext : n.text with
  | nil => exact absurd htext n.text_ne_nil
  | cons c cs =>
    have hc : c.isDigit = true ∨ c = '.' := n.isDigit_or_eq_point_of_mem_text (by simp [htext])
    rw [htext, List.cons_append] at hnumeral
    rw [List.cons_append, Lexeme.first?_of_isDigit_or_point hc, hnumeral]

/-- **A numeral is one lexeme.** -/
theorem cuts_text (n : Numeral) : Lexeme.Cuts n.text [.token (.num n.toNumber)] := by
  refine .of_first? ?_
  simpa using first?_text_append n.stops_nil

end Numeral

/-! ### Formulas -/

/-- An expression with parentheses around the operands of its operators and the
arguments of its functions. -/
inductive Formula where
  | numeral (n : Numeral)
  | const (c : Constant)
  | var (v : Variable)
  /-- An operator on two operands, so not the prefix minus. -/
  | binary (o : Operator) (two : o ≠ .negate) (a b : Formula)
  | func (f : Func) (a : Formula)
  | negate (a : Formula)
  /-- Two operands side by side, with no sign between them. -/
  | juxtaposed (a b : Formula)

/-- The text in parentheses. -/
def inGroup (cs : List Char) : List Char := '(' :: (cs ++ [')'])

/-- The lexemes in parentheses. -/
def Lexeme.inGroup (ls : List Lexeme) : List Lexeme := token .lpar :: (ls ++ [token .rpar])

/-- The tokens in parentheses. -/
def Token.inGroup (ts : List Token) : List Token := lpar :: (ts ++ [rpar])

namespace Formula

/-- The formula as it is written. -/
def text : Formula → List Char
  | numeral n => n.text
  | const c => c.name.toList
  | var v => v.name.toList
  | binary o _ a b => inGroup a.text ++ (o.symbol.toList ++ inGroup b.text)
  | func f a => f.name.toList ++ inGroup a.text
  | negate a => '-' :: inGroup a.text
  | juxtaposed a b => inGroup a.text ++ inGroup b.text

/-- The lexemes that the formula is made of. -/
def lexemes : Formula → List Lexeme
  | numeral n => [.token (.num n.toNumber)]
  | const c => [.token (.const c)]
  | var v => [.token (.var v)]
  | binary o _ a b => Lexeme.inGroup a.lexemes ++ .token (.op o) :: Lexeme.inGroup b.lexemes
  | func f a => .token (.func f) :: Lexeme.inGroup a.lexemes
  | negate a => .token (.op .minus) :: Lexeme.inGroup a.lexemes
  | juxtaposed a b => Lexeme.inGroup a.lexemes ++ Lexeme.inGroup b.lexemes

/-- Its tokens, every multiplication among them. -/
def tokens : Formula → List Token
  | numeral n => [.num n.toNumber]
  | const c => [.const c]
  | var v => [.var v]
  | binary o _ a b => Token.inGroup a.tokens ++ .op o :: Token.inGroup b.tokens
  | func f a => .func f :: Token.inGroup a.tokens
  | negate a => .op .minus :: Token.inGroup a.tokens
  | juxtaposed a b => Token.inGroup a.tokens ++ .op .times :: Token.inGroup b.tokens

/-- The expression that the formula stands for. -/
def tree : Formula → Expr
  | numeral n => .num n.toNumber
  | const c => .const c
  | var v => .var v
  | binary o two a b => .binary o two a.tree b.tree
  | func f a => .func f a.tree
  | negate a => .negate a.tree
  | juxtaposed a b => .binary .times (by decide) a.tree b.tree

/-! ### From the text to the lexemes -/

theorem cuts_inGroup {cs bs : List Char} {ls ms : List Lexeme} (h : Lexeme.Cuts cs ls)
    (h' : Lexeme.Cuts bs ms) : Lexeme.Cuts (inGroup cs ++ bs) (Lexeme.inGroup ls ++ ms) := by
  have hclose : Lexeme.Cuts (')' :: bs) (.token .rpar :: ms) := .cons rfl h'
  have happend : Lexeme.Cuts (cs ++ ')' :: bs) (ls ++ .token .rpar :: ms) :=
    h.append ((apart_cons ..).mpr (by decide)) hclose
  have hopen : Lexeme.Cuts ('(' :: (cs ++ ')' :: bs)) (.token .lpar :: (ls ++ .token .rpar :: ms)) :=
    .cons rfl happend
  simpa [inGroup, Lexeme.inGroup] using hopen

theorem cuts_group {cs : List Char} {ls : List Lexeme} (h : Lexeme.Cuts cs ls) :
    Lexeme.Cuts (inGroup cs) (Lexeme.inGroup ls) := by
  simpa using cuts_inGroup h .nil

theorem apart_inGroup (cs : List Char) : Apart (inGroup cs) :=
  (apart_cons ..).mpr (by decide)

theorem cuts_symbol {o : Operator} (two : o ≠ .negate) :
    Lexeme.Cuts o.symbol.toList [.token (.op o)] := by
  have hsign : ∃ c, o.symbol.toList = [c] ∧ Lexeme.ofSign? c = some (.token (.op o)) := by
    cases o <;> first | exact ⟨_, rfl, rfl⟩ | exact absurd rfl two
  obtain ⟨c, hsymbol, hc⟩ := hsign
  rw [hsymbol]
  exact .cons hc .nil

/-- **The text is cut where it is put together.** -/
theorem cuts_text : ∀ f : Formula, Lexeme.Cuts f.text f.lexemes
  | numeral n => n.cuts_text
  | const c => Name.cuts_text (.const c)
  | var v => Name.cuts_text (.var v)
  | binary o two a b => by
    have hright := (cuts_symbol two).append (apart_inGroup b.text) (cuts_group b.cuts_text)
    exact cuts_inGroup a.cuts_text hright
  | func f a =>
    (Name.cuts_text (.func f)).append (apart_inGroup a.text) (cuts_group a.cuts_text)
  | negate a => .cons rfl (cuts_group a.cuts_text)
  | juxtaposed a b => cuts_inGroup a.cuts_text (cuts_group b.cuts_text)

/-! ### From the lexemes to the tokens -/

theorem toTokens_inGroup {ls : List Lexeme} {ts : List Token} (left : LeftContext)
    (h : ∀ us, Lexeme.toTokens .noValue (ls ++ us) = ts ++ Lexeme.toTokens .value us)
    (us : List Lexeme) : Lexeme.toTokens left (Lexeme.inGroup ls ++ us) =
      Lexeme.joined left .lpar ++ (ts ++ .rpar :: Lexeme.toTokens .value us) := by
  have hopen : Lexeme.toTokens left (Lexeme.inGroup ls ++ us) =
      Lexeme.joined left .lpar ++ Lexeme.toTokens .noValue (ls ++ .token .rpar :: us) := by
    simp [Lexeme.inGroup, Lexeme.emit, Lexeme.toLeft, Token.isAtom, Token.isValue]
  rw [hopen, h]
  rfl

/-- **A multiplication is put between two groups and nowhere else.** -/
theorem toTokens_lexemes : ∀ (f : Formula) (us : List Lexeme),
    Lexeme.toTokens .noValue (f.lexemes ++ us) = f.tokens ++ Lexeme.toTokens .value us
  | numeral n, us => rfl
  | const c, us => rfl
  | var v, us => rfl
  | binary o two a b, us => by
    have ha := toTokens_inGroup .noValue a.toTokens_lexemes
    have hb := toTokens_inGroup .noValue b.toTokens_lexemes
    have hop : Lexeme.toTokens .value (.token (.op o) :: (Lexeme.inGroup b.lexemes ++ us)) =
        .op o :: Lexeme.toTokens .noValue (Lexeme.inGroup b.lexemes ++ us) := rfl
    rw [lexemes, List.append_assoc, List.cons_append, ha, hop, hb]
    simp [tokens, Token.inGroup, Lexeme.joined]
  | func f a, us => by
    have ha := toTokens_inGroup .noValue a.toTokens_lexemes us
    have hf : Lexeme.toTokens .noValue (.token (.func f) :: (Lexeme.inGroup a.lexemes ++ us)) =
        .func f :: Lexeme.toTokens .noValue (Lexeme.inGroup a.lexemes ++ us) := rfl
    rw [lexemes, List.cons_append, hf, ha]
    simp [tokens, Token.inGroup, Lexeme.joined]
  | negate a, us => by
    have ha := toTokens_inGroup .noValue a.toTokens_lexemes us
    have hminus : Lexeme.toTokens .noValue (.token (.op .minus) :: (Lexeme.inGroup a.lexemes ++ us)) =
        .op .minus :: Lexeme.toTokens .noValue (Lexeme.inGroup a.lexemes ++ us) := rfl
    rw [lexemes, List.cons_append, hminus, ha]
    simp [tokens, Token.inGroup, Lexeme.joined]
  | juxtaposed a b, us => by
    have ha := toTokens_inGroup .noValue a.toTokens_lexemes
    have hb := toTokens_inGroup .value b.toTokens_lexemes
    rw [lexemes, List.append_assoc, ha, hb]
    simp [tokens, Token.inGroup, Lexeme.joined, Token.beginsValue]

theorem tokenize_text (f : Formula) : tokenize f.text = .ok f.tokens := by
  have htokens := f.toTokens_lexemes []
  rw [List.append_nil, Lexeme.toTokens_nil, List.append_nil] at htokens
  rw [tokenize_of_cuts f.cuts_text, htokens]

/-! ### From the tokens to the tree -/

theorem signed_inGroup {ts : List Token} {t : Expr} (h : Parses .sum .closed ts t) :
    Parses .signed .closed (Token.inGroup ts) t := .unsigned (.atom (.group h))

/-- Two groups and an operator between them. -/
theorem parses_binary {ts us : List Token} {t u : Expr} {o : Operator} (two : o ≠ .negate)
    (ha : Parses .sum .closed ts t) (hb : Parses .sum .closed us u) :
    Parses .sum .closed (Token.inGroup ts ++ .op o :: Token.inGroup us) (.binary o two t u) := by
  have hleft := signed_inGroup ha
  have hright := signed_inGroup hb
  cases o with
  | plus => exact .sum (.inl rfl) two (.sum_of_signed hleft) (.factor hright)
  | minus => exact .sum (.inr rfl) two (.sum_of_signed hleft) (.factor hright)
  | times => exact .term (.product (.inl rfl) two (.factor hleft) hright)
  | divide => exact .term (.product (.inr (.inl rfl)) two (.factor hleft) hright)
  | modulo => exact .term (.product (.inr (.inr rfl)) two (.factor hleft) hright)
  | power => exact .sum_of_signed (.unsigned (.power two (.group ha) hright))
  | negate => exact absurd rfl two

theorem parses_tokens : ∀ f : Formula, Parses .sum .closed f.tokens f.tree
  | numeral n => .sum_of_atom (.num _)
  | const c => .sum_of_atom (.const c)
  | var v => .sum_of_atom (.var v)
  | binary _ two a b => parses_binary two a.parses_tokens b.parses_tokens
  | func f a => .sum_of_atom (.call f 0 a.parses_tokens)
  | negate a => .sum_of_signed (.minus (signed_inGroup a.parses_tokens))
  | juxtaposed a b => parses_binary (by decide) a.parses_tokens b.parses_tokens

/-- **A formula has the value of its tree.** Its text is evaluated as its tree is,
with every mode and all variables; a value is finite, and an error is one of the
evaluation that some node of the tree has by its value. -/
theorem evaluate_text (ctx : Context) (f : Formula) :
    evaluate ctx (String.ofList f.text) = (f.tree.result ctx).mapError .evaluation ∧
      (∀ v, evaluate ctx (String.ofList f.text) = .ok v → v.IsFinite) ∧
      ∀ e, evaluate ctx (String.ofList f.text) = .error e →
        ∃ cause, e = .evaluation cause ∧ cause.isMalformed = false := by
  have htokens : tokenize (trim (String.ofList f.text).toList) = .ok f.tokens := by
    rw [String.toList_ofList]
    exact tokenize_trim f.tokenize_text
  have hvalue : evaluate ctx (String.ofList f.text) = (f.tree.result ctx).mapError .evaluation := by
    rw [evaluate_of_toRpn htokens (arrange_of_parses f.parses_tokens), Expr.evalRpn_rpn]
  refine ⟨hvalue, fun v hv => ?_, fun e he => ?_⟩
  · rw [hvalue, mapError_eq_ok_iff] at hv
    obtain ⟨u, -, hu⟩ := bind_eq_ok_iff.mp hv
    exact Machine.isFinite_of_shown hu
  · cases hresult : f.tree.result ctx with
    | ok v =>
      rw [hvalue, hresult] at he
      cases he
    | error cause =>
      rw [hvalue, hresult] at he
      cases he
      exact ⟨cause, rfl, Expr.isMalformed_of_result hresult⟩

end Formula
end Calculator
