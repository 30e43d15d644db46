/-
# Tokens are read back

A list of tokens is rendered with its numbers as numerals, its functions by their
names and every multiplication and parenthesis written, so reading it adds nothing a
second time: it gives the same tokens (`tokenize_render`), if they are tokens that a
text can have. Those of a text are, unless a numeral is too large for a double
(`readable_of_tokenize`). So the tokens that are shown with a result are themselves
a text with the same result and the same working (`tokens_reread`).

Key definitions: `Token.IsPlain`, `Readable`, `NumeralsInRange`.
Key theorems: `Token.cuts_text`, `tokenize_render`, `readable_of_tokenize`,
`tokens_reread`.
-/
import Calculator.Proofs.Multiplication
import Calculator.Proofs.Reading

namespace Calculator

/-! ### One token -/

namespace Token

/-- A token that a text can have: a number is finite and has no sign, and a minus is
no prefix yet. -/
def IsPlain : Token → Prop
  | num v => v.IsFinite ∧ v.isNegative = false
  | op o => o ≠ .negate
  | _ => True

/-- **A token is written as one lexeme**, its own. -/
theorem cuts_text : ∀ {t : Token}, t.IsPlain → Lexeme.Cuts t.text.toList [.token t]
  | num v, ⟨hfinite, hsign⟩ => by
    have htext : (num v).text.toList = v.magnitude.text := by
      rw [text, Number.toList_text hfinite, hsign]
      rfl
    have hvalue := Number.eq_magnitude hfinite
    rw [hsign, if_neg Bool.false_ne_true] at hvalue
    have hcuts := v.magnitude.cuts_text
    rwa [← htext, ← hvalue] at hcuts
  | const c, _ => Name.cuts_text (.const c)
  | var v, _ => Name.cuts_text (.var v)
  | func f, _ => Name.cuts_text (.func f)
  | op _, two => Formula.cuts_symbol two
  | lpar, _ => .cons rfl .nil
  | rpar, _ => .cons rfl .nil

/-! ### A list of tokens -/

theorem cuts_render : ∀ {ts : List Token}, (∀ t ∈ ts, t.IsPlain) →
    Lexeme.Cuts (render ts).toList (ts.map .token)
  | [], _ => .nil
  | [t], h => by
    rw [render, List.map_singleton, String.intercalate_singleton]
    exact cuts_text (h t List.mem_cons_self)
  | t :: u :: ts, h => by
    obtain ⟨ht, hts⟩ := List.forall_mem_cons.mp h
    -- The blank between the two ends the first lexeme, whatever it is.
    have hrest : Lexeme.Cuts (' ' :: (render (u :: ts)).toList) ((u :: ts).map .token) :=
      (cuts_render hts).cons_blank (by decide)
    have hall := (cuts_text ht).append ((apart_cons ..).mpr (by decide)) hrest
    have htext : (render (t :: u :: ts)).toList =
        t.text.toList ++ ' ' :: (render (u :: ts)).toList := by
      rw [render, List.map_cons, List.map_cons, String.intercalate_cons_cons, String.toList_append,
        String.toList_append, List.append_assoc]
      rfl
    rw [htext]
    exact hall

end Token

/-- Nothing is added to tokens that are separate from each other already: no
multiplication, and without the root sign no parentheses. -/
theorem Lexeme.toTokens_map_token : ∀ {ts : List Token} {left : LeftContext} {t : Token},
    (left = .value → t.isValue = true) → left ≠ .rootSign →
    (t :: ts).IsChain Token.Separate → toTokens left (ts.map .token) = ts
  | [], _, _, _, _, _ => rfl
  | u :: ts, left, t, hvalue, hroot, hchain => by
    obtain ⟨hseparate, hrest⟩ := List.isChain_cons_cons.mp hchain
    have hleft : (token u).toLeft ≠ .rootSign := by
      rw [toLeft]
      split <;> decide
    have ih := toTokens_map_token (toLeft_eq_value_iff (token u)).mp hleft hrest
    have hemit : (token u).emit left = [u] := by
      rcases emit_cases left (token u) with ⟨h, -, -⟩ | ⟨h, hbegins, -⟩ | ⟨-, hemit⟩
      · exact absurd h hroot
      · exact absurd ⟨hvalue h, hbegins⟩ hseparate
      · exact hemit
    rw [List.map_cons, toTokens_cons, hemit, ih]
    rfl

/-- Tokens that a text can have, with every multiplication among them. -/
structure Readable (ts : List Token) : Prop where
  plain : ∀ t ∈ ts, t.IsPlain
  separate : ts.IsChain Token.Separate

theorem tokenize_render {ts : List Token} (h : Readable ts) :
    tokenize (Token.render ts).toList = .ok ts := by
  have hchain : (.lpar :: ts).IsChain Token.Separate :=
    h.separate.cons fun _ _ hopen => nomatch hopen.1
  have htokens : Lexeme.toTokens .noValue (ts.map .token) = ts :=
    Lexeme.toTokens_map_token nofun nofun hchain
  rw [tokenize_of_cuts (Token.cuts_render h.plain), htokens]

/-! ### The tokens of a text -/

/-- No numeral of the text is so large that its double is infinite. -/
def NumeralsInRange (cs : List Char) : Prop :=
  ∀ ls v, Lexeme.cut cs = .ok ls → .token (.num v) ∈ ls → v.IsFinite

theorem NumeralsInRange.trim {cs : List Char} (h : NumeralsInRange cs) :
    NumeralsInRange (trim cs) :=
  fun ls v hls => h ls v (Lexeme.cut_trim_iff.mp hls)

/-- A numeral has no sign. -/
theorem Lexeme.isNegative_of_first? {cs : List Char} {v : Number} {n : Nat}
    (h : first? cs = some (.token (.num v), n)) : v.isNegative = false := by
  have hwritten := written_of_first? h
  generalize hl : Lexeme.token (.num v) = l, cs.take n = us at hwritten
  cases hwritten with
  | sign hsign =>
    subst hl
    rcases ofSign?_cases hsign with
      ⟨-, hl⟩ | ⟨-, hl⟩ | ⟨-, hl⟩ | ⟨-, hl⟩ | ⟨o, -, -, hl⟩ <;> cases hl
  | numeral m =>
    cases hl
    exact Number.isNegative_ofRank ..
  | name m => cases m <;> cases hl

theorem readable_of_tokenize {cs : List Char} {ts : List Token} (h : tokenize cs = .ok ts)
    (hrange : NumeralsInRange cs) : Readable ts := by
  refine ⟨fun t ht => ?_, isChain_of_tokenize h⟩
  have hnegate := negate_not_mem_of_tokenize h
  obtain ⟨ls, hls, rfl⟩ := map_eq_ok_iff.mp h
  cases t with
  | num v =>
    obtain ⟨l, hl, hnum⟩ := (Lexeme.exists_of_mem_toTokens ht).resolve_right (by simp)
    obtain rfl := Lexeme.eq_token_of_asToken hnum nofun
    obtain ⟨us, n, hfirst⟩ := Lexeme.exists_first?_of_mem_cutFrom hls hl
    exact ⟨hrange ls v hls hl, Lexeme.isNegative_of_first? hfirst⟩
  | op o =>
    rintro rfl
    exact hnegate ht
  | const _ | var _ | func _ | lpar | rpar => trivial

/-- **Tokens that are written out are read back.** A list of tokens without a prefix
minus, with finite numbers that have no sign, and with no value right before the
beginning of another, is rendered as a text with these tokens. The tokens of a text
are such a list, if none of its numerals is out of range. So the tokens that are
shown with a result have this result in their turn, and the same working. -/
theorem tokens_reread :
    (∀ ts, Readable ts → tokenize (Token.render ts).toList = .ok ts) ∧
      (∀ cs ts, tokenize cs = .ok ts → NumeralsInRange cs → Readable ts) ∧
      ∀ ctx s v w, calculate ctx s = .ok (v, w) → NumeralsInRange s.toList →
        calculate ctx w.tokens = .ok (v, w) := by
  refine ⟨fun ts => tokenize_render, fun cs ts => readable_of_tokenize, fun ctx s v w h hrange => ?_⟩
  obtain ⟨ts, t, htokens, hrpn, hvalue, rfl⟩ := calculate_eq_ok_iff.mp h
  have hagain := tokenize_render (readable_of_tokenize htokens hrange.trim)
  exact calculate_eq_ok_iff.mpr ⟨ts, t, tokenize_trim hagain, hrpn, hvalue, rfl⟩

/-- The parentheses after the root sign and the multiplication that is left out are
shown, and not added again. -/
theorem tokens_reread_with_root :
    let ts : List Token := [.func .sqrt, .lpar, .num 4, .rpar, .op .times, .lpar, .num 0.5, .rpar]
    let w : Working := ⟨"sqrt ( 4 ) * ( 0.5 )", "4 sqrt 0.5 *"⟩
    Readable ts ∧ tokenize (Token.render ts).toList = .ok ts ∧
      calculate {} "√4(.5)" = .ok (1, w) ∧ calculate {} w.tokens = .ok (1, w) := by
  intro ts w
  have htokens : tokenize "√4(.5)".toList = .ok ts := by decide +kernel
  have hresult : calculate {} "√4(.5)" = .ok (1, w) := by decide +kernel
  have hrange : NumeralsInRange "√4(.5)".toList := by
    intro ls v hls hv
    have hcut : Lexeme.cut "√4(.5)".toList = .ok [.root, .token (.num 4), .token .lpar,
        .token (.num 0.5), .token .rpar] := by decide +kernel
    cases hcut.symm.trans hls
    simp only [List.mem_cons, List.not_mem_nil, Lexeme.token.injEq, Token.num.injEq, reduceCtorEq,
      or_false, false_or] at hv
    rcases hv with rfl | rfl <;> decide +kernel
  obtain ⟨hread, hreadable, hagain⟩ := tokens_reread
  have hts := hreadable _ ts htokens hrange
  exact ⟨hts, hread ts hts, hresult, hagain _ _ _ _ hresult hrange⟩

end Calculator
