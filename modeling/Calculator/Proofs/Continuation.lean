/-
# A result is gone on with

The equals key leaves the text of the result in the entry, where it can be typed on.
The text of a negative result is two tokens, a minus and a number, and what is typed
after it finds that minus still waiting on the stack. It goes out before any operator
but the power, which binds as tightly. So from that operator on the arrangement is the
one it would be with the result in parentheses (`toRpn_inGroup_append`); and what begins
a value has a multiplication put in before it, which is such an operator. What is typed
may be no expression, or no text of tokens at all.

Key definitions: `ContinuesAfter`, `ValueBefore`, `IsLexicalFailure`.
Key theorems: `toRpn_inGroup_append`, `ContinuesAfter.head?_toTokens`,
`evaluate_append_of_value`, `evaluate_text_append`.
-/
import Calculator.Proofs.Grouping
import Calculator.Proofs.Recall

namespace Calculator

/-! ### A group before an operator -/

/-- **Parentheses make no difference before an operator** that lets out all that waits
of the group, nor at the end. -/
theorem toRpn_inGroup_append {ts sent us : List Token} {held : List Pending}
    (hread : Waiting.read {} ts = .ok (sent, ⟨held, true⟩)) (hgroup : .group ∉ held)
    (hus : ∀ t ∈ us.head?, ∃ o, t = .op o ∧ ∀ p ∈ held, p.precedes o = true) :
    toRpn (Token.inGroup ts ++ us) = toRpn (ts ++ us) := by
  have hbare : Waiting.Sends {} ts sent ⟨held, true⟩ := Waiting.Sends.of_read hread
  have hrpn : toRpn ts = .ok (sent ++ released held) := Waiting.toRpn_of_read hread hgroup
  have hgrouped : Waiting.Sends {} (Token.inGroup ts) (sent ++ released held) ⟨[], true⟩ :=
    Waiting.sends_group hrpn fun f => by simp
  rw [toRpn, toRpn, hbare us, hgrouped us]
  cases us with
  | nil =>
    rw [Waiting.arrange_nil, Waiting.arrange_nil, finish, finish, if_neg hgroup]
    simp [Except.map]
  | cons t us =>
    obtain ⟨o, rfl, hheld⟩ := hus t rfl
    -- The operator finds what is held, or nothing, and then waits alone.
    have hwaits : Waiting.step ⟨held ++ [], true⟩ (.op o) = .ok (released held, ⟨[.op o], false⟩) :=
      Waiting.step_op hheld rfl
    have hempty : Waiting.step ⟨[], true⟩ (.op o) = .ok ([], ⟨[.op o], false⟩) :=
      Waiting.step_operator (.inl rfl)
    rw [List.append_nil] at hwaits
    rw [Waiting.arrange_cons hwaits, Waiting.arrange_cons hempty, map_map, map_map]
    exact congrArg (fun f => Except.map f _) (funext fun out => by simp)

/-! ### What a value may be gone on with -/

/-- A lexeme that goes on after the value: an operator, but the power only after a
value that is not negative, or what begins a value after a multiplication sign. -/
def Lexeme.ContinuesAfter (v : Number) : Lexeme → Prop
  | root => True
  | token (.op o) => o = .power → 0 ≤ v
  | token t => t.beginsValue = true

/-- A text that goes on after the value: it is blank, or its first lexeme does. -/
def ContinuesAfter (v : Number) (cs : List Char) : Prop :=
  (∀ c ∈ cs, isBlank c = true) ∨
    ∃ l n, Lexeme.first? (cs.dropWhile isBlank) = some (l, n) ∧ l.ContinuesAfter v

section Continues

variable {v : Number} {l : Lexeme} {cs : List Char}

/-- After a value it gives an operator first, written or put in. -/
theorem Lexeme.ContinuesAfter.exists_emit (h : l.ContinuesAfter v)
    (hl : l ≠ .token (.op .negate)) :
    ∃ o ts, l.emit .value = .op o :: ts ∧ o ≠ .negate ∧ (o = .power → 0 ≤ v) := by
  cases l with
  | root => exact ⟨.times, [.func .sqrt], rfl, nofun, nofun⟩
  | token t =>
    cases t with
    | op o => exact ⟨o, [], rfl, fun ho => hl (by rw [ho]), h⟩
    | num | rpar => cases h
    | const | var | func | lpar => exact ⟨.times, _, rfl, nofun, nofun⟩

/-- It does not begin like a numeral. -/
theorem Lexeme.Written.stops {rest : List Char} (h : l.Written cs rest)
    (hl : l.ContinuesAfter v) (n : Numeral) : n.Stops (cs ++ rest) := by
  cases h with
  | @sign c _ _ hc =>
    have hends : signs.all endsLexeme = true := by decide
    have hapart : Apart (c :: rest) :=
      (apart_cons c rest).mpr (List.all_eq_true.mp hends c (mem_signs_of_ofSign? hc))
    exact n.stops_of_apart hapart
  | numeral => cases hl
  | name m hm =>
    obtain ⟨c, cs', rfl, hc⟩ := exists_letter_of_map hm
    obtain ⟨hdigit, hpoint⟩ := not_numeral_of_letter hc
    rintro d hd
    obtain rfl : c = d := Option.some.inj hd
    exact ⟨hdigit, fun h => absurd h hpoint⟩

/-- No numeral goes on into it. -/
theorem ContinuesAfter.stops (h : ContinuesAfter v cs) (n : Numeral) : n.Stops cs := by
  have hblank : ∀ c cs', isBlank c = true → n.Stops (c :: cs') := fun c cs' hc =>
    n.stops_of_apart ((apart_cons c cs').mpr (endsLexeme_of_isBlank hc))
  cases cs with
  | nil => exact n.stops_nil
  | cons c cs =>
    rcases h with hall | ⟨l, k, hfirst, hl⟩
    · exact hblank c cs (hall c List.mem_cons_self)
    · cases hc : isBlank c with
      | true => exact hblank c cs hc
      | false =>
        rw [List.dropWhile_cons_of_neg (by simp [hc])] at hfirst
        have hstops := (Lexeme.written_of_first? hfirst).stops hl n
        rwa [List.take_append_drop] at hstops

/-- The first lexeme of a text is the first that it is laid out as. -/
theorem LaidOut.first?_dropWhile {ls : List Lexeme} (h : LaidOut cs (l :: ls)) :
    ∃ n, Lexeme.first? (cs.dropWhile isBlank) = some (l, n) := by
  cases h with
  | @lexeme gap cs rest _ _ hgap hl _ =>
    have hfirst := hl.first?_append
    obtain ⟨c, cs, rfl, hc⟩ := hl.exists_cons
    rw [List.dropWhile_append_of_pos hgap, List.cons_append,
      List.dropWhile_cons_of_neg (by simp [hc])]
    exact ⟨_, hfirst⟩

/-- Its tokens after a value are none, or an operator comes first. -/
theorem ContinuesAfter.head?_toTokens (h : ContinuesAfter v cs) {ls : List Lexeme}
    (hls : LaidOut cs ls) : ∀ t ∈ (Lexeme.toTokens .value ls).head?,
      ∃ o, t = .op o ∧ o ≠ .negate ∧ (o = .power → 0 ≤ v) := by
  cases ls with
  | nil => exact nofun
  | cons l ls =>
    obtain ⟨n, hfirst⟩ := hls.first?_dropWhile
    rcases h with hall | ⟨l', n', hfirst', hl⟩
    · cases hls.unique (.blank hall)
    · cases hfirst.symm.trans hfirst'
      obtain ⟨o, ts, hemit, ho, hpower⟩ :=
        hl.exists_emit fun hne => Lexeme.first?_ne_negate (hne ▸ hfirst)
      rw [Lexeme.toTokens_cons, hemit]
      rintro t ht
      exact ⟨o, (Option.some.inj ht).symm, ho, hpower⟩

end Continues

/-! ### A value before another text -/

/-- Where `after` follows it, the text has these tokens, and a value ends with it. -/
def ValueBefore (after cs : List Char) (ts : List Token) : Prop :=
  ∃ ls, LaidOutBefore after cs ls ∧
    ∀ ms, Lexeme.toTokens .noValue (ls ++ ms) = ts ++ Lexeme.toTokens .value ms

section Value

variable {after cs : List Char} {ts : List Token}

theorem LaidOutBefore.inGroup {ls : List Lexeme} (h : LaidOutBefore (')' :: after) cs ls) :
    LaidOutBefore after (inGroup cs) (Lexeme.inGroup ls) := by
  have hopen : Lexeme.ofSign? '(' = some (.token .lpar) := rfl
  have hclose : Lexeme.ofSign? ')' = some (.token .rpar) := rfl
  have hend : LaidOutBefore after [')'] [.token .rpar] := .of_written (.sign hclose)
  have hinside : LaidOutBefore after (cs ++ [')']) (ls ++ [.token .rpar]) := h.append hend
  have hgroup : LaidOutBefore after (['('] ++ (cs ++ [')'])) _ :=
    .cons_written (.sign hopen) hinside
  exact hgroup

/-- A value in parentheses is a value. -/
theorem ValueBefore.inGroup (h : ValueBefore (')' :: after) cs ts) :
    ValueBefore after (inGroup cs) (Token.inGroup ts) := by
  obtain ⟨ls, hls, htokens⟩ := h
  refine ⟨_, hls.inGroup, fun ms => ?_⟩
  rw [Formula.toTokens_inGroup .noValue htokens]
  simp [Lexeme.joined, Token.inGroup]

/-- The text has tokens with what follows just if what follows is laid out by itself. -/
theorem ValueBefore.tokenize_append_iff (h : ValueBefore after cs ts) {us : List Token} :
    tokenize (cs ++ after) = .ok us ↔
      ∃ ms, LaidOut after ms ∧ ts ++ Lexeme.toTokens .value ms = us := by
  obtain ⟨ls, hls, htokens⟩ := h
  simp only [hls.tokenize_append_iff, ← Lexeme.toTokens_append, htokens]

end Value

namespace Number

variable {v : Number}

/-- The tokens of a finite number's text. -/
def tokens (v : Number) : List Token :=
  if isNegative v then [.op .minus, .num v.magnitude.toNumber] else [.num v.magnitude.toNumber]

/-- What waits on the stack after them. -/
def held (v : Number) : List Pending := if isNegative v then [.op .negate] else []

theorem read_tokens (v : Number) :
    Waiting.read {} v.tokens = .ok ([.num v.magnitude.toNumber], ⟨v.held, true⟩) := by
  unfold tokens held
  cases isNegative v <;> rfl

theorem group_not_mem_held (v : Number) : .group ∉ v.held := by
  rw [held]
  split <;> simp

/-- The text of a number is a value, unless its numeral goes on. -/
theorem valueBefore_text (h : v.IsFinite) {after : List Char}
    (hafter : ∀ n : Numeral, n.Stops after) : ValueBefore after v.text.toList v.tokens := by
  have hnumeral : LaidOutBefore after v.magnitude.text [.token (.num v.magnitude.toNumber)] :=
    .of_written (.numeral v.magnitude (hafter v.magnitude))
  rw [toList_text h, tokens]
  cases isNegative v with
  | false => exact ⟨_, hnumeral, fun ms => rfl⟩
  | true =>
    have hminus : Lexeme.ofSign? '-' = some (.token (.op .minus)) := rfl
    have hsigned : LaidOutBefore after (['-'] ++ v.magnitude.text) _ :=
      .cons_written (.sign hminus) hnumeral
    exact ⟨_, hsigned, fun ms => rfl⟩

/-- What waits after the number goes out before what goes on after it. -/
theorem precedes_of_mem_held (hv : 0 ≤ v → v.isNegative = false) {o : Operator}
    (ho : o ≠ .negate) (hpower : o = .power → 0 ≤ v) : ∀ p ∈ v.held, p.precedes o = true := by
  rw [held]
  cases hsign : v.isNegative with
  | false => exact nofun
  | true =>
    have htwo : o ≠ .power := fun h => by
      cases hsign.symm.trans (hv (hpower h))
    rintro p hp
    rw [List.mem_singleton.mp hp]
    cases o <;> first | rfl | contradiction

end Number

/-! ### Going on with a result -/

/-- The calculation fails because a character begins no lexeme. -/
def IsLexicalFailure (result : Except CalcError Number) : Prop :=
  ∃ e, result = .error e ∧ e.kind = .lexical

section Results

variable {ctx : Context} {s : String}

theorem evaluate_of_tokenize {ts : List Token} (h : tokenize s.toList = .ok ts) :
    evaluate ctx s = evaluateTokens ctx ts := evaluate_of_tokens (tokenize_trim h)

theorem not_isLexicalFailure_evaluateTokens (ctx : Context) (ts : List Token) :
    ¬ IsLexicalFailure (evaluateTokens ctx ts) := by
  rintro ⟨e, herror, hkind⟩
  rcases bind_eq_error_iff.mp herror with hrpn | ⟨rpn, -, hvalue⟩
  · obtain ⟨rfl, -⟩ := toRpn_eq_error_iff.mp hrpn
    cases hkind
  · cases hrun : evalRpn ctx rpn with
    | ok v =>
      rw [hrun] at hvalue
      cases hvalue
    | error e' =>
      rw [hrun] at hvalue
      cases hvalue
      cases hkind

theorem isLexicalFailure_of_tokenize (h : ∀ ts, tokenize s.toList ≠ .ok ts) :
    IsLexicalFailure (evaluate ctx s) := by
  cases htokens : tokenize (trim s.toList) with
  | error e =>
    have herror := calculate_of_tokenize_error ctx htokens
    exact ⟨e, evaluate_eq_error_iff.mpr herror, kind_of_tokenize_error htokens⟩
  | ok ts =>
    obtain ⟨ls, hls, hts⟩ := map_eq_ok_iff.mp htokens
    exact absurd (map_eq_ok_iff.mpr ⟨ls, Lexeme.cut_trim_iff.mp hls, hts⟩) (h ts)

end Results

/-- A value with a text after it: where this text is cut into lexemes, the result is that
of the tokens of both; elsewhere there is none. -/
theorem evaluate_append_of_value {s q : String} {ts : List Token}
    (h : ValueBefore q.toList s.toList ts) (ctx : Context) :
    (∀ ms, LaidOut q.toList ms →
        evaluate ctx (s ++ q) = evaluateTokens ctx (ts ++ Lexeme.toTokens .value ms)) ∧
      ((∀ ms, ¬ LaidOut q.toList ms) → IsLexicalFailure (evaluate ctx (s ++ q))) := by
  constructor
  · intro ms hms
    refine evaluate_of_tokenize ?_
    rw [String.toList_append]
    exact h.tokenize_append_iff.mpr ⟨ms, hms, rfl⟩
  · intro hnone
    refine isLexicalFailure_of_tokenize fun us hus => ?_
    rw [String.toList_append] at hus
    obtain ⟨ms, hms, -⟩ := h.tokenize_append_iff.mp hus
    exact hnone ms hms

/-- The text of a number, and that text in parentheses, with the same text after them:
either both are not cut into lexemes, or both have the same result. -/
theorem evaluate_text_append_cases {v : Number} (hfinite : v.IsFinite)
    (hv : 0 ≤ v → v.isNegative = false) (ctx : Context) {q : String}
    (hq : ContinuesAfter v q.toList) :
    (IsLexicalFailure (evaluate ctx (v.text ++ q)) ∧
        IsLexicalFailure (evaluate ctx ("(" ++ v.text ++ ")" ++ q))) ∨
      (¬ IsLexicalFailure (evaluate ctx (v.text ++ q)) ∧
        evaluate ctx (v.text ++ q) = evaluate ctx ("(" ++ v.text ++ ")" ++ q)) := by
  have hclose : Apart (')' :: q.toList) := (apart_cons ..).mpr (by decide)
  have hgroup := (Number.valueBefore_text hfinite (Numeral.stops_of_apart hclose)).inGroup
  have htext : inGroup v.text.toList = ("(" ++ v.text ++ ")").toList := by simp [inGroup]
  rw [htext] at hgroup
  obtain ⟨hbare, hbareFails⟩ :=
    evaluate_append_of_value (Number.valueBefore_text hfinite hq.stops) ctx
  obtain ⟨hgrouped, hgroupedFails⟩ := evaluate_append_of_value hgroup ctx
  by_cases hcut : ∃ ms, LaidOut q.toList ms
  · obtain ⟨ms, hms⟩ := hcut
    have hrpn := toRpn_inGroup_append v.read_tokens v.group_not_mem_held fun t ht => by
      obtain ⟨o, rfl, ho, hpower⟩ := hq.head?_toTokens hms t ht
      exact ⟨o, rfl, Number.precedes_of_mem_held hv ho hpower⟩
    rw [hbare ms hms, hgrouped ms hms]
    refine .inr ⟨not_isLexicalFailure_evaluateTokens ctx _, ?_⟩
    rw [evaluateTokens, evaluateTokens, hrpn]
  · rw [not_exists] at hcut
    exact .inl ⟨hbareFails hcut, hgroupedFails hcut⟩

/-- **A result is gone on with as a whole.** Let `v` be the value of some text, in some
mode and with some variables, and `q` a text that is blank or begins with a lexeme that
goes on after `v`. In every mode and with all variables, the text of `v` with `q` after
it and the text of `v` in parentheses with `q` after it have the same value or the same
error, unless a character begins no lexeme; then both fail for such a reason. So, if
the equals key leaves `v` in the entry and `q` is typed after it, the entry is
calculated as if `v` stood in parentheses. -/
theorem evaluate_text_append {ctx₀ : Context} {s : String} {v : Number}
    (hv : evaluate ctx₀ s = .ok v) {q : String} (hq : ContinuesAfter v q.toList) :
    (∀ ctx,
      (IsLexicalFailure (evaluate ctx (v.text ++ q)) ↔
        IsLexicalFailure (evaluate ctx ("(" ++ v.text ++ ")" ++ q))) ∧
      (¬ IsLexicalFailure (evaluate ctx (v.text ++ q)) →
        evaluate ctx (v.text ++ q) = evaluate ctx ("(" ++ v.text ++ ")" ++ q))) ∧
      ∀ session : Session, session.calculateEntry.1 = .ok v →
        let result := ((session.press .equals).press (.insert q)).calculateEntry.1
        ¬ IsLexicalFailure result →
          result = evaluate session.context ("(" ++ v.text ++ ")" ++ q) := by
  obtain ⟨u, hu, rfl⟩ := exists_rounded_of_evaluate hv
  have hsign : 0 ≤ u.rounded → u.rounded.isNegative = false := fun hle =>
    Number.isNegative_of_zero_le (Number.isFinite_rounded hu) hle (Number.rounded_ne_neg_zero hu)
  have hcases ctx := evaluate_text_append_cases (Number.isFinite_rounded hu) hsign ctx hq
  refine ⟨fun ctx => ?_, fun session hsession => ?_⟩
  · rcases hcases ctx with ⟨hbare, hgrouped⟩ | ⟨hbare, hsame⟩
    · exact ⟨iff_of_true hbare hgrouped, fun h => absurd hbare h⟩
    · exact ⟨by rw [hsame], fun _ => hsame⟩
  · intro result hresult
    obtain ⟨w, hw⟩ := Session.calculateEntry_fst_eq_ok_iff.mp hsession
    have hpress : session.press .equals = _ := Session.evaluateEntry_of_ok hw
    have htyped : result = evaluate session.context (u.rounded.text ++ q) := by
      simp only [result, hpress, Session.calculateEntry_fst]
      rfl
    rw [htyped] at hresult ⊢
    rcases hcases session.context with ⟨hbare, -⟩ | ⟨-, hsame⟩
    · exact absurd hbare hresult
    · exact hsame

/-- A negative result, gone on with by a root, by a parenthesis too many, and by a
character that begins no lexeme. -/
theorem evaluate_text_append_of_difference :
    let v : Number := -0.2
    evaluate {} "0.1 - 0.3" = .ok v ∧
      evaluate {} ("(" ++ v.text ++ ")" ++ " √4") = .ok (-0.4) ∧
      evaluate {} (v.text ++ "- 3)") = evaluate {} ("(" ++ v.text ++ ")" ++ "- 3)") ∧
      IsLexicalFailure (evaluate {} ("(" ++ v.text ++ ")" ++ "*?")) := by
  intro v
  have hv : evaluate {} "0.1 - 0.3" = .ok v := by decide +kernel
  have hroot : ContinuesAfter v " √4".toList := .inr ⟨.root, 1, by decide, True.intro⟩
  have hminus : ContinuesAfter v "- 3)".toList :=
    .inr ⟨.token (.op .minus), 1, by decide, nofun⟩
  have htimes : ContinuesAfter v "*?".toList := .inr ⟨.token (.op .times), 1, by decide, nofun⟩
  have hproduct : evaluate {} (v.text ++ " √4") = .ok (-0.4) := by decide +kernel
  have hopen : evaluate {} (v.text ++ "- 3)") = .error .unmatchedParentheses := by decide +kernel
  have hquestion : evaluate {} (v.text ++ "*?") = .error (.unexpectedChar 5 '?') := by
    decide +kernel
  refine ⟨hv, ?_, ?_, ?_⟩
  · rw [← ((evaluate_text_append hv hroot).1 {}).2, hproduct]
    rw [hproduct]
    exact nofun
  · refine ((evaluate_text_append hv hminus).1 {}).2 ?_
    rw [hopen]
    rintro ⟨e, he, hkind⟩
    cases he
    cases hkind
  · exact ((evaluate_text_append hv htimes).1 {}).1.mp ⟨_, hquestion, rfl⟩

end Calculator
