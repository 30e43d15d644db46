/-
# Multiplications that are not written

A multiplication may be left out between a value and a function, constant, variable
or parenthesis right after it, blanks between them or not. Where it is left out it
is put in, and nowhere else: a text in which all these multiplications are written
out has the same tokens (`tokenize_of_timesWritten`), and the tokens count as many
as the text has signs and places (`count_times_toTokens`). So among the tokens no
value is left right before the beginning of another (`isChain_toTokens`).

Key definitions: `Token.Separate`, `omittedTimes`, `withTimes`, `TimesWritten`.
Key theorems: `isChain_toTokens`, `count_times_toTokens`, `toTokens_withTimes`,
`tokenize_of_timesWritten`, `times_written_or_omitted`.
-/
import Mathlib.Data.List.Chain
import Calculator.Proofs.Layout

namespace Calculator

/-! ### No value before the beginning of another -/

/-- No multiplication is left out between the tokens. -/
def Token.Separate (t u : Token) : Prop := ¬ (t.isValue = true ∧ u.beginsValue = true)

namespace Lexeme

/-- The tokens of lexemes are separate from each other, and from a token before
them that ends a value only if the lexemes know of it. -/
theorem isChain_toTokens : ∀ {ls : List Lexeme} {left : LeftContext} {t : Token},
    (t.isValue = true → left = .value) → (t :: toTokens left ls).IsChain Token.Separate
  | [], _, _, _ => .singleton _
  | l :: ls, left, t, ht => by
    have ih := @isChain_toTokens ls l.toLeft l.asToken (toLeft_eq_value_iff l).mpr
    rw [toTokens_cons]
    rcases emit_cases left l with
      ⟨rfl, hatom, hemit⟩ | ⟨rfl, -, hemit⟩ | ⟨hapart, hemit⟩ <;> rw [hemit]
    · have hvalue : l.asToken.isValue = true := Token.isValue_of_isAtom hatom
      have hclose := @isChain_toTokens ls l.toLeft .rpar fun _ => (toLeft_eq_value_iff l).mpr hvalue
      have hopen : t.Separate .lpar := fun h => by cases ht h.1
      exact .cons_cons hopen (.cons_cons nofun (.cons_cons (fun h => nomatch h.2) hclose))
    · exact .cons_cons (fun h => nomatch h.2) (.cons_cons (fun h => nomatch h.1) ih)
    · exact .cons_cons (fun h => hapart ⟨ht h.1, h.2⟩) ih

/-! ### Counting multiplications -/

/-- The sign of multiplication. -/
def times : Lexeme := token (.op .times)

theorem count_times_cons (l : Lexeme) (ls : List Lexeme) :
    (l :: ls).count times = [l].count times + ls.count times := by
  rw [← List.count_append]
  rfl

end Lexeme

/-- The number of places where a multiplication is left out: between a number, a
constant, a variable or a closing parenthesis and a function, a root sign, a
constant, a variable or an opening parenthesis. -/
def omittedTimes (ls : List Lexeme) : Nat :=
  (ls.zip ls.tail).countP fun p => p.1.asToken.isValue && p.2.asToken.beginsValue

namespace Lexeme

theorem asToken_eq_times_iff {l : Lexeme} : l.asToken = .op .times ↔ l = times :=
  ⟨fun h => eq_token_of_asToken h (by decide), fun h => h ▸ rfl⟩

theorem count_asToken (l : Lexeme) : [l.asToken].count (.op .times) = [l].count times := by
  by_cases h : l = times
  · rw [h]
    rfl
  · have htoken : .op .times ≠ l.asToken := Ne.symm (asToken_eq_times_iff.not.mpr h)
    rw [List.count_eq_zero.mpr (by simpa using htoken),
      List.count_eq_zero.mpr (by simpa using Ne.symm h)]

theorem count_emit (left : LeftContext) (l : Lexeme) : (l.emit left).count (.op .times) =
    [l].count times + (decide (left = .value) && l.asToken.beginsValue).toNat := by
  rw [← count_asToken]
  rcases emit_cases left l with ⟨rfl, -, hemit⟩ | ⟨rfl, hbegins, hemit⟩ | ⟨hapart, hemit⟩ <;>
    rw [hemit]
  · have hwrapped : [.lpar, l.asToken, .rpar] = [Token.lpar] ++ ([l.asToken] ++ [Token.rpar]) := rfl
    rw [hwrapped, List.count_append, List.count_append]
    exact Nat.zero_add _
  · rw [List.count_cons_self, hbegins]
    rfl
  · have hnone : (decide (left = .value) && l.asToken.beginsValue) = false := by
      simpa using hapart
    rw [hnone]
    rfl

/-- **Each multiplication among the tokens is written or left out.** -/
theorem count_times_toTokens : ∀ (ls : List Lexeme) (l : Lexeme),
    (toTokens l.toLeft ls).count (.op .times) = ls.count times + omittedTimes (l :: ls)
  | [], _ => rfl
  | r :: ls, l => by
    have ih := count_times_toTokens ls r
    have hleft : decide (l.toLeft = .value) = l.asToken.isValue := by
      rw [Bool.eq_iff_iff, decide_eq_true_iff, toLeft_eq_value_iff]
    have homitted : omittedTimes (l :: r :: ls) =
        omittedTimes (r :: ls) + (l.asToken.isValue && r.asToken.beginsValue).toNat := by
      rw [omittedTimes, List.tail_cons, List.zip_cons_cons, List.countP_cons]
      cases l.asToken.isValue && r.asToken.beginsValue <;> rfl
    rw [toTokens_cons, List.count_append, count_emit, ih, hleft, homitted, count_times_cons r ls]
    omega

/-! ### Writing multiplications out -/

/-- The lexemes with a sign of multiplication wherever one is left out. -/
def withTimes (left : LeftContext) : List Lexeme → List Lexeme
  | [] => []
  | l :: ls =>
    if left = .value ∧ l.asToken.beginsValue = true then times :: l :: withTimes l.toLeft ls
    else l :: withTimes l.toLeft ls

/-- **A multiplication may be written or left out.** -/
theorem toTokens_withTimes : ∀ (ls : List Lexeme) (left : LeftContext),
    toTokens left (withTimes left ls) = toTokens left ls
  | [], _ => rfl
  | l :: ls, left => by
    have ih := toTokens_withTimes ls l.toLeft
    rw [withTimes]
    split
    · rename_i h
      -- The sign ends no value, so nothing is put in after it.
      have hemit : l.emit left = [.op .times, l.asToken] := by
        rcases emit_cases left l with ⟨hroot, -, -⟩ | ⟨-, -, hemit⟩ | ⟨hapart, -⟩
        · cases hroot.symm.trans h.1
        · exact hemit
        · exact absurd h hapart
      have htimes : times.emit left = [.op .times] := by rw [h.1]; rfl
      have hleft : times.toLeft = .noValue := rfl
      rw [toTokens_cons, toTokens_cons, toTokens_cons, hemit, htimes, hleft, emit_noValue, ih]
      rfl
    · rw [toTokens_cons, toTokens_cons, ih]

end Lexeme

/-- The second text is the first with a sign of multiplication at each place where
one is left out, before, after or among the blanks that are there. -/
inductive TimesWritten : LeftContext → List Char → List Char → Prop where
  | blank {left : LeftContext} {gap : List Char} (hgap : ∀ c ∈ gap, isBlank c = true) :
      TimesWritten left gap gap
  | lexeme {left : LeftContext} {gap cs rest rest' : List Char} {l : Lexeme}
      (hgap : ∀ c ∈ gap, isBlank c = true) (hl : l.Written cs rest)
      (hnone : ¬ (left = .value ∧ l.asToken.beginsValue = true))
      (h : TimesWritten l.toLeft rest rest') :
      TimesWritten left (gap ++ (cs ++ rest)) (gap ++ (cs ++ rest'))
  | times {before after cs rest rest' : List Char} {l : Lexeme}
      (hbefore : ∀ c ∈ before, isBlank c = true) (hafter : ∀ c ∈ after, isBlank c = true)
      (hl : l.Written cs rest) (hbegins : l.asToken.beginsValue = true)
      (h : TimesWritten l.toLeft rest rest') :
      TimesWritten .value (before ++ (after ++ (cs ++ rest)))
        (before ++ ('*' :: (after ++ (cs ++ rest'))))

namespace TimesWritten

variable {left : LeftContext} {cs cs' : List Char}

/-- The texts begin alike, unless the second one begins with the sign. -/
theorem head?_eq_or_apart (h : TimesWritten left cs cs') : cs'.head? = cs.head? ∨ Apart cs' := by
  cases h with
  | blank => exact .inl rfl
  | lexeme hgap hl =>
    rw [List.head?_append, List.head?_append, List.head?_append, List.head?_append,
      List.head?_eq_some_head hl.ne_nil]
    exact .inl rfl
  | @times before _ _ _ _ _ =>
    cases before with
    | nil => exact .inr ((apart_cons ..).mpr (by decide))
    | cons => exact .inl rfl

/-- The first text is laid out as some lexemes, and the second as these with the
multiplications. -/
theorem exists_laidOut (h : TimesWritten left cs cs') :
    ∃ ls, LaidOut cs ls ∧ LaidOut cs' (Lexeme.withTimes left ls) := by
  induction h with
  | blank hgap => exact ⟨[], .blank hgap, .blank hgap⟩
  | @lexeme left gap cs rest rest' l hgap hl hnone h ih =>
    obtain ⟨ls, hls, hls'⟩ := ih
    refine ⟨l :: ls, .lexeme hgap hl hls, ?_⟩
    rw [Lexeme.withTimes, if_neg hnone]
    exact .lexeme hgap (hl.of_head? h.head?_eq_or_apart) hls'
  | @times before after cs rest rest' l hbefore hafter hl hbegins h ih =>
    obtain ⟨ls, hls, hls'⟩ := ih
    refine ⟨l :: ls, ?_, ?_⟩
    · rw [← List.append_assoc]
      exact .lexeme (List.forall_mem_append.mpr ⟨hbefore, hafter⟩) hl hls
    · have hstar : Lexeme.times.Written ['*'] (after ++ (cs ++ rest')) := .sign rfl
      rw [Lexeme.withTimes, if_pos ⟨rfl, hbegins⟩]
      exact .lexeme hbefore hstar (.lexeme hafter (hl.of_head? h.head?_eq_or_apart) hls')

/-- The multiplications of a text can be written out. -/
theorem exists_of_laidOut {ls : List Lexeme} (h : LaidOut cs ls) :
    ∀ left, ∃ cs', TimesWritten left cs cs' := by
  induction h with
  | @blank gap hgap => exact fun _ => ⟨gap, .blank hgap⟩
  | @lexeme gap cs rest l ls hgap hl _ ih =>
    intro left
    obtain ⟨rest', hrest⟩ := ih l.toLeft
    by_cases hplace : left = .value ∧ l.asToken.beginsValue = true
    · obtain ⟨rfl, hbegins⟩ := hplace
      have hstar : TimesWritten .value (gap ++ ([] ++ (cs ++ rest)))
          (gap ++ ('*' :: ([] ++ (cs ++ rest')))) := .times hgap nofun hl hbegins hrest
      exact ⟨_, hstar⟩
    · exact ⟨_, .lexeme hgap hl hplace hrest⟩

end TimesWritten

/-! ### The signs of a text -/

namespace Lexeme

theorem ofSign?_eq_times_iff {c : Char} : ofSign? c = some times ↔ c = '*' := by
  constructor
  · intro h
    rcases ofSign?_cases h with
      ⟨-, hl⟩ | ⟨-, hl⟩ | ⟨-, hl⟩ | ⟨-, hl⟩ | ⟨o, -, hsymbol, hl⟩ <;> cases hl
    exact (List.singleton_inj.mp hsymbol).symm
  · rintro rfl
    rfl

/-- Only the sign of multiplication is written with an asterisk. -/
theorem Written.count_star {l : Lexeme} {cs rest : List Char} (h : l.Written cs rest) :
    cs.count '*' = [l].count times := by
  cases h with
  | @sign c l _ hsign =>
    by_cases hc : c = '*'
    · subst hc
      cases hsign
      rfl
    · have hl : l ≠ times := by
        rintro rfl
        exact hc (ofSign?_eq_times_iff.mp hsign)
      rw [List.count_eq_zero.mpr (by simpa using Ne.symm hc),
        List.count_eq_zero.mpr (by simpa using Ne.symm hl)]
  | numeral n =>
    refine (List.count_eq_zero.mpr fun hstar => ?_).trans (List.count_eq_zero.mpr ?_).symm
    · rcases n.isDigit_or_eq_point_of_mem_text hstar with hdigit | hpoint
      · cases hdigit
      · cases hpoint
    · simp [times]
  | name n hmap =>
    refine (List.count_eq_zero.mpr fun hstar => ?_).trans (List.count_eq_zero.mpr ?_).symm
    · have hletter := List.mem_map_of_mem (f := Char.toLower) hstar
      rw [hmap] at hletter
      cases Name.isLower_of_mem_text hletter
    · cases n <;> simp [times, Token.ofName]

end Lexeme

theorem LaidOut.count_star {cs : List Char} {ls : List Lexeme} (h : LaidOut cs ls) :
    cs.count '*' = ls.count .times := by
  have hblanks : ∀ {gap : List Char}, (∀ c ∈ gap, isBlank c = true) → gap.count '*' = 0 :=
    fun hgap => List.count_eq_zero.mpr fun hstar => by cases hgap '*' hstar
  induction h with
  | blank hgap => exact hblanks hgap
  | @lexeme gap cs rest l ls hgap hl _ ih =>
    rw [List.count_append, List.count_append, hblanks hgap, hl.count_star, ih, Nat.zero_add,
      Lexeme.count_times_cons l ls]

/-! ### Written or left out -/

theorem isChain_of_tokenize {cs : List Char} {ts : List Token} (h : tokenize cs = .ok ts) :
    ts.IsChain Token.Separate := by
  obtain ⟨ls, -, rfl⟩ := tokenize_eq_ok_iff.mp h
  have hchain : (.lpar :: Lexeme.toTokens .noValue ls).IsChain Token.Separate :=
    Lexeme.isChain_toTokens nofun
  exact hchain.tail

theorem tokenize_of_timesWritten {cs cs' : List Char} {ts : List Token} (h : tokenize cs = .ok ts)
    (hwritten : TimesWritten .noValue cs cs') : tokenize cs' = .ok ts := by
  obtain ⟨ls, hls, hls'⟩ := hwritten.exists_laidOut
  obtain ⟨ms, hms, rfl⟩ := tokenize_eq_ok_iff.mp h
  have hsame : ls = ms :=
    Except.ok.inj ((Lexeme.cut_eq_ok_iff.mpr hls).symm.trans (Lexeme.cut_eq_ok_iff.mpr hms))
  subst hsame
  exact tokenize_eq_ok_iff.mpr ⟨_, hls', Lexeme.toTokens_withTimes ls .noValue⟩

/-- **A multiplication is written or left out, and is the same.** In the tokens of a
text no value stands right before the beginning of another, and no minus is a prefix
yet. The multiplications that are left out can be written out, and however that is
done, the tokens are the same. The tokens hold one multiplication for each sign of
the text and one for each place where it is left out. -/
theorem times_written_or_omitted {cs : List Char} {ts : List Token} (h : tokenize cs = .ok ts) :
    ts.IsChain Token.Separate ∧ .op .negate ∉ ts ∧
      (∃ cs', TimesWritten .noValue cs cs') ∧
      (∀ cs', TimesWritten .noValue cs cs' → tokenize cs' = .ok ts) ∧
      ∃ ls, Lexeme.cut cs = .ok ls ∧ ts.count (.op .times) = cs.count '*' + omittedTimes ls := by
  obtain ⟨ls, hls, hts⟩ := tokenize_eq_ok_iff.mp h
  refine ⟨isChain_of_tokenize h, negate_not_mem_of_tokenize h,
    TimesWritten.exists_of_laidOut hls .noValue,
    fun cs' hwritten => tokenize_of_timesWritten h hwritten, ls, Lexeme.cut_eq_ok_iff.mpr hls, ?_⟩
  rw [hls.count_star, ← hts]
  cases ls with
  | nil => rfl
  | cons l ls =>
    rw [Lexeme.toTokens_cons, Lexeme.emit_noValue, List.count_append, Lexeme.count_times_toTokens,
      Lexeme.count_asToken, Lexeme.count_times_cons l ls]
    omega

/-- A multiplication is left out before the root sign, across a blank, and none
within the parentheses that the root sign brings. -/
theorem times_written_or_omitted_before_root :
    let ts : List Token := [.num 2, .op .times, .func .sqrt, .lpar, .var .x, .rpar]
    tokenize "2 √x".toList = .ok ts ∧
      TimesWritten .noValue "2 √x".toList "2* √x".toList ∧ tokenize "2* √x".toList = .ok ts ∧
      ∃ ls, Lexeme.cut "2 √x".toList = .ok ls ∧ ts.count (.op .times) = 0 + omittedTimes ls := by
  intro ts
  have htokens : tokenize "2 √x".toList = .ok ts := by decide +kernel
  have hx : TimesWritten .rootSign ([] ++ (['x'] ++ [])) ([] ++ (['x'] ++ [])) :=
    .lexeme nofun (.name (.var .x) (by decide)) (by decide) (.blank nofun)
  have hroot : TimesWritten .value ([] ++ ([' '] ++ (['√'] ++ ['x'])))
      ([] ++ ('*' :: ([' '] ++ (['√'] ++ ['x'])))) :=
    .times nofun (List.forall_mem_singleton.mpr rfl) (.sign rfl) rfl hx
  have htwo : (Lexeme.token (.num 2)).Written ['2'] [' ', '√', 'x'] :=
    Lexeme.first?_append_eq_some_iff.mp (by decide +kernel)
  have hwritten : TimesWritten .noValue ([] ++ (['2'] ++ [' ', '√', 'x']))
      ([] ++ (['2'] ++ ['*', ' ', '√', 'x'])) := .lexeme nofun htwo (by decide) hroot
  obtain ⟨-, -, -, hsame, hcount⟩ := times_written_or_omitted htokens
  exact ⟨htokens, hwritten, hsame _ hwritten, hcount⟩

end Calculator
