/-
# Blanks and the case of letters

Neither blanks between lexemes nor the case of letters mean anything. Blanks may be put
in at any boundary of a text: a numeral that stops there stops before a blank as well,
and the root sign and the multiplications that are left out look past them. Texts that
differ in the case of their letters only are cut alike, since no sign, numeral or blank
has letters and a name is read in any case; so they have the same tokens
(`tokenize_of_sameUpToCase`), or are refused at the same place
(`Unexpected.of_sameUpToCase`).

Key definition: `SameUpToCase`.
Key theorems: `LaidOutBefore.insert_blanks`, `Lexeme.Written.of_sameUpToCase`,
`LaidOutBefore.of_sameUpToCase`, `blanks_and_case_ignored`.
-/
import Mathlib
import Calculator.Proofs.Unexpected

namespace Calculator

/-! ### Blanks -/

namespace LaidOutBefore

variable {before gap after : List Char} {ls : List Lexeme} {ts : List Token}

/-- Blanks at a boundary belong to either side of it. -/
theorem insert_blanks (hgap : ∀ c ∈ gap, isBlank c = true) (h : LaidOutBefore after before ls) :
    LaidOutBefore after (before ++ gap) ls := by
  have hbefore : LaidOutBefore (gap ++ after) before ls := by
    refine h.of_stops fun n hn => ?_
    cases gap with
    | nil => exact hn
    | cons c gap =>
      exact n.stops_of_apart ((apart_cons ..).mpr (endsLexeme_of_isBlank (hgap c List.mem_cons_self)))
  have hall := hbefore.append (.blank hgap)
  rwa [List.append_nil] at hall

theorem tokenize_insert_blanks (hgap : ∀ c ∈ gap, isBlank c = true)
    (h : LaidOutBefore after before ls) (htokens : tokenize (before ++ after) = .ok ts) :
    tokenize (before ++ (gap ++ after)) = .ok ts := by
  rw [← List.append_assoc]
  exact (h.tokenize_congr (h.insert_blanks hgap) (fun _ _ => rfl) ts).mp htokens

end LaidOutBefore

/-! ### Texts that differ in the case of letters -/

/-- The texts differ at most in the case of their ASCII letters. -/
def SameUpToCase (bs cs : List Char) : Prop := bs.map Char.toLower = cs.map Char.toLower

instance (bs cs : List Char) : Decidable (SameUpToCase bs cs) := inferInstanceAs (Decidable (_ = _))

theorem eq_of_toLower_eq {b c : Char} (h : b.toLower = c.toLower) (hc : c.isAlpha = false) :
    b = c := by
  have hupper : ∀ d : Char, d.isAlpha = false → ¬ d.isUpper = true := by
    intro d hd hupper
    simp [Char.isAlpha, hupper] at hd
  have hb : b.isAlpha = false := by
    rw [← Char.isAlpha_toLower_eq_isAlpha, h, Char.isAlpha_toLower_eq_isAlpha, hc]
  rwa [Char.toLower_eq_of_not_isUpper (hupper b hb), Char.toLower_eq_of_not_isUpper (hupper c hc)]
    at h

theorem isAlpha_of_endsLexeme {c : Char} (h : endsLexeme c = true) : c.isAlpha = false := by
  simp only [endsLexeme, Bool.and_eq_true, Bool.not_eq_true'] at h
  rw [← Char.isLower_toLower_eq_isAlpha]
  exact h.2

theorem isAlpha_of_isDigit {c : Char} (h : c.isDigit = true) : c.isAlpha = false := by
  rw [isDigit_iff] at h
  rw [Char.isAlpha, Bool.or_eq_false_iff, ← Bool.not_eq_true, ← Bool.not_eq_true, isUpper_iff,
    isLower_iff]
  omega

namespace SameUpToCase

variable {bs cs rest : List Char}

theorem symm (h : SameUpToCase bs cs) : SameUpToCase cs bs := Eq.symm h

theorem length_eq (h : SameUpToCase bs cs) : bs.length = cs.length := by
  simpa using congrArg List.length h

/-- A text that is like two parts has two such parts. -/
theorem exists_append (h : SameUpToCase bs (cs ++ rest)) : ∃ cs' rest', bs = cs' ++ rest' ∧
    SameUpToCase cs' cs ∧ SameUpToCase rest' rest := by
  rw [SameUpToCase, List.map_append] at h
  exact List.map_eq_append_iff.mp h

theorem exists_cons {c : Char} (h : SameUpToCase bs (c :: cs)) :
    ∃ c' cs', bs = c' :: cs' ∧ c'.toLower = c.toLower ∧ SameUpToCase cs' cs := by
  rw [SameUpToCase, List.map_cons] at h
  exact List.map_eq_cons_iff.mp h

/-- A text without letters has one case only. -/
theorem eq_of_isAlpha : ∀ {bs cs : List Char}, SameUpToCase bs cs →
    (∀ c ∈ cs, c.isAlpha = false) → bs = cs
  | bs, [], h, _ => List.map_eq_nil_iff.mp h
  | _, c :: cs, h, hcs => by
    obtain ⟨hc, hcs⟩ := List.forall_mem_cons.mp hcs
    obtain ⟨c', cs', rfl, hsame, hrest⟩ := h.exists_cons
    rw [eq_of_toLower_eq hsame hc, eq_of_isAlpha hrest hcs]

theorem eq_of_isBlank (h : SameUpToCase bs cs) (hcs : ∀ c ∈ cs, isBlank c = true) : bs = cs :=
  h.eq_of_isAlpha fun c hc => isAlpha_of_endsLexeme (endsLexeme_of_isBlank (hcs c hc))

end SameUpToCase

/-! ### They are cut alike -/

theorem Numeral.isAlpha_of_mem_text {n : Numeral} {c : Char} (h : c ∈ n.text) :
    c.isAlpha = false := by
  rcases n.isDigit_or_eq_point_of_mem_text h with hdigit | rfl
  · exact isAlpha_of_isDigit hdigit
  · decide

/-- Digits and points have one case only. -/
theorem Numeral.Stops.of_sameUpToCase {n : Numeral} {rest rest' : List Char} (h : n.Stops rest)
    (hrest : SameUpToCase rest' rest) : n.Stops rest' := by
  intro c hc
  obtain ⟨cs, rfl⟩ := List.head?_eq_some_iff.mp hc
  obtain ⟨d, ds, rfl, hd, -⟩ := hrest.symm.exists_cons
  have hsame : c.isAlpha = false → d = c := eq_of_toLower_eq hd
  obtain ⟨hdigit, hpoint⟩ := h d rfl
  constructor
  · by_contra hdigit'
    rw [Bool.not_eq_false] at hdigit'
    rw [hsame (isAlpha_of_isDigit hdigit'), hdigit'] at hdigit
    cases hdigit
  · rintro rfl
    exact hpoint (hsame (by decide))

/-- **A lexeme may be written in any case.** -/
theorem Lexeme.Written.of_sameUpToCase {l : Lexeme} {cs cs' rest rest' : List Char}
    (h : l.Written cs rest) (hcs : SameUpToCase cs' cs) (hrest : SameUpToCase rest' rest) :
    l.Written cs' rest' := by
  cases h with
  | @sign c _ _ h =>
    have hsigns : signs.all (!·.isAlpha) = true := by decide
    have hc : c.isAlpha = false := by
      simpa using List.all_eq_true.mp hsigns c (mem_signs_of_ofSign? h)
    rw [hcs.eq_of_isAlpha (List.forall_mem_singleton.mpr hc)]
    exact .sign h
  | numeral n h =>
    rw [hcs.eq_of_isAlpha fun c hc => n.isAlpha_of_mem_text hc]
    exact .numeral n (h.of_sameUpToCase hrest)
  | name n h => exact .name n (hcs.trans h)

theorem Lexeme.Spelled.of_sameUpToCase {l : Lexeme} {cs cs' : List Char} (h : l.Spelled cs)
    (hcs : SameUpToCase cs' cs) : l.Spelled cs' :=
  (h.written.of_sameUpToCase hcs rfl).spelled

theorem LaidOutBefore.of_sameUpToCase {before after after' : List Char} {ls : List Lexeme}
    (h : LaidOutBefore after before ls) (hafter : SameUpToCase after' after) :
    ∀ {before' : List Char}, SameUpToCase before' before → LaidOutBefore after' before' ls := by
  induction h with
  | blank hgap =>
    intro before' hbefore
    rw [hbefore.eq_of_isBlank hgap]
    exact .blank hgap
  | @lexeme gap cs rest l ls hgap hl _ ih =>
    intro before' hbefore
    obtain ⟨gap', later, rfl, hgap', hlater⟩ := hbefore.exists_append
    obtain ⟨cs', rest', rfl, hcs, hrest⟩ := hlater.exists_append
    have hfollowing : SameUpToCase (rest' ++ after') (rest ++ after) := by
      rw [SameUpToCase, List.map_append, List.map_append, hrest, hafter]
    rw [hgap'.eq_of_isBlank hgap]
    exact .lexeme hgap (hl.of_sameUpToCase hcs hfollowing) (ih hrest)

/-- **The place where a text is refused** does not depend on the case of its letters. -/
theorem Unexpected.of_sameUpToCase {before before' after after' : List Char} {c c' : Char}
    (h : Unexpected before c after) (hbefore : SameUpToCase before' before)
    (hc : c'.toLower = c.toLower) (hafter : SameUpToCase after' after) :
    Unexpected before' c' after' := by
  have hrest : SameUpToCase (c' :: after') (c :: after) := by
    rw [SameUpToCase, List.map_cons, List.map_cons, hc, hafter]
  obtain ⟨ls, hls⟩ := h.laidOut
  refine ⟨⟨ls, hls.of_sameUpToCase hrest hbefore⟩, Bool.eq_false_iff.mpr fun hblank => ?_, ?_⟩
  · have hsame : c = c' :=
      eq_of_toLower_eq hc.symm (isAlpha_of_endsLexeme (endsLexeme_of_isBlank hblank))
    exact Bool.eq_false_iff.mp h.notBlank (hsame ▸ hblank)
  · rintro l us hl ⟨rest, hsplit⟩
    rw [← hsplit] at hrest
    obtain ⟨us', rest', hsplit', hus, -⟩ := hrest.symm.exists_append
    exact h.noLexeme l us' (hl.of_sameUpToCase hus) ⟨rest', hsplit'.symm⟩

theorem LaidOut.of_sameUpToCase {cs cs' : List Char} {ls : List Lexeme} (h : LaidOut cs ls)
    (hcs : SameUpToCase cs' cs) : LaidOut cs' ls := by
  have hend : LaidOutBefore [] cs ls := h.before Numeral.stops_nil
  have hnil : SameUpToCase [] [] := rfl
  exact (hend.of_sameUpToCase hnil hcs).laidOut

theorem tokenize_of_sameUpToCase {cs cs' : List Char} {ts : List Token}
    (h : tokenize cs = .ok ts) (hcs : SameUpToCase cs' cs) : tokenize cs' = .ok ts := by
  obtain ⟨ls, hls, hts⟩ := tokenize_eq_ok_iff.mp h
  exact tokenize_eq_ok_iff.mpr ⟨ls, hls.of_sameUpToCase hcs, hts⟩

theorem tokenize_error_of_sameUpToCase {cs cs' : List Char} {e : CalcError}
    (h : tokenize cs = .error e) (hcs : SameUpToCase cs' cs) :
    ∃ position c c', e = .unexpectedChar position c ∧ c'.toLower = c.toLower ∧
      tokenize cs' = .error (.unexpectedChar position c') := by
  obtain ⟨before, c, after, rfl, hstop, rfl⟩ := tokenize_eq_error_iff.mp h
  obtain ⟨before', later, rfl, hbefore, hlater⟩ := hcs.exists_append
  obtain ⟨c', after', rfl, hc, hafter⟩ := hlater.exists_cons
  refine ⟨before.length, c, c', rfl, hc, tokenize_eq_error_iff.mpr ?_⟩
  exact ⟨before', c', after', rfl, hstop.of_sameUpToCase hbefore hc hafter, by rw [hbefore.length_eq]⟩

/-- **Blanks and the case of letters carry no meaning.** At any boundary of a text that
has tokens, blanks may be put in, and its tokens stay the same; there is a boundary
between any two of its lexemes, before the first, and after the last. Texts that differ
in the case of their letters only have the same tokens, or are refused at the same
position. -/
theorem blanks_and_case_ignored :
    (∀ (before gap after : List Char) (ls : List Lexeme) (ts : List Token),
        tokenize (before ++ after) = .ok ts → LaidOutBefore after before ls →
        (∀ c ∈ gap, isBlank c = true) → tokenize (before ++ (gap ++ after)) = .ok ts) ∧
      (∀ (cs : List Char) (ls ms : List Lexeme), Lexeme.cut cs = .ok (ls ++ ms) →
        ∃ before after, cs = before ++ after ∧ LaidOutBefore after before ls ∧
          Lexeme.cut before = .ok ls ∧ Lexeme.cut after = .ok ms) ∧
      ∀ cs cs' : List Char, SameUpToCase cs' cs →
        (∀ ts, tokenize cs = .ok ts → tokenize cs' = .ok ts) ∧
          ∀ e, tokenize cs = .error e → ∃ position c c', e = .unexpectedChar position c ∧
            c'.toLower = c.toLower ∧ tokenize cs' = .error (.unexpectedChar position c') := by
  refine ⟨fun before gap after ls ts htokens h hgap => h.tokenize_insert_blanks hgap htokens,
    fun cs ls ms hcut => ?_,
    fun cs cs' hcs => ⟨fun _ h => tokenize_of_sameUpToCase h hcs,
      fun _ h => tokenize_error_of_sameUpToCase h hcs⟩⟩
  obtain ⟨before, after, hsplit, hbefore, hafter⟩ :=
    (Lexeme.cut_eq_ok_iff.mp hcut).exists_boundary
  exact ⟨before, after, hsplit, hbefore, Lexeme.cut_eq_ok_iff.mpr hbefore.laidOut,
    Lexeme.cut_eq_ok_iff.mpr hafter⟩

/-- Between the root sign and its atom, with an ideographic space, and before a
multiplication that is left out; in upper case; and a text that is refused in both
cases. -/
theorem blanks_and_case_ignored_after_root :
    let ts : List Token := [.func .sqrt, .lpar, .const .pi, .rpar, .op .times, .var .x]
    tokenize "√pix".toList = .ok ts ∧ tokenize "√　pix".toList = .ok ts ∧
      tokenize "√PIx".toList = .ok ts ∧
      tokenize "2 a".toList = .error (.unexpectedChar 2 'a') ∧
      ∃ c', tokenize "2 A".toList = .error (.unexpectedChar 2 c') := by
  intro ts
  have htokens : tokenize "√pix".toList = .ok ts := by decide +kernel
  have herror : tokenize "2 a".toList = .error (.unexpectedChar 2 'a') := by decide +kernel
  have hroot : LaidOutBefore "pix".toList ['√'] [.root] := .of_written (.sign rfl)
  obtain ⟨hinsert, -, hcase⟩ := blanks_and_case_ignored
  have hspace : ∀ c ∈ ['　'], isBlank c = true := List.forall_mem_singleton.mpr rfl
  have hupper : SameUpToCase "√PIx".toList "√pix".toList := by decide
  have hrefused : SameUpToCase "2 A".toList "2 a".toList := by decide
  obtain ⟨position, c, c', he, -, herror'⟩ := (hcase _ _ hrefused).2 _ herror
  cases he
  exact ⟨htokens, hinsert ['√'] ['　'] "pix".toList [.root] ts htokens hroot hspace,
    (hcase _ _ hupper).1 ts htokens, herror, c', herror'⟩

end Calculator
