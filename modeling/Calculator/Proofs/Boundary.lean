/-
# Between two lexemes

A text is cut from the left, so it has a boundary wherever the lexemes before it end,
what follows being taken into account: `LaidOutBefore after before ls` says that in
`before ++ after` the lexemes `ls` and the blanks around them end with `before`. At a
boundary the text is cut in two, and the second part is cut as it would be by itself,
errors included (`LaidOutBefore.cutFrom_append`). Of the lexemes before a boundary the
last one alone matters to the tokens after it (`Lexeme.toTokens_append`).

Key definitions: `LaidOutBefore`, `Lexeme.leftAfter`.
Key theorems: `LaidOutBefore.append`, `LaidOut.exists_boundary`,
`LaidOutBefore.cutFrom_append`, `Lexeme.leftAfter_noValue_eq_value_iff`,
`LaidOutBefore.tokenize_append_iff`.
-/
import Calculator.Proofs.Layout

namespace Calculator

/-! ### Boundaries of a text -/

/-- Where `after` follows it, the text consists of these lexemes, with blanks before
each and after the last, or with none. -/
inductive LaidOutBefore (after : List Char) : List Char → List Lexeme → Prop where
  | blank {gap : List Char} (hgap : ∀ c ∈ gap, isBlank c = true) : LaidOutBefore after gap []
  | lexeme {gap cs rest : List Char} {l : Lexeme} {ls : List Lexeme}
      (hgap : ∀ c ∈ gap, isBlank c = true) (hl : l.Written cs (rest ++ after))
      (h : LaidOutBefore after rest ls) : LaidOutBefore after (gap ++ (cs ++ rest)) (l :: ls)

namespace LaidOutBefore

variable {before between after after' : List Char} {ls ms : List Lexeme}

theorem nil : LaidOutBefore after [] [] := .blank (List.forall_mem_nil _)

/-- A lexeme with no blank before it. -/
theorem cons_written {cs rest : List Char} {l : Lexeme} (hl : l.Written cs (rest ++ after))
    (h : LaidOutBefore after rest ls) : LaidOutBefore after (cs ++ rest) (l :: ls) :=
  .lexeme (List.forall_mem_nil _) hl h

/-- One lexeme, with no blank before it. -/
theorem of_written {cs : List Char} {l : Lexeme} (hl : l.Written cs after) :
    LaidOutBefore after cs [l] := by
  have h : LaidOutBefore after (cs ++ []) [l] := .cons_written hl .nil
  rwa [List.append_nil] at h

theorem cons_blank {c : Char} (hc : isBlank c = true) (h : LaidOutBefore after before ls) :
    LaidOutBefore after (c :: before) ls := by
  cases h with
  | blank hgap => exact .blank (List.forall_mem_cons.mpr ⟨hc, hgap⟩)
  | lexeme hgap hl h => exact .lexeme (List.forall_mem_cons.mpr ⟨hc, hgap⟩) hl h

theorem append_blanks {gap : List Char} (hgap : ∀ c ∈ gap, isBlank c = true)
    (h : LaidOutBefore after before ls) : LaidOutBefore after (gap ++ before) ls := by
  induction gap with
  | nil => exact h
  | cons c gap ih =>
    obtain ⟨hc, hgap⟩ := List.forall_mem_cons.mp hgap
    exact (ih hgap).cons_blank hc

/-- Two parts, of which the first has the second after it. -/
theorem append (h : LaidOutBefore (between ++ after) before ls)
    (h' : LaidOutBefore after between ms) : LaidOutBefore after (before ++ between) (ls ++ ms) := by
  induction h with
  | blank hgap => exact h'.append_blanks hgap
  | lexeme hgap hl _ ih =>
    rw [List.append_assoc, List.append_assoc]
    exact .lexeme hgap (by rwa [List.append_assoc]) ih

/-- What follows may be exchanged if the numerals that stop before it still do. -/
theorem of_stops (h : LaidOutBefore after before ls)
    (hstops : ∀ n : Numeral, n.Stops after → n.Stops after') : LaidOutBefore after' before ls := by
  induction h with
  | blank hgap => exact .blank hgap
  | @lexeme gap cs rest l ls hgap hl _ ih =>
    refine .lexeme hgap (hl.of_stops fun n hn => ?_) ih
    cases rest with
    | nil => exact hstops n hn
    | cons c rest => exact hn

/-- With nothing after it, the text is laid out as these lexemes. -/
theorem laidOut (h : LaidOutBefore after before ls) : LaidOut before ls := by
  induction h with
  | blank hgap => exact .blank hgap
  | @lexeme gap cs rest l ls hgap hl _ ih =>
    refine .lexeme hgap (hl.of_stops fun n hn => ?_) ih
    cases rest with
    | nil => exact n.stops_nil
    | cons c rest => exact hn

end LaidOutBefore

namespace LaidOut

variable {cs after : List Char} {ls ms : List Lexeme}

theorem of_numeral (n : Numeral) : LaidOut n.text [.token (.num n.toNumber)] :=
  (LaidOutBefore.of_written (.numeral n n.stops_nil)).laidOut

/-- A text is laid out in one way. -/
theorem unique (h : LaidOut cs ls) (h' : LaidOut cs ms) : ls = ms :=
  Except.ok.inj ((Lexeme.cut_eq_ok_iff.mpr h).symm.trans (Lexeme.cut_eq_ok_iff.mpr h'))

/-- What stands before a character that ends every lexeme is laid out by itself. -/
theorem exists_of_apart {bs : List Char} (hbs : Apart bs) (h : LaidOut (cs ++ bs) ls) :
    ∃ ms, LaidOut cs ms := by
  have hcut := Lexeme.cut_eq_ok_iff.mpr h
  rw [Lexeme.cut, Lexeme.cutFrom_append hbs 0 (Nat.zero_le _)] at hcut
  obtain ⟨ms, hms, -⟩ := bind_eq_ok_iff.mp hcut
  exact ⟨ms, Lexeme.cut_eq_ok_iff.mp hms⟩

/-- The end of a text is a boundary if no numeral goes on into what follows. -/
theorem before (h : LaidOut cs ls) (hstops : ∀ n : Numeral, n.Stops after) :
    LaidOutBefore after cs ls := by
  induction h with
  | blank hgap => exact .blank hgap
  | lexeme hgap hl _ ih =>
    exact .lexeme hgap (hl.of_stops fun n hn => hn.append (hstops n)) ih

/-- **There is a boundary between any two lexemes of a text**, before the first, and
after the last. -/
theorem exists_boundary : ∀ {ls : List Lexeme} {cs : List Char}, LaidOut cs (ls ++ ms) →
    ∃ before after, cs = before ++ after ∧ LaidOutBefore after before ls ∧ LaidOut after ms
  | [], cs, h => ⟨[], cs, rfl, .nil, h⟩
  | _ :: ls, _, h => by
    cases h with
    | lexeme hgap hl h =>
      obtain ⟨before, after, rfl, hbefore, hafter⟩ := @exists_boundary ls _ h
      exact ⟨_, after, by simp only [List.append_assoc], .lexeme hgap hl hbefore, hafter⟩

end LaidOut

/-! ### Cutting at a boundary -/

namespace LaidOutBefore

variable {before after : List Char} {ls : List Lexeme}

/-- **At a boundary the text is cut in two.** -/
theorem cutFrom_append (h : LaidOutBefore after before ls) : ∀ position,
    Lexeme.cutFrom 0 position (before ++ after) =
      (Lexeme.cutFrom 0 (position + before.length) after).map (ls ++ ·) := by
  induction h with
  | @blank gap hgap =>
    intro position
    rw [Lexeme.cutFrom_blanks position after hgap]
    cases Lexeme.cutFrom 0 (position + gap.length) after <;> rfl
  | @lexeme gap cs rest l ls hgap hl _ ih =>
    intro position
    rw [List.append_assoc, List.append_assoc, Lexeme.cutFrom_blanks position _ hgap,
      hl.cutFrom_append, ih, map_map, List.length_append, List.length_append, Nat.add_assoc,
      Nat.add_assoc]
    rfl

/-- The lexemes after a boundary are those of the second part. -/
theorem laidOut_append_iff (h : LaidOutBefore after before ls) {ms : List Lexeme} :
    LaidOut (before ++ after) ms ↔ ∃ rest, LaidOut after rest ∧ ls ++ rest = ms := by
  rw [← Lexeme.cut_eq_ok_iff, Lexeme.cut, h.cutFrom_append, map_eq_ok_iff]
  refine exists_congr fun rest => and_congr_left fun _ => ?_
  rw [← Lexeme.cut_eq_ok_iff]
  exact ⟨Lexeme.cutFrom_position 0, Lexeme.cutFrom_position _⟩

end LaidOutBefore

/-! ### The tokens after a boundary -/

namespace Lexeme

/-- What a list of lexemes is to a lexeme after it. -/
def leftAfter (left : LeftContext) : List Lexeme → LeftContext
  | [] => left
  | l :: ls => leftAfter l.toLeft ls

theorem leftAfter_concat (l : Lexeme) : ∀ (ls : List Lexeme) (left : LeftContext),
    leftAfter left (ls ++ [l]) = l.toLeft
  | [], _ => rfl
  | m :: ls, _ => leftAfter_concat l ls m.toLeft

/-- **Only the last lexeme before a boundary matters after it.** -/
theorem toTokens_append (ms : List Lexeme) : ∀ (ls : List Lexeme) (left : LeftContext),
    toTokens left (ls ++ ms) = toTokens left ls ++ toTokens (leftAfter left ls) ms
  | [], _ => rfl
  | l :: ls, left => by
    rw [List.cons_append, toTokens_cons, toTokens_append ms ls, toTokens_cons, leftAfter,
      List.append_assoc]

theorem toTokens_append_congr {ms ms' : List Lexeme}
    (h : ∀ left, toTokens left ms = toTokens left ms') (ls : List Lexeme) (left : LeftContext) :
    toTokens left (ls ++ ms) = toTokens left (ls ++ ms') := by
  rw [toTokens_append, toTokens_append, h]

theorem emit_ne_nil (left : LeftContext) (l : Lexeme) : l.emit left ≠ [] := by
  rcases emit_cases left l with ⟨-, -, hemit⟩ | ⟨-, -, hemit⟩ | ⟨-, hemit⟩ <;> rw [hemit] <;>
    exact List.cons_ne_nil _ _

/-- The last token of a lexeme ends a value just if the lexeme does. -/
theorem getLast?_emit (left : LeftContext) (l : Lexeme) :
    (l.emit left).getLast?.any Token.isValue = l.asToken.isValue := by
  rcases emit_cases left l with ⟨-, hatom, hemit⟩ | ⟨-, -, hemit⟩ | ⟨-, hemit⟩ <;> rw [hemit]
  · rw [Token.isValue_of_isAtom hatom]
    rfl
  · rfl
  · rfl

/-- **A value ends at a boundary** just if the last token before it ends one. -/
theorem leftAfter_eq_value_iff : ∀ {ls : List Lexeme} {left : LeftContext}, ls ≠ [] →
    (leftAfter left ls = .value ↔ (toTokens left ls).getLast?.any Token.isValue = true)
  | [], _, h => absurd rfl h
  | [l], left, _ => by
    rw [toTokens_cons, toTokens_nil, List.append_nil, getLast?_emit]
    exact toLeft_eq_value_iff l
  | l :: m :: ls, left, _ => by
    have hlast : ∃ t, (toTokens l.toLeft (m :: ls)).getLast? = some t := by
      rw [← Option.isSome_iff_exists, List.getLast?_isSome, toTokens_cons]
      exact List.append_ne_nil_of_left_ne_nil (emit_ne_nil _ m) _
    obtain ⟨t, ht⟩ := hlast
    rw [toTokens_cons, List.getLast?_append, ht, Option.some_or, ← ht]
    exact leftAfter_eq_value_iff (List.cons_ne_nil m ls)

/-- At the beginning of the text no value ends, and there is no token. -/
theorem leftAfter_noValue_eq_value_iff (ls : List Lexeme) : leftAfter .noValue ls = .value ↔
    (toTokens .noValue ls).getLast?.any Token.isValue = true := by
  cases ls with
  | nil => exact iff_of_false nofun nofun
  | cons l ls => exact leftAfter_eq_value_iff (List.cons_ne_nil l ls)

end Lexeme

/-- What has tokens ends at a boundary, whatever follows but a digit or a point. -/
theorem exists_laidOutBefore_of_tokenize {cs : List Char} {ts : List Token}
    (h : tokenize cs = .ok ts) : ∃ ls, Lexeme.toTokens .noValue ls = ts ∧
      ∀ after, (∀ c ∈ after.head?, c.isDigit = false ∧ c ≠ '.') → LaidOutBefore after cs ls := by
  obtain ⟨ls, hls, hts⟩ := tokenize_eq_ok_iff.mp h
  refine ⟨ls, hts, fun after hafter => hls.before fun n c hc => ?_⟩
  obtain ⟨hdigit, hpoint⟩ := hafter c hc
  exact ⟨hdigit, fun h => absurd h hpoint⟩

namespace LaidOutBefore

variable {before before' after : List Char} {ls ls' : List Lexeme} {ts : List Token}

/-- **The tokens of a text that is cut in two.** -/
theorem tokenize_append_iff (h : LaidOutBefore after before ls) :
    tokenize (before ++ after) = .ok ts ↔ ∃ ms, LaidOut after ms ∧
      Lexeme.toTokens .noValue ls ++ Lexeme.toTokens (Lexeme.leftAfter .noValue ls) ms = ts := by
  simp only [tokenize_eq_ok_iff, h.laidOut_append_iff, ← Lexeme.toTokens_append]
  constructor
  · rintro ⟨-, ⟨ms, hms, rfl⟩, hts⟩
    exact ⟨ms, hms, hts⟩
  · rintro ⟨ms, hms, hts⟩
    exact ⟨_, ⟨ms, hms, rfl⟩, hts⟩

/-- What stands before a boundary may be exchanged if that makes no difference to the
tokens. -/
theorem tokenize_congr (h : LaidOutBefore after before ls) (h' : LaidOutBefore after before' ls')
    (hsame : ∀ ms, LaidOut after ms →
      Lexeme.toTokens .noValue (ls ++ ms) = Lexeme.toTokens .noValue (ls' ++ ms)) (ts : List Token) :
    tokenize (before ++ after) = .ok ts ↔ tokenize (before' ++ after) = .ok ts := by
  rw [h.tokenize_append_iff, h'.tokenize_append_iff]
  refine exists_congr fun ms => and_congr_right fun hms => ?_
  rw [← Lexeme.toTokens_append, ← Lexeme.toTokens_append, hsame ms hms]

end LaidOutBefore
end Calculator
