/-
# The keys that calculate the entry

The equals key and the memory keys calculate the entry first. Which session they
leave follows from the value or the error alone. A blank entry has no value, so
the equals key, which leaves it alone, is on every other entry a calculation.

Key theorems: `Expr.rpn_ne_nil`, `ne_nil_of_toRpn`, `evaluate_eq_ok_iff`,
`Session.evaluateEntry_of_ok`, `Session.accumulate_of_ok`, `Session.evaluateEntry_cases`,
`Session.accumulate_cases`.
-/
import Calculator.Proofs.Calculation
import Calculator.Session.Keys

namespace Calculator

/-! ### A blank text has no value -/

theorem Expr.rpn_ne_nil (t : Expr) : t.rpn ≠ [] := by
  rw [rpn_eq]
  exact List.append_ne_nil_of_right_ne_nil _ (List.cons_ne_nil _ _)

theorem ne_nil_of_toRpn {ts : List Token} {t : Expr} (h : toRpn ts = .ok t.rpn) : ts ≠ [] := by
  rintro rfl
  exact t.rpn_ne_nil (Except.ok.inj h).symm

theorem trimmed_ne_empty {ctx : Context} {s : String} {v : Number} {w : Working}
    (h : calculate ctx s = .ok (v, w)) : trimmed s ≠ "" := by
  obtain ⟨ts, t, htokens, hrpn, -⟩ := calculate_eq_ok_iff.mp h
  intro hblank
  have hnil : trim s.toList = [] := by
    rw [← String.toList_ofList (l := trim s.toList), ← trimmed, hblank]
    rfl
  rw [hnil] at htokens
  exact ne_nil_of_toRpn hrpn (Except.ok.inj htokens).symm

/-! ### The value alone -/

theorem evaluate_eq_ok_iff {ctx : Context} {text : String} {v : Number} :
    evaluate ctx text = .ok v ↔ ∃ w, calculate ctx text = .ok (v, w) := by
  rw [evaluate, map_eq_ok_iff]
  constructor
  · rintro ⟨⟨v, w⟩, h, rfl⟩
    exact ⟨w, h⟩
  · rintro ⟨w, h⟩
    exact ⟨(v, w), h, rfl⟩

theorem evaluate_eq_error_iff {ctx : Context} {text : String} {e : CalcError} :
    evaluate ctx text = .error e ↔ calculate ctx text = .error e := map_eq_error_iff

namespace Session

variable {s : Session} {v : Number}

theorem calculateEntry_fst (s : Session) : s.calculateEntry.1 = evaluate s.context s.entry := by
  rw [calculateEntry, evaluate]
  cases calculate s.context s.entry <;> rfl

/-! ### A calculation that succeeds -/

theorem calculateEntry_fst_eq_ok_iff :
    s.calculateEntry.1 = .ok v ↔ ∃ w, calculate s.context s.entry = .ok (v, w) := by
  unfold calculateEntry
  rcases calculate s.context s.entry with e | ⟨u, w⟩ <;> simp

theorem calculateEntry_of_ok {w : Working} (h : calculate s.context s.entry = .ok (v, w)) :
    s.calculateEntry = (.ok v, { s with working := w }) := by
  rw [calculateEntry, h]

theorem evaluateEntry_of_ok {w : Working} (h : calculate s.context s.entry = .ok (v, w)) :
    s.evaluateEntry =
      (Session.record { s with working := w } ⟨trimmed s.entry, v.text⟩).showResult v.text := by
  rw [evaluateEntry, if_neg (trimmed_ne_empty h), calculateEntry_of_ok h]

theorem accumulate_of_ok {w : Working} (h : calculate s.context s.entry = .ok (v, w))
    (sign : Number) :
    s.accumulate sign =
      if (s.memory + sign * v).IsFinite then
        Session.showResult { s with working := w, memory := s.memory + sign * v } v.text
      else Session.showError { s with working := w } (.evaluation .notFinite) := by
  rw [accumulate, calculateEntry_of_ok h]

/-! ### A calculation that fails -/

theorem calculateEntry_of_error {e : CalcError} (h : calculate s.context s.entry = .error e) :
    s.calculateEntry = (.error e, s) := by
  rw [calculateEntry, h]

theorem accumulate_of_error {e : CalcError} (h : calculate s.context s.entry = .error e)
    (sign : Number) : s.accumulate sign = s.showError e := by
  rw [accumulate, calculateEntry_of_error h]

theorem evaluateEntry_of_error {e : CalcError} (hne : trimmed s.entry ≠ "")
    (h : calculate s.context s.entry = .error e) :
    s.evaluateEntry = (s.record ⟨trimmed s.entry, failureText⟩).showError e := by
  rw [evaluateEntry, if_neg hne, calculateEntry_of_error h]

/-! ### Case by case -/

/-- The equals key leaves a blank entry alone, with everything else. -/
theorem evaluateEntry_of_blank (hblank : trimmed s.entry = "") : s.evaluateEntry = s := by
  rw [evaluateEntry, if_pos hblank]

/-- **What the equals key does.** -/
theorem evaluateEntry_cases (s : Session) :
    (trimmed s.entry = "" ∧ s.evaluateEntry = s) ∨
      (∃ e, calculate s.context s.entry = .error e ∧
        s.evaluateEntry = (s.record ⟨trimmed s.entry, failureText⟩).showError e) ∨
      ∃ v w, calculate s.context s.entry = .ok (v, w) ∧
        s.evaluateEntry =
          (Session.record { s with working := w } ⟨trimmed s.entry, v.text⟩).showResult v.text := by
  by_cases hblank : trimmed s.entry = ""
  · exact .inl ⟨hblank, evaluateEntry_of_blank hblank⟩
  · cases hvalue : calculate s.context s.entry with
    | error e => exact .inr (.inl ⟨e, rfl, evaluateEntry_of_error hblank hvalue⟩)
    | ok result =>
      obtain ⟨v, w⟩ := result
      exact .inr (.inr ⟨v, w, rfl, evaluateEntry_of_ok hvalue⟩)

/-- **What a memory key does.** A sum that is out of range is found only when the
working has been written. -/
theorem accumulate_cases (sign : Number) (s : Session) :
    (∃ e, calculate s.context s.entry = .error e ∧ s.accumulate sign = s.showError e) ∨
      (∃ v w, calculate s.context s.entry = .ok (v, w) ∧ ¬ (s.memory + sign * v).IsFinite ∧
        s.accumulate sign =
          Session.showError { s with working := w } (.evaluation .notFinite)) ∨
      ∃ v w, calculate s.context s.entry = .ok (v, w) ∧ (s.memory + sign * v).IsFinite ∧
        s.accumulate sign =
          Session.showResult { s with working := w, memory := s.memory + sign * v } v.text := by
  cases hvalue : calculate s.context s.entry with
  | error e => exact .inl ⟨e, rfl, accumulate_of_error hvalue sign⟩
  | ok result =>
    obtain ⟨v, w⟩ := result
    have haccumulate := accumulate_of_ok hvalue sign
    by_cases hsum : (s.memory + sign * v).IsFinite
    · rw [if_pos hsum] at haccumulate
      exact .inr (.inr ⟨v, w, rfl, hsum, haccumulate⟩)
    · rw [if_neg hsum] at haccumulate
      exact .inr (.inl ⟨v, w, rfl, hsum, haccumulate⟩)

end Session
end Calculator
