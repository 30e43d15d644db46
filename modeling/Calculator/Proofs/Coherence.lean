/-
# The texts of the screen agree

A dozen actions write the display, the error message and the working, each its own
part of them. In every session that can be reached they agree (`coherent_run`):
all three are empty, or the display and the message tell of an error and there is
no working, or there is no message and the display and the working are those of
one calculation. A memory key writes the working before it knows whether the sum
is finite, but an error empties it again.

Key definitions: `Coherent`, `Session.IsCoherent`.
Key theorems: `CalcError.message_ne_empty`, `working_ne_empty`, `text_ne_failureText`,
`Session.isCoherent_press`, `Window.isCoherent_perform`, `Window.coherent_run`.
-/
import Calculator.Proofs.Retyping
import Calculator.Screen.Window

namespace Calculator

/-! ### Texts that are not empty -/

theorem append_ne_empty_of_left {s t : String} (h : s ≠ "") : s ++ t ≠ "" := fun hnil =>
  h (String.append_eq_empty_iff.mp hnil).1

theorem CalcError.message_ne_empty (e : CalcError) : e.message ≠ "" := by
  cases e with
  | unexpectedChar position c =>
    exact append_ne_empty_of_left (append_ne_empty_of_left (append_ne_empty_of_left
      (append_ne_empty_of_left (by decide))))
  | unmatchedParentheses => decide
  | evaluation e => exact append_ne_empty_of_left (by decide)

theorem Number.numeral_ne_nil (v : Number) : v.numeral ≠ [] := by
  unfold numeral
  split
  · rw [Decimal.numeral]
    exact List.append_ne_nil_of_left_ne_nil Nat.toDigits_ne_nil _
  · exact List.cons_ne_nil _ _

theorem Number.text_ne_empty (v : Number) : v.text ≠ "" := by
  unfold text
  split
  · decide
  · rw [← String.toList_inj.ne, String.toList_ofList]
    split
    · exact List.cons_ne_nil _ _
    · exact v.numeral_ne_nil

theorem Token.text_ne_empty (t : Token) : t.text ≠ "" := by
  cases t with
  | num v => exact v.text_ne_empty
  | const c => cases c <;> decide
  | var v => cases v <;> decide
  | func f => cases f <;> decide
  | op o => cases o <;> decide
  | lpar | rpar => decide

theorem Token.render_ne_empty {ts : List Token} (h : ts ≠ []) : render ts ≠ "" := by
  match ts, h with
  | [t], _ =>
    rw [render, List.map_singleton, String.intercalate_singleton]
    exact t.text_ne_empty
  | t :: u :: ts, _ =>
    rw [render, List.map_cons, List.map_cons, String.intercalate_cons_cons]
    exact append_ne_empty_of_left (append_ne_empty_of_left t.text_ne_empty)

section Value
variable {ctx : Context} {s : String} {v : Number} {w : Working}

/-- A value has come about by some tokens. -/
theorem working_ne_empty (h : calculate ctx s = .ok (v, w)) : w.tokens ≠ "" ∧ w.rpn ≠ "" := by
  obtain ⟨ts, t, -, hrpn, -, rfl⟩ := calculate_eq_ok_iff.mp h
  exact ⟨Token.render_ne_empty (ne_nil_of_toRpn hrpn), Token.render_ne_empty t.rpn_ne_nil⟩

theorem IsPositional.ne_failureText {places : Nat} : ¬ IsPositional places failureText.toList := by
  have hletter : failureText.toList = 'E' :: ['r', 'r', 'e', 'u', 'r'] := rfl
  rintro ⟨n, htext | htext, -⟩
  · have hmem : 'E' ∈ n.text := by
      rw [← htext, hletter]
      exact List.mem_cons_self
    rcases n.isDigit_or_eq_point_of_mem_text hmem with h | h <;> revert h <;> decide
  · rw [hletter] at htext
    exact absurd (List.cons.inj htext).1 (by decide)

/-- No value is written like a failure. -/
theorem text_ne_failureText (h : calculate ctx s = .ok (v, w)) : v.text ≠ failureText := by
  obtain ⟨u, hu, rfl⟩ := exists_rounded_of_calculate h
  have hpositional := isPositional_text (Number.isFinite_rounded hu) (Number.rounded_rounded u)
  intro htext
  rw [htext] at hpositional
  exact IsPositional.ne_failureText hpositional

end Value

/-! ### The three texts -/

/-- What the display, the message and the working tell of the last calculation:
nothing, how it failed, or its result and the steps to this very result. -/
inductive Coherent : (display message : String) → (working : Working) → Prop where
  | nothing : Coherent "" "" {}
  | failure (e : CalcError) (message : e.message ≠ "") : Coherent failureText e.message {}
  | result {ctx : Context} {text : String} {v : Number} {w : Working}
      (calculated : calculate ctx text = .ok (v, w)) (tokens : w.tokens ≠ "") (rpn : w.rpn ≠ "") :
      Coherent v.text "" w

/-- There is a message just if the display tells of a failure. -/
theorem Coherent.message_ne_empty_iff {display message : String} {w : Working}
    (h : Coherent display message w) : message ≠ "" ↔ display = failureText := by
  cases h with
  | nothing => decide
  | failure e hmessage => exact iff_of_true hmessage rfl
  | result hcalculated => exact iff_of_false (fun h => h rfl) (text_ne_failureText hcalculated)

namespace Session

def IsCoherent (s : Session) : Prop := Coherent s.display s.message s.working

variable {s : Session}

theorem isCoherent_showError (s : Session) (e : CalcError) : (s.showError e).IsCoherent :=
  .failure e e.message_ne_empty

/-- The result is shown with its own working. -/
theorem isCoherent_showResult {ctx : Context} {text : String} {v : Number} {w : Working}
    (h : calculate ctx text = .ok (v, w)) (hworking : s.working = w) :
    (s.showResult v.text).IsCoherent := by
  obtain ⟨htokens, hrpn⟩ := working_ne_empty h
  subst hworking
  exact .result h htokens hrpn

theorem isCoherent_evaluateEntry (h : s.IsCoherent) : s.evaluateEntry.IsCoherent := by
  by_cases hblank : trimmed s.entry = ""
  · rw [evaluateEntry, if_pos hblank]
    exact h
  · cases hcalculate : calculate s.context s.entry with
    | error e =>
      rw [evaluateEntry_of_error hblank hcalculate]
      exact isCoherent_showError _ e
    | ok result =>
      obtain ⟨v, w⟩ := result
      rw [evaluateEntry_of_ok hcalculate]
      exact isCoherent_showResult hcalculate rfl

/-- Also where the sum is not finite, although the working is that of a result. -/
theorem isCoherent_accumulate (sign : Number) (s : Session) :
    (s.accumulate sign).IsCoherent := by
  cases hcalculate : calculate s.context s.entry with
  | error e =>
    rw [accumulate_of_error hcalculate]
    exact isCoherent_showError s e
  | ok result =>
    obtain ⟨v, w⟩ := result
    rw [accumulate_of_ok hcalculate]
    split
    · exact isCoherent_showResult hcalculate rfl
    · exact isCoherent_showError _ _

/-- **Each key keeps the texts in agreement.** -/
theorem isCoherent_press (h : s.IsCoherent) (k : Key) : (s.press k).IsCoherent := by
  cases k with
  | equals =>
    rw [press]
    exact isCoherent_evaluateEntry h
  | memoryAdd => exact isCoherent_accumulate 1 s
  | memorySubtract => exact isCoherent_accumulate (-1) s
  | clearAll => exact .nothing
  | memoryClear | memoryRecall | angleMode | clear | erase | insert =>
    simpa only [press, recallMemory, insert, toggleAngleMode, clearEntry, erase, IsCoherent] using h

theorem isCoherent_restore (d : Save) : (restore d).IsCoherent := by
  rw [restore_eq]
  exact .nothing

end Session

/-! ### The window -/

namespace Window

variable {clamp : Number → Number}

theorem isCoherent_startSession (save : Option Save) : (startSession save).IsCoherent := by
  cases save with
  | none => exact .nothing
  | some d => exact Session.isCoherent_restore d

/-- The texts are not those that drawing may change. -/
theorem isCoherent_draw {w : Window} (h : w.session.IsCoherent) :
    (w.draw clamp).session.IsCoherent := by
  simpa only [draw, Session.IsCoherent] using h

theorem isCoherent_apply {w : Window} (h : w.session.IsCoherent) (effect : Effect) :
    (w.apply effect).session.IsCoherent := by
  cases effect with
  | press k => exact Session.isCoherent_press h k
  | pressAndFocus k =>
    have hpress := Session.isCoherent_press h k
    simpa only [apply, Session.IsCoherent] using hpress
  | toggleWorking => exact h

/-- **Each action keeps the texts in agreement.** -/
theorem isCoherent_perform {w : Window} (h : w.session.IsCoherent) (action : Action) :
    (w.perform clamp action).session.IsCoherent := by
  cases action with
  | press k => exact Session.isCoherent_press h k
  | draw => exact isCoherent_draw h
  | typeEntry | setX | setY | setMemory | keep =>
    simpa only [perform, Session.IsCoherent] using h
  | roundTrip => exact Session.isCoherent_restore _
  | relaunch => exact isCoherent_startSession w.store
  | relaunchEmpty => exact .nothing
  | enterKey =>
    have hdraw : (w.draw clamp).session.IsCoherent := isCoherent_draw h
    simpa only [perform] using Session.isCoherent_press hdraw .equals
  | escapeKey =>
    have hclear := Session.isCoherent_press h .clear
    exact isCoherent_draw (w := { w with session := w.session.press .clear }) hclear
  | click label =>
    rw [perform, click?]
    cases Button.find? w.session.context.mode label with
    | none => exact isCoherent_draw h
    | some b => exact isCoherent_apply (isCoherent_draw h) b.effect

theorem isCoherent_run : ∀ {actions : List Action} {w : Window}, w.session.IsCoherent →
    (w.run clamp actions).session.IsCoherent
  | [], _, h => h
  | action :: actions, w, h =>
    @isCoherent_run actions (w.perform clamp action) (isCoherent_perform h action)

/-- **The screen is coherent.** After any actions from a fresh start, with no save or
with any one, the display, the message and the working are all empty, or tell of
one failure, or are those of one calculation; and a message is drawn just if the
display tells of a failure. -/
theorem coherent_run (clamp : Number → Number) (save store : Option Save) (workingOpen : Bool)
    (actions : List Action) :
    let s := (run clamp { session := startSession save, workingOpen, store } actions).session
    Coherent s.display s.message s.working ∧
      (messageTexts s.message ≠ [] ↔ s.display = failureText) := by
  intro s
  have h : s.IsCoherent := isCoherent_run (isCoherent_startSession save)
  refine ⟨h, Iff.trans ?_ (Coherent.message_ne_empty_iff h)⟩
  unfold messageTexts
  split <;> rename_i hmessage <;> simp [hmessage]

end Window
end Calculator
