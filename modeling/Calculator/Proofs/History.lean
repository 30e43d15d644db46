/-
# The history is the end of everything that was calculated

The equals key adds a line for each entry that is not blank, and no other key adds
one. A line pushes the oldest one out only if the history has exactly its limit, so
what is kept rests on the length never being above it. Restoring a save cuts a
history that is too long; from then on the history is the end of all lines, those
of the save and those of the run (`Window.history_run`).

Key definitions: `Session.historyLine?`, `Window.historyLine?`.
Key theorems: `Session.history_press`, `Window.length_history_run`,
`Window.history_run`, `Window.history_keeps_the_last_lines`.
-/
import Calculator.Proofs.Entry
import Calculator.Proofs.Presses

namespace Calculator

theorem length_lastLines_eq (lines : List HistoryLine) :
    (lastLines lines).length = min historyLimit lines.length := by
  rw [lastLines, List.length_drop]
  omega

namespace Session

/-- The line that a key adds to the history: the entry, and its value or that it
has none. -/
def historyLine? (s : Session) : Key → Option HistoryLine
  | .equals =>
    if trimmed s.entry = "" then none
    else
      match evaluate s.context s.entry with
      | .ok v => some ⟨trimmed s.entry, v.text⟩
      | .error _ => some ⟨trimmed s.entry, failureText⟩
  | _ => none

variable {s : Session} {k : Key}

/-! ### One key -/

theorem history_accumulate (sign : Number) (s : Session) :
    (s.accumulate sign).history = s.history := by
  rcases accumulate_cases sign s with ⟨e, -, h⟩ | ⟨v, w, -, -, h⟩ | ⟨v, w, -, -, h⟩
  · rw [h, showError]
  · rw [h, showError]
  · rw [h, showResult]

/-- Only the equals key writes the history. -/
theorem history_press_of_ne_equals (hk : k ≠ .equals) : (s.press k).history = s.history := by
  cases k with
  | equals => exact absurd rfl hk
  | memoryAdd => exact history_accumulate 1 s
  | memorySubtract => exact history_accumulate (-1) s
  | _ => simp [press, recallMemory, insert, toggleAngleMode, clearEntry, clearAll, erase]

/-- An entry that is not blank goes into the history with its value or its failure. -/
theorem history_press_equals (hne : trimmed s.entry ≠ "") :
    ∃ line, s.historyLine? .equals = some line ∧
      (s.press .equals).history = (s.record line).history := by
  rw [historyLine?, if_neg hne, press]
  cases hvalue : evaluate s.context s.entry with
  | error e =>
    rw [evaluateEntry_of_error hne (evaluate_eq_error_iff.mp hvalue)]
    exact ⟨_, rfl, rfl⟩
  | ok v =>
    obtain ⟨w, hw⟩ := evaluate_eq_ok_iff.mp hvalue
    rw [evaluateEntry_of_ok hw]
    exact ⟨_, rfl, rfl⟩

/-- **A key adds its line to the history**, and the oldest one goes if there is no
room. -/
theorem history_press (h : s.history.length ≤ historyLimit) (k : Key) :
    (s.press k).history = lastLines (s.history ++ (s.historyLine? k).toList) := by
  by_cases hk : k = .equals
  · subst hk
    by_cases hblank : trimmed s.entry = ""
    · rw [press, evaluateEntry_of_blank hblank, historyLine?, if_pos hblank, Option.toList_none,
        List.append_nil, lastLines_of_length_le h]
    · obtain ⟨line, hline, hhistory⟩ := history_press_equals hblank
      rw [hhistory, hline, record_eq h, Option.toList_some]
  · have hnone : s.historyLine? k = none := by
      cases k with
      | equals => exact absurd rfl hk
      | _ => rfl
    rw [history_press_of_ne_equals hk, hnone, Option.toList_none, List.append_nil,
      lastLines_of_length_le h]

end Session

namespace Window

/-- The line that an action adds to the history. -/
def historyLine? (clamp : Number → Number) (w : Window) (action : Action) : Option HistoryLine :=
  (w.press? clamp action).bind fun (s, k) => s.historyLine? k

variable {clamp : Number → Number} {w : Window} {action : Action}

/-! ### One action -/

/-- What an action that presses no key leaves of the history. -/
theorem history_perform_of_press?_eq_none (h : w.session.history.length ≤ historyLimit)
    (hrestart : action ≠ .relaunch ∧ action ≠ .relaunchEmpty)
    (hpress : w.press? clamp action = none) :
    (w.perform clamp action).session.history = w.session.history := by
  cases action with
  | relaunch => exact absurd rfl hrestart.1
  | relaunchEmpty => exact absurd rfl hrestart.2
  | click label => rw [perform_click_of_press?_eq_none hpress, draw]
  | roundTrip => rw [perform, Session.restore_eq, Session.save, lastLines_of_length_le h]
  | press | enterKey | escapeKey => simp [press?] at hpress
  | _ => rfl

/-- **An action adds its line to the history.** -/
theorem history_perform (h : w.session.history.length ≤ historyLimit)
    (hrestart : action ≠ .relaunch ∧ action ≠ .relaunchEmpty) :
    (w.perform clamp action).session.history =
      lastLines (w.session.history ++ (w.historyLine? clamp action).toList) := by
  rw [historyLine?]
  cases hpress : w.press? clamp action with
  | none =>
    rw [history_perform_of_press?_eq_none h hrestart hpress, Option.bind_none, Option.toList_none,
      List.append_nil, lastLines_of_length_le h]
  | some pressed =>
    obtain ⟨s, k⟩ := pressed
    obtain ⟨context, focus, hperform⟩ := exists_perform_of_press? hpress
    have hhistory : s.history = w.session.history := (same_of_press? hpress).2.2
    rw [hperform, ← hhistory, Option.bind_some]
    exact Session.history_press (hhistory ▸ h) k

theorem length_history_restore (d : Save) : (Session.restore d).history.length ≤ historyLimit := by
  rw [Session.restore_eq]
  exact length_lastLines d.history

theorem length_history_startSession (save : Option Save) :
    (startSession save).history.length ≤ historyLimit := by
  cases save with
  | none => exact Nat.zero_le _
  | some d => exact length_history_restore d

/-- **No action makes the history too long.** -/
theorem length_history_perform (h : w.session.history.length ≤ historyLimit) (action : Action) :
    (w.perform clamp action).session.history.length ≤ historyLimit := by
  by_cases hrestart : action = .relaunch ∨ action = .relaunchEmpty
  · rcases hrestart with rfl | rfl
    · exact length_history_startSession w.store
    · exact Nat.zero_le _
  · rw [history_perform h (not_or.mp hrestart)]
    exact length_lastLines _

/-! ### A run -/

theorem length_history_run : ∀ (actions : List Action) {w : Window},
    w.session.history.length ≤ historyLimit →
    (w.run clamp actions).session.history.length ≤ historyLimit
  | [], _, h => h
  | action :: actions, w, h => by
    rw [run_cons]
    exact length_history_run actions (length_history_perform h action)

/-- **The lines of a run follow those of the history**, and the last ones are
kept. -/
theorem history_run : ∀ {actions : List Action} {w : Window},
    w.session.history.length ≤ historyLimit → .relaunch ∉ actions → .relaunchEmpty ∉ actions →
    (w.run clamp actions).session.history =
      lastLines (w.session.history ++ w.collect clamp (historyLine? clamp) actions)
  | [], w, h, _, _ => by
    rw [run_nil, collect_nil, List.append_nil, lastLines_of_length_le h]
  | action :: actions, w, h, hrelaunch, hempty => by
    simp only [List.mem_cons, not_or] at hrelaunch hempty
    have hperform : (w.perform clamp action).session.history = _ :=
      history_perform h ⟨Ne.symm hrelaunch.1, Ne.symm hempty.1⟩
    rw [run_cons, history_run (length_history_perform h action) hrelaunch.2 hempty.2, hperform,
      lastLines_lastLines_append, List.append_assoc, collect_cons]

/-- **The history is the end of all lines.** However long the history of a save is,
after any actions on the restored session, restarts apart, the history consists of
the last lines, oldest first, of those of the save and those of the run: one for
each time the equals key met an entry that is not blank, with the trimmed entry and
the text of its value, or that it failed. Nothing else adds or removes a line, and
there are never more than five. -/
theorem history_keeps_the_last_lines (clamp : Number → Number) (d : Save) (workingOpen : Bool)
    (store : Option Save) :
    let w : Window := { session := Session.restore d, workingOpen, store }
    (∀ actions : List Action, .relaunch ∉ actions → .relaunchEmpty ∉ actions →
      let lines := d.history ++ w.collect clamp (historyLine? clamp) actions
      (w.run clamp actions).session.history = lines.drop (lines.length - 5) ∧
        (w.run clamp actions).session.history.length = min 5 lines.length) ∧
    (∀ (s : Session) (k : Key), k ≠ .equals ∨ trimmed s.entry = "" →
      (s.press k).history = s.history) ∧
    ∀ actions : List Action, (w.run clamp actions).session.history.length ≤ 5 := by
  intro w
  have hlength : w.session.history.length ≤ historyLimit := length_history_restore d
  have hhistory : w.session.history = lastLines d.history :=
    congrArg Session.history (Session.restore_eq d)
  refine ⟨fun actions hrelaunch hempty => ?_, fun s k hk => ?_, fun actions => ?_⟩
  · have hlines : (w.run clamp actions).session.history =
        lastLines (d.history ++ w.collect clamp (historyLine? clamp) actions) := by
      rw [history_run hlength hrelaunch hempty, hhistory, lastLines_lastLines_append]
    exact ⟨hlines, hlines ▸ length_lastLines_eq _⟩
  · by_cases hequals : k = .equals
    · subst hequals
      rw [Session.press, Session.evaluateEntry_of_blank (hk.resolve_left (not_not_intro rfl))]
    · exact Session.history_press_of_ne_equals hequals
  · exact length_history_run actions hlength

/-- A save with seven lines, and a run with a blank entry, a failure and a memory
key in it. -/
theorem history_keeps_the_last_lines_of_long_save :
    let d : Save := { history := List.replicate 7 ⟨"0", "0"⟩ }
    let w : Window := { session := Session.restore d }
    let actions : List Action := [.typeEntry " 1+1 ", .press .equals, .typeEntry " ", .click "=",
      .typeEntry "1/0", .enterKey, .typeEntry "2", .click "M+"]
    (w.run id actions).session.history =
        [⟨"0", "0"⟩, ⟨"0", "0"⟩, ⟨"0", "0"⟩, ⟨"1+1", "2"⟩, ⟨"1/0", "Erreur"⟩] ∧
      (w.session.press .memoryAdd).history = w.session.history := by
  intro d w actions
  obtain ⟨hrun, hkey, -⟩ := history_keeps_the_last_lines id d false none
  have hcollect : w.collect id (historyLine? id) actions = [⟨"1+1", "2"⟩, ⟨"1/0", "Erreur"⟩] := by
    decide +kernel
  have hlines := (hrun actions (by decide +kernel) (by decide +kernel)).1
  rw [hcollect] at hlines
  have hkept := hkey w.session .memoryAdd (.inl nofun)
  refine ⟨?_, hkept⟩
  rw [hlines]
  decide +kernel

end Window
end Calculator
