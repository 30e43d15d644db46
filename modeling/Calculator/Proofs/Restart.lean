/-
# What a restart keeps

A save holds the context, the memory and the history, and restoring it gives these
back, all but the lines that are too old; a session that can be reached has none of
those (`Session.restore_save_eq`). What a save leaves out is exactly what the key `AC`
resets, so after this key no run can tell a restarted session from one that went on
(`Session.clearAll_restore_save`). A relaunch finds in the store what was saved
last, whatever has happened since (`Window.session_relaunch`).

Key theorems: `Session.restore_save_eq`, `Session.clearAll_restore_save`,
`Window.session_relaunch`, `Window.restart_keeps_what_is_saved`.
-/
import Calculator.Proofs.History

namespace Calculator
namespace Session

/-- A restored session is saved with the last lines of its save. -/
theorem save_restore_eq (d : Save) :
    (restore d).save = { d with history := lastLines d.history } := by
  rw [restore_eq, save]

/-- What is not saved is as in a fresh session. -/
theorem restore_save_eq {s : Session} (h : s.history.length ≤ historyLimit) :
    restore s.save = { context := s.context, memory := s.memory, history := s.history } := by
  rw [restore_eq, save, lastLines_of_length_le h]

/-- After the key `AC` only what is saved is left. -/
theorem clearAll_eq (s : Session) :
    s.clearAll = { context := s.context, memory := s.memory, history := s.history } := rfl

/-- **The key `AC` makes up for a restart.** -/
theorem clearAll_restore_save {s : Session} (h : s.history.length ≤ historyLimit) :
    (restore s.save).clearAll = s.clearAll := by
  rw [restore_save_eq h, clearAll_eq, clearAll_eq]

end Session

namespace Window

variable {clamp : Number → Number} {w : Window}

/-! ### Saving and going on -/

theorem perform_click_clearAll (w : Window) : w.perform clamp (.click "AC") =
    { w with
      session := { w.session.clearAll with context := w.session.context.inFields clamp } } := by
  have hbutton : ⟨"AC", .pressAndFocus .clearAll⟩ ∈ Button.all w.session.context.mode := by
    simp [Button.all, Button.entry]
  exact perform_click hbutton

/-- **After the key `AC`, by itself or by its button, a restart does not show.** -/
theorem perform_clearAll_roundTrip (h : w.session.history.length ≤ historyLimit)
    {clearing : Action} (hclearing : clearing ∈ [Action.press .clearAll, .click "AC"]) :
    (w.perform clamp .roundTrip).perform clamp clearing = w.perform clamp clearing := by
  have hclear := Session.clearAll_restore_save h
  have hrestore := Session.restore_save_eq h
  rcases List.mem_cons.mp hclearing with rfl | hbutton
  · simp only [perform, Session.press, hclear]
  · obtain rfl := List.mem_singleton.mp hbutton
    rw [perform_click_clearAll, perform_click_clearAll]
    simp only [perform, hclear]
    rw [hrestore]

/-! ### The store -/

theorem session_perform_relaunch (w : Window) :
    (w.perform clamp .relaunch).session = startSession w.store := rfl

/-- **A relaunch finds the last save.** -/
theorem session_relaunch {before after : List Action} (h : .keep ∉ after) :
    ((w.run clamp (before ++ .keep :: after)).perform clamp .relaunch).session =
      Session.restore (w.run clamp before).session.save := by
  have hstore : (((w.run clamp before).perform clamp .keep).run clamp after).store =
      some (w.run clamp before).session.save := store_run h
  rw [session_perform_relaunch, run_append, run_cons, hstore, startSession]

/-- Nothing saved, nothing found. -/
theorem session_relaunch_of_none {actions : List Action} (hstore : w.store = none)
    (h : .keep ∉ actions) : ((w.run clamp actions).perform clamp .relaunch).session = {} := by
  rw [session_perform_relaunch, store_run h, hstore, startSession]

/-- **A restart loses nothing that is saved, and nothing else is left.** Restoring a
save and saving again gives the save, with the last five lines of its history. A
session that can be reached and the one restored from its save have the same
context, memory and history, and the latter is otherwise fresh; after the key `AC`
they are the same, and so is the window after any further actions. A relaunch
restores the session as it was when it was last saved, or starts afresh if it never
was, whatever has happened since. -/
theorem restart_keeps_what_is_saved (clamp : Number → Number) :
    (∀ d : Save, (Session.restore d).save =
      { d with history := d.history.drop (d.history.length - 5) }) ∧
    (∀ (save store : Option Save) (workingOpen : Bool) (actions : List Action),
      let w := run clamp { session := startSession save, workingOpen, store } actions
      Session.restore w.session.save =
          { context := w.session.context, memory := w.session.memory,
            history := w.session.history } ∧
        ∀ clearing ∈ [Action.press .clearAll, .click "AC"], ∀ later : List Action,
          (w.perform clamp .roundTrip).run clamp (clearing :: later) =
            w.run clamp (clearing :: later)) ∧
    (∀ (w : Window) (before after : List Action), .keep ∉ after →
      ((w.run clamp (before ++ .keep :: after)).perform clamp .relaunch).session =
        Session.restore (w.run clamp before).session.save) ∧
    ∀ (w : Window) (actions : List Action), w.store = none → .keep ∉ actions →
      ((w.run clamp actions).perform clamp .relaunch).session = {} := by
  refine ⟨Session.save_restore_eq, fun save store workingOpen actions => ?_,
    fun w before after h => session_relaunch h,
    fun w actions hstore h => session_relaunch_of_none hstore h⟩
  intro w
  have hlength : w.session.history.length ≤ historyLimit :=
    length_history_run actions (length_history_startSession save)
  refine ⟨Session.restore_save_eq hlength, fun clearing hclearing later => ?_⟩
  rw [run_cons, run_cons, perform_clearAll_roundTrip hlength hclearing]

/-- A variable is -0, and the memory is cleared after the save. -/
theorem restart_keeps_what_is_saved_of_negative_zero :
    let w : Window := {}
    let before : List Action := [.click "RAD", .setX (-0.0), .typeEntry "2*3", .click "M+"]
    let after : List Action := [.click "MC", .typeEntry "1/0", .enterKey]
    ((w.run id (before ++ .keep :: after)).perform id .relaunch).session =
        { context := { mode := .degrees, x := -0.0 }, memory := 6 } ∧
      ((w.run id before).perform id .relaunch).session = {} ∧
      ((w.run id before).perform id .roundTrip).run id [.click "AC", .click "MR"] =
        (w.run id before).run id [.click "AC", .click "MR"] := by
  intro w before after
  obtain ⟨-, hreached, hsaved, hunsaved⟩ := restart_keeps_what_is_saved id
  refine ⟨?_, hunsaved w before rfl (by decide), ?_⟩
  · rw [hsaved w before after (by decide)]
    decide +kernel
  · exact (hreached none none false before).2 (.click "AC") (by decide) [.click "MR"]

end Window
end Calculator
