/-
# The state of the calculator

A session holds what the user sees and what the next calculation depends on: the
entry being typed, the three texts that tell how the last calculation went (the
display, the error message, the working), the unit of angles and the variables,
the memory, and the history. The three texts are fields of their own, and each
action writes those it has to.

A part of the state is saved between two runs; restoring it gives a session with
an empty entry and empty texts, and adds the lines of the history one by one.

Key definitions: `Session`, `Save`, `Session.save`, `Session.restore`,
`Session.record`.
Key theorems: `Session.length_history_record`, `Session.restore_eq`.
-/
import Calculator.Calculate

namespace Calculator

/-- What is displayed, and kept in the history, for a calculation that failed. -/
def failureText : String := "Erreur"

structure HistoryLine where
  expression : String
  result : String
deriving DecidableEq

structure Session where
  entry : String := ""
  /-- The last result, or that it failed. -/
  display : String := ""
  /-- Why it failed, empty if it did not. -/
  message : String := ""
  working : Working := {}
  context : Context := {}
  memory : Number := 0
  /-- Oldest line first. -/
  history : List HistoryLine := []
  /-- Whether the entry wants the keyboard's focus. -/
  focus : Bool := true
deriving DecidableEq

structure Save where
  context : Context := {}
  memory : Number := 0
  history : List HistoryLine := []
deriving DecidableEq

def historyLimit : Nat := 5

def lastLines (lines : List HistoryLine) : List HistoryLine :=
  lines.drop (lines.length - historyLimit)

theorem length_lastLines (lines : List HistoryLine) : (lastLines lines).length ≤ historyLimit := by
  rw [lastLines, List.length_drop]
  omega

theorem lastLines_of_length_le {lines : List HistoryLine} (h : lines.length ≤ historyLimit) :
    lastLines lines = lines := by
  rw [lastLines, Nat.sub_eq_zero_of_le h, List.drop_zero]

/-- Lines that are too old do not come back. -/
theorem lastLines_append {more : List HistoryLine} (h : historyLimit ≤ more.length)
    (lines : List HistoryLine) : lastLines (lines ++ more) = lastLines more := by
  rw [lastLines, List.length_append, Nat.add_sub_assoc h, List.drop_length_add_append, lastLines]

/-- Whether a history is cut before lines are added or after makes no difference. -/
theorem lastLines_lastLines_append (lines more : List HistoryLine) :
    lastLines (lastLines lines ++ more) = lastLines (lines ++ more) := by
  rcases Nat.le_total lines.length historyLimit with hshort | hlong
  · rw [lastLines_of_length_le hshort]
  · have hsplit := List.take_append_drop (lines.length - historyLimit) lines
    have hfull : historyLimit ≤ (lastLines lines ++ more).length := by
      rw [List.length_append, lastLines, List.length_drop]
      omega
    conv => rhs; rw [← hsplit, List.append_assoc]
    exact (lastLines_append hfull _).symm

namespace Session

/-- The session with a line added to its history; the oldest goes if the history
is full. -/
def record (s : Session) (line : HistoryLine) : Session :=
  let kept := if s.history.length = historyLimit then s.history.tail else s.history
  { s with history := kept ++ [line] }

def save (s : Session) : Save := ⟨s.context, s.memory, s.history⟩

def restore (d : Save) : Session :=
  d.history.foldl record { context := d.context, memory := d.memory }

/-- A history that is not too long keeps its last lines. -/
theorem record_eq {s : Session} (h : s.history.length ≤ historyLimit) (line : HistoryLine) :
    s.record line = { s with history := lastLines (s.history ++ [line]) } := by
  rw [record]
  split
  · rename_i hfull
    obtain ⟨oldest, rest, hhistory⟩ : ∃ oldest rest, s.history = oldest :: rest :=
      List.exists_cons_of_length_pos (by rw [hfull]; decide)
    have hlength : (rest ++ [line]).length = historyLimit := by
      simpa [hhistory] using hfull
    have hlast : lastLines ([oldest] ++ (rest ++ [line])) = rest ++ [line] := by
      rw [lastLines_append (Nat.le_of_eq hlength.symm), lastLines_of_length_le (Nat.le_of_eq hlength)]
    rw [hhistory, List.tail_cons, List.cons_append]
    exact congrArg (fun lines => { s with history := lines }) hlast.symm
  · rename_i hfree
    have hlength : (s.history ++ [line]).length ≤ historyLimit := by
      rw [List.length_append, List.length_singleton]
      omega
    rw [lastLines_of_length_le hlength]

theorem length_history_record {s : Session} (h : s.history.length ≤ historyLimit)
    (line : HistoryLine) : (s.record line).history.length ≤ historyLimit := by
  rw [record_eq h]
  exact length_lastLines _

/-- Lines added one by one: the last ones are kept. -/
theorem foldl_record : ∀ {lines : List HistoryLine} {s : Session},
    s.history.length ≤ historyLimit →
    lines.foldl record s = { s with history := lastLines (s.history ++ lines) }
  | [], s, h => by rw [List.append_nil, lastLines_of_length_le h, List.foldl_nil]
  | line :: lines, s, h => by
    rw [List.foldl_cons, foldl_record (length_history_record h line), record_eq h,
      lastLines_lastLines_append, List.append_assoc, List.singleton_append]

/-- A restored session has the last lines of its save. -/
theorem restore_eq (d : Save) :
    restore d = { context := d.context, memory := d.memory, history := lastLines d.history } := by
  rw [restore, foldl_record (Nat.zero_le _), List.nil_append]

end Session
end Calculator
