/-
# The keys

Each key is a function on sessions. The equals key puts a result into the entry,
where it can be typed on, and a line into the history; a calculation that fails
empties the entry. The memory keys calculate the entry as well, but leave the
history alone, and the memory stays as it is unless the calculation succeeds
with a finite sum. They add the value with the sign of the key.

Key definitions: `Key`, `Session.calculateEntry`, `Session.evaluateEntry`,
`Session.accumulate`, `Session.recallMemory`, `Session.erase`, `Session.press`.
-/
import Calculator.Session.Basic
import Calculator.Session.Erase

namespace Calculator

inductive Key where
  | equals
  | memoryClear
  | memoryRecall
  | memoryAdd
  | memorySubtract
  | angleMode
  | clear
  | clearAll
  | erase
  /-- A key that types a text. -/
  | insert (text : String)
deriving DecidableEq, Repr

namespace Session

/-- The value of the entry. If there is one, its working is kept. -/
def calculateEntry (s : Session) : Except CalcError Number × Session :=
  match calculate s.context s.entry with
  | .ok (v, w) => (.ok v, { s with working := w })
  | .error e => (.error e, s)

/-- The session that shows a result, which becomes the entry. -/
def showResult (s : Session) (text : String) : Session :=
  { s with message := "", entry := text, display := text, focus := true }

def showError (s : Session) (e : CalcError) : Session :=
  { s with message := e.message, display := failureText, entry := "", working := {}, focus := true }

/-- Calculates the entry and keeps a line of it; a blank entry is left alone. -/
def evaluateEntry (s : Session) : Session :=
  let expression := trimmed s.entry
  if expression = "" then s
  else
    match s.calculateEntry with
    | (.ok v, s') => (s'.record ⟨expression, v.text⟩).showResult v.text
    | (.error e, s') => (s'.record ⟨expression, failureText⟩).showError e

/-- Adds the value of the entry, times the sign 1 or -1, to the memory, which must
stay finite. -/
def accumulate (sign : Number) (s : Session) : Session :=
  match s.calculateEntry with
  | (.error e, s') => s'.showError e
  | (.ok v, s') =>
    let sum := s'.memory + sign * v
    if sum.IsFinite then Session.showResult { s' with memory := sum } v.text
    else s'.showError (.evaluation .notFinite)

/-- How the memory is typed: in parentheses if it is negative, so it is not read
as a subtraction. -/
def memoryText (s : Session) : String :=
  if s.memory < 0 then "(" ++ s.memory.text ++ ")" else s.memory.text

def insert (s : Session) (text : String) : Session :=
  { s with entry := s.entry ++ text, focus := true }

def recallMemory (s : Session) : Session := s.insert s.memoryText

/-- Erases the last character of the entry, or the last name. -/
def erase (s : Session) : Session :=
  { s with entry := String.ofList (eraseLast s.entry.toList), focus := true }

def toggleAngleMode (s : Session) : Session :=
  { s with context := { s.context with mode := s.context.mode.toggle } }

def clearEntry (s : Session) : Session := { s with entry := "", focus := true }

/-- Empties the entry and the three texts; memory and history stay. -/
def clearAll (s : Session) : Session :=
  { s with entry := "", display := "", message := "", working := {}, focus := true }

def press (s : Session) : Key → Session
  | .equals => s.evaluateEntry
  | .memoryClear => { s with memory := 0 }
  | .memoryRecall => s.recallMemory
  | .memoryAdd => s.accumulate 1
  | .memorySubtract => s.accumulate (-1)
  | .angleMode => s.toggleAngleMode
  | .clear => s.clearEntry
  | .clearAll => s.clearAll
  | .erase => s.erase
  | .insert text => s.insert text

theorem press_memoryAdd (s : Session) : s.press .memoryAdd = s.accumulate 1 := rfl

theorem press_memorySubtract (s : Session) : s.press .memorySubtract = s.accumulate (-1) := rfl

end Session
end Calculator
