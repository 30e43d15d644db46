/-
# The buttons on the screen

A button has a label and an effect. The keypad is a table of six rows; three of
its cells are empty. Its keys type a text, for a function the name and an
opening parenthesis.

Key definitions: `Button`, `keypad`, `keypadTexts`, `Button.all`.
Key theorem: `Button.nodup_labels`.
-/
import Calculator.Session.Keys

namespace Calculator

/-- A cell of the keypad: empty, or a key with its label and the text it types. -/
inductive Cell where
  | empty
  | key (label text : String)
deriving DecidableEq, Repr

/-- The keypad, row by row. -/
def keypad : List (List Cell) :=
  [[.key "sin" "sin(", .key "cos" "cos(", .key "tan" "tan(", .key "(" "(", .key ")" ")",
      .key "^" "^"],
    [.key "asin" "asin(", .key "acos" "acos(", .key "atan" "atan(", .key "7" "7", .key "8" "8",
      .key "9" "9"],
    [.key "log" "log(", .key "ln" "ln(", .key "√" "sqrt(", .key "4" "4", .key "5" "5",
      .key "6" "6"],
    [.key "n!" "factorial(", .key "π" "pi", .key "e" "e", .key "1" "1", .key "2" "2",
      .key "3" "3"],
    [.key "x" "x", .key "y" "y", .key "%" "%", .key "0" "0", .key "." ".", .key "/" "/"],
    [.empty, .empty, .empty, .key "+" "+", .key "-" "-", .key "*" "*"]]

/-- The texts the keypad types. -/
def keypadTexts : List String :=
  keypad.flatten.filterMap fun
    | .empty => none
    | .key _ text => some text

/-- What a button does. -/
inductive Effect where
  /-- A key, and nothing else. -/
  | press (k : Key)
  /-- A key, and then the focus goes to the entry. -/
  | pressAndFocus (k : Key)
  /-- Opens or closes the panel with the working. -/
  | toggleWorking
deriving DecidableEq, Repr

structure Button where
  label : String
  effect : Effect
deriving DecidableEq, Repr

namespace Button

def angleMode (mode : AngleMode) : Button := ⟨mode.label, .press .angleMode⟩

def memory : List Button :=
  [⟨"MC", .pressAndFocus .memoryClear⟩, ⟨"MR", .pressAndFocus .memoryRecall⟩,
    ⟨"M+", .pressAndFocus .memoryAdd⟩, ⟨"M-", .pressAndFocus .memorySubtract⟩]

/-- The button of a keypad cell. -/
def ofCell? : Cell → Option Button
  | .empty => none
  | .key label text => some ⟨label, .press (.insert text)⟩

def entry : List Button :=
  [⟨"C", .pressAndFocus .clear⟩, ⟨"AC", .pressAndFocus .clearAll⟩,
    ⟨"DEL", .pressAndFocus .erase⟩, ⟨"=", .pressAndFocus .equals⟩]

def working : Button := ⟨"Démarche", .toggleWorking⟩

/-- All buttons, in the order of the screen. -/
def all (mode : AngleMode) : List Button :=
  angleMode mode :: memory ++ keypad.flatten.filterMap ofCell? ++ entry ++ [working]

/-- The button with this label. -/
def find? (mode : AngleMode) (label : String) : Option Button :=
  (all mode).find? fun b => b.label == label

/-- No two buttons have one label. -/
theorem nodup_labels (mode : AngleMode) : ((all mode).map label).Nodup := by
  cases mode <;> decide

end Button
end Calculator
