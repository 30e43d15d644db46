/-
# The window

The window shows a session, with a panel for the working that may be open, and
has a store that keeps the last save. Whenever the window is drawn, the entry
takes the focus it asked for, and the fields of the variables bring their values
into their range. A button or the keyboard acts on what was drawn, so its action
comes after a drawing.

The fields belong to the toolkit that draws the window. What such a field makes of
the number it is given is a parameter, `clamp`, of everything that draws.

Key definitions: `Window`, `Context.inFields`, `Window.draw`, `Screen`,
`Window.screen`, `Window.click?`, `Action`, `Window.perform`, `Window.run`.
-/
import Calculator.Screen.Buttons

namespace Calculator

structure Window where
  session : Session := {}
  workingOpen : Bool := false
  store : Option Save := none
deriving DecidableEq

/-- What the window shows: its texts and the labels of its buttons, in order. -/
structure Screen where
  texts : List String
  buttons : List String
deriving DecidableEq

/-- The context with its variables as their fields hold them. -/
def Context.inFields (clamp : Number → Number) (ctx : Context) : Context :=
  { ctx with x := clamp ctx.x, y := clamp ctx.y }

namespace Window

def historyText (lines : List HistoryLine) : String :=
  "\n".intercalate (lines.map fun l => l.expression ++ " = " ++ l.result)

/-- An error message stands on the screen only if there is one. -/
def messageTexts (message : String) : List String := if message = "" then [] else [message]

def workingTexts (w : Working) : List String := ["Jetons :", w.tokens, "RPN :", w.rpn]

def screen (w : Window) : Screen where
  texts :=
    ["Calculatrice scientifique", w.session.display] ++
      messageTexts w.session.message ++
      ["x =", "y =", "M = " ++ w.session.memory.text] ++
      (keypad.flatten.filter (· = .empty)).map (fun _ => "") ++
      ["Historique :", historyText w.session.history] ++
      (if w.workingOpen then workingTexts w.session.working else [])
  buttons := (Button.all w.session.context.mode).map Button.label

def apply (w : Window) : Effect → Window
  | .press k => { w with session := w.session.press k }
  | .pressAndFocus k => { w with session := { w.session.press k with focus := true } }
  | .toggleWorking => { w with workingOpen := !w.workingOpen }

def startSession : Option Save → Session
  | some d => Session.restore d
  | none => {}

end Window

inductive Action where
  /-- A key of the calculator, not by way of a button. -/
  | press (k : Key)
  | typeEntry (text : String)
  | setX (v : Number)
  | setY (v : Number)
  | setMemory (v : Number)
  /-- The session is saved and restored at once. -/
  | roundTrip
  /-- The session is saved into the store. -/
  | keep
  /-- The program starts again with the store. -/
  | relaunch
  /-- The program starts again as if the store were empty; it is not. -/
  | relaunchEmpty
  | click (label : String)
  | enterKey
  | escapeKey
  | draw
deriving DecidableEq

namespace Window

section Drawing
variable (clamp : Number → Number)

/-- Drawing gives the entry the focus it asked for, and leaves the variables as
their fields hold them. -/
def draw (w : Window) : Window :=
  { w with
    session := { w.session with context := w.session.context.inFields clamp, focus := false } }

def click? (w : Window) (label : String) : Option Window :=
  (Button.find? w.session.context.mode label).map fun b => (w.draw clamp).apply b.effect

/-- The window after an action. A click beside every button only draws. -/
def perform (w : Window) : Action → Window
  | .press k => { w with session := w.session.press k }
  | .typeEntry text => { w with session := { w.session with entry := text } }
  | .setX v =>
    { w with session := { w.session with context := { w.session.context with x := v } } }
  | .setY v =>
    { w with session := { w.session with context := { w.session.context with y := v } } }
  | .setMemory v => { w with session := { w.session with memory := v } }
  | .roundTrip => { w with session := Session.restore w.session.save }
  | .keep => { w with store := some w.session.save }
  | .relaunch => { session := startSession w.store, store := w.store }
  | .relaunchEmpty => { store := w.store }
  | .click label => (w.click? clamp label).getD (w.draw clamp)
  | .enterKey => { w.draw clamp with session := (w.draw clamp).session.press .equals }
  | .escapeKey => Window.draw clamp { w with session := w.session.press .clear }
  | .draw => w.draw clamp

def run (w : Window) (actions : List Action) : Window := actions.foldl (perform clamp) w

end Drawing

end Window
end Calculator
