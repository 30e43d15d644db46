/-
# The keys that a run presses

An action on the window presses one key or none, on the session as it stands or as
a drawing leaves it (`exists_perform_of_press?`). What a run leaves in the memory
and in the history is a matter of these keys, and it is collected from them action
by action: each action is seen with the window that it meets.

Key definitions: `Window.press?`, `Window.collect`.
Key theorems: `Button.find?_label`, `Window.session_of_press?`,
`Window.exists_perform_of_press?`, `Window.perform_click`, `Window.store_perform`.
-/
import Mathlib.Data.List.Nodup
import Calculator.Screen.Window

namespace Calculator

/-- A label finds its button. -/
theorem Button.find?_label {mode : AngleMode} {b : Button} (h : b ∈ all mode) :
    find? mode b.label = some b := by
  rw [find?]
  cases hfind : (all mode).find? fun c => c.label == b.label with
  | none => simpa using List.find?_eq_none.mp hfind b h
  | some c =>
    have hlabel : c.label = b.label := by simpa using List.find?_some hfind
    have hc : c ∈ all mode := List.mem_of_find?_eq_some hfind
    rw [List.inj_on_of_nodup_map (nodup_labels mode) hc h hlabel]

/-- The key that a button's effect presses. -/
def Effect.key? : Effect → Option Key
  | press k | pressAndFocus k => some k
  | toggleWorking => none

namespace Window

/-- The key that an action presses, and the session it is pressed on. A button and
the enter key act on what was drawn. -/
def press? (clamp : Number → Number) (w : Window) : Action → Option (Session × Key)
  | .press k => some (w.session, k)
  | .click label =>
    (Button.find? w.session.context.mode label).bind fun b =>
      b.effect.key?.map fun k => ((w.draw clamp).session, k)
  | .enterKey => some ((w.draw clamp).session, .equals)
  | .escapeKey => some (w.session, .clear)
  | _ => none

/-- What the actions of a run give, each with the window it meets. -/
def collect {α : Type} (clamp : Number → Number) (give? : Window → Action → Option α)
    (w : Window) : List Action → List α
  | [] => []
  | action :: actions =>
    (give? w action).toList ++ collect clamp give? (w.perform clamp action) actions

variable {clamp : Number → Number}

@[simp] theorem collect_nil {α : Type} (give? : Window → Action → Option α) (w : Window) :
    w.collect clamp give? [] = [] := rfl

@[simp] theorem collect_cons {α : Type} (give? : Window → Action → Option α) (w : Window)
    (action : Action) (actions : List Action) :
    w.collect clamp give? (action :: actions) =
      (give? w action).toList ++ (w.perform clamp action).collect clamp give? actions := rfl

@[simp] theorem run_nil (w : Window) : w.run clamp [] = w := rfl

@[simp] theorem run_cons (w : Window) (action : Action) (actions : List Action) :
    w.run clamp (action :: actions) = (w.perform clamp action).run clamp actions := rfl

theorem run_append (w : Window) (before after : List Action) :
    w.run clamp (before ++ after) = (w.run clamp before).run clamp after := List.foldl_append

variable {w : Window} {action : Action} {s : Session} {k : Key} {label : String}

/-! ### One action -/

/-- The key is pressed on the window's session, drawn or not. -/
theorem session_of_press? (h : w.press? clamp action = some (s, k)) :
    s = w.session ∨ s = (w.draw clamp).session := by
  cases action with
  | press | escapeKey =>
    simp only [press?, Option.some.injEq, Prod.mk.injEq] at h
    exact .inl h.1.symm
  | enterKey =>
    simp only [press?, Option.some.injEq, Prod.mk.injEq] at h
    exact .inr h.1.symm
  | click label =>
    obtain ⟨b, -, hkey⟩ := Option.bind_eq_some_iff.mp h
    obtain ⟨k', -, hpair⟩ := Option.map_eq_some_iff.mp hkey
    exact .inr (congrArg Prod.fst hpair).symm
  | _ => simp [press?] at h

/-- A drawing writes neither the entry, the memory nor the history. -/
theorem same_of_press? (h : w.press? clamp action = some (s, k)) :
    s.entry = w.session.entry ∧ s.memory = w.session.memory ∧ s.history = w.session.history := by
  rcases session_of_press? h with rfl | rfl <;> exact ⟨rfl, rfl, rfl⟩

/-- **An action does what its key does.** A drawing after the key may bring the
variables into their range, and the focus moves. -/
theorem exists_perform_of_press? (h : w.press? clamp action = some (s, k)) :
    ∃ context focus, (w.perform clamp action).session = { s.press k with context, focus } := by
  cases action with
  | press | enterKey | escapeKey =>
    simp only [press?, Option.some.injEq, Prod.mk.injEq] at h
    obtain ⟨rfl, rfl⟩ := h
    rw [perform]
    generalize Session.press _ _ = pressed
    exact ⟨_, _, rfl⟩
  | click label =>
    obtain ⟨⟨label', effect⟩, hbutton, hkey⟩ := Option.bind_eq_some_iff.mp h
    obtain ⟨k', hkey', hpair⟩ := Option.map_eq_some_iff.mp hkey
    simp only [Prod.mk.injEq] at hpair
    obtain ⟨rfl, rfl⟩ := hpair
    rw [perform, click?, hbutton]
    cases effect with
    | press | pressAndFocus =>
      obtain rfl := Option.some.inj hkey'
      simp only [Option.map_some, Option.getD_some, apply]
      generalize Session.press _ _ = pressed
      exact ⟨_, _, rfl⟩
    | toggleWorking => simp [Effect.key?] at hkey'
  | _ => simp [press?] at h

/-- A click on a button is a drawing and then the button's effect. -/
theorem perform_click {b : Button} (h : b ∈ Button.all w.session.context.mode) :
    w.perform clamp (.click b.label) = (w.draw clamp).apply b.effect := by
  rw [perform, click?, Button.find?_label h]
  rfl

/-- A click that presses no key is a drawing, as far as the session is concerned. -/
theorem perform_click_of_press?_eq_none (h : w.press? clamp (.click label) = none) :
    (w.perform clamp (.click label)).session = (w.draw clamp).session := by
  rw [perform, click?]
  cases hbutton : Button.find? w.session.context.mode label with
  | none => rfl
  | some b =>
    obtain ⟨label', effect⟩ := b
    cases effect with
    | toggleWorking => rfl
    | press | pressAndFocus => simp [press?, hbutton, Effect.key?] at h

/-- Only a save writes the store. -/
theorem store_perform (h : action ≠ .keep) : (w.perform clamp action).store = w.store := by
  cases action with
  | keep => exact absurd rfl h
  | click label =>
    rw [perform, click?]
    cases Button.find? w.session.context.mode label with
    | none => rfl
    | some b =>
      obtain ⟨label', effect⟩ := b
      cases effect <;> rfl
  | enterKey => rw [perform, draw]
  | _ => rfl

theorem store_run : ∀ {actions : List Action} {w : Window}, .keep ∉ actions →
    (w.run clamp actions).store = w.store
  | [], _, _ => rfl
  | action :: actions, w, h => by
    simp only [List.mem_cons, not_or] at h
    rw [run_cons, store_run h.2, store_perform (Ne.symm h.1)]

end Window
end Calculator
