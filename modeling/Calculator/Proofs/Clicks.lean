/-
# Clicking alone

Where nothing is typed but by the buttons, the entry is put together of texts of the
keypad (`Window.isClicked_run`). The other keys write it too: a result is a numeral,
perhaps with a minus sign, and so is the memory that is typed, in parentheses or not.
The memory must be finite for that, `inf` being no text of the keypad, and it is in
every such run. So erasing takes back the last key, and an entry that is not cut into
lexemes has a point without a digit beside it.

Key definitions: `Action.IsClicked`, `Window.IsClicked`.
Key theorems: `Session.onKeypad_press`, `Window.isClicked_perform`,
`Window.isClicked_run`, `Window.entry_on_keypad`.
-/
import Calculator.Proofs.Idempotence
import Calculator.Proofs.Keypad
import Calculator.Proofs.Memory

namespace Calculator

/-- The action types nothing that the keypad does not type, and does not write the
memory directly. -/
def Action.IsClicked : Action → Prop
  | .press (.insert text) => text ∈ keypadTexts
  | .typeEntry _ | .setMemory _ => False
  | _ => True

namespace Session

variable {s : Session} {k : Key}

/-! ### One key -/

/-- A result is typed on the keypad. -/
theorem onKeypad_result {v : Number} {w : Working} (h : calculate s.context s.entry = .ok (v, w)) :
    OnKeypad v.text.toList := by
  obtain ⟨u, hu, rfl⟩ := exists_rounded_of_calculate h
  exact onKeypad_text (Number.isFinite_rounded hu)

theorem onKeypad_evaluateEntry (h : OnKeypad s.entry.toList) :
    OnKeypad s.evaluateEntry.entry.toList := by
  rcases evaluateEntry_cases s with ⟨-, hsame⟩ | ⟨e, -, hfailed⟩ | ⟨v, w, hvalue, hdone⟩
  · rw [hsame]
    exact h
  · rw [hfailed, showError]
    exact .nil
  · rw [hdone, showResult]
    exact onKeypad_result hvalue

theorem onKeypad_accumulate (sign : Number) (s : Session) :
    OnKeypad (s.accumulate sign).entry.toList := by
  rcases accumulate_cases sign s with ⟨e, -, hfailed⟩ | ⟨v, w, -, -, hfailed⟩ |
    ⟨v, w, hvalue, -, hdone⟩
  · rw [hfailed, showError]
    exact .nil
  · rw [hfailed, showError]
    exact .nil
  · rw [hdone, showResult]
    exact onKeypad_result hvalue

/-- The parentheses around a negative memory are keys as well. -/
theorem onKeypad_memoryText (h : s.memory.IsFinite) : OnKeypad s.memoryText.toList := by
  have htext := onKeypad_text h
  have hopen : OnKeypad "(".toList := .of_mem (by decide)
  have hclose : OnKeypad ")".toList := .of_mem (by decide)
  rw [memoryText]
  split
  · rw [String.toList_append, String.toList_append]
    exact (hopen.append htext).append hclose
  · exact htext

theorem onKeypad_insert {text : String} (h : OnKeypad s.entry.toList) (ht : OnKeypad text.toList) :
    OnKeypad (s.insert text).entry.toList := by
  rw [insert, String.toList_append]
  exact h.append ht

theorem entry_erase {texts : List String} (htexts : ∀ t ∈ texts, t ∈ keypadTexts)
    (h : s.entry = String.join texts) : s.erase.entry = String.join texts.dropLast := by
  rw [erase, h, String.toList_join, eraseLast_flatMap htexts, ← String.toList_join,
    String.ofList_toList]

/-- **Each key leaves an entry that the keypad types**, if it has met one and the
memory is finite. -/
theorem onKeypad_press (h : OnKeypad s.entry.toList) (hmemory : s.memory.IsFinite)
    (hk : ∀ text, k = .insert text → text ∈ keypadTexts) : OnKeypad (s.press k).entry.toList := by
  cases k with
  | equals =>
    rw [press]
    exact onKeypad_evaluateEntry h
  | memoryAdd => exact onKeypad_accumulate 1 s
  | memorySubtract => exact onKeypad_accumulate (-1) s
  | memoryRecall => exact onKeypad_insert h (onKeypad_memoryText hmemory)
  | insert text => exact onKeypad_insert h (.of_mem (hk text rfl))
  | clear | clearAll =>
    rw [press]
    exact .nil
  | erase =>
    obtain ⟨texts, htexts, hentry⟩ := onKeypad_toList_iff.mp h
    have hkept : ∀ t ∈ texts.dropLast, t ∈ keypadTexts := fun t ht =>
      htexts t (List.dropLast_sublist texts |>.subset ht)
    exact onKeypad_toList_iff.mpr ⟨_, hkept, entry_erase htexts hentry⟩
  | memoryClear | angleMode =>
    rw [press]
    exact h

end Session

namespace Window

/-- The entry may be typed on the keypad, and so may each memory that is at hand. -/
structure IsClicked (w : Window) : Prop where
  entry : OnKeypad w.session.entry.toList
  memory : w.HasFiniteMemory

variable {clamp : Number → Number} {w : Window} {action : Action}

/-! ### One action -/

/-- Only the buttons of the keypad type a text. -/
theorem text_mem_of_button {mode : AngleMode} {b : Button} {text : String}
    (hb : b ∈ Button.all mode) (hkey : b.effect.key? = some (.insert text)) :
    text ∈ keypadTexts := by
  have hbuttons : ((Button.all mode).all fun b =>
      match b.effect.key? with
      | some (.insert text) => keypadTexts.contains text
      | _ => true) = true := by
    cases mode <;> decide +kernel
  have hbutton := List.all_eq_true.mp hbuttons b hb
  simpa [hkey] using hbutton

/-- What an action types is a text of the keypad. -/
theorem text_mem_of_press? {s : Session} {text : String} (hclick : action.IsClicked)
    (h : w.press? clamp action = some (s, .insert text)) : text ∈ keypadTexts := by
  cases action with
  | press k =>
    simp only [press?, Option.some.injEq, Prod.mk.injEq] at h
    obtain ⟨-, rfl⟩ := h
    exact hclick
  | click label =>
    obtain ⟨b, hbutton, hkey⟩ := Option.bind_eq_some_iff.mp h
    obtain ⟨k, hk, hpair⟩ := Option.map_eq_some_iff.mp hkey
    simp only [Prod.mk.injEq] at hpair
    exact text_mem_of_button (List.mem_of_find?_eq_some hbutton) (hpair.2 ▸ hk)
  | _ => simp [press?] at h

theorem entry_startSession (save : Option Save) : (startSession save).entry = "" := by
  cases save with
  | none => rfl
  | some d => rw [startSession, Session.restore_eq]

/-- **Each action leaves an entry that the keypad types.** -/
theorem isClicked_perform (h : w.IsClicked) (hclick : action.IsClicked) :
    (w.perform clamp action).IsClicked := by
  have hset : ∀ v, action = .setMemory v → v.IsFinite := by
    rintro v rfl
    exact hclick.elim
  refine ⟨?_, hasFiniteMemory_perform h.memory hset⟩
  cases hpress : w.press? clamp action with
  | some pressed =>
    obtain ⟨s, k⟩ := pressed
    obtain ⟨context, focus, hperform⟩ := exists_perform_of_press? hpress
    obtain ⟨hentry, hmemory, -⟩ := same_of_press? hpress
    rw [hperform]
    refine Session.onKeypad_press (hentry ▸ h.entry) (hmemory ▸ h.memory.session) ?_
    rintro text rfl
    exact text_mem_of_press? hclick hpress
  | none =>
    cases action with
    | typeEntry | setMemory => exact hclick.elim
    | click label =>
      rw [perform_click_of_press?_eq_none hpress]
      exact h.entry
    | roundTrip =>
      rw [perform, Session.restore_eq]
      exact .nil
    | relaunch =>
      show OnKeypad (startSession w.store).entry.toList
      rw [entry_startSession]
      exact .nil
    | relaunchEmpty => exact .nil
    | press | enterKey | escapeKey => simp [press?] at hpress
    | _ => exact h.entry

theorem isClicked_run : ∀ {actions : List Action} {w : Window}, w.IsClicked →
    (∀ action ∈ actions, action.IsClicked) → (w.run clamp actions).IsClicked
  | [], _, h, _ => h
  | action :: actions, w, h, hclicks => by
    obtain ⟨hclick, hclicks⟩ := List.forall_mem_cons.mp hclicks
    rw [run_cons]
    exact isClicked_run (isClicked_perform h hclick) hclicks

/-! ### The buttons of the keypad and the erase button -/

theorem entry_click_erase {texts : List String} (htexts : ∀ t ∈ texts, t ∈ keypadTexts)
    (h : w.session.entry = String.join texts) :
    (w.perform clamp (.click "DEL")).session.entry = String.join texts.dropLast := by
  have hbutton : ⟨"DEL", .pressAndFocus .erase⟩ ∈ Button.all w.session.context.mode := by
    simp [Button.all, Button.entry]
  rw [perform_click hbutton]
  exact Session.entry_erase (s := (w.draw clamp).session) htexts h

theorem entry_click_key {label text : String} (h : .key label text ∈ keypad.flatten) :
    (w.perform clamp (.click label)).session.entry = w.session.entry ++ text := by
  have hcell : ⟨label, .press (.insert text)⟩ ∈ keypad.flatten.filterMap Button.ofCell? :=
    List.mem_filterMap.mpr ⟨_, h, rfl⟩
  have hbutton : ⟨label, .press (.insert text)⟩ ∈ Button.all w.session.context.mode := by
    simp only [Button.all, List.mem_append, hcell, or_true, true_or]
  rw [perform_click hbutton]
  rfl

/-- **The erase button takes back a button of the keypad.** -/
theorem entry_click_key_erase (hw : w.IsClicked) {label text : String}
    (h : .key label text ∈ keypad.flatten) :
    ((w.perform clamp (.click label)).perform clamp (.click "DEL")).session.entry =
      w.session.entry := by
  obtain ⟨texts, htexts, hentry⟩ := onKeypad_toList_iff.mp hw.entry
  have htext : text ∈ keypadTexts := List.mem_filterMap.mpr ⟨_, h, rfl⟩
  have hmore : ∀ t ∈ texts ++ [text], t ∈ keypadTexts :=
    List.forall_mem_append.mpr ⟨htexts, List.forall_mem_singleton.mpr htext⟩
  have hclick : (w.perform clamp (.click label)).session.entry = String.join (texts ++ [text]) := by
    rw [entry_click_key h, hentry, String.join_append]
    simp
  rw [entry_click_erase hmore hclick, List.dropLast_concat, hentry]

/-- **By clicks alone only texts of the keypad are typed.** After any actions from a
fresh start, with no free typing among them, the entry is put together of texts of
the keypad. However it is put together, the erase key takes off the last of them; so
a button of the keypad and then the erase button leave the entry as it was. And a
lexical error of a calculation of the entry, in any mode and with any variables, is
at a point. -/
theorem entry_on_keypad (clamp : Number → Number) (store : Option Save)
    (hstore : ∀ d, store = some d → d.memory.IsFinite) (actions : List Action)
    (hclicks : ∀ action ∈ actions, action.IsClicked) :
    let w := run clamp { store } actions
    (∃ texts : List String, (∀ t ∈ texts, t ∈ keypadTexts) ∧
        w.session.entry = String.join texts) ∧
      (∀ texts : List String, (∀ t ∈ texts, t ∈ keypadTexts) →
        w.session.entry = String.join texts →
        (w.session.press .erase).entry = String.join texts.dropLast ∧
          (w.perform clamp (.click "DEL")).session.entry = String.join texts.dropLast) ∧
      (∀ label text : String, .key label text ∈ keypad.flatten →
        ((w.perform clamp (.click label)).perform clamp (.click "DEL")).session.entry =
          w.session.entry) ∧
      ∀ (ctx : Context) (position : Nat) (c : Char),
        calculate ctx w.session.entry = .error (.unexpectedChar position c) → c = '.' := by
  intro w
  have hw : w.IsClicked := isClicked_run ⟨.nil, Session.isFinite_zero, hstore⟩ hclicks
  refine ⟨onKeypad_toList_iff.mp hw.entry, fun texts htexts hentry => ?_,
    fun label text h => entry_click_key_erase hw h,
    fun ctx position c h => eq_point_of_calculate hw.entry h⟩
  exact ⟨Session.entry_erase htexts hentry, entry_click_erase htexts hentry⟩

/-- A negative memory is typed in parentheses, and the point that follows has no
digit. -/
theorem entry_on_keypad_of_lone_point :
    let actions : List Action := [.click "7", .click "M-", .click "MR", .click "+", .click "."]
    let texts := ["7", "(", "-", "7", ")", "+", "."]
    (run id {} actions).session.entry = String.join texts ∧
      ((run id {} actions).perform id (.click "DEL")).session.entry = "7(-7)+" ∧
      (((run id {} actions).perform id (.click "asin")).perform id (.click "DEL")).session.entry =
        "7(-7)+." ∧
      ∃ c, calculate {} (run id {} actions).session.entry = .error (.unexpectedChar 6 c) ∧
        c = '.' := by
  intro actions texts
  have hclicks : ∀ action ∈ actions, action.IsClicked := by
    simp [actions, Action.IsClicked]
  obtain ⟨-, herase, hkey, hlexical⟩ := entry_on_keypad id none nofun actions hclicks
  have hentry : (run id {} actions).session.entry = String.join texts := by decide +kernel
  have herror : calculate {} (run id {} actions).session.entry =
      .error (.unexpectedChar 6 '.') := by
    rw [hentry]
    decide +kernel
  refine ⟨hentry, ?_, ?_, '.', herror, hlexical {} 6 '.' herror⟩
  · rw [(herase texts (by decide +kernel) hentry).2]
    decide
  · rw [hkey "asin" "asin(" (by decide), hentry]
    decide

end Window
end Calculator
