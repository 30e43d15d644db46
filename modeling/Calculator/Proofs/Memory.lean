/-
# The memory adds up what its keys were given

A memory key that succeeds adds the value of the entry to the memory, times 1, or
subtracts it, which is to add it times -1 (`Number.add_neg_one_mul`); and the clearing
key starts the memory over. So the memory is the fold of these changes, in their order
(`Window.memory_run`), and it stays finite, since a change that would take it out of
range is not made (`Window.hasFiniteMemory_run`). The sum is known only after the
working has been written; a key that fails empties it again, with the entry, and leaves
the rest of the session as it was (`Session.press_of_fails`).

Key definitions: `MemoryChange`, `Session.memoryChange?`, `Session.Fails`,
`Window.HasFiniteMemory`.
Key theorems: `Session.memoryChange?_eq_none_iff_fails`, `Session.memory_press`,
`Session.press_of_fails`, `Window.memory_run`, `Window.hasFiniteMemory_run`,
`Window.memory_adds_up_and_failures_atomic`.
-/
import Calculator.Proofs.Entry
import Calculator.Proofs.Presses
import Calculator.Proofs.Product

namespace Calculator

/-- A change of the memory: it starts over from an amount, or a value is added or
subtracted. -/
inductive MemoryChange where
  | start (amount : Number)
  | add (v : Number)
  | subtract (v : Number)
deriving DecidableEq

/-- The memory after a change. -/
def MemoryChange.apply (memory : Number) : MemoryChange → Number
  | start amount => amount
  | add v => memory + v
  | subtract v => memory - v

namespace Session

/-- The change by the value of the entry, if there is a value and the change leaves
the memory finite. -/
def posting? (s : Session) (change : Number → MemoryChange) : Option MemoryChange :=
  match evaluate s.context s.entry with
  | .ok v => if ((change v).apply s.memory).IsFinite then some (change v) else none
  | .error _ => none

/-- The change that a key makes to the memory. -/
def memoryChange? (s : Session) : Key → Option MemoryChange
  | .memoryClear => some (.start 0)
  | .memoryAdd => s.posting? .add
  | .memorySubtract => s.posting? .subtract
  | _ => none

/-- How a key fails: the entry has no value, or a memory key takes the memory out
of range. The equals key leaves a blank entry alone. -/
inductive Fails (s : Session) : Key → CalcError → Prop where
  | equals {e : CalcError} (nonblank : trimmed s.entry ≠ "")
      (value : evaluate s.context s.entry = .error e) : Fails s .equals e
  | addNothing {e : CalcError} (value : evaluate s.context s.entry = .error e) :
      Fails s .memoryAdd e
  | addTooMuch {v : Number} (value : evaluate s.context s.entry = .ok v)
      (sum : ¬ (s.memory + v).IsFinite) : Fails s .memoryAdd (.evaluation .notFinite)
  | subtractNothing {e : CalcError} (value : evaluate s.context s.entry = .error e) :
      Fails s .memorySubtract e
  | subtractTooMuch {v : Number} (value : evaluate s.context s.entry = .ok v)
      (sum : ¬ (s.memory - v).IsFinite) : Fails s .memorySubtract (.evaluation .notFinite)

variable {s : Session} {k : Key} {change : MemoryChange} {e : CalcError}

/-! ### One key -/

theorem isFinite_zero : Number.IsFinite 0 := by decide +kernel

/-- A change that is made leaves the memory finite. -/
theorem isFinite_of_posting? {toChange : Number → MemoryChange}
    (h : s.posting? toChange = some change) : (change.apply s.memory).IsFinite := by
  unfold posting? at h
  split at h
  · obtain ⟨hfinite, hchange⟩ := Option.ite_none_right_eq_some.mp h
    exact Option.some.inj hchange ▸ hfinite
  · cases h

theorem isFinite_of_memoryChange? (h : s.memoryChange? k = some change) :
    (change.apply s.memory).IsFinite := by
  cases k with
  | memoryClear =>
    obtain rfl := Option.some.inj h
    exact isFinite_zero
  | memoryAdd | memorySubtract => exact isFinite_of_posting? h
  | _ => simp [memoryChange?] at h

theorem posting?_eq_none_iff {toChange : Number → MemoryChange} :
    s.posting? toChange = none ↔ (∃ e, evaluate s.context s.entry = .error e) ∨
      ∃ v, evaluate s.context s.entry = .ok v ∧ ¬ ((toChange v).apply s.memory).IsFinite := by
  unfold posting?
  cases evaluate s.context s.entry with
  | error e => simp
  | ok v => simp

/-- **A memory key fails exactly if it makes no change.** -/
theorem memoryChange?_eq_none_iff_fails (hk : k ∈ [Key.memoryAdd, .memorySubtract]) :
    s.memoryChange? k = none ↔ ∃ e, s.Fails k e := by
  simp only [List.mem_cons, List.not_mem_nil, or_false] at hk
  rcases hk with rfl | rfl
  · rw [memoryChange?, posting?_eq_none_iff]
    constructor
    · rintro (⟨e, hvalue⟩ | ⟨v, hvalue, hsum⟩)
      · exact ⟨e, .addNothing hvalue⟩
      · exact ⟨_, .addTooMuch hvalue hsum⟩
    · rintro ⟨e, hfails⟩
      cases hfails with
      | addNothing hvalue => exact .inl ⟨e, hvalue⟩
      | addTooMuch hvalue hsum => exact .inr ⟨_, hvalue, hsum⟩
  · rw [memoryChange?, posting?_eq_none_iff]
    constructor
    · rintro (⟨e, hvalue⟩ | ⟨v, hvalue, hsum⟩)
      · exact ⟨e, .subtractNothing hvalue⟩
      · exact ⟨_, .subtractTooMuch hvalue hsum⟩
    · rintro ⟨e, hfails⟩
      cases hfails with
      | subtractNothing hvalue => exact .inl ⟨e, hvalue⟩
      | subtractTooMuch hvalue hsum => exact .inr ⟨_, hvalue, hsum⟩

theorem memoryChange?_eq_none (h : k ∉ [Key.memoryClear, .memoryAdd, .memorySubtract]) :
    s.memoryChange? k = none := by
  cases k with
  | memoryClear | memoryAdd | memorySubtract => simp at h
  | _ => rfl

/-- The working is written before the sum is known, but it is no part of the
memory. -/
theorem memory_accumulate_eq_foldl {sign : Number} {toChange : Number → MemoryChange}
    (hsign : ∀ v, (toChange v).apply s.memory = s.memory + sign * v) :
    (s.accumulate sign).memory =
      (s.posting? toChange).toList.foldl MemoryChange.apply s.memory := by
  unfold posting?
  rcases accumulate_cases sign s with ⟨e, hvalue, h⟩ | ⟨v, w, hvalue, hsum, h⟩ |
    ⟨v, w, hvalue, hsum, h⟩
  · rw [h, evaluate_eq_error_iff.mpr hvalue]
    rfl
  · rw [h, evaluate_eq_ok_iff.mpr ⟨w, hvalue⟩]
    simp [hsign, hsum, showError]
  · rw [h, evaluate_eq_ok_iff.mpr ⟨w, hvalue⟩]
    simp [hsign, hsum, showResult]

theorem memory_evaluateEntry (s : Session) : s.evaluateEntry.memory = s.memory := by
  rcases evaluateEntry_cases s with ⟨-, h⟩ | ⟨e, -, h⟩ | ⟨v, w, -, h⟩
  · rw [h]
  · rw [h, showError, record]
  · rw [h, showResult, record]

/-- **A key changes the memory by its change.** -/
theorem memory_press (s : Session) (k : Key) :
    (s.press k).memory = (s.memoryChange? k).toList.foldl MemoryChange.apply s.memory := by
  cases k with
  | equals => exact memory_evaluateEntry s
  | memoryAdd =>
    rw [press_memoryAdd, memoryChange?]
    exact memory_accumulate_eq_foldl fun v => by rw [MemoryChange.apply, Number.one_mul]
  | memorySubtract =>
    rw [press_memorySubtract, memoryChange?]
    exact memory_accumulate_eq_foldl fun v => by rw [MemoryChange.apply, Number.add_neg_one_mul]
  | memoryClear => rfl
  | _ =>
    simp [press, recallMemory, insert, toggleAngleMode, clearEntry, clearAll, erase, memoryChange?]

/-- **A failure is atomic.** Whatever the key has done before it fails, the session
differs only in its entry and the three texts, and for the equals key in the line
that tells of the failure. -/
theorem press_of_fails (h : s.Fails k e) :
    s.press k = { s with
      entry := "", display := "Erreur", message := e.message, working := {}, focus := true,
      history :=
        if k = .equals then
          (if s.history.length = 5 then s.history.tail else s.history) ++
            [⟨trimmed s.entry, "Erreur"⟩]
        else s.history } := by
  cases h with
  | equals hne hvalue =>
    rw [press, evaluateEntry_of_error hne (evaluate_eq_error_iff.mp hvalue), if_pos rfl]
    rfl
  | addNothing hvalue | subtractNothing hvalue =>
    rw [press, accumulate_of_error (evaluate_eq_error_iff.mp hvalue)]
    simp [showError, failureText]
  | addTooMuch hvalue hsum =>
    obtain ⟨w, hw⟩ := evaluate_eq_ok_iff.mp hvalue
    rw [press, accumulate_of_ok hw, Number.one_mul, if_neg hsum]
    simp [showError, failureText]
  | subtractTooMuch hvalue hsum =>
    obtain ⟨w, hw⟩ := evaluate_eq_ok_iff.mp hvalue
    rw [press, accumulate_of_ok hw, Number.add_neg_one_mul, if_neg hsum]
    simp [showError, failureText]

end Session

namespace Window

/-- The change that an action makes to the memory. A restart takes the memory of
the save. -/
def memoryChange? (clamp : Number → Number) (w : Window) : Action → Option MemoryChange
  | .setMemory v => some (.start v)
  | .relaunch => some (.start (startSession w.store).memory)
  | .relaunchEmpty => some (.start 0)
  | action => (w.press? clamp action).bind fun (s, k) => s.memoryChange? k

/-- The memory is finite, and so is the one in the store. -/
structure HasFiniteMemory (w : Window) : Prop where
  session : w.session.memory.IsFinite
  store : ∀ d, w.store = some d → d.memory.IsFinite

variable {clamp : Number → Number} {w : Window} {action : Action}

/-! ### One action -/

/-- An action that presses a key changes the memory as the key does. -/
theorem memory_perform_of_press? {s : Session} {k : Key} (h : w.press? clamp action = some (s, k)) :
    (w.perform clamp action).session.memory =
      (s.memoryChange? k).toList.foldl MemoryChange.apply w.session.memory := by
  obtain ⟨context, focus, hperform⟩ := exists_perform_of_press? h
  rw [hperform, ← (same_of_press? h).2.1]
  exact Session.memory_press s k

theorem memory_restore (d : Save) : (Session.restore d).memory = d.memory := by
  rw [Session.restore_eq]

/-- Apart from restarts and direct writes, only keys change the memory. -/
theorem memoryChange?_eq_bind (hset : ∀ v, action ≠ .setMemory v)
    (hrestart : action ≠ .relaunch ∧ action ≠ .relaunchEmpty) :
    w.memoryChange? clamp action =
      (w.press? clamp action).bind fun (s, k) => s.memoryChange? k := by
  unfold memoryChange?
  split
  · exact absurd rfl (hset _)
  · exact absurd rfl hrestart.1
  · exact absurd rfl hrestart.2
  · rfl

theorem memory_perform_of_press?_eq_none (hset : ∀ v, action ≠ .setMemory v)
    (hrestart : action ≠ .relaunch ∧ action ≠ .relaunchEmpty) (h : w.press? clamp action = none) :
    (w.perform clamp action).session.memory = w.session.memory := by
  cases action with
  | setMemory v => exact absurd rfl (hset v)
  | relaunch => exact absurd rfl hrestart.1
  | relaunchEmpty => exact absurd rfl hrestart.2
  | click label => rw [perform_click_of_press?_eq_none h, draw]
  | roundTrip => exact memory_restore _
  | press | enterKey | escapeKey => simp [press?] at h
  | _ => rfl

/-- **An action changes the memory by its change.** -/
theorem memory_perform (w : Window) (action : Action) :
    (w.perform clamp action).session.memory =
      (w.memoryChange? clamp action).toList.foldl MemoryChange.apply w.session.memory := by
  by_cases hset : ∃ v, action = .setMemory v
  · obtain ⟨v, rfl⟩ := hset
    rfl
  by_cases hrestart : action = .relaunch ∨ action = .relaunchEmpty
  · rcases hrestart with rfl | rfl <;> rfl
  rw [not_exists] at hset
  rw [not_or] at hrestart
  rw [memoryChange?_eq_bind hset hrestart]
  cases hpress : w.press? clamp action with
  | none => exact memory_perform_of_press?_eq_none hset hrestart hpress
  | some pressed => exact memory_perform_of_press? hpress

theorem isFinite_memory_startSession {save : Option Save}
    (h : ∀ d, save = some d → d.memory.IsFinite) : (startSession save).memory.IsFinite := by
  cases save with
  | none => exact Session.isFinite_zero
  | some d =>
    rw [startSession, memory_restore]
    exact h d rfl

/-- A change that an action makes leaves the memory finite, unless it is written
directly. -/
theorem isFinite_of_memoryChange? {change : MemoryChange} (hw : w.HasFiniteMemory)
    (h : w.memoryChange? clamp action = some change)
    (hset : ∀ v, action = .setMemory v → v.IsFinite) :
    (change.apply w.session.memory).IsFinite := by
  unfold memoryChange? at h
  split at h
  · obtain rfl := Option.some.inj h
    exact hset _ rfl
  · obtain rfl := Option.some.inj h
    exact isFinite_memory_startSession hw.store
  · obtain rfl := Option.some.inj h
    exact Session.isFinite_zero
  · obtain ⟨⟨s, k⟩, hpress, hchange⟩ := Option.bind_eq_some_iff.mp h
    rw [← (same_of_press? hpress).2.1]
    exact Session.isFinite_of_memoryChange? hchange

/-- **Each action keeps the memory finite.** -/
theorem hasFiniteMemory_perform (hw : w.HasFiniteMemory)
    (hset : ∀ v, action = .setMemory v → v.IsFinite) :
    (w.perform clamp action).HasFiniteMemory := by
  refine ⟨?_, fun d hd => ?_⟩
  · rw [memory_perform]
    cases hchange : w.memoryChange? clamp action with
    | none => exact hw.session
    | some change => exact isFinite_of_memoryChange? hw hchange hset
  · by_cases hkeep : action = .keep
    · subst hkeep
      obtain rfl := Option.some.inj hd
      exact hw.session
    · rw [store_perform hkeep] at hd
      exact hw.store d hd

/-! ### A run -/

theorem hasFiniteMemory_run : ∀ {actions : List Action} {w : Window}, w.HasFiniteMemory →
    (∀ v, .setMemory v ∈ actions → v.IsFinite) → (w.run clamp actions).HasFiniteMemory
  | [], _, hw, _ => hw
  | action :: actions, w, hw, hset => by
    rw [run_cons]
    refine hasFiniteMemory_run (hasFiniteMemory_perform hw fun v hv => ?_) fun v hv => ?_
    · exact hset v (hv ▸ List.mem_cons_self)
    · exact hset v (List.mem_cons_of_mem action hv)

/-- **The memory is the fold of the changes.** -/
theorem memory_run : ∀ (actions : List Action) (w : Window), (w.run clamp actions).session.memory =
    (w.collect clamp (memoryChange? clamp) actions).foldl MemoryChange.apply w.session.memory
  | [], _ => rfl
  | action :: actions, w => by
    rw [run_cons, memory_run actions, memory_perform, collect_cons, List.foldl_append]

/-- Only the three memory keys change the memory, a restart and a direct write
apart. -/
theorem memory_perform_of_not_memoryKey (hset : ∀ v, action ≠ .setMemory v)
    (hrestart : action ≠ .relaunch ∧ action ≠ .relaunchEmpty)
    (hkey : ∀ s k, w.press? clamp action = some (s, k) →
      k ∉ [Key.memoryClear, .memoryAdd, .memorySubtract]) :
    (w.perform clamp action).session.memory = w.session.memory := by
  have hnone : w.memoryChange? clamp action = none := by
    rw [memoryChange?_eq_bind hset hrestart]
    exact Option.bind_eq_none_iff.mpr fun ⟨s, k⟩ hpress =>
      Session.memoryChange?_eq_none (hkey s k hpress)
  rw [memory_perform, hnone]
  rfl

/-- **The memory adds up, and a failure is atomic.** In any run, whatever is typed
and whatever the mode and the variables are, the memory is the fold, in order, of
the values that the memory keys added and subtracted, over again from 0 at each
clearing and from the saved memory at each restart; and if it is finite at first,
and in the store, it stays finite, unless it is written directly. A memory key that
adds or subtracts nothing has failed. A key that fails leaves the memory, the mode
and the variables as they were, empties the entry and the working and shows the
failure; the equals key adds one line to the history, and the oldest goes if there
were five, the memory keys add none. No other action changes the memory. -/
theorem memory_adds_up_and_failures_atomic (clamp : Number → Number) :
    (∀ (w : Window) (actions : List Action),
      (w.run clamp actions).session.memory =
          (w.collect clamp (memoryChange? clamp) actions).foldl MemoryChange.apply
            w.session.memory ∧
        (w.HasFiniteMemory → (∀ v, .setMemory v ∉ actions) →
          (w.run clamp actions).session.memory.IsFinite)) ∧
    (∀ (s : Session), ∀ k ∈ [Key.memoryAdd, .memorySubtract],
      s.memoryChange? k = none ↔ ∃ e, s.Fails k e) ∧
    (∀ (s : Session) (k : Key) (e : CalcError), s.Fails k e →
      s.press k = { s with
        entry := "", display := "Erreur", message := e.message, working := {}, focus := true,
        history :=
          if k = .equals then
            (if s.history.length = 5 then s.history.tail else s.history) ++
              [⟨trimmed s.entry, "Erreur"⟩]
          else s.history }) ∧
    ∀ (w : Window) (action : Action), (∀ v, action ≠ .setMemory v) →
      action ≠ .relaunch ∧ action ≠ .relaunchEmpty →
      (∀ s k, w.press? clamp action = some (s, k) →
        k ∉ [Key.memoryClear, .memoryAdd, .memorySubtract]) →
      (w.perform clamp action).session.memory = w.session.memory := by
  refine ⟨fun w actions => ⟨memory_run actions w, fun hw hset => ?_⟩,
    fun s k hk => Session.memoryChange?_eq_none_iff_fails hk, fun s k e h => ?_, ?_⟩
  · exact (hasFiniteMemory_run hw fun v hv => absurd hv (hset v)).session
  · exact Session.press_of_fails h
  · exact fun w action hset hrestart hkey => memory_perform_of_not_memoryKey hset hrestart hkey

/-- A run with a clearing and a failure in it; a sum that is out of range; a division
by zero, whose line takes the place of the oldest; and a drawing, which presses no
key. -/
theorem memory_adds_up_after_clearing :
    let w : Window := {}
    let actions : List Action := [.typeEntry "2*5", .press .memoryAdd, .click "MC",
      .typeEntry "7", .click "M+", .typeEntry "1/0", .press .memoryAdd, .typeEntry "3", .click "M-"]
    let full : Session := { entry := "x", context := { x := 1e308 }, memory := 1e308 }
    let kept : List HistoryLine := [⟨"2", "2"⟩, ⟨"3", "3"⟩, ⟨"4", "4"⟩, ⟨"5", "5"⟩]
    let divided : Session := { entry := " 1/0 ", memory := 7, history := ⟨"1", "1"⟩ :: kept }
    w.collect id (memoryChange? id) actions = [.add 10, .start 0, .add 7, .subtract 3] ∧
      (w.run id actions).session.memory = 0 + 7 - 3 ∧
      (w.run id actions).session.memory.IsFinite ∧
      full.Fails .memoryAdd (.evaluation .notFinite) ∧
      (full.press .memoryAdd).memory = full.memory ∧ (full.press .memoryAdd).entry = "" ∧
      divided.Fails .equals (.evaluation .divisionByZero) ∧
      divided.press .equals = { divided with
        entry := "", display := "Erreur", focus := true,
        message := (CalcError.evaluation .divisionByZero).message,
        history := kept ++ [⟨"1/0", "Erreur"⟩] } ∧
      (w.perform id .draw).session.memory = 0 := by
  intro w actions full kept divided
  obtain ⟨hrun, -, hfails, hother⟩ := memory_adds_up_and_failures_atomic id
  have hcollect : w.collect id (memoryChange? id) actions =
      [.add 10, .start 0, .add 7, .subtract 3] := by
    decide +kernel
  have hfinite : w.HasFiniteMemory := ⟨Session.isFinite_zero, nofun⟩
  have hfull : full.Fails .memoryAdd (.evaluation .notFinite) :=
    .addTooMuch (v := 1e308) (by decide +kernel) (by decide +kernel)
  have hdivided : divided.Fails .equals (.evaluation .divisionByZero) :=
    .equals (by decide +kernel) (by decide +kernel)
  have htrimmed : trimmed divided.entry = "1/0" := by decide +kernel
  obtain ⟨hmemory, hstays⟩ := hrun w actions
  have hpress := hfails full .memoryAdd _ hfull
  have hequals := hfails divided .equals _ hdivided
  refine ⟨hcollect, ?_, hstays hfinite (by simp [actions]), hfull, ?_, ?_, hdivided, ?_, ?_⟩
  · rw [hmemory, hcollect]
    rfl
  · rw [hpress]
  · rw [hpress]
  · rw [hequals, htrimmed]
    rfl
  · exact hother w .draw nofun ⟨nofun, nofun⟩ nofun

end Window
end Calculator
