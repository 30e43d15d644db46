/-
# A result is typed on

A result goes into the entry as its text, in positional notation with the kept
decimals at most (`isPositional_text`). Calculating that entry gives the result
again, so a session that shows a result is settled: the equals key may be pressed
any number of times (`Settled.iterate_equals`), and whether it is pressed before a
memory key makes no difference to the memory or the display.

Key definitions: `IsPositional`, `Session.Settled`.
Key theorems: `isPositional_text`, `calculate_text_of_calculate`,
`Session.settled_press_equals`, `Session.settled_and_same_memory`.
-/
import Calculator.Proofs.Entry
import Calculator.Proofs.Places

namespace Calculator

/-! ### The text of a result -/

/-- Digits, perhaps with a minus sign before them and with a point and more digits
after them, no more than `places`. -/
def IsPositional (places : Nat) (cs : List Char) : Prop :=
  ∃ n : Numeral, (cs = n.text ∨ cs = '-' :: n.text) ∧ n.whole ≠ [] ∧
    ∀ ds, n.fraction = some ds → ds ≠ [] ∧ ds.length ≤ places

theorem isPositional_text {v : Number} (h : v.IsFinite) (hround : v.rounded = v) :
    IsPositional Number.keptPlaces v.text.toList := by
  have hrank : Number.roundedRank v.rank = v.rank := by
    rw [← Number.rank_rounded h, hround]
  refine ⟨v.magnitude, ?_, Decimal.whole_toNumeral_ne_nil _, fun ds hds => ?_⟩
  · rw [Number.toList_text h]
    split
    · exact .inr rfl
    · exact .inl rfl
  · rw [Number.magnitude, Decimal.fraction_toNumeral] at hds
    split at hds
    · cases hds
    · rename_i hne
      cases hds
      exact ⟨hne, Decimal.length_fraction_shortest_le hrank⟩

/-- **A value's text has this value.** The text of a value is a text whose value is
the same, in every mode and with any variables. -/
theorem calculate_text_of_calculate {ctx : Context} {s : String} {v : Number} {w : Working}
    (h : calculate ctx s = .ok (v, w)) (other : Context) :
    ∃ w', calculate other v.text = .ok (v, w') := by
  obtain ⟨u, hu, rfl⟩ := exists_rounded_of_calculate h
  obtain ⟨w', hw'⟩ := calculate_text other (Number.isFinite_rounded hu)
  rw [Number.rounded_rounded] at hw'
  exact ⟨w', hw'⟩

theorem exists_rounded_of_evaluate {ctx : Context} {s : String} {v : Number}
    (h : evaluate ctx s = .ok v) : ∃ u : Number, u.IsFinite ∧ u.rounded = v := by
  obtain ⟨w, hw⟩ := evaluate_eq_ok_iff.mp h
  exact exists_rounded_of_calculate hw

namespace Session

variable {s : Session} {v : Number}

/-! ### Pressing the equals key -/

/-- The result stands in the entry and on the display, with no error, and the entry
has it as its value. -/
structure Settled (s : Session) (v : Number) : Prop where
  entry : s.entry = v.text
  display : s.display = v.text
  message : s.message = ""
  value : s.calculateEntry.1 = .ok v

/-- **After the equals key the result may be calculated again.** -/
theorem settled_press_equals (h : s.calculateEntry.1 = .ok v) : (s.press .equals).Settled v := by
  obtain ⟨w, hw⟩ := calculateEntry_fst_eq_ok_iff.mp h
  have hpress : s.press .equals = _ := evaluateEntry_of_ok hw
  obtain ⟨w', hw'⟩ := calculate_text_of_calculate hw s.context
  rw [hpress]
  exact ⟨rfl, rfl, rfl, calculateEntry_fst_eq_ok_iff.mpr ⟨w', hw'⟩⟩

/-- However often the key is pressed, the result stays. -/
theorem Settled.iterate_equals : ∀ {s : Session} (k : Nat), s.Settled v →
    ((press · .equals)^[k] s).Settled v
  | _, 0, h => h
  | _, k + 1, h => iterate_equals k (settled_press_equals h.value)

/-! ### The memory keys -/

/-- What a memory key leaves is a matter of the value, the memory and the sum. -/
theorem memory_accumulate (h : s.calculateEntry.1 = .ok v) (sign : Number) :
    (s.accumulate sign).memory =
        (if (s.memory + sign * v).IsFinite then s.memory + sign * v else s.memory) ∧
      (s.accumulate sign).display =
        if (s.memory + sign * v).IsFinite then v.text else failureText := by
  obtain ⟨w, hw⟩ := calculateEntry_fst_eq_ok_iff.mp h
  rw [accumulate_of_ok hw]
  split <;> exact ⟨rfl, rfl⟩

theorem memory_press_equals (h : s.calculateEntry.1 = .ok v) :
    (s.press .equals).memory = s.memory := by
  obtain ⟨w, hw⟩ := calculateEntry_fst_eq_ok_iff.mp h
  have hpress : s.press .equals = _ := evaluateEntry_of_ok hw
  rw [hpress]
  rfl

/-- The equals key before a memory key changes neither the memory nor the display. -/
theorem accumulate_press_equals (h : s.calculateEntry.1 = .ok v) (sign : Number) :
    ((s.press .equals).accumulate sign).memory = (s.accumulate sign).memory ∧
      ((s.press .equals).accumulate sign).display = (s.accumulate sign).display := by
  obtain ⟨hmemory, hdisplay⟩ := memory_accumulate h sign
  obtain ⟨hmemory', hdisplay'⟩ := memory_accumulate (settled_press_equals h).value sign
  rw [memory_press_equals h] at hmemory' hdisplay'
  exact ⟨hmemory'.trans hmemory.symm, hdisplay'.trans hdisplay.symm⟩

/-- **Results can be typed back.** If the entry has a value, the equals key puts its
text into the entry and on the display, a numeral in positional notation with the
kept decimals at most. Pressed again any number of times, it succeeds with the
same value and changes neither text. Pressed before a memory key, it makes no
difference to the memory and the display. -/
theorem settled_and_same_memory (h : s.calculateEntry.1 = .ok v) :
    (s.press .equals).entry = v.text ∧ (s.press .equals).display = v.text ∧
      IsPositional Number.keptPlaces v.text.toList ∧
      (∀ k, ((press · .equals)^[k] (s.press .equals)).Settled v) ∧
      ∀ key ∈ [Key.memoryAdd, Key.memorySubtract],
        ((s.press .equals).press key).memory = (s.press key).memory ∧
          ((s.press .equals).press key).display = (s.press key).display := by
  have hsettled := settled_press_equals h
  obtain ⟨w, hw⟩ := calculateEntry_fst_eq_ok_iff.mp h
  obtain ⟨u, hu, hv⟩ := exists_rounded_of_calculate hw
  have hpositional : IsPositional Number.keptPlaces v.text.toList := by
    rw [← hv]
    exact isPositional_text (Number.isFinite_rounded hu) (Number.rounded_rounded u)
  refine ⟨hsettled.entry, hsettled.display, hpositional, fun k => hsettled.iterate_equals k, ?_⟩
  intro key hkey
  have hcases : key = .memoryAdd ∨ key = .memorySubtract := by simpa using hkey
  rcases hcases with rfl | rfl
  · rw [press_memoryAdd, press_memoryAdd]
    exact accumulate_press_equals h 1
  · rw [press_memorySubtract, press_memorySubtract]
    exact accumulate_press_equals h (-1)

/-- A negative result, which goes into the entry with its sign. -/
theorem settled_and_same_memory_difference :
    let s : Session := { entry := " 0.1 - 0.3 ", memory := 5 }
    s.calculateEntry.1 = .ok (-0.2) ∧ (s.press .equals).entry = Number.text (-0.2) ∧
      ((press · .equals)^[3] (s.press .equals)).Settled (-0.2) ∧
      ((s.press .equals).press .memoryAdd).memory = (s.press .memoryAdd).memory := by
  intro s
  have h : s.calculateEntry.1 = .ok (-0.2) := by decide +kernel
  obtain ⟨hentry, -, -, hsettled, hmemory⟩ := settled_and_same_memory h
  exact ⟨h, hentry, hsettled 3, (hmemory .memoryAdd (by decide)).1⟩

end Session
end Calculator
