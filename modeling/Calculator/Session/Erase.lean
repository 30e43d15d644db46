/-
# Erasing the end of an entry

The erase key takes one character off the end of an entry, but a function name
with its parenthesis, or `pi`, goes as a whole, since one key put it there. The
blanks at the end go before and after.

Key definitions: `erasable`, `erasedLength`, `eraseLast`.
Key theorems: `isPrefix_eraseLast`, `length_eraseLast_lt`.
-/
import Calculator.Text.Blank

namespace Calculator

/-- The texts that are erased as a whole. One that ends another comes after it,
so the first that ends an entry is the longest. -/
def erasable : List String :=
  ["factorial(", "sqrt(", "asin(", "acos(", "atan(", "log(", "sin(", "cos(", "tan(", "ln(", "pi"]

/-- How many characters the erase key takes off a text. -/
def erasedLength (cs : List Char) : Nat :=
  match erasable.find? fun t => t.toList.isSuffixOf cs with
  | some t => t.toList.length
  | none => 1

/-- The text after the erase key. -/
def eraseLast (cs : List Char) : List Char :=
  trimEnd ((trimEnd cs).take ((trimEnd cs).length - erasedLength (trimEnd cs)))

theorem isPrefix_trimEnd (cs : List Char) : trimEnd cs <+: cs :=
  ⟨_, trimEnd_append_blank cs⟩

/-- What is left is the beginning of the text. -/
theorem isPrefix_eraseLast (cs : List Char) : eraseLast cs <+: cs :=
  (isPrefix_trimEnd _).trans ((List.take_prefix _ _).trans (isPrefix_trimEnd cs))

theorem erasedLength_pos (cs : List Char) : 0 < erasedLength cs := by
  unfold erasedLength
  split
  · rename_i t h
    have hall : ∀ t ∈ erasable, 0 < t.toList.length := by decide
    exact hall t (List.mem_of_find?_eq_some h)
  · decide

/-- Erasing a text that is not empty makes it shorter. -/
theorem length_eraseLast_lt {cs : List Char} (h : cs ≠ []) : (eraseLast cs).length < cs.length := by
  have hpos := erasedLength_pos (trimEnd cs)
  have hlen := List.length_pos_iff.mpr h
  have htrim := (isPrefix_trimEnd cs).length_le
  have hkept := (isPrefix_trimEnd
    ((trimEnd cs).take ((trimEnd cs).length - erasedLength (trimEnd cs)))).length_le
  rw [List.length_take] at hkept
  unfold eraseLast
  omega

end Calculator
