/-
# Blank characters

The blank characters are those of the Unicode property White_Space: 25
characters, among them the line breaks, the no-break space and the ideographic
space. Blanks separate the parts of a text and are cut off its ends.

Key definitions: `isBlank`, `trimEnd`, `trim`, `trimmed`.
Key theorems: `trimEnd_append_blank`, `isBlank_getLast_trimEnd`.
-/

namespace Calculator

/-- The ranges of the property White_Space, first and last character inclusive. -/
def blankRanges : List (Nat × Nat) :=
  [(0x09, 0x0D), (0x20, 0x20), (0x85, 0x85), (0xA0, 0xA0), (0x1680, 0x1680), (0x2000, 0x200A),
    (0x2028, 0x2029), (0x202F, 0x202F), (0x205F, 0x205F), (0x3000, 0x3000)]

/-- The property has 25 characters. -/
example : (blankRanges.map fun (low, high) => high - low + 1).sum = 25 := by decide

def isBlank (c : Char) : Bool := blankRanges.any fun (low, high) => low ≤ c.toNat && c.toNat ≤ high

def trimEnd (cs : List Char) : List Char := (cs.reverse.dropWhile isBlank).reverse

def trim (cs : List Char) : List Char := trimEnd (cs.dropWhile isBlank)

def trimmed (s : String) : String := String.ofList (trim s.toList)

/-- What `trimEnd` takes off is blank. -/
theorem trimEnd_append_blank (cs : List Char) :
    trimEnd cs ++ (cs.reverse.takeWhile isBlank).reverse = cs := by
  rw [trimEnd, ← List.reverse_append, List.takeWhile_append_dropWhile, List.reverse_reverse]

/-- Nothing blank is left at the end. -/
theorem isBlank_getLast_trimEnd (cs : List Char) (h : trimEnd cs ≠ []) :
    isBlank ((trimEnd cs).getLast h) = false := by
  have hne : cs.reverse.dropWhile isBlank ≠ [] := by simpa [trimEnd] using h
  have := List.head_dropWhile_not isBlank (l := cs.reverse) hne
  simpa [trimEnd, List.getLast_reverse] using this

end Calculator
