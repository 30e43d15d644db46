/-
# The root sign

The root sign is pure notation. Before an atom, blanks between them or not, it stands
for `sqrt` with the atom in parentheses; before anything else that an expression goes on
with, and at the end, it stands for `sqrt` alone. This is so wherever the sign stands,
since no lexeme before it goes on into a name. The two cases exclude each other: no atom
begins like an operation (`Lexeme.isAtom_of_first?`).

Key definition: `BeginsOperation`.
Key theorems: `Lexeme.toTokens_root_atom`, `Lexeme.toTokens_root`,
`LaidOut.isAtom_head?`, `root_sign_reads_as_sqrt`.
-/
import Calculator.Proofs.Boundary

namespace Calculator

/-! ### What the root sign is before -/

/-- A parenthesis, a root sign, an operator, or a letter that the name of a function
begins with, in any case. -/
def BeginsOperation (c : Char) : Prop :=
  c ∈ ['(', ')', '√'] ∨ (Operator.ofChar? c).isSome = true ∨
    ∃ f ∈ Func.all, f.name.toList.head? = some c.toLower

instance (c : Char) : Decidable (BeginsOperation c) := inferInstanceAs (Decidable (_ ∨ _))

namespace Lexeme

/-- No function's name begins with the letter of a constant or a variable. -/
theorem isAtom_of_find? {name : Name} {f : Func} {c : Char} {cs : List Char}
    (hfind : Name.find? (c :: cs) = some name) (hf : f.name.toList.head? = some c.toLower) :
    (Token.ofName name).isAtom = false := by
  have htable : ∀ n ∈ Name.table, ∀ f ∈ Func.all,
      n.text.toList.head? = f.name.toList.head? → (Token.ofName n).isAtom = false := by decide
  have hall : f ∈ Func.all := by cases f <;> decide
  obtain ⟨rest, hrest⟩ := Name.find?_eq_some_iff.mp hfind
  refine htable name name.mem_table f hall ?_
  cases htext : name.text.toList with
  | nil => exact absurd (congrArg List.length htext) name.length_pos.ne'
  | cons d ds =>
    rw [htext, List.cons_append, List.map_cons] at hrest
    rw [hf, (List.cons.inj hrest).1]
    rfl

/-- **No atom begins like an operation.** -/
theorem isAtom_of_first? {c : Char} {cs : List Char} {l : Lexeme} {n : Nat}
    (hc : BeginsOperation c) (h : first? (c :: cs) = some (l, n)) : l.asToken.isAtom = false := by
  rcases hc with hsign | hop | ⟨f, -, hf⟩
  · simp only [List.mem_cons, List.not_mem_nil, or_false] at hsign
    rcases hsign with rfl | rfl | rfl <;> cases h <;> rfl
  · obtain ⟨o, ho⟩ := Option.isSome_iff_exists.mp hop
    unfold Operator.ofChar? at ho
    split at ho <;> cases ho <;> cases h <;> rfl
  · have hletter : c.toLower.isLower = true :=
      Name.isLower_of_mem_text (n := .func f) (List.mem_of_mem_head? hf)
    rw [first?_of_letter hletter] at h
    obtain ⟨name, hfind, hname⟩ := Option.map_eq_some_iff.mp h
    cases hname
    exact isAtom_of_find? hfind hf

/-! ### Its tokens -/

/-- The function. -/
def sqrt : Lexeme := token (.func .sqrt)

theorem emit_root (left : LeftContext) : root.emit left = sqrt.emit left := by
  rw [emit, sqrt, emit, if_neg]
  exact fun h => Bool.false_ne_true h.2

theorem emit_rootSign {l : Lexeme} (h : l.asToken.isAtom = false) :
    l.emit .rootSign = l.emit .noValue := by
  rcases emit_cases .rootSign l with ⟨-, hatom, -⟩ | ⟨hvalue, -, -⟩ | ⟨-, hemit⟩
  · cases h.symm.trans hatom
  · cases hvalue
  · rw [hemit, emit_noValue]

/-- **Before an atom the root sign is the function with parentheses.** -/
theorem toTokens_root_atom {t : Token} (ht : t.isAtom = true) (left : LeftContext)
    (ls : List Lexeme) : toTokens left (root :: token t :: ls) =
      toTokens left (sqrt :: token .lpar :: token t :: token .rpar :: ls) := by
  have hleft : (token t).toLeft = .value := if_pos (Token.isValue_of_isAtom ht)
  have hwrapped : (token t).emit .rootSign = [.lpar, t, .rpar] := if_pos ⟨rfl, ht⟩
  have hbare : (token t).emit .noValue = [t] := emit_noValue _
  have hcall : toTokens left (sqrt :: token .lpar :: token t :: token .rpar :: ls) =
      sqrt.emit left ++ .lpar :: ((token t).emit .noValue ++
        ((token .rpar).emit (token t).toLeft ++ toTokens .value ls)) := rfl
  have hroot : toTokens left (root :: token t :: ls) =
      root.emit left ++ ((token t).emit .rootSign ++ toTokens (token t).toLeft ls) := rfl
  rw [hcall, hroot, hwrapped, hbare, hleft, emit_root]
  rfl

/-- **Before anything else, and at the end, it is the function alone.** -/
theorem toTokens_root {ls : List Lexeme} (h : ∀ l ∈ ls.head?, l.asToken.isAtom = false)
    (left : LeftContext) : toTokens left (root :: ls) = toTokens left (sqrt :: ls) := by
  have hafter : toTokens .rootSign ls = toTokens .noValue ls := by
    cases ls with
    | nil => rfl
    | cons l ls => rw [toTokens_cons, toTokens_cons, emit_rootSign (h l rfl)]
  have hleft : root.toLeft = .rootSign ∧ sqrt.toLeft = .noValue := ⟨rfl, rfl⟩
  rw [toTokens_cons, toTokens_cons, emit_root, hleft.1, hleft.2, hafter]

end Lexeme

theorem LaidOut.isAtom_head? {cs : List Char} {ls : List Lexeme} (h : LaidOut cs ls)
    (hcs : ∀ c ∈ (cs.dropWhile isBlank).head?, BeginsOperation c) :
    ∀ l ∈ ls.head?, l.asToken.isAtom = false := by
  cases h with
  | blank => exact nofun
  | @lexeme gap cs rest l ls hgap hl h =>
    have hfirst := hl.first?_append
    obtain ⟨c, cs, rfl, hblank⟩ := hl.exists_cons
    rw [List.dropWhile_append_of_pos hgap, List.cons_append, List.dropWhile_cons_of_neg (by simp [hblank])]
      at hcs
    rintro _ ⟨⟩
    exact Lexeme.isAtom_of_first? (hcs c rfl) hfirst

/-! ### Its text -/

/-- **The root sign is pure notation.** After a text that is cut into tokens, a root
sign may be written before an atom, with blanks between them or not, instead of the
function with the atom in parentheses, and before an operation, or at the end, instead
of the function alone: one text has tokens just if the other has, and the same. -/
theorem root_sign_reads_as_sqrt {p : List Char} {us : List Token} (h : tokenize p = .ok us) :
    (∀ (gap a q : List Char) (t : Token), (∀ c ∈ gap, isBlank c = true) → t.isAtom = true →
        (Lexeme.token t).Written a q → ∀ ts,
          tokenize (p ++ '√' :: (gap ++ (a ++ q))) = .ok ts ↔
            tokenize (p ++ ("sqrt(".toList ++ (a ++ ')' :: q))) = .ok ts) ∧
      ∀ q : List Char, (∀ c ∈ (q.dropWhile isBlank).head?, BeginsOperation c) → ∀ ts,
        tokenize (p ++ '√' :: q) = .ok ts ↔ tokenize (p ++ ("sqrt".toList ++ q)) = .ok ts := by
  obtain ⟨ls, -, hls⟩ := exists_laidOutBefore_of_tokenize h
  have hsign : ∀ rest, LaidOutBefore ('√' :: rest) p ls := fun rest => hls _ (by simp)
  have hletter : ∀ rest, LaidOutBefore ('s' :: rest) p ls := fun rest => hls _ (by simp)
  have hroot : ∀ rest, Lexeme.root.Written ['√'] rest := fun _ => .sign rfl
  have hsqrt : ∀ rest, Lexeme.sqrt.Written "sqrt".toList rest := Name.written_text (.func .sqrt)
  constructor
  · intro gap a q t hgap ht hwritten ts
    have hatom : LaidOutBefore q (['√'] ++ (gap ++ a)) [.root, .token t] :=
      .cons_written (hroot _) ((LaidOutBefore.of_written hwritten).append_blanks hgap)
    have hclosed : (Lexeme.token t).Written a ([')'] ++ q) :=
      hwritten.of_head? (.inr ((apart_cons ..).mpr (by decide)))
    have hgroup : LaidOutBefore q (['('] ++ (a ++ [')'])) [.token .lpar, .token t, .token .rpar] :=
      .cons_written (.sign rfl) (.cons_written hclosed (.of_written (.sign rfl)))
    have hcall : LaidOutBefore q ("sqrt".toList ++ (['('] ++ (a ++ [')'])))
        [.sqrt, .token .lpar, .token t, .token .rpar] := .cons_written (hsqrt _) hgroup
    have htokens : ∀ ms, Lexeme.toTokens .noValue (ls ++ [.root, .token t] ++ ms) =
        Lexeme.toTokens .noValue (ls ++ [.sqrt, .token .lpar, .token t, .token .rpar] ++ ms) := by
      intro ms
      rw [List.append_assoc, List.append_assoc]
      exact Lexeme.toTokens_append_congr (Lexeme.toTokens_root_atom ht · ms) ls .noValue
    have hsame := ((hsign _).append hatom).tokenize_congr ((hletter _).append hcall)
      (fun ms _ => htokens ms) ts
    simpa using hsame
  · intro q hq ts
    have htokens : ∀ ms, LaidOut q ms → Lexeme.toTokens .noValue (ls ++ [.root] ++ ms) =
        Lexeme.toTokens .noValue (ls ++ [.sqrt] ++ ms) := by
      intro ms hms
      rw [List.append_assoc, List.append_assoc]
      exact Lexeme.toTokens_append_congr (Lexeme.toTokens_root (hms.isAtom_head? hq)) ls .noValue
    have hsame := ((hsign q).append (.of_written (hroot q))).tokenize_congr
      ((hletter _).append (.of_written (hsqrt q))) htokens ts
    simpa using hsame

/-- Behind a value the multiplication is put in before the root sign and before the
name; the root of the 4 alone is taken, across a blank, and the second of two roots is
the argument of the first. -/
theorem root_sign_reads_as_sqrt_of_square :
    let ts : List Token :=
      [.num 2, .op .times, .func .sqrt, .lpar, .num 4, .rpar, .op .power, .var .x]
    tokenize "2√ 4^x".toList = .ok ts ∧ tokenize "2sqrt(4)^x".toList = .ok ts ∧
      ∃ us, tokenize "2√ √4".toList = .ok us ∧ tokenize "2sqrt √4".toList = .ok us := by
  intro ts
  have htwo : tokenize ['2'] = .ok [.num 2] := by decide +kernel
  have hatom : tokenize "2√ 4^x".toList = .ok ts := by decide +kernel
  have hroots : tokenize "2√ √4".toList =
      .ok [.num 2, .op .times, .func .sqrt, .func .sqrt, .lpar, .num 4, .rpar] := by decide +kernel
  have hfour : (Lexeme.token (.num 4)).Written ['4'] ['^', 'x'] :=
    Lexeme.first?_append_eq_some_iff.mp (by decide +kernel)
  obtain ⟨hgroup, halone⟩ := root_sign_reads_as_sqrt htwo
  have hblank : ∀ c ∈ [' '], isBlank c = true := List.forall_mem_singleton.mpr rfl
  have hbegins : ∀ c ∈ (" √4".toList.dropWhile isBlank).head?, BeginsOperation c := by
    rintro _ ⟨⟩
    decide
  exact ⟨hatom, (hgroup [' '] ['4'] ['^', 'x'] (.num 4) hblank rfl hfour ts).mp hatom, _, hroots,
    (halone " √4".toList hbegins _).mp hroots⟩

end Calculator
