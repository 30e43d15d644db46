/-
# The sign of the memory

The recall key puts parentheses around a memory that is below zero, and the text of a
number shows its sign bit. The two differ on -0, which is printed with a sign and is not
below zero. But the memory of a run is never -0: it starts from +0, and what is added
to it or subtracted is a rounded number, so only a memory of -0 could become one
(`Session.ne_neg_zero_of_memoryChange?`). What is typed by the recall key then begins
with an opening parenthesis, a digit or a point. A numeral goes on with the numeral at
the end of the entry, or stands after it, and takes no sign from the entry
(`LaidOut.exists_append_numeral`). So no minus is read as a subtraction that was not
one before.

Key definitions: `subtractions`, `Window.HasPlainMemory`.
Key theorems: `count_minus_of_toRpn`, `LaidOut.exists_append_numeral`,
`Window.hasPlainMemory_run`, `Window.recall_adds_no_subtraction`.
-/
import Calculator.Proofs.Addition
import Calculator.Proofs.Memory
import Calculator.Proofs.Recall

namespace Calculator

/-! ### Subtractions -/

/-- The number of minuses that are subtractions: those right after a value. -/
def subtractions (ts : List Token) : Nat := (symbols false ts).count (.op .minus)

/-- They are the subtractions that the machine is given. -/
theorem count_minus_of_toRpn {ts out : List Token} (h : toRpn ts = .ok out) :
    out.count (.op .minus) = subtractions ts := by
  have hperm : out.Perm (symbols false ts) := Waiting.arrange_perm h
  exact hperm.count_eq _

theorem count_minus_symbols_of_not_mem {ts : List Token} (h : .op .minus ∉ ts)
    (afterValue : Bool) : (symbols afterValue ts).count (.op .minus) = 0 := by
  refine List.count_eq_zero.mpr fun hmem => ?_
  rcases mem_or_eq_negate_of_mem_symbols hmem with hts | hnegate
  · exact h hts
  · cases hnegate

theorem subtractions_append (ts us : List Token) : subtractions (ts ++ us) =
    subtractions ts +
      (symbols ((ts.getLast?.map Token.isValue).getD false) us).count (.op .minus) := by
  rw [subtractions, symbols_append, List.count_append, subtractions]

theorem subtractions_append_of_not_mem (ts : List Token) {us : List Token}
    (h : .op .minus ∉ us) : subtractions (ts ++ us) = subtractions ts := by
  rw [subtractions_append, count_minus_symbols_of_not_mem h, Nat.add_zero]

/-- The minus of a negative number in parentheses is a prefix. -/
theorem subtractions_append_group (ts : List Token) (v : Number) {us : List Token}
    (h : .op .minus ∉ us) :
    subtractions (ts ++ (us ++ [.lpar, .op .minus, .num v, .rpar])) = subtractions ts := by
  have hgroup : ∀ b, (symbols b [.lpar, .op .minus, .num v, .rpar]).count (.op .minus) = 0 := by
    intro b
    simp [symbols, Token.emitted, Token.isValue, Token.isAtom]
  rw [← List.append_assoc, subtractions_append, hgroup, Nat.add_zero,
    subtractions_append_of_not_mem ts h]

/-! ### A numeral at the end of a text -/

/-- The lexeme is a numeral. -/
def Lexeme.IsNumeral (l : Lexeme) : Prop := ∃ v, l = token (.num v)

namespace Numeral

theorem text_eq (n : Numeral) : n.text = n.whole ++ n.tail := rfl

/-- The digits of one numeral, then those of another with its point. -/
def joined (m n : Numeral) : Numeral where
  whole := m.whole ++ n.whole
  fraction := n.fraction
  isDigit_whole := List.forall_mem_append.mpr ⟨m.isDigit_whole, n.isDigit_whole⟩
  isDigit_fraction := n.isDigit_fraction
  hasDigit := by
    rw [List.append_assoc]
    exact List.append_ne_nil_of_right_ne_nil _ n.hasDigit

theorem text_joined {m : Numeral} (h : m.tail = []) (n : Numeral) :
    (m.joined n).text = m.text ++ n.text := by
  rw [m.text_eq, h, List.append_nil, n.text_eq, ← List.append_assoc]
  rfl

/-- The numeral with more digits after its point. -/
def extended (m : Numeral) (ds : List Char) (hds : ∀ c ∈ ds, c.isDigit = true) : Numeral where
  whole := m.whole
  fraction := some (m.fraction.getD [] ++ ds)
  isDigit_whole := m.isDigit_whole
  isDigit_fraction := List.forall_mem_append.mpr ⟨m.isDigit_fraction, hds⟩
  hasDigit := by
    rw [Option.getD_some, ← List.append_assoc]
    exact List.append_ne_nil_of_left_ne_nil m.hasDigit _

theorem text_extended {m : Numeral} (h : m.fraction ≠ none) {ds : List Char}
    (hds : ∀ c ∈ ds, c.isDigit = true) : (m.extended ds hds).text = m.text ++ ds := by
  rcases m.tail_cases with ⟨hnone, -⟩ | ⟨es, hes, htail⟩
  · exact absurd hnone h
  · rw [m.text_eq, htail]
    simp [text_eq, tail, extended, hes]

/-- A point and the digits after it. -/
def ofFraction (ds : List Char) (hne : ds ≠ []) (hds : ∀ c ∈ ds, c.isDigit = true) : Numeral where
  whole := []
  fraction := some ds
  isDigit_whole := List.forall_mem_nil _
  isDigit_fraction := hds
  hasDigit := hne

/-- Of two numerals with points, the first takes the digits up to the second point. -/
theorem exists_laidOut_append_of_points {m n : Numeral} (hm : m.fraction ≠ none)
    {ds : List Char} (hds : n.fraction = some ds) (hne : ds ≠ []) :
    ∃ first second : Numeral, LaidOut (m.text ++ n.text)
      [.token (.num first.toNumber), .token (.num second.toNumber)] := by
  have hdigits := n.isDigit_fraction
  rw [hds] at hdigits
  let first := m.extended n.whole n.isDigit_whole
  let second := ofFraction ds hne hdigits
  have hsplit : first.text ++ second.text = m.text ++ n.text := by
    rw [text_extended hm, n.text_eq, tail, hds, List.append_assoc]
    rfl
  have hstops : first.Stops second.text := by
    rintro c hc
    obtain rfl : '.' = c := Option.some.inj hc
    exact ⟨rfl, fun _ => Option.some_ne_none _⟩
  have hfirst : LaidOutBefore second.text first.text [.token (.num first.toNumber)] :=
    .of_written (.numeral first hstops)
  rw [← hsplit]
  exact ⟨first, second, hfirst.laidOut_append_iff.mpr ⟨_, .of_numeral second, rfl⟩⟩

/-- **Two numerals side by side** are one, or two of which the second begins with its
point. -/
theorem exists_laidOut_append (m n : Numeral) (hn : n.fraction ≠ some []) :
    ∃ ls, LaidOut (m.text ++ n.text) ls ∧ ∀ l ∈ ls, l.IsNumeral := by
  have hone : ∀ k : Numeral, k.text = m.text ++ n.text →
      ∃ ls, LaidOut (m.text ++ n.text) ls ∧ ∀ l ∈ ls, l.IsNumeral := fun k hk =>
    ⟨_, hk ▸ LaidOut.of_numeral k, fun l hl => ⟨_, List.mem_singleton.mp hl⟩⟩
  rcases m.tail_cases with ⟨-, htail⟩ | ⟨ds, hds, -⟩
  · exact hone (m.joined n) (text_joined htail n)
  · have hm : m.fraction ≠ none := by simp [hds]
    rcases n.tail_cases with ⟨-, hnil⟩ | ⟨es, hes, -⟩
    · refine hone (m.extended n.whole n.isDigit_whole) ?_
      rw [text_extended hm, n.text_eq, hnil, List.append_nil]
    · have hne : es ≠ [] := fun hnil => hn (hes.trans (congrArg some hnil))
      obtain ⟨first, second, hlaid⟩ := exists_laidOut_append_of_points hm hes hne
      refine ⟨_, hlaid, fun l hl => ?_⟩
      rcases List.mem_cons.mp hl with rfl | hl
      · exact ⟨_, rfl⟩
      · exact ⟨_, List.mem_singleton.mp hl⟩

end Numeral

/-- **A numeral typed after a text** changes the numerals that the text ends with, and
no other lexeme. -/
theorem LaidOut.exists_append_numeral {cs : List Char} {ls : List Lexeme} (h : LaidOut cs ls)
    {n : Numeral} (hn : n.fraction ≠ some []) :
    ∃ kept old new, ls = kept ++ old ∧ LaidOut (cs ++ n.text) (kept ++ new) ∧
      (∀ l ∈ old, l.IsNumeral) ∧ ∀ l ∈ new, l.IsNumeral := by
  induction h with
  | @blank gap hgap =>
    have hlaid : LaidOut (gap ++ (n.text ++ [])) [.token (.num n.toNumber)] :=
      .lexeme hgap (.numeral n n.stops_nil) (.blank (List.forall_mem_nil _))
    rw [List.append_nil] at hlaid
    exact ⟨[], [], _, rfl, hlaid, List.forall_mem_nil _, fun l hl => ⟨_, List.mem_singleton.mp hl⟩⟩
  | @lexeme gap cs rest l ls hgap hl h ih =>
    obtain ⟨kept, old, new, rfl, hlaid, hold, hnew⟩ := ih
    -- The lexeme stays as it is, unless it is a numeral and the text ends with it.
    by_cases hstays : l.Written cs (rest ++ n.text)
    · refine ⟨l :: kept, old, new, rfl, ?_, hold, hnew⟩
      rw [List.append_assoc, List.append_assoc]
      exact .lexeme hgap hstays hlaid
    · cases hl with
      | sign hsign => exact absurd (.sign hsign) hstays
      | name m hm => exact absurd (.name m hm) hstays
      | numeral m hm =>
        cases rest with
        | cons c rest => exact absurd (.numeral m hm) hstays
        | nil =>
          obtain ⟨ms, hms, hnumerals⟩ := m.exists_laidOut_append n hn
          have hnil := h.unique (.blank (List.forall_mem_nil _))
          refine ⟨[], _, ms, rfl, ?_, ?_, hnumerals⟩
          · rw [List.append_nil, List.append_assoc]
            exact hms.append_blanks hgap
          · rw [hnil]
            exact fun l hl => ⟨_, List.mem_singleton.mp hl⟩

theorem Lexeme.op_not_mem_toTokens {ls : List Lexeme} (h : ∀ l ∈ ls, l.IsNumeral)
    (left : LeftContext) : .op .minus ∉ toTokens left ls := by
  intro hmem
  rcases exists_of_mem_toTokens hmem with ⟨l, hl, ht⟩ | hput
  · obtain ⟨v, rfl⟩ := h l hl
    cases ht
  · revert hput
    decide

/-- So a numeral typed after a text makes no minus of it a subtraction. -/
theorem exists_tokenize_append_numeral {cs : List Char} {ts : List Token}
    (h : tokenize cs = .ok ts) {n : Numeral} (hn : n.fraction ≠ some []) :
    ∃ us, tokenize (cs ++ n.text) = .ok us ∧ subtractions us = subtractions ts := by
  obtain ⟨ls, hls, rfl⟩ := tokenize_eq_ok_iff.mp h
  obtain ⟨kept, old, new, rfl, hlaid, hold, hnew⟩ := hls.exists_append_numeral hn
  refine ⟨_, tokenize_eq_ok_iff.mpr ⟨_, hlaid, rfl⟩, ?_⟩
  rw [Lexeme.toTokens_append, Lexeme.toTokens_append,
    subtractions_append_of_not_mem _ (Lexeme.op_not_mem_toTokens hnew _),
    subtractions_append_of_not_mem _ (Lexeme.op_not_mem_toTokens hold _)]

/-! ### The recalled text -/

namespace Number

variable {v : Number}

theorem fraction_magnitude_ne (v : Number) : v.magnitude.fraction ≠ some [] := by
  rw [magnitude, Decimal.fraction_toNumeral]
  split
  · simp
  · rename_i hne
    simpa using hne

theorem head?_text_magnitude_ne (v : Number) : v.magnitude.text.head? ≠ some '-' := by
  intro hhead
  rcases v.magnitude.isDigit_or_eq_point_of_mem_text (List.mem_of_mem_head? hhead) with h | h
  · revert h
    decide
  · revert h
    decide

/-- The text of a number shows its sign bit. -/
theorem head?_text_eq_minus_iff (h : v.IsFinite) :
    v.text.toList.head? = some '-' ↔ isNegative v = true := by
  rw [toList_text h]
  cases isNegative v with
  | true => exact iff_of_true rfl rfl
  | false => exact iff_of_false (head?_text_magnitude_ne v) Bool.false_ne_true

end Number

namespace Session

variable {s : Session}

theorem head?_memoryText_ne (hm : s.memory.IsFinite) (hne : s.memory ≠ -0.0) :
    s.memoryText.toList.head? ≠ some '-' := by
  by_cases hlt : s.memory < 0
  · rw [toList_memoryText_of_lt_zero hm hlt]
    exact nofun
  · rw [memoryText_of_not_lt_zero hlt, ne_eq, Number.head?_text_eq_minus_iff hm,
      ← Number.lt_zero_iff_isNegative hm hne]
    exact hlt

/-- **The recalled memory takes no minus of the entry, and brings no subtraction.** -/
theorem subtractions_recall (hm : s.memory.IsFinite) (hne : s.memory ≠ -0.0) {ts : List Token}
    (h : tokenize s.entry.toList = .ok ts) :
    ∃ us, tokenize (s.press .memoryRecall).entry.toList = .ok us ∧
      subtractions us = subtractions ts := by
  by_cases hlt : s.memory < 0
  · refine ⟨_, tokenize_recall_of_lt_zero hm hlt h, subtractions_append_group ts _ ?_⟩
    split <;> simp
  · have hsign : ¬ s.memory.isNegative = true := fun hsign =>
      hlt ((Number.lt_zero_iff_isNegative hm hne).mpr hsign)
    have htext := Number.toList_text hm
    rw [if_neg hsign] at htext
    rw [entry_recall, memoryText_of_not_lt_zero hlt, String.toList_append, htext]
    exact exists_tokenize_append_numeral h (Number.fraction_magnitude_ne _)

/-! ### The memory of a run -/

/-- What a memory key adds or subtracts is a result, so it is finite. -/
theorem exists_isFinite_of_posting? {toChange : Number → MemoryChange} {change : MemoryChange}
    (h : s.posting? toChange = some change) : ∃ v : Number, v.IsFinite ∧ change = toChange v := by
  unfold posting? at h
  split at h
  · rename_i v hvalue
    obtain ⟨u, hu, rfl⟩ := exists_rounded_of_evaluate hvalue
    obtain ⟨-, hchange⟩ := Option.ite_none_right_eq_some.mp h
    exact ⟨_, Number.isFinite_rounded hu, (Option.some.inj hchange).symm⟩
  · cases h

/-- **A key leaves no -0 in the memory**, if there was none. -/
theorem ne_neg_zero_of_memoryChange? {k : Key} {change : MemoryChange} (hm : s.memory.IsFinite)
    (hne : s.memory ≠ -0.0) (h : s.memoryChange? k = some change) :
    change.apply s.memory ≠ -0.0 := by
  cases k with
  | memoryClear =>
    obtain rfl := Option.some.inj h
    change (0 : Number) ≠ -0.0
    decide +kernel
  | memoryAdd =>
    obtain ⟨v, hv, rfl⟩ := exists_isFinite_of_posting? h
    exact fun hzero => hne (Number.add_eq_neg_zero hm hv hzero).1
  | memorySubtract =>
    obtain ⟨v, hv, rfl⟩ := exists_isFinite_of_posting? h
    exact fun hzero => hne (Number.sub_eq_neg_zero hm hv hzero)
  | _ => simp [memoryChange?] at h

end Session

namespace Window

/-- The memory is finite and not -0, and so is the one in the store. -/
structure HasPlainMemory (w : Window) : Prop where
  finite : w.HasFiniteMemory
  session : w.session.memory ≠ -0.0
  store : ∀ d, w.store = some d → d.memory ≠ -0.0

theorem hasPlainMemory_start : HasPlainMemory {} :=
  ⟨⟨Session.isFinite_zero, nofun⟩, by decide +kernel, nofun⟩

variable {clamp : Number → Number} {w : Window} {action : Action}

/-- A change that an action makes leaves no -0, unless it is written directly. -/
theorem ne_neg_zero_of_memoryChange? {change : MemoryChange} (hw : w.HasPlainMemory)
    (h : w.memoryChange? clamp action = some change) (hset : ∀ v, action ≠ .setMemory v) :
    change.apply w.session.memory ≠ -0.0 := by
  have hzero : (0 : Number) ≠ -0.0 := by decide +kernel
  unfold memoryChange? at h
  split at h
  · exact absurd rfl (hset _)
  · obtain rfl := Option.some.inj h
    change (startSession w.store).memory ≠ -0.0
    cases hstore : w.store with
    | none => exact hzero
    | some d =>
      rw [startSession, memory_restore]
      exact hw.store d hstore
  · obtain rfl := Option.some.inj h
    exact hzero
  · obtain ⟨⟨s, k⟩, hpress, hchange⟩ := Option.bind_eq_some_iff.mp h
    obtain ⟨-, hmemory, -⟩ := same_of_press? hpress
    rw [← hmemory]
    exact Session.ne_neg_zero_of_memoryChange? (hmemory ▸ hw.finite.session)
      (hmemory ▸ hw.session) hchange

/-- **Each action keeps the memory from being -0.** -/
theorem hasPlainMemory_perform (hw : w.HasPlainMemory) (hset : ∀ v, action ≠ .setMemory v) :
    (w.perform clamp action).HasPlainMemory := by
  refine ⟨hasFiniteMemory_perform hw.finite fun v hv => absurd hv (hset v), ?_, fun d hd => ?_⟩
  · rw [memory_perform]
    cases hchange : w.memoryChange? clamp action with
    | none => exact hw.session
    | some change => exact ne_neg_zero_of_memoryChange? hw hchange hset
  · by_cases hkeep : action = .keep
    · subst hkeep
      obtain rfl := Option.some.inj hd
      exact hw.session
    · rw [store_perform hkeep] at hd
      exact hw.store d hd

theorem hasPlainMemory_run : ∀ {actions : List Action} {w : Window}, w.HasPlainMemory →
    (∀ v, .setMemory v ∉ actions) → (w.run clamp actions).HasPlainMemory
  | [], _, hw, _ => hw
  | action :: actions, w, hw, hset => by
    rw [run_cons]
    refine hasPlainMemory_run (hasPlainMemory_perform hw fun v hv => ?_) fun v hv => ?_
    · exact hset v (hv ▸ List.mem_cons_self)
    · exact hset v (List.mem_cons_of_mem action hv)

/-- **A recall is never read as a subtraction.** In every state that a run reaches from
the start, with saves and restarts in it and no direct write to the memory, the memory
is not -0. So it is below zero just if its text begins with a minus sign, and what the
recall key types does not begin with one. If the entry has tokens, it still has some
with the recalled memory after it, and the arrangement has as many subtractions of the
one as of the other. -/
theorem recall_adds_no_subtraction (clamp : Number → Number) {actions : List Action}
    (hset : ∀ v, .setMemory v ∉ actions) :
    let s := (run clamp {} actions).session
    s.memory ≠ -0.0 ∧
      s.memoryText.toList.head? ≠ some '-' ∧
      (s.memory < 0 ↔ s.memory.text.toList.head? = some '-') ∧
      ∀ ts, tokenize s.entry.toList = .ok ts →
        ∃ us, tokenize (s.press .memoryRecall).entry.toList = .ok us ∧
          subtractions us = subtractions ts ∧
          ∀ out, toRpn us = .ok out → out.count (.op .minus) = subtractions ts := by
  intro s
  obtain ⟨⟨hm, -⟩, hne, -⟩ := hasPlainMemory_run hasPlainMemory_start hset
  refine ⟨hne, Session.head?_memoryText_ne hm hne, ?_, fun ts hts => ?_⟩
  · rw [Number.lt_zero_iff_isNegative hm hne, Number.head?_text_eq_minus_iff hm]
  · obtain ⟨us, hus, hsame⟩ := Session.subtractions_recall hm hne hts
    exact ⟨us, hus, hsame, fun out hout => (count_minus_of_toRpn hout).trans hsame⟩

/-- A memory of 0 less 0, saved and restored, less 7, recalled after a subtraction. -/
theorem recall_adds_no_subtraction_after_restart :
    let actions : List Action := [.typeEntry "0", .press .memorySubtract, .keep, .relaunch,
      .typeEntry "7", .click "M-", .typeEntry "3-2"]
    let s := (run id {} actions).session
    s.memory = -7 ∧ s.memory ≠ -0.0 ∧ s.memory.text.toList.head? = some '-' ∧
      ∃ us, tokenize (s.press .memoryRecall).entry.toList = .ok us ∧ subtractions us = 1 := by
  intro actions s
  obtain ⟨hne, -, hsign, htokens⟩ := @recall_adds_no_subtraction id actions (by simp [actions])
  have hmemory : s.memory = -7 := by decide +kernel
  have hentry : tokenize s.entry.toList = .ok [.num 3, .op .minus, .num 2] := by decide +kernel
  have hlt : s.memory < 0 := by
    rw [hmemory]
    decide +kernel
  obtain ⟨us, hus, hone, -⟩ := htokens _ hentry
  exact ⟨hmemory, hne, hsign.mp hlt, us, hus, hone⟩

end Window
end Calculator
