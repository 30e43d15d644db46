/-
# Operands keep their order

The arrangement moves operators and functions, and no values: a value goes out as
soon as it is read, so the values of the result are those of the expression, in
their order (`Waiting.filter_isAtom_arrange`). Operators and functions wait and go
out later, but none is lost and none is added; a sign is read by the token before
it. The state keeps in a flag what that token was, and the flag is right after
every token of every list, an expression or not (`Waiting.afterValue_read`).

Key definitions: `Token.isOperation`, `Token.readAfter`, `readSigns`, `Waiting.read`.
Key theorems: `Waiting.arrange_append`, `Waiting.afterValue_read`,
`Waiting.filter_isAtom_arrange`, `toRpn_conserves`.
-/
import Calculator.Proofs.Conservation
import Calculator.Proofs.Failure

namespace Calculator

/-! ### Signs -/

namespace Token

/-- A function or an operator. -/
def isOperation : Token → Bool
  | func _ | op _ => true
  | _ => false

/-- What a token is after the one before it, if there is one. Where no value has
ended, a plus is nothing and a minus is the prefix minus. -/
def readAfter (before : Option Token) (t : Token) : List Token :=
  if before.any isValue then [t]
  else
    match t with
    | op .plus => []
    | op .minus => [op .negate]
    | _ => [t]

theorem filter_isOperation_emitted (before : Option Token) (t : Token) :
    (t.emitted (before.any isValue)).filter isOperation =
      (t.readAfter before).filter isOperation := by
  unfold readAfter
  cases before.any isValue with
  | true => rcases t with _ | _ | _ | _ | (_ | _ | _ | _ | _ | _ | _) | _ | _ <;> rfl
  | false => rcases t with _ | _ | _ | _ | (_ | _ | _ | _ | _ | _ | _) | _ | _ <;> rfl

end Token

/-- The tokens with their signs read, each by the token before it. -/
def readSigns (ts : List Token) : List Token :=
  (List.zipWith Token.readAfter (none :: ts.map some) ts).flatten

theorem filter_isOperation_symbols : ∀ (ts : List Token) (before : Option Token),
    (symbols (before.any Token.isValue) ts).filter Token.isOperation =
      (List.zipWith Token.readAfter (before :: ts.map some) ts).flatten.filter Token.isOperation
  | [], _ => rfl
  | t :: ts, before => by
    have ih := filter_isOperation_symbols ts (some t)
    rw [symbols, List.filter_append, Token.filter_isOperation_emitted, List.map_cons,
      List.zipWith_cons_cons, List.flatten_cons, List.filter_append, ← ih]
    rfl

namespace Waiting

/-! ### Reading part of the tokens -/

/-- What the tokens send out from here, and the state after them. -/
def read (w : Waiting) : List Token → Except CalcError (List Token × Waiting)
  | [] => .ok ([], w)
  | t :: ts =>
    match w.step t with
    | .error e => .error e
    | .ok (out, next) => (next.read ts).map fun r => (out ++ r.1, r.2)

theorem read_cons_eq_ok_iff {w last : Waiting} {t : Token} {ts out : List Token} :
    w.read (t :: ts) = .ok (out, last) ↔ ∃ sent next later, w.step t = .ok (sent, next) ∧
      next.read ts = .ok (later, last) ∧ sent ++ later = out := by
  rw [read]
  cases hstep : w.step t with
  | error e => simp
  | ok result =>
    obtain ⟨sent, next⟩ := result
    simp only [map_eq_ok_iff, Prod.mk.injEq, Prod.exists, exists_eq_right_right]
    constructor
    · rintro ⟨later, hread, hout⟩
      exact ⟨sent, next, later, rfl, hread, hout⟩
    · rintro ⟨_, _, later, hstep, hread, hout⟩
      cases hstep
      exact ⟨later, hread, hout⟩

theorem read_append : ∀ (ts us : List Token) (w : Waiting),
    w.read (ts ++ us) = w.read ts >>= fun r => (r.2.read us).map fun r' => (r.1 ++ r'.1, r'.2)
  | [], us, w => by
    change w.read us = (w.read us).map fun r' => ([] ++ r'.1, r'.2)
    cases w.read us <;> rfl
  | t :: ts, us, w => by
    rw [List.cons_append, read, read]
    cases w.step t with
    | error e => rfl
    | ok result =>
      obtain ⟨out, next⟩ := result
      simp only
      rw [read_append ts us next]
      cases next.read ts with
      | error e => rfl
      | ok r =>
        change ((r.2.read us).map fun r' => (r.1 ++ r'.1, r'.2)).map
            (fun r' => (out ++ r'.1, r'.2)) =
          (r.2.read us).map fun r' => (out ++ r.1 ++ r'.1, r'.2)
        rw [map_map]
        exact congrArg (fun f => (r.2.read us).map f) (funext fun r' => by simp)

/-- The last token is read after all others. -/
theorem exists_step_of_read_concat {w last : Waiting} {ts out : List Token} {t : Token}
    (h : w.read (ts ++ [t]) = .ok (out, last)) :
    ∃ sent next later, w.read ts = .ok (sent, next) ∧ next.step t = .ok (later, last) := by
  rw [read_append] at h
  obtain ⟨⟨sent, next⟩, hread, hstep⟩ := bind_eq_ok_iff.mp h
  obtain ⟨⟨later, last'⟩, hlater, hpair⟩ := map_eq_ok_iff.mp hstep
  obtain ⟨later', next', rest, hstep, hnil, -⟩ := read_cons_eq_ok_iff.mp hlater
  cases hpair
  cases hnil
  exact ⟨sent, next, later', hread, hstep⟩

/-- The tokens that come first may be read first. -/
theorem arrange_append : ∀ (ts us : List Token) (w : Waiting),
    w.arrange (ts ++ us) = w.read ts >>= fun r => (r.2.arrange us).map (r.1 ++ ·)
  | [], us, w => by
    change w.arrange us = (w.arrange us).map ([] ++ ·)
    cases w.arrange us <;> rfl
  | t :: ts, us, w => by
    rw [List.cons_append, arrange, read]
    cases w.step t with
    | error e => rfl
    | ok result =>
      obtain ⟨out, next⟩ := result
      simp only
      rw [arrange_append ts us next]
      cases next.read ts with
      | error e => rfl
      | ok r =>
        change ((r.2.arrange us).map (r.1 ++ ·)).map (out ++ ·) =
          (r.2.arrange us).map (out ++ r.1 ++ ·)
        rw [map_map]
        exact congrArg (fun f => (r.2.arrange us).map f) (funext fun later => by simp)

/-- So where the whole is arranged, each beginning of it is read. -/
theorem exists_read_of_arrange {ts us out : List Token} {w : Waiting}
    (h : w.arrange (ts ++ us) = .ok out) : ∃ sent next, w.read ts = .ok (sent, next) := by
  rw [arrange_append] at h
  obtain ⟨⟨sent, next⟩, hread, -⟩ := bind_eq_ok_iff.mp h
  exact ⟨sent, next, hread⟩

/-! ### The flag -/

/-- **The flag tells whether the last token ends a value.** -/
theorem afterValue_read : ∀ {ts : List Token} {w last : Waiting} {out : List Token},
    w.read ts = .ok (out, last) →
    last.afterValue = (ts.getLast?.map Token.isValue).getD w.afterValue
  | [], w, last, out, h => by
    cases h
    rfl
  | t :: ts, w, last, out, h => by
    obtain ⟨sent, next, later, hstep, hread, -⟩ := read_cons_eq_ok_iff.mp h
    rw [afterValue_read hread, (step_emits hstep).1, List.getLast?_cons]
    cases ts.getLast? <;> rfl

/-! ### The values -/

theorem filter_isAtom_released (stack : List Pending) :
    (released stack).filter Token.isAtom = [] := by
  refine List.filter_eq_nil_iff.mpr fun t ht => ?_
  obtain ⟨p, -, hp⟩ := List.mem_filterMap.mp ht
  cases p <;> cases hp <;> exact Bool.false_ne_true

/-- A step sends out the token if it is a value, and no other value. -/
theorem filter_isAtom_step {w next : Waiting} {t : Token} {out : List Token}
    (h : w.step t = .ok (out, next)) : out.filter Token.isAtom = [t].filter Token.isAtom := by
  cases step_eq_ok_iff.mp h with
  | atom | func | opening | prefixPlus | prefixMinus => rfl
  | closing | operator => exact filter_isAtom_released _
  | call =>
    rw [List.filter_append, filter_isAtom_released]
    rfl

/-- **Values keep their order.** -/
theorem filter_isAtom_arrange : ∀ {ts : List Token} {w : Waiting} {out : List Token},
    w.arrange ts = .ok out → out.filter Token.isAtom = ts.filter Token.isAtom
  | [], w, out, h => by
    rw [arrange_nil, finish] at h
    split at h <;> cases h
    exact filter_isAtom_released _
  | t :: ts, w, out, h => by
    unfold arrange at h
    split at h
    · cases h
    · rename_i sent next hstep
      obtain ⟨later, hlater, rfl⟩ := map_eq_ok_iff.mp h
      rw [List.filter_append, filter_isAtom_step hstep, filter_isAtom_arrange hlater,
        ← List.filter_append, List.singleton_append]

end Waiting

/-- **The arrangement conserves.** Whatever list is arranged, no parenthesis goes
out, the values go out in their order, and the functions and operators that go out
are those of the list with its signs read; every beginning of the list is read on
the way. After each beginning that is read, of any list, the flag says whether its
last token ends a value. -/
theorem toRpn_conserves (ts : List Token) :
    (∀ out, toRpn ts = .ok out →
      (∀ t ∈ out, t.isParenthesis = false) ∧
        out.filter Token.isAtom = ts.filter Token.isAtom ∧
        (out.filter Token.isOperation).Perm ((readSigns ts).filter Token.isOperation) ∧
        ∀ us, us <+: ts → ∃ sent w, Waiting.read {} us = .ok (sent, w)) ∧
      ∀ us, us <+: ts → ∀ sent w, Waiting.read {} us = .ok (sent, w) →
        w.afterValue = us.getLast?.any Token.isValue := by
  refine ⟨fun out h => ⟨isParenthesis_of_toRpn h, Waiting.filter_isAtom_arrange h, ?_, ?_⟩, ?_⟩
  · have hperm : out.Perm (symbols false ts) := Waiting.arrange_perm h
    have hsigns : (symbols false ts).filter Token.isOperation =
        (readSigns ts).filter Token.isOperation := filter_isOperation_symbols ts none
    rw [← hsigns]
    exact hperm.filter _
  · rintro us ⟨vs, rfl⟩
    exact Waiting.exists_read_of_arrange h
  · intro us _ sent w hread
    rw [Waiting.afterValue_read hread]
    cases us.getLast? <;> rfl

/-- A list that is no expression: a plus in an empty group, a minus after a value,
one after a function. -/
theorem toRpn_conserves_misplaced_signs :
    let ts : List Token := [.lpar, .op .plus, .rpar, .op .minus, .func .sin, .op .minus, .var .x]
    let out : List Token := [.var .x, .op .negate, .func .sin, .op .minus]
    toRpn ts = .ok out ∧
      (readSigns ts).filter Token.isOperation = [.op .minus, .func .sin, .op .negate] ∧
      (out.filter Token.isOperation).Perm ((readSigns ts).filter Token.isOperation) ∧
      out.filter Token.isAtom = ts.filter Token.isAtom ∧
      ∃ sent w, Waiting.read {} (ts.take 3) = .ok (sent, w) ∧ w.afterValue = true := by
  intro ts out
  have h : toRpn ts = .ok out := by decide +kernel
  obtain ⟨hconserves, hflag⟩ := toRpn_conserves ts
  obtain ⟨-, hatoms, hoperations, hread⟩ := hconserves out h
  obtain ⟨sent, w, hgroup⟩ := hread _ (List.take_prefix 3 ts)
  exact ⟨h, by decide +kernel, hoperations, hatoms, sent, w, hgroup,
    hflag _ (List.take_prefix 3 ts) sent w hgroup⟩

end Calculator
