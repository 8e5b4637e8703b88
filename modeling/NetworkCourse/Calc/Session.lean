/-
  NetworkCourse.Calc.Session — the calculator from bytes to numbers.

  `Expr.value` and `runAll` say what a session means, in integers and with no parser;
  `SafeAll` that all of it fits `int`. A `Source` is a text that writes the statements one a
  line. Scanned and parsed, it gives the numbers and the variables that `runAll` gives, as
  long as no line takes the parser's stack to its limit (`calculates`).
-/

import NetworkCourse.Calc.Depth
import NetworkCourse.Calc.Scanner
import Mathlib.Data.List.Chain

namespace NetworkCourse.Calc

open Lib.Machine

/-! ## What a session means -/

/-- Division drops the fraction. -/
def Op.apply : Op → Int → Int → Int
  | .plus, a, b => a + b
  | .minus, a, b => a - b
  | .times, a, b => a * b
  | .divide, a, b => a.tdiv b

def Expr.value (sym : Fin 26 → Int) : Expr → Int
  | .num n => n
  | .var x => sym x
  | .op o a b => o.apply (a.value sym) (b.value sym)

/-- No operation leaves `int` or divides by zero. -/
def Expr.Safe (sym : Fin 26 → Int) : Expr → Prop
  | .num _ | .var _ => True
  | .op o a b => a.Safe sym ∧ b.Safe sym ∧ (o = .divide → b.value sym ≠ 0) ∧
      INT_MIN ≤ (Expr.op o a b).value sym ∧ (Expr.op o a b).value sym ≤ INT_MAX

instance Expr.decidableSafe (sym : Fin 26 → Int) : (e : Expr) → Decidable (e.Safe sym)
  | .num _ | .var _ => isTrue trivial
  | .op o a b =>
    have := a.decidableSafe sym
    have := b.decidableSafe sym
    inferInstanceAs (Decidable (a.Safe sym ∧ b.Safe sym ∧ (o = .divide → b.value sym ≠ 0) ∧
      INT_MIN ≤ (Expr.op o a b).value sym ∧ (Expr.op o a b).value sym ≤ INT_MAX))

/-- The expression of a statement. -/
def Stmt.rhs : Stmt → Expr
  | .expr e => e
  | .assign _ e => e

def Stmt.run (m : Mem) : Stmt → Mem
  | .expr e => m.print (e.value m.sym)
  | .assign x e => m.set x (e.value m.sym)

def runAll (m : Mem) (ss : List Stmt) : Mem := ss.foldl Stmt.run m

def SafeAll (m : Mem) : List Stmt → Prop
  | [] => True
  | s :: ss => s.rhs.Safe m.sym ∧ SafeAll (s.run m) ss

instance decidableSafeAll (m : Mem) : (ss : List Stmt) → Decidable (SafeAll m ss)
  | [] => isTrue trivial
  | s :: ss =>
    have := decidableSafeAll (s.run m) ss
    inferInstanceAs (Decidable (s.rhs.Safe m.sym ∧ SafeAll (s.run m) ss))

theorem intArith_eq {o : Op} {a b : Int} (hz : o = .divide → b ≠ 0) (h1 : INT_MIN ≤ o.apply a b) (h2 : o.apply a b ≤ INT_MAX) :
    intArith o a b = some (o.apply a b) := by
  have h : ¬ ((o = .divide ∧ b = 0) ∨ o.apply a b < INT_MIN ∨ INT_MAX < o.apply a b) := by
    rintro (⟨ho, hb⟩ | h | h)
    · exact hz ho hb
    · exact absurd h1 (Int.not_le.mpr h)
    · exact absurd h2 (Int.not_le.mpr h)
  cases o <;> exact if_neg h

/-- What is safe is computed. -/
theorem Expr.Safe.eval {sym : Fin 26 → Int} {e : Expr} (h : e.Safe sym) : eval intArith sym e = some (e.value sym) := by
  induction e with
  | num n => rfl
  | var x => rfl
  | op o a b iha ihb =>
    obtain ⟨ha, hb, hz, h1, h2⟩ := h
    rw [Calc.eval, iha ha, Option.bind_some, ihb hb, Option.bind_some]
    exact intArith_eq hz h1 h2

theorem exec_safe {m : Mem} {s : Stmt} (h : s.rhs.Safe m.sym) : exec intArith m s = some (s.run m) := by
  have he := Expr.Safe.eval h
  cases s with
  | expr e =>
    change eval intArith m.sym e = some (e.value m.sym) at he
    rw [exec, he]
    rfl
  | assign x e =>
    change eval intArith m.sym e = some (e.value m.sym) at he
    rw [exec, he]
    rfl

theorem SafeAll.exec {m : Mem} {ss : List Stmt} (h : SafeAll m ss) : execAll intArith m ss = some (runAll m ss) := by
  induction ss generalizing m with
  | nil => rfl
  | cons s ss ih =>
    obtain ⟨hs, hss⟩ := h
    rw [execAll, exec_safe hs, Option.bind_some, ih hss]
    rfl

/-! ## No two numbers are neighbours -/

theorem apart_left {t : Token} (h : ∀ n, t ≠ .INTEGER n) (t' : Token) : Apart t t' := by
  intro n _ ht
  exact absurd ht (h n)

theorem apart_right {t' : Token} (h : ∀ n, t' ≠ .INTEGER n) (t : Token) : Apart t t' := by
  intro _ n _
  exact h n

/-- Tokens joined around one that is no number. -/
theorem isChain_join {t : Token} (h : ∀ n, t ≠ .INTEGER n) {ts us : List Token} (hts : ts.IsChain Apart) (hus : us.IsChain Apart) :
    (ts ++ t :: us).IsChain Apart := by
  apply List.isChain_append.mpr
  refine ⟨hts, List.isChain_cons.mpr ⟨fun t' _ => apart_left h t', hus⟩, ?_⟩
  intro t1 _ t2 ht2
  cases ht2
  exact apart_right h t1

theorem IsExpr.isChain {ts : List Token} (h : IsExpr ts) : ts.IsChain Apart := by
  induction h with
  | integer n => exact List.isChain_singleton _
  | var x => exact List.isChain_singleton _
  | op o _ _ ih ih' => exact isChain_join (fun n h => by cases h) ih ih'
  | @paren ts _ ih =>
    have hin : (ts ++ [Token.rpar]).IsChain Apart := isChain_join (fun n h => by cases h) ih List.isChain_nil
    exact isChain_join (fun n h => by cases h) List.isChain_nil hin

theorem IsStatement.isChain {ts : List Token} (h : IsStatement ts) : ts.IsChain Apart := by
  cases h with
  | expr h => exact h.isChain
  | assign x h => exact isChain_join (fun n h => by cases h) (List.isChain_singleton (Token.VARIABLE x)) h.isChain

theorem IsProgram.isChain {ts : List Token} (h : IsProgram ts) : ts.IsChain Apart := by
  have hn : ∀ n, Token.newline ≠ .INTEGER n := by
    intro n h
    cases h
  induction h with
  | empty => exact List.isChain_nil
  | @statement ts us h hs ih =>
    have hline : (us ++ [Token.newline]).IsChain Apart := isChain_join hn hs.isChain List.isChain_nil
    rw [List.append_assoc]
    cases h with
    | empty => exact hline
    | @statement ts us' _ _ =>
      rw [List.append_assoc (ts ++ us'), List.singleton_append]
      exact isChain_join hn ih.left_of_append hline

/-! ## From bytes to numbers -/

/-- A text that writes the statements one a line, with blanks and tabs anywhere between the
    tokens; `d` is what the lines take of the parser's stack. -/
def Source (ss : List Stmt) (d : Nat) (text : List UInt8) : Prop :=
  ∃ toks, RendersAll ss toks d ∧ Writes isBlank (fun _ _ => True) toks text

theorem isIgnored_blank : ∀ b, isBlank b = true → isIgnored b = true := Lib.Ascii.forall_byte (by decide +kernel)

theorem Source.tokens {ss : List Stmt} {d : Nat} {text : List UInt8} (h : Source ss d text) : RendersAll ss (tokens text) d := by
  obtain ⟨toks, hr, hw⟩ := h
  have hc := (isProgram_iff.mpr ⟨ss, d, hr⟩).isChain
  have ht := (hw.apart hc).scanned isIgnored_blank (fun _ _ h => h)
  rwa [ht]

/-- The numbers printed and the variables are those the statements mean, exactly when no
    line takes the stack to its limit. -/
theorem calculates {ss : List Stmt} {d : Nat} {text : List UInt8} (h : Source ss d text) (hs : SafeAll ⟨sym0, []⟩ ss) (garbage : Int) :
    (d < YYMAXDEPTH → ∃ q, Ends (step (some YYMAXDEPTH) intArith) (start (List.ofFn sym0) garbage (tokens text)) (.ret 0 q) ∧
      q.stdout = (runAll ⟨sym0, []⟩ ss).stdout ∧ q.sym = List.ofFn (runAll ⟨sym0, []⟩ ss).sym) ∧
    (YYMAXDEPTH ≤ d → ∃ q, Ends (step (some YYMAXDEPTH) intArith) (start (List.ofFn sym0) garbage (tokens text)) (.ret 2 q)) := by
  constructor
  · intro hd
    have hroom : ¬ exhausted (some YYMAXDEPTH) (max d 3) := room_of_lt (Nat.max_lt.mpr ⟨hd, by decide⟩)
    obtain ⟨q, hq, hsym, hout, -⟩ := h.tokens.parsed hs.exec hroom garbage
    exact ⟨q, hq, hout, hsym⟩
  · intro hd
    exact h.tokens.exhausted hs.exec (by decide) hd garbage

/-- `a= 7` and `a /02`, a line each, print 3. -/
theorem calculates_quotient :
    ∃ q, Ends (step (some YYMAXDEPTH) intArith)
        (start (List.ofFn sym0) 0 (tokens [97, 61, 32, 55, 10, 97, 32, 47, 48, 50, 10])) (.ret 0 q) ∧
      q.stdout = [3] ∧ q.sym = List.ofFn (Function.update sym0 0 7) := by
  have h7 : Spelling (.INTEGER 7) [55] := .INTEGER (by decide) (List.all_eq_true.mp rfl) rfl (by decide)
  have h2 : Spelling (.INTEGER 2) [48, 50] := .INTEGER (by decide) (List.all_eq_true.mp rfl) rfl (by decide)
  have hsrc : Source [.assign 0 (.num 7), .expr (.op .divide (.var 0) (.num 2))] 5
      [97, 61, 32, 55, 10, 97, 32, 47, 48, 50, 10] :=
    ⟨_, .snoc (.snoc .nil (.assign 0 (.loosen (.loosen (.num 7)))))
        (.expr (.loosen (.op .divide (.loosen (.var 0)) (.num 2)))),
      .next (.VARIABLE 0) (.next (.char rfl) (.gap rfl (.next h7 (.next (.char rfl) (.next (.VARIABLE 0) (.gap rfl
        (.next (.char rfl) (.next h2 (.next (.char rfl) .nil)))))))))⟩
  exact (calculates hsrc (by decide) 0).1 (by decide)

/-- A number in `n` parentheses. -/
def nest : Nat → List Token
  | 0 => [.INTEGER 1]
  | n + 1 => .lpar :: (nest n ++ [.rpar])

theorem nest_renders (n : Nat) : ∃ d, n ≤ d ∧ Renders 3 (.num 1) (nest n) d := by
  induction n with
  | zero => exact ⟨1, Nat.zero_le _, .num 1⟩
  | succ n ih =>
    obtain ⟨d, hd, h⟩ := ih
    exact ⟨max (d + 1) 3, by omega, (h.mono (by decide)).paren⟩

theorem nest_writes (n : Nat) : ∃ text, Writes isBlank (fun _ _ => True) (nest n) text := by
  induction n with
  | zero =>
    have h1 : Spelling (.INTEGER 1) [49] := .INTEGER (by decide) (List.all_eq_true.mp rfl) rfl (by decide)
    exact ⟨_, .next h1 .nil⟩
  | succ n ih =>
    obtain ⟨text, h⟩ := ih
    have hl : Spelling .lpar [40] := .char rfl
    have hr : Spelling .rpar [41] := .char rfl
    exact ⟨_, .next hl (h.append (.next hr .nil))⟩

/-- A number in parentheses, as deep as the stack is high, is not printed. -/
theorem deep_line_fails :
    ¬ ∀ ss d text, Source ss d text → SafeAll ⟨sym0, []⟩ ss →
      ∃ q, Ends (step (some YYMAXDEPTH) intArith) (start (List.ofFn sym0) 0 (tokens text)) (.ret 0 q) := by
  intro hends
  obtain ⟨d, hd, hr⟩ := nest_renders YYMAXDEPTH
  obtain ⟨text, hw⟩ := nest_writes YYMAXDEPTH
  have hn : Spelling .newline [10] := .char rfl
  have hall : RendersAll [.expr (.num 1)] ([] ++ nest YYMAXDEPTH ++ [.newline]) (max 0 (max (d + 2) 4)) :=
    .snoc .nil (.expr (hr.mono (by decide)))
  have hsrc : Source [.expr (.num 1)] (max 0 (max (d + 2) 4)) (text ++ ([10] ++ [])) := ⟨_, hall, hw.append (.next hn .nil)⟩
  have hsafe : SafeAll ⟨sym0, []⟩ [.expr (.num 1)] := ⟨trivial, trivial⟩
  obtain ⟨q, hq⟩ := hends _ _ _ hsrc hsafe
  obtain ⟨q', hq'⟩ := hsrc.tokens.exhausted (n := YYMAXDEPTH) hsafe.exec (by decide) (by omega) 0
  cases hq.unique hq'

end NetworkCourse.Calc
