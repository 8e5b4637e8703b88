/-
  NetworkCourse.Calc.Rejected — what a syntax error leaves behind.

  When `yyparse` returns 1 the lines in front of the error have run. What the error line
  holds in front of the look-ahead token in error has run too if it is a complete statement:
  `statement` is reduced as soon as the look-ahead token cannot go on with it, and only the
  newline's absence is an error then. Nothing else has (`rejected_effects`).
-/

import NetworkCourse.Calc.Accepts

namespace NetworkCourse.Calc

open Lib.Machine

variable {arith : Op → Int → Int → Option Int} {sym : Fin 26 → Int}

/-! ## No newline inside a line -/

theorem IsExpr.no_newline {ts : List Token} (h : IsExpr ts) : Token.newline ∉ ts := by
  induction h with
  | integer n => simp
  | var x => simp
  | op o _ _ ih ih' => simp [ih, ih']
  | paren _ ih => simp [ih]

theorem IsStatement.no_newline {ts : List Token} (h : IsStatement ts) : Token.newline ∉ ts := by
  cases h with
  | expr h => exact h.no_newline
  | assign x h => simp [h.no_newline]

theorem Evaluates.isExpr {l : Nat} {ts : List Token} {v : Int} (h : Evaluates arith sym l ts v) : IsExpr ts := by
  obtain ⟨e, d, h, -⟩ := h
  exact h.isExpr

theorem Executes.isStatement {m m' : Mem} {ts : List Token} (h : Executes arith m ts m') : IsStatement ts := by
  obtain ⟨s, d, h, -⟩ := h
  exact isStatement_iff.mpr ⟨s, d, h⟩

theorem Spells.no_newline {c : Ctx} {u : List Token} (h : Spells arith sym c u) : Token.newline ∉ u := by
  induction h with
  | stmt => simp
  | assign x => simp
  | paren _ ih => simp [ih]
  | binary _ _ he ih => simp [ih, he.isExpr.no_newline]

/-! ## The beginning of a statement is not one -/

/-- Tokens a statement can end with. -/
def Token.closes : Token → Bool
  | .INTEGER _ | .VARIABLE _ | .rpar => true
  | _ => false

theorem IsExpr.closes {ts : List Token} (h : IsExpr ts) : ∃ t, ts.getLast? = some t ∧ t.closes = true := by
  induction h with
  | integer n => exact ⟨_, rfl, rfl⟩
  | var x => exact ⟨_, rfl, rfl⟩
  | op o _ _ _ ih =>
    obtain ⟨t, ht, hc⟩ := ih
    refine ⟨t, ?_, hc⟩
    simp [List.getLast?_append, List.getLast?_cons, ht]
  | paren _ _ => exact ⟨.rpar, by simp [List.getLast?_cons], rfl⟩

theorem IsStatement.closes {ts : List Token} (h : IsStatement ts) : ∃ t, ts.getLast? = some t ∧ t.closes = true := by
  cases h with
  | expr h => exact h.closes
  | assign x h =>
    obtain ⟨t, ht, hc⟩ := h.closes
    refine ⟨t, ?_, hc⟩
    simp [List.getLast?_cons, ht]

theorem Spells.open_end {c : Ctx} {u : List Token} (h : Spells arith sym c u) : ∀ t, u.getLast? = some t → t.closes = false := by
  intro t ht
  cases h with
  | stmt => cases ht
  | assign x => cases ht; rfl
  | paren _ => rw [List.getLast?_concat] at ht; cases ht; rfl
  | binary _ _ _ => rw [List.getLast?_concat] at ht; cases ht; rfl

theorem Spells.not_statement {c : Ctx} {u : List Token} (h : Spells arith sym c u) : ¬ IsStatement u := by
  intro hs
  obtain ⟨t, ht, hc⟩ := hs.closes
  rw [h.open_end t ht] at hc
  cases hc

def Token.opens : Token → Int
  | .lpar => 1
  | .rpar => -1
  | _ => 0

/-- Parentheses open at the end. -/
def opened : List Token → Int
  | [] => 0
  | t :: ts => t.opens + opened ts

@[simp] theorem opened_nil : opened [] = 0 := rfl
@[simp] theorem opened_cons (t : Token) (ts : List Token) : opened (t :: ts) = t.opens + opened ts := rfl

@[simp] theorem opened_append (ts us : List Token) : opened (ts ++ us) = opened ts + opened us := by
  induction ts with
  | nil => simp
  | cons t ts ih =>
    simp only [List.cons_append, opened_cons, ih]
    omega

theorem IsExpr.opened {ts : List Token} (h : IsExpr ts) : opened ts = 0 := by
  induction h with
  | integer n => rfl
  | var x => rfl
  | op o _ _ ih ih' => simp [ih, ih', Token.opens]
  | paren _ ih => simp [ih, Token.opens]

theorem IsStatement.opened {ts : List Token} (h : IsStatement ts) : opened ts = 0 := by
  cases h with
  | expr h => exact h.opened
  | assign x h => simp [h.opened, Token.opens]

def Ctx.parens : Ctx → Nat
  | .stmt | .assign _ => 0
  | .paren c => c.parens + 1
  | .binary _ c _ => c.parens

theorem Spells.opened_eq {c : Ctx} {u : List Token} (h : Spells arith sym c u) : opened u = c.parens := by
  induction h with
  | stmt => rfl
  | assign x => rfl
  | paren _ ih => simp [ih, Token.opens, Ctx.parens]
  | binary _ _ he ih => simp [ih, he.isExpr.opened, Token.opens, Ctx.parens]

theorem Spells.opened {c : Ctx} {u : List Token} (h : Spells arith sym c u) : 0 ≤ opened u := by
  rw [h.opened_eq]
  exact Int.natCast_nonneg _

/-- Nor with an operand behind an open parenthesis. -/
theorem Spells.not_closed {c : Ctx} {u us : List Token} {l : Nat} {v : Int} (h : Spells arith sym (.paren c) u)
    (he : Evaluates arith sym l us v) : ¬ IsStatement (u ++ us) := by
  intro hs
  have h0 := hs.opened
  cases h with
  | paren h =>
    have hu := h.opened
    simp only [opened_append, opened_cons, opened_nil, Token.opens, he.isExpr.opened] at h0
    omega

/-! ## The error -/

/-- Where an error stops the machine. -/
theorem error_stops {toks post : List Token} {m0 m' : Mem} (h : Ends (fstep arith) (.want .stmt toks m0) (.error post m')) :
    ∃ lines pre m, toks = lines ++ (pre ++ post) ∧ ExecutesAll arith m0 lines m ∧ Token.newline ∉ pre ∧
      (Executes arith m pre m' ∧ post.head? ≠ some .newline ∨ ¬ IsStatement pre ∧ m' = m) := by
  obtain ⟨k, hg, hst⟩ := h
  have hb := behind_run hg (behind_start toks m0)
  cases fstep_halts arith hst with
  | want _ _ =>
    cases hb with
    | want hall hc ht => exact ⟨_, _, _, ht, hall, hc.no_newline, Or.inr ⟨hc.not_statement, rfl⟩⟩
  | paren _ =>
    cases hb with
    | after hall hc he _ _ ht =>
      refine ⟨_, _, _, ht, hall, ?_, Or.inr ⟨hc.not_closed he, rfl⟩⟩
      simp [hc.no_newline, he.isExpr.no_newline]
  | done hn =>
    cases hb with
    | done hall hs ht => exact ⟨_, _, _, ht, hall, hs.isStatement.no_newline, Or.inl ⟨hs, hn⟩⟩

/-- When `yyparse` returns 1, the look-ahead token is the one in error. The effects are those
    of the complete lines and, if what is in front of that token on its own line is a
    complete statement, of that statement. -/
theorem rejected_effects {maxdepth : Option Nat} {garbage : Int} {toks : List Token} {q : Yyparse}
    (h : Ends (step maxdepth arith) (start (List.ofFn sym) garbage toks) (.ret 1 q)) :
    ∃ lines pre post m m', toks = lines ++ (pre ++ post) ∧ ExecutesAll arith ⟨sym, []⟩ lines m ∧ Token.newline ∉ pre ∧
      q.yychar = some post.head? ∧ q.toks = post.tail ∧ q.sym = List.ofFn m'.sym ∧ q.stdout = m'.stdout ∧
      (Executes arith m pre m' ∧ post.head? ≠ some .newline ∨ ¬ IsStatement pre ∧ m' = m) := by
  have h1 := ends_unlimited arith h fun q' hq => by cases hq
  obtain ⟨r, q', hr, hq', hret⟩ := parser_ends arith sym garbage toks
  have heq := h1.unique hq'
  subst heq
  cases hret with
  | @error post m' _ hsym hout _ hchar htoks =>
    obtain ⟨lines, pre, m, ht, hall, hno, hst⟩ := error_stops hr
    exact ⟨lines, pre, post, m, m', ht, hall, hno, hchar, htoks, hsym, hout, hst⟩

/-- The tokens of `1 2`, on a line. -/
def twoNumbers : List Token := [.INTEGER 1, .INTEGER 2, .newline]

/-- `yyparse` prints 1 and returns 1. -/
theorem rejected_effects_two :
    ∃ lines pre post m m', twoNumbers = lines ++ (pre ++ post) ∧ ExecutesAll intArith ⟨sym0, []⟩ lines m ∧
      Token.newline ∉ pre ∧ some (some (Token.INTEGER 2)) = some post.head? ∧ [Token.newline] = post.tail ∧
      List.ofFn sym0 = List.ofFn m'.sym ∧ [1] = m'.stdout ∧
      (Executes intArith m pre m' ∧ post.head? ≠ some .newline ∨ ¬ IsStatement pre ∧ m' = m) :=
  rejected_effects (@ends_of_run _ _ (step (some YYMAXDEPTH) intArith) 10 (start (List.ofFn sym0) 0 twoNumbers) _ rfl)

/-- No complete line comes before the error in `1 2`, and yet 1 is printed. -/
theorem error_line_prints :
    ¬ ∀ toks q, Ends (step (some YYMAXDEPTH) intArith) (start (List.ofFn sym0) 0 toks) (.ret 1 q) →
      ∃ lines line m, toks = lines ++ line ∧ ExecutesAll intArith ⟨sym0, []⟩ lines m ∧
        q.sym = List.ofFn m.sym ∧ q.stdout = m.stdout := by
  intro h
  obtain ⟨lines, line, m, ht, hall, -, hout⟩ := h twoNumbers _
    (@ends_of_run _ _ (step (some YYMAXDEPTH) intArith) 10 (start (List.ofFn sym0) 0 twoNumbers) _ rfl)
  have hrun : ∀ {n r}, run (fstep intArith) n (.want .stmt lines ⟨sym0, []⟩) = some r → r = .accept m := by
    intro n r hr
    exact (ends_of_run hr).unique hall.accepted
  match lines, ht with
  | [], _ =>
    have h0 := hrun (n := 1) rfl
    cases h0
    cases hout
  | [_], ht =>
    cases ht
    cases hrun (n := 5) rfl
  | [_, _], ht =>
    cases ht
    cases hrun (n := 5) rfl
  | _ :: _ :: _ :: ts, ht =>
    simp only [twoNumbers, List.cons_append, List.cons.injEq] at ht
    obtain ⟨rfl, rfl, rfl, hts⟩ := ht
    obtain ⟨rfl, -⟩ := List.append_eq_nil_iff.mp hts.symm
    cases hrun (n := 5) rfl

end NetworkCourse.Calc
