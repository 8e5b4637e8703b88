/-
  NetworkCourse.Calc.Grammar — the grammar of calc.y, as written and as resolved.

  `IsExpr`, `IsStatement` and `IsProgram` are the rules as written, ambiguous and without
  the `%left` lines. `Renders l e ts d` is their resolved form: `ts` writes the tree `e`
  with at least the parentheses that `%left` asks for, its loosest operator outside
  parentheses binding at least like level `l`, and reading it takes `d` entries of the
  parser's stack. Both have the same sentences (`isExpr_iff`, `isProgram_iff`): a tree
  read some other way can be rebuilt (`rendered_op`).

  `eval` and `exec` are what the trees mean.
-/

import NetworkCourse.Calc.Frames

namespace NetworkCourse.Calc

/-! ## As written -/

inductive IsExpr : List Token → Prop
  | integer (n : Int) : IsExpr [.INTEGER n]
  | var (x : Fin 26) : IsExpr [.VARIABLE x]
  | op (o : Op) {ts us : List Token} : IsExpr ts → IsExpr us → IsExpr (ts ++ .op o :: us)
  | paren {ts : List Token} : IsExpr ts → IsExpr (.lpar :: (ts ++ [.rpar]))

inductive IsStatement : List Token → Prop
  | expr {ts : List Token} : IsExpr ts → IsStatement ts
  | assign (x : Fin 26) {ts : List Token} : IsExpr ts → IsStatement (.VARIABLE x :: .assign :: ts)

inductive IsProgram : List Token → Prop
  | empty : IsProgram []
  | statement {ts us : List Token} : IsProgram ts → IsStatement us → IsProgram (ts ++ us ++ [.newline])

/-! ## Trees -/

inductive Expr where
  | num (n : Int)
  | var (x : Fin 26)
  | op (o : Op) (a b : Expr)

inductive Stmt where
  | expr (e : Expr)
  | assign (x : Fin 26) (e : Expr)

section
variable (arith : Op → Int → Int → Option Int)

def eval (sym : Fin 26 → Int) : Expr → Option Int
  | .num n => some n
  | .var x => some (sym x)
  | .op o a b => (eval sym a).bind fun u => (eval sym b).bind fun v => arith o u v

/-- A statement prints its value, or assigns it. -/
def exec (m : Mem) : Stmt → Option Mem
  | .expr e => (eval arith m.sym e).map m.print
  | .assign x e => (eval arith m.sym e).map (m.set x)

def execAll (m : Mem) : List Stmt → Option Mem
  | [] => some m
  | s :: ss => (exec arith m s).bind fun m => execAll m ss

theorem execAll_snoc (m : Mem) (ss : List Stmt) (s : Stmt) :
    execAll arith m (ss ++ [s]) = (execAll arith m ss).bind fun m => exec arith m s := by
  induction ss generalizing m with
  | nil => simp [execAll]
  | cons t ss ih =>
    rw [List.cons_append, execAll, execAll]
    cases exec arith m t with
    | none => rfl
    | some m' => exact ih m'

/-- Where arithmetic never traps, neither does an expression. -/
theorem eval_isSome (ht : ∀ o a b, (arith o a b).isSome) (sym : Fin 26 → Int) (e : Expr) : (eval arith sym e).isSome := by
  induction e with
  | num n => rfl
  | var x => rfl
  | op o a b iha ihb =>
    obtain ⟨u, hu⟩ := Option.isSome_iff_exists.mp iha
    obtain ⟨v, hv⟩ := Option.isSome_iff_exists.mp ihb
    simp only [eval, hu, hv, Option.bind_some, ht]

theorem execAll_isSome (ht : ∀ o a b, (arith o a b).isSome) (m : Mem) (ss : List Stmt) : (execAll arith m ss).isSome := by
  induction ss generalizing m with
  | nil => rfl
  | cons s ss ih =>
    have hs : (exec arith m s).isSome := by
      cases s with
      | expr e => rw [exec, Option.isSome_map]; exact eval_isSome arith ht m.sym e
      | assign x e => rw [exec, Option.isSome_map]; exact eval_isSome arith ht m.sym e
    obtain ⟨m', hm⟩ := Option.isSome_iff_exists.mp hs
    rw [execAll, hm, Option.bind_some]
    exact ih m'

end

/-! ## As resolved -/

inductive Renders : Nat → Expr → List Token → Nat → Prop
  | num (n : Int) : Renders 3 (.num n) [.INTEGER n] 1
  | var (x : Fin 26) : Renders 3 (.var x) [.VARIABLE x] 1
  | paren {e : Expr} {ts : List Token} {d : Nat} : Renders 1 e ts d →
      Renders 3 e (.lpar :: (ts ++ [.rpar])) (max (d + 1) 3)
  | op (o : Op) {a b : Expr} {ts us : List Token} {d d' : Nat} : Renders o.prec a ts d → Renders (o.prec + 1) b us d' →
      Renders o.prec (.op o a b) (ts ++ .op o :: us) (max d (d' + 2))
  | loosen {l : Nat} {e : Expr} {ts : List Token} {d : Nat} : Renders (l + 1) e ts d → Renders l e ts d

/-- A statement's line, without its newline, and the stack it takes. -/
inductive RendersStmt : Stmt → List Token → Nat → Prop
  | expr {e : Expr} {ts : List Token} {d : Nat} : Renders 1 e ts d → RendersStmt (.expr e) ts (max (d + 2) 4)
  | assign (x : Fin 26) {e : Expr} {ts : List Token} {d : Nat} : Renders 1 e ts d →
      RendersStmt (.assign x e) (.VARIABLE x :: .assign :: ts) (d + 4)

/-- Statements, one a line. -/
inductive RendersAll : List Stmt → List Token → Nat → Prop
  | nil : RendersAll [] [] 0
  | snoc {ss : List Stmt} {s : Stmt} {ts us : List Token} {d d' : Nat} : RendersAll ss ts d → RendersStmt s us d' →
      RendersAll (ss ++ [s]) (ts ++ us ++ [.newline]) (max d d')

theorem Renders.mono {l l' : Nat} (hl : l' ≤ l) {e : Expr} {ts : List Token} {d : Nat} (h : Renders l e ts d) :
    Renders l' e ts d := by
  induction hl with
  | refl => exact h
  | step _ ih => exact ih h.loosen

theorem Renders.pos {l : Nat} {e : Expr} {ts : List Token} {d : Nat} (h : Renders l e ts d) : 1 ≤ d := by
  induction h with
  | num n => exact Nat.le_refl 1
  | var x => exact Nat.le_refl 1
  | paren _ _ => omega
  | op o _ _ _ _ => omega
  | loosen _ ih => exact ih

/-- Something writes `ts` at level `l`. -/
def Rendered (l : Nat) (ts : List Token) : Prop := ∃ e d, Renders l e ts d

theorem Rendered.mono {l l' : Nat} (hl : l' ≤ l) {ts : List Token} (h : Rendered l ts) : Rendered l' ts := by
  obtain ⟨e, d, h⟩ := h
  exact ⟨e, d, h.mono hl⟩

theorem Rendered.op {o : Op} {ts us : List Token} (h : Rendered o.prec ts) (h' : Rendered (o.prec + 1) us) :
    Rendered o.prec (ts ++ .op o :: us) := by
  obtain ⟨a, d, h⟩ := h
  obtain ⟨b, d', h'⟩ := h'
  exact ⟨_, _, .op o h h'⟩

theorem Op.prec_le (o : Op) : o.prec ≤ 2 := by cases o <;> decide

/-- A right operand of the operator's own level: its first operator goes on top, and so on
    down. -/
theorem Rendered.join {o : Op} {ts us : List Token} (h : Rendered o.prec ts) (h' : Rendered o.prec us) :
    Rendered o.prec (ts ++ .op o :: us) := by
  obtain ⟨b, d', h'⟩ := h'
  have hp := o.prec_le
  generalize hl : o.prec = l at h'
  induction h' with
  | num n => omega
  | var x => omega
  | paren _ _ => omega
  | @op o' a b ts1 ts2 d d' _ h2 ih _ =>
    have h1 := (ih hl).op ⟨_, _, h2⟩
    rwa [List.append_assoc] at h1
  | loosen h1 _ =>
    subst hl
    exact h.op ⟨_, _, h1⟩

/-- A right operand of the loosest level. -/
theorem Rendered.under {o : Op} {ts us : List Token} (h : Rendered o.prec ts) (h' : Rendered 1 us) :
    Rendered 1 (ts ++ .op o :: us) := by
  obtain ⟨b, d', h'⟩ := h'
  generalize hl : 1 = l at h'
  induction h' with
  | num n => omega
  | var x => omega
  | paren _ _ => omega
  | @op o' a b ts1 ts2 d d' _ h2 ih _ =>
    have h1 := (ih hl).op ⟨_, _, h2⟩
    rwa [List.append_assoc] at h1
  | loosen h1 _ =>
    subst hl
    have h2 : Rendered 2 _ := ⟨_, _, h1⟩
    exact (h.join (h2.mono o.prec_le)).mono o.prec_pos

/-- Any two expressions around any operator are an expression. -/
theorem rendered_op (o : Op) {ts us : List Token} (h : Rendered 1 ts) (h' : Rendered 1 us) :
    Rendered 1 (ts ++ .op o :: us) := by
  obtain ⟨a, d, h⟩ := h
  generalize hl : 1 = l at h
  induction h with
  | num n => omega
  | var x => omega
  | paren _ _ => omega
  | @op o' a b ts1 ts2 d d' h1 h2 _ _ =>
    -- the left operand's last operator keeps its own left side
    have hr : Rendered 1 (ts2 ++ .op o :: us) := by
      have h3 : Rendered 2 ts2 := ⟨_, _, by rw [← hl] at h2; exact h2⟩
      exact (h3.mono o.prec_le).under h'
    have h4 := Rendered.under (o := o') ⟨_, _, h1⟩ hr
    rwa [← List.cons_append, ← List.append_assoc, hl] at h4
  | loosen h1 _ =>
    subst hl
    have h2 : Rendered 2 _ := ⟨_, _, h1⟩
    exact (h2.mono o.prec_le).under h'

/-! ## The same sentences -/

theorem Renders.isExpr {l : Nat} {e : Expr} {ts : List Token} {d : Nat} (h : Renders l e ts d) : IsExpr ts := by
  induction h with
  | num n => exact .integer n
  | var x => exact .var x
  | paren _ ih => exact .paren ih
  | op o _ _ ih ih' => exact .op o ih ih'
  | loosen _ ih => exact ih

/-- The grammar as written and as resolved have the same expressions. -/
theorem isExpr_iff {ts : List Token} : IsExpr ts ↔ Rendered 1 ts := by
  constructor
  · intro h
    induction h with
    | integer n => exact ⟨_, _, (Renders.num n).mono (by decide)⟩
    | var x => exact ⟨_, _, (Renders.var x).mono (by decide)⟩
    | op o _ _ ih ih' => exact rendered_op o ih ih'
    | paren _ ih =>
      obtain ⟨e, d, h⟩ := ih
      exact ⟨_, _, h.paren.mono (by decide)⟩
  · intro ⟨e, d, h⟩
    exact h.isExpr

theorem isStatement_iff {ts : List Token} : IsStatement ts ↔ ∃ s d, RendersStmt s ts d := by
  constructor
  · intro h
    cases h with
    | expr h =>
      obtain ⟨e, d, h⟩ := isExpr_iff.mp h
      exact ⟨_, _, .expr h⟩
    | assign x h =>
      obtain ⟨e, d, h⟩ := isExpr_iff.mp h
      exact ⟨_, _, .assign x h⟩
  · intro ⟨s, d, h⟩
    cases h with
    | expr h => exact .expr h.isExpr
    | assign x h => exact .assign x h.isExpr

/-- And the same programs. -/
theorem isProgram_iff {ts : List Token} : IsProgram ts ↔ ∃ ss d, RendersAll ss ts d := by
  constructor
  · intro h
    induction h with
    | empty => exact ⟨_, _, .nil⟩
    | statement _ hs ih =>
      obtain ⟨ss, d, h⟩ := ih
      obtain ⟨s, d', h'⟩ := isStatement_iff.mp hs
      exact ⟨_, _, .snoc h h'⟩
  · intro ⟨ss, d, h⟩
    induction h with
    | nil => exact .empty
    | snoc _ h' ih => exact .statement ih (isStatement_iff.mpr ⟨_, _, h'⟩)

end NetworkCourse.Calc
