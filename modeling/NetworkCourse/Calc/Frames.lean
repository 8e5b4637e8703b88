/-
  NetworkCourse.Calc.Frames — the parser without its tables.

  What the parser's stack says is a `Ctx`: the statement begun, the open parentheses, and
  the operators that wait for their right operand, each with its left one. The machine
  `fstep` reads an operand in a context (`want`), goes on behind one (`after`), or closes a
  statement (`done`). An operator is taken when it binds tighter than the innermost
  waiting one; else that one is applied.

  `Moves` and `Halts` are what a step can do (`fstep_moves`, `fstep_halts`). Each step
  lowers a measure, so the machine always ends (`fstep_ends`).
-/

import NetworkCourse.Calc.Tables
import NetworkCourse.Lib.Machine
import Mathlib.Logic.Function.Basic

namespace NetworkCourse.Calc

open Lib.Machine

/-- `%left`, the later line binding tighter. -/
def Op.prec : Op → Nat
  | .plus | .minus => 1
  | .times | .divide => 2

theorem Op.prec_pos (o : Op) : 0 < o.prec := by cases o <;> decide

inductive Ctx where
  | stmt
  | assign (x : Fin 26)
  | paren (c : Ctx)
  | binary (o : Op) (c : Ctx) (a : Int)
  deriving DecidableEq

/-- The operators a context still takes bind tighter than this. -/
def Ctx.prec : Ctx → Nat
  | .binary o _ _ => o.prec
  | _ => 0

/-- The variables, and what was printed. -/
structure Mem where
  sym : Fin 26 → Int
  stdout : List Int

def Mem.print (m : Mem) (v : Int) : Mem := { m with stdout := m.stdout ++ [v] }
def Mem.set (m : Mem) (x : Fin 26) (v : Int) : Mem := { m with sym := Function.update m.sym x v }

/-- `int sym[26]` before the first statement. -/
def sym0 : Fin 26 → Int := fun _ => 0

inductive Cfg where
  | want (c : Ctx) (rest : List Token) (m : Mem)
  | after (c : Ctx) (v : Int) (rest : List Token) (m : Mem)
  | done (rest : List Token) (m : Mem)

inductive Outcome where
  | accept (m : Mem)
  | error (rest : List Token) (m : Mem)
  | trap (m : Mem)

variable (arith : Op → Int → Int → Option Int)

/-- Behind an operand that no operator takes. -/
def close (c : Ctx) (v : Int) (rest : List Token) (m : Mem) : Cfg ⊕ Outcome :=
  match c with
  | .stmt => .inl (.done rest (m.print v))
  | .assign x => .inl (.done rest (m.set x v))
  | .paren c => if rest.head? = some .rpar then .inl (.after c v rest.tail m) else .inr (.error rest m)
  | .binary o c a =>
    match arith o a v with
    | some w => .inl (.after c w rest m)
    | none => .inr (.trap m)

def fstep : Cfg → Cfg ⊕ Outcome
  | .want c (.INTEGER n :: rest) m => .inl (.after c n rest m)
  | .want c (.VARIABLE x :: rest) m =>
    if c = .stmt ∧ rest.head? = some .assign then .inl (.want (.assign x) rest.tail m)
    else .inl (.after c (m.sym x) rest m)
  | .want c (.lpar :: rest) m => .inl (.want (.paren c) rest m)
  | .want c rest m => if c = .stmt ∧ rest = [] then .inr (.accept m) else .inr (.error rest m)
  | .after c v (.op o :: rest) m =>
    if c.prec < o.prec then .inl (.want (.binary o c v) rest m) else close arith c v (.op o :: rest) m
  | .after c v rest m => close arith c v rest m
  | .done (.newline :: rest) m => .inl (.want .stmt rest m)
  | .done rest m => .inr (.error rest m)

section
variable {c : Ctx} {v : Int} {x : Fin 26} {o : Op} {rest : List Token} {m : Mem}

theorem fstep_integer {n : Int} : fstep arith (.want c (.INTEGER n :: rest) m) = .inl (.after c n rest m) := rfl

theorem fstep_variable (h : ¬ (c = .stmt ∧ rest.head? = some .assign)) :
    fstep arith (.want c (.VARIABLE x :: rest) m) = .inl (.after c (m.sym x) rest m) := if_neg h

theorem fstep_assign : fstep arith (.want .stmt (.VARIABLE x :: .assign :: rest) m) = .inl (.want (.assign x) rest m) := rfl

theorem fstep_lpar : fstep arith (.want c (.lpar :: rest) m) = .inl (.want (.paren c) rest m) := rfl

theorem fstep_end : fstep arith (.want .stmt [] m) = .inr (.accept m) := rfl

theorem fstep_op (h : c.prec < o.prec) :
    fstep arith (.after c v (.op o :: rest) m) = .inl (.want (.binary o c v) rest m) := if_pos h

theorem fstep_close (h : ∀ o, rest.head? = some (.op o) → ¬ c.prec < o.prec) :
    fstep arith (.after c v rest m) = close arith c v rest m := by
  cases rest with
  | nil => rfl
  | cons t rest =>
    cases t with
    | op o => exact if_neg (h o rfl)
    | _ => rfl

theorem close_rpar : close arith (.paren c) v (.rpar :: rest) m = .inl (.after c v rest m) := rfl

theorem close_paren (h : rest.head? ≠ some .rpar) : close arith (.paren c) v rest m = .inr (.error rest m) := if_neg h

theorem close_binary {a w : Int} (h : arith o a v = some w) :
    close arith (.binary o c a) v rest m = .inl (.after c w rest m) := by
  simp only [close, h]

theorem close_trap {a : Int} (h : arith o a v = none) : close arith (.binary o c a) v rest m = .inr (.trap m) := by
  simp only [close, h]

theorem fstep_done (h : rest.head? ≠ some .newline) : fstep arith (.done rest m) = .inr (.error rest m) := by
  cases rest with
  | nil => rfl
  | cons t rest =>
    cases t with
    | newline => exact absurd rfl h
    | _ => rfl

end

/-! ## What a step does -/

/-- An operand begins here. -/
inductive Starts : List Token → Prop
  | integer (n : Int) (rest : List Token) : Starts (.INTEGER n :: rest)
  | var (x : Fin 26) (rest : List Token) : Starts (.VARIABLE x :: rest)
  | lpar (rest : List Token) : Starts (.lpar :: rest)

inductive Moves : Cfg → Cfg → Prop
  | integer {c : Ctx} {n : Int} {rest : List Token} {m : Mem} : Moves (.want c (.INTEGER n :: rest) m) (.after c n rest m)
  | var {c : Ctx} {x : Fin 26} {rest : List Token} {m : Mem} : ¬ (c = .stmt ∧ rest.head? = some .assign) →
      Moves (.want c (.VARIABLE x :: rest) m) (.after c (m.sym x) rest m)
  | assign {x : Fin 26} {rest : List Token} {m : Mem} :
      Moves (.want .stmt (.VARIABLE x :: .assign :: rest) m) (.want (.assign x) rest m)
  | lpar {c : Ctx} {rest : List Token} {m : Mem} : Moves (.want c (.lpar :: rest) m) (.want (.paren c) rest m)
  | op {c : Ctx} {v : Int} {o : Op} {rest : List Token} {m : Mem} : c.prec < o.prec →
      Moves (.after c v (.op o :: rest) m) (.want (.binary o c v) rest m)
  | print {v : Int} {rest : List Token} {m : Mem} : Moves (.after .stmt v rest m) (.done rest (m.print v))
  | set {x : Fin 26} {v : Int} {rest : List Token} {m : Mem} : Moves (.after (.assign x) v rest m) (.done rest (m.set x v))
  | rpar {c : Ctx} {v : Int} {rest : List Token} {m : Mem} : Moves (.after (.paren c) v (.rpar :: rest) m) (.after c v rest m)
  | apply {o : Op} {c : Ctx} {a v w : Int} {rest : List Token} {m : Mem} :
      (∀ o', rest.head? = some (.op o') → o'.prec ≤ o.prec) → arith o a v = some w →
      Moves (.after (.binary o c a) v rest m) (.after c w rest m)
  | newline {rest : List Token} {m : Mem} : Moves (.done (.newline :: rest) m) (.want .stmt rest m)

inductive Halts : Cfg → Outcome → Prop
  | accept {m : Mem} : Halts (.want .stmt [] m) (.accept m)
  | want {c : Ctx} {rest : List Token} {m : Mem} : ¬ Starts rest → ¬ (c = .stmt ∧ rest = []) →
      Halts (.want c rest m) (.error rest m)
  | paren {c : Ctx} {v : Int} {rest : List Token} {m : Mem} : rest.head? ≠ some .rpar →
      Halts (.after (.paren c) v rest m) (.error rest m)
  | trap {o : Op} {c : Ctx} {a v : Int} {rest : List Token} {m : Mem} : arith o a v = none →
      Halts (.after (.binary o c a) v rest m) (.trap m)
  | done {rest : List Token} {m : Mem} : rest.head? ≠ some .newline → Halts (.done rest m) (.error rest m)

theorem close_moves {c : Ctx} {v : Int} {rest : List Token} {m : Mem} {k : Cfg}
    (ho : ∀ o, rest.head? = some (.op o) → ¬ c.prec < o.prec) (h : close arith c v rest m = .inl k) :
    Moves arith (.after c v rest m) k := by
  cases c with
  | stmt => cases h; exact .print
  | assign x => cases h; exact .set
  | paren c =>
    by_cases hr : rest.head? = some .rpar
    · obtain ⟨rest, rfl⟩ := List.head?_eq_some_iff.mp hr
      cases h
      exact .rpar
    · rw [close_paren arith hr] at h
      cases h
  | binary o c a =>
    cases hw : arith o a v with
    | some w =>
      rw [close_binary arith hw] at h
      cases h
      apply Moves.apply _ hw
      intro o' ho'
      exact Nat.le_of_not_lt (ho o' ho')
    | none =>
      rw [close_trap arith hw] at h
      cases h

theorem close_halts {c : Ctx} {v : Int} {rest : List Token} {m : Mem} {r : Outcome} (h : close arith c v rest m = .inr r) :
    Halts arith (.after c v rest m) r := by
  cases c with
  | stmt => cases h
  | assign x => cases h
  | paren c =>
    by_cases hr : rest.head? = some .rpar
    · obtain ⟨rest, rfl⟩ := List.head?_eq_some_iff.mp hr
      cases h
    · rw [close_paren arith hr] at h
      cases h
      exact .paren hr
  | binary o c a =>
    cases hw : arith o a v with
    | some w =>
      rw [close_binary arith hw] at h
      cases h
    | none =>
      rw [close_trap arith hw] at h
      cases h
      exact .trap hw

theorem fstep_want (c : Ctx) (m : Mem) {rest : List Token} (h : Starts rest) :
    ∃ k, fstep arith (.want c rest m) = .inl k ∧ Moves arith (.want c rest m) k := by
  cases h with
  | integer n rest => exact ⟨_, fstep_integer arith, .integer⟩
  | var x rest =>
    by_cases hc : c = .stmt ∧ rest.head? = some .assign
    · obtain ⟨rfl, ha⟩ := hc
      obtain ⟨rest, rfl⟩ := List.head?_eq_some_iff.mp ha
      exact ⟨_, fstep_assign arith, .assign⟩
    · exact ⟨_, fstep_variable arith hc, .var hc⟩
  | lpar rest => exact ⟨_, fstep_lpar arith, .lpar⟩

theorem fstep_stop {c : Ctx} {m : Mem} {rest : List Token} (h : ¬ Starts rest) :
    fstep arith (.want c rest m) = if c = .stmt ∧ rest = [] then .inr (.accept m) else .inr (.error rest m) := by
  cases rest with
  | nil => rfl
  | cons t rest =>
    cases t with
    | INTEGER n => exact absurd (.integer n rest) h
    | VARIABLE x => exact absurd (.var x rest) h
    | lpar => exact absurd (.lpar rest) h
    | _ => rfl

/-- Behind an operand, an operator is taken or the context closes. -/
theorem fstep_after (c : Ctx) (v : Int) (rest : List Token) (m : Mem) :
    (∃ o rest', rest = .op o :: rest' ∧ c.prec < o.prec) ∨
      (∀ o, rest.head? = some (.op o) → ¬ c.prec < o.prec) ∧ fstep arith (.after c v rest m) = close arith c v rest m := by
  by_cases hop : ∃ o, rest.head? = some (.op o) ∧ c.prec < o.prec
  · obtain ⟨o, ho, hlt⟩ := hop
    obtain ⟨rest', rfl⟩ := List.head?_eq_some_iff.mp ho
    exact Or.inl ⟨o, rest', rfl, hlt⟩
  · have hno : ∀ o, rest.head? = some (.op o) → ¬ c.prec < o.prec := by
      intro o ho hlt
      exact hop ⟨o, ho, hlt⟩
    exact Or.inr ⟨hno, fstep_close arith hno⟩

theorem fstep_moves {k k' : Cfg} (h : fstep arith k = .inl k') : Moves arith k k' := by
  cases k with
  | want c rest m =>
    by_cases hs : Starts rest
    · obtain ⟨k, hk, hm⟩ := fstep_want arith c m hs
      rw [hk] at h
      cases h
      exact hm
    · rw [fstep_stop arith hs] at h
      split at h <;> cases h
  | after c v rest m =>
    rcases fstep_after arith c v rest m with ⟨o, rest', rfl, hlt⟩ | ⟨hno, hc⟩
    · rw [fstep_op arith hlt] at h
      cases h
      exact .op hlt
    · rw [hc] at h
      exact close_moves arith hno h
  | done rest m =>
    by_cases hn : rest.head? = some .newline
    · obtain ⟨rest, rfl⟩ := List.head?_eq_some_iff.mp hn
      cases h
      exact .newline
    · rw [fstep_done arith hn] at h
      cases h

theorem fstep_halts {k : Cfg} {r : Outcome} (h : fstep arith k = .inr r) : Halts arith k r := by
  cases k with
  | want c rest m =>
    by_cases hs : Starts rest
    · obtain ⟨k, hk, -⟩ := fstep_want arith c m hs
      rw [hk] at h
      cases h
    · rw [fstep_stop arith hs] at h
      split at h
      · next hc =>
        obtain ⟨rfl, rfl⟩ := hc
        cases h
        exact .accept
      · next hc =>
        cases h
        exact .want hs hc
  | after c v rest m =>
    rcases fstep_after arith c v rest m with ⟨o, rest', rfl, hlt⟩ | ⟨hno, hc⟩
    · rw [fstep_op arith hlt] at h
      cases h
    · rw [hc] at h
      exact close_halts arith h
  | done rest m =>
    by_cases hn : rest.head? = some .newline
    · obtain ⟨rest, rfl⟩ := List.head?_eq_some_iff.mp hn
      cases h
    · rw [fstep_done arith hn] at h
      cases h
      exact .done hn

/-! ## It always ends -/

def Ctx.size : Ctx → Nat
  | .stmt | .assign _ => 1
  | .paren c => c.size + 1
  | .binary _ c _ => c.size + 1

/-- Each step reads a token or closes a frame. -/
def Cfg.measure : Cfg → Nat
  | .want c rest _ => 2 * rest.length + c.size
  | .after c _ rest _ => 2 * rest.length + c.size
  | .done rest _ => 2 * rest.length

theorem fstep_measure (k k' : Cfg) (h : fstep arith k = .inl k') : k'.measure < k.measure := by
  cases fstep_moves arith h <;> simp only [Cfg.measure, Ctx.size, List.length_cons] <;> omega

theorem fstep_ends (k : Cfg) : ∃ r, Ends (fstep arith) k r := ends_of_measure Cfg.measure (fstep_measure arith) k

end NetworkCourse.Calc
