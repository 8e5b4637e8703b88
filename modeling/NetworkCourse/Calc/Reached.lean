/-
  NetworkCourse.Calc.Reached — where `yyparse` can be in the middle of a parse.

  On any tokens, and whatever the limit on its stack, it is at its start, up to a
  configuration that the machine gets to, or one shift behind one (`reached`). So what holds
  of the configurations (`Behind`) says what its stacks can hold.
-/

import NetworkCourse.Calc.Accepts

namespace NetworkCourse.Calc

open Lib.Machine

variable {maxdepth : Option Nat} {arith : Op → Int → Int → Option Int} {sym : Fin 26 → Int} {garbage : Int}
  {toks : List Token}

/-- A limit on the stack leads to no other states. -/
theorem goes_unlimited {p q : Yyparse} (h : Goes (step maxdepth arith) p q) : Goes (step none arith) p q := by
  induction h with
  | refl => exact .refl p
  | @tail q q' _ hst ih =>
    rcases @step_agrees maxdepth arith q with heq | ⟨r, hr, -⟩
    · rw [hst] at heq
      exact ih.trans (.one heq.symm)
    · rw [hst] at hr
      cases hr

/-- A parser is up to `k`, or one shift behind such a one. -/
def UpTo (k : Cfg) (p : Yyparse) : Prop := Follows k p ∨ Shifted k p

theorem upTo_step {k : Cfg} {p q : Yyparse} (h : UpTo k p) (hst : step none arith p = .inl q) :
    ∃ k', Goes (fstep arith) k k' ∧ UpTo k' q := by
  rcases h with h | h
  · cases follows_advances arith h (not_exhausted _) with
    | moves hk hst' hf =>
      rw [hst] at hst'
      cases hst'
      exact ⟨_, .one hk, Or.inl hf⟩
    | shifts hst' hs =>
      rw [hst] at hst'
      cases hst'
      exact ⟨k, .refl k, Or.inr hs⟩
    | halts hk hst' hr =>
      rw [hst] at hst'
      cases hst'
  · obtain ⟨k', q', hk, hst', hf⟩ := shifted_moves arith h (not_exhausted _)
    rw [hst] at hst'
    cases hst'
    exact ⟨k', .one hk, Or.inl hf⟩

theorem reached {p : Yyparse} (h : Goes (step maxdepth arith) (start (List.ofFn sym) garbage toks) p) :
    p = start (List.ofFn sym) garbage toks ∨ ∃ k, Goes (fstep arith) (.want .stmt toks ⟨sym, []⟩) k ∧ UpTo k p := by
  refine (goes_unlimited h).keeps (P := fun p => p = start (List.ofFn sym) garbage toks ∨
    ∃ k, Goes (fstep arith) (.want .stmt toks ⟨sym, []⟩) k ∧ UpTo k p) ?_ (Or.inl rfl)
  intro p q hp hst
  rcases hp with rfl | ⟨k, hk, hu⟩
  · obtain ⟨q', hst', hf⟩ := start_step (not_exhausted 1) sym garbage toks
    rw [hst] at hst'
    cases hst'
    exact Or.inr ⟨_, .refl _, Or.inl hf⟩
  · obtain ⟨k', hk', hu'⟩ := upTo_step hu hst
    exact Or.inr ⟨k', hk.trans hk', hu'⟩

theorem reached_behind {p : Yyparse} (h : Goes (step maxdepth arith) (start (List.ofFn sym) garbage toks) p) :
    p = start (List.ofFn sym) garbage toks ∨ ∃ k, Behind arith toks ⟨sym, []⟩ k ∧ UpTo k p := by
  rcases reached h with hp | ⟨k, hk, hu⟩
  · exact Or.inl hp
  · exact Or.inr ⟨k, behind_run hk (behind_start toks _), hu⟩

end NetworkCourse.Calc
