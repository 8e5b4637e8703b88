/-
  NetworkCourse.Calc.Turns — how many turns the loop of `yyparse` takes.

  Each token costs the turn that shifts it and those of the reductions it leads to
  (`Token.turns`). What a configuration of the machine still costs, its tokens and the operators
  that wait (`Cfg.left`), goes down by one with each turn, whatever the input is; so `yyparse` on its
  arrays ends within three turns more than its tokens cost, and accepts with two
  (`arrays_turns`). No input takes it more than a linear time.
-/

import NetworkCourse.Calc.Arrays

namespace NetworkCourse.Calc

open Lib.Machine

/-! ## What is left -/

/-- The turns a token costs. A variable is reduced unless it is assigned to, which `=` makes up
    for; a newline has the line's statement reduced, and the line. -/
def Token.turns : Token → Nat
  | .INTEGER _ | .VARIABLE _ | .op _ | .rpar => 2
  | .assign => 0
  | .lpar => 1
  | .newline => 3

def turns (toks : List Token) : Nat := (toks.map Token.turns).sum

theorem turns_cons (t : Token) (rest : List Token) : turns (t :: rest) = t.turns + turns rest := List.sum_cons

/-- The operators that are not applied yet. -/
def Ctx.waiting : Ctx → Nat
  | .stmt | .assign _ => 0
  | .paren c => c.waiting
  | .binary _ c _ => c.waiting + 1

def Cfg.left : Cfg → Nat
  | .want c rest _ => turns rest + c.waiting + 1
  | .after c _ rest _ => turns rest + c.waiting + 1
  | .done rest _ => turns rest

/-- A parser that has `n` turns left: one that is up to a configuration, or a turn behind one. -/
def Left (n : Nat) (p : Yyparse) : Prop := ∃ k, Follows k p ∧ n = k.left ∨ Shifted k p ∧ n + 1 = k.left

variable {arith : Op → Int → Int → Option Int} {k k' : Cfg} {p q : Yyparse}

/-- The state on top. -/
def Cfg.top : Cfg → Nat
  | .want c _ _ => c.entry
  | .after c _ _ _ => c.hold
  | .done _ _ => 6

theorem follows_top (h : Follows k p) : p.yyss.head? = some k.top := by
  cases k with
  | want c rest m =>
    obtain ⟨vs, -, h⟩ := h
    rw [h.yyss]
    rfl
  | after c v rest m =>
    obtain ⟨vs, -, h⟩ := h
    rw [h.yyss]
    rfl
  | done rest m =>
    obtain ⟨v, a, b, h⟩ := h
    rw [h.yyss]
    rfl

/-- A shift puts its state on top. -/
theorem shift_top {s n : Nat} {ss : List Nat} {vs : List Int} {t : Token} {rest : List Token} {e : Env}
    (h : At p (s :: ss) vs (t :: rest) e) (ha : action s (some t) = .shift n) (hst : step none arith p = .inl q) :
    q.yyss.head? = some n := by
  obtain ⟨q', v, hst', -, hq⟩ := step_shift arith h (not_exhausted _) ha
  rw [hst] at hst'
  cases hst'
  rw [hq.yyss]
  rfl

/-- No state behind an operand is one that a token of two turns is shifted to. -/
theorem hold_ne (c : Ctx) : c.hold ≠ 3 ∧ c.hold ≠ 4 ∧ c.hold ≠ 9 ∧ c.hold ≠ 17 := by
  cases c with
  | binary o _ _ => cases o <;> simp [Ctx.hold, Op.index]
  | _ => simp [Ctx.hold]

/-- A turn that is a whole move takes one off. -/
theorem moves_left (h : Follows k p) (hst : step none arith p = .inl q) (hk : fstep arith k = .inl k') (hq : Follows k' q) :
    k.left = k'.left + 1 := by
  have htop := follows_top hq
  cases fstep_moves arith hk with
  | @integer c n rest m =>
    obtain ⟨vs, -, h⟩ := h
    rw [shift_top h (action_integer c n) hst] at htop
    exact absurd (Option.some.inj htop).symm (hold_ne c).1
  | @var c x rest m hn =>
    obtain ⟨vs, -, h⟩ := h
    rw [shift_top h (action_variable c x) hst] at htop
    have hc := (Option.some.inj htop).symm
    split at hc
    · exact absurd hc (hold_ne c).2.1
    · exact absurd hc (hold_ne c).2.2.1
  | @assign x rest m =>
    obtain ⟨vs, -, h⟩ := h
    rw [shift_top h (action_variable .stmt x) hst] at htop
    cases htop
  | @rpar c v rest m =>
    obtain ⟨vs, -, h⟩ := h
    rw [shift_top h (action_rpar c) hst] at htop
    exact absurd (Option.some.inj htop).symm (hold_ne c).2.2.2
  | newline =>
    obtain ⟨v, a, b, h⟩ := h
    rw [shift_top h (show action 6 (some .newline) = .shift 11 from rfl) hst] at htop
    cases htop
  | lpar => simp only [Cfg.left, Ctx.waiting, turns_cons, Token.turns]; omega
  | op _ => simp only [Cfg.left, Ctx.waiting, turns_cons, Token.turns]; omega
  | print => rfl
  | set => rfl
  | apply _ _ => rfl

/-- A move of two turns takes two off. -/
theorem shifted_left (h : Shifted k p) (hk : fstep arith k = .inl k') : k.left = k'.left + 2 := by
  cases h with
  | integer _ _ =>
    cases hk
    simp only [Cfg.left, turns_cons, Token.turns]
    omega
  | var _ hn _ =>
    rw [fstep_variable arith hn] at hk
    cases hk
    simp only [Cfg.left, turns_cons, Token.turns]
    omega
  | assign _ _ =>
    rw [fstep_assign] at hk
    cases hk
    simp only [Cfg.left, Ctx.waiting, turns_cons, Token.turns]
    omega
  | rpar _ _ =>
    rw [fstep_close arith (by simp), close_rpar] at hk
    cases hk
    simp only [Cfg.left, Ctx.waiting, turns_cons, Token.turns]
    omega
  | newline _ =>
    cases hk
    simp only [Cfg.left, Ctx.waiting, turns_cons, Token.turns]
    omega

/-! ## Turns -/

/-- Each turn takes one off. -/
theorem left_step {n : Nat} (h : Left n p) (hst : step none arith p = .inl q) : ∃ m, n = m + 1 ∧ Left m q := by
  obtain ⟨k, ⟨hf, rfl⟩ | ⟨hs, hn⟩⟩ := h
  · cases follows_advances arith hf (not_exhausted _) with
    | @moves k' q' hk hst' hq =>
      rw [hst] at hst'
      cases hst'
      exact ⟨k'.left, moves_left hf hst hk hq, k', Or.inl ⟨hq, rfl⟩⟩
    | @shifts q' hst' hs =>
      rw [hst] at hst'
      cases hst'
      obtain ⟨k', -, hk, -⟩ := shifted_moves arith hs (not_exhausted _)
      have hleft := shifted_left hs hk
      exact ⟨k.left - 1, by omega, k, Or.inr ⟨hs, by omega⟩⟩
    | halts _ hst' _ =>
      rw [hst] at hst'
      cases hst'
  · obtain ⟨k', q', hk, hst', hq⟩ := shifted_moves arith hs (not_exhausted _)
    rw [hst] at hst'
    cases hst'
    have hleft := shifted_left hs hk
    exact ⟨k'.left, by omega, k', Or.inl ⟨hq, rfl⟩⟩

theorem left_upTo {n : Nat} (h : Left n p) : ∃ k, UpTo k p ∧ ∀ o, fstep arith k = .inr o → n = k.left := by
  obtain ⟨k, ⟨hf, rfl⟩ | ⟨hs, hn⟩⟩ := h
  · exact ⟨k, Or.inl hf, fun _ _ => rfl⟩
  · refine ⟨k, Or.inr hs, ?_⟩
    intro o ho
    obtain ⟨k', -, hk, -⟩ := shifted_moves arith hs (not_exhausted _)
    rw [ho] at hk
    cases hk

variable {malloc : Nat → Option (List Int × List Int)}

/-- On the arrays too. -/
theorem arrays_left (hm : Mallocs malloc) {n : Nat} {a : Arrays} (hs : Sound a) (h : Left n a.view) :
    (∀ a', arraysStep malloc arith a = .inl a' → ∃ m, n = m + 1 ∧ Sound a' ∧ Left m a'.view) ∧
      ∀ x, arraysStep malloc arith a = .inr x → ∀ a', x = .ret 0 a' → n = 1 := by
  obtain ⟨k, hu, hn⟩ := @left_upTo arith _ _ h
  rcases @arrays_cases arith k malloc a hm hs hu with
    ⟨a', k', hst, hlist, hs', -, -⟩ | ⟨x, o, hst, hk, hans⟩ | ⟨x, hst, hsp⟩
  · rw [hst]
    refine ⟨?_, fun x hx => by cases hx⟩
    intro a'' ha
    cases ha
    obtain ⟨m, hm, hl⟩ := left_step h hlist
    exact ⟨m, hm, hs', hl⟩
  · rw [hst]
    refine ⟨fun a' ha => (by cases ha), ?_⟩
    intro x' hx a' ha
    cases hx
    subst ha
    cases hans with
    | accept _ _ =>
      rw [hn _ hk]
      cases fstep_halts arith hk
      rfl
  · rw [hst]
    refine ⟨fun a' ha => (by cases ha), ?_⟩
    intro x' hx a' ha
    cases hx
    obtain ⟨b, hret, -⟩ := hsp.ends
    rw [hret] at ha
    cases ha

/-- The turns of `yyparse`, whatever its arrays hold at first and whatever memory there is: what its tokens
    cost and two more when it accepts, at most three more when it does not. -/
theorem arrays_turns (hm : Mallocs malloc) (arith : Op → Int → Int → Option Int) {yyssa yyvsa : List Int}
    (hss : yyssa.length = YYINITDEPTH) (hvs : yyvsa.length = YYINITDEPTH) (yylval : Int) (sym : Fin 26 → Int) (toks : List Token) :
    ∃ n x, EndsIn (arraysStep malloc arith) n (.start yyssa yyvsa yylval (List.ofFn sym) toks) x ∧ n ≤ turns toks + 3 ∧
      ∀ a, x = .ret 0 a → n = turns toks + 2 := by
  obtain ⟨a, hst, hs, hf⟩ := @arrays_first arith malloc yyssa yyvsa hss hvs yylval sym toks
  have hleft : Left (turns toks + 1) a.view := ⟨_, Or.inl ⟨hf, rfl⟩⟩
  obtain ⟨m, left, x, he, hn, hgood⟩ := @ends_in_of_left _ _ (arraysStep malloc arith) (fun n a => Sound a ∧ Left n a.view)
    (fun n x => ∀ a, x = .ret 0 a → n = 1) (fun n a a' h => (arrays_left hm h.1 h.2).1 a')
    (fun n a x h => (arrays_left hm h.1 h.2).2 x) _ _ ⟨hs, hleft⟩
  refine ⟨m + 1 + 1, x, he.next hst, by omega, ?_⟩
  intro b hb
  have := hgood b hb
  omega

/-- Twelve turns at most for `1+2` and a newline, eleven when it is accepted. -/
theorem arrays_turns_sum :
    ∃ n x, EndsIn (arraysStep (fun _ => none) intArith) n
        (.start (List.replicate 200 5) (List.replicate 200 5) 3 (List.ofFn sym0) [.INTEGER 1, .op .plus, .INTEGER 2, .newline]) x ∧
      n ≤ 12 ∧ ∀ a, x = .ret 0 a → n = 11 :=
  arrays_turns (fun _ _ _ h => by cases h) intArith List.length_replicate List.length_replicate 3 sym0 _

end NetworkCourse.Calc
