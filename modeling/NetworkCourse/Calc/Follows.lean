/-
  NetworkCourse.Calc.Follows — `yyparse` follows the machine of `Frames`.

  `Follows k p` says that the parser's stacks are those of the configuration `k`: a context
  has its states (`Ctx.under`, `Ctx.entry`, `Ctx.hold`) and its values. The tables act on
  them as the machine does (the `action_` lemmas). A step of the parser is a step of the
  machine or half of one, with a parser that is `Shifted` in between (`follows_advances`,
  `shifted_moves`), so `yyparse` follows `fstep` as long as its stack has `room`
  (`yyparse_follows`).
-/

import NetworkCourse.Calc.Parser
import NetworkCourse.Calc.Frames
import Mathlib.Data.List.OfFn

namespace NetworkCourse.Calc

open Lib.Machine

variable (maxdepth : Option Nat) (arith : Op → Int → Int → Option Int)

def Mem.env (m : Mem) : Env := ⟨List.ofFn m.sym, m.stdout⟩

/-! ## The stack of a context -/

def Op.index : Op → Nat
  | .plus => 0
  | .minus => 1
  | .times => 2
  | .divide => 3

/-- The state that wants the operand. -/
def Ctx.entry : Ctx → Nat
  | .stmt => 1
  | .assign _ => 8
  | .paren _ => 5
  | .binary o _ _ => 12 + o.index

/-- The state behind the operand. -/
def Ctx.hold : Ctx → Nat
  | .stmt => 7
  | .assign _ => 16
  | .paren _ => 10
  | .binary o _ _ => 18 + o.index

def Ctx.under : Ctx → List Nat
  | .stmt => [0]
  | .assign _ => [4, 1, 0]
  | .paren c => c.entry :: c.under
  | .binary _ c _ => c.hold :: c.entry :: c.under

/-- The values of a context: operands and variables, and anything for the rest. -/
inductive Values : Ctx → List Int → Prop
  | stmt (a b : Int) : Values .stmt [a, b]
  | assign (x : Fin 26) (a b d : Int) : Values (.assign x) [d, x.val, a, b]
  | paren {c : Ctx} {vs : List Int} (d : Int) : Values c vs → Values (.paren c) (d :: vs)
  | binary {c : Ctx} {vs : List Int} (o : Op) (a d : Int) : Values c vs → Values (.binary o c a) (d :: a :: vs)

theorem goto_expr {r : Nat} (hr : yyr1 r = 16) (c : Ctx) : goto r c.entry = c.hold := by
  unfold goto
  rw [hr]
  cases c with
  | binary o _ _ => cases o <;> rfl
  | _ => rfl

theorem action_integer (c : Ctx) (n : Int) : action c.entry (some (.INTEGER n)) = .shift 3 := by
  cases c with
  | binary o _ _ => cases o <;> rfl
  | _ => rfl

theorem action_variable (c : Ctx) (x : Fin 26) :
    action c.entry (some (.VARIABLE x)) = .shift (if c = .stmt then 4 else 9) := by
  cases c with
  | binary o _ _ => cases o <;> rfl
  | _ => rfl

theorem action_lpar (c : Ctx) : action c.entry (some .lpar) = .shift 5 := by
  cases c with
  | binary o _ _ => cases o <;> rfl
  | _ => rfl

/-- No other token begins an operand. -/
theorem action_want {c : Ctx} {rest : List Token} (hs : ¬ Starts rest) :
    action c.entry rest.head? = if c = .stmt ∧ rest = [] then .accept else .error := by
  cases rest with
  | nil =>
    cases c with
    | binary o _ _ => cases o <;> rfl
    | _ => rfl
  | cons t rest =>
    rw [if_neg (by simp)]
    cases t with
    | INTEGER n => exact absurd (.integer n rest) hs
    | VARIABLE x => exact absurd (.var x rest) hs
    | lpar => exact absurd (.lpar rest) hs
    | op o =>
      cases c with
      | binary o' _ _ => cases o <;> cases o' <;> rfl
      | _ => cases o <;> rfl
    | _ =>
      cases c with
      | binary o _ _ => cases o <;> rfl
      | _ => rfl

theorem action_op {c : Ctx} {o : Op} (h : c.prec < o.prec) : action c.hold (some (.op o)) = .shift (12 + o.index) := by
  cases c with
  | binary o' _ _ =>
    change o'.prec < o.prec at h
    cases o <;> cases o' <;> first | rfl | exact absurd h (by decide)
  | _ => cases o <;> rfl

/-- The rule a context closes by. -/
def Ctx.rule : Ctx → Nat
  | .stmt => 4
  | .assign _ => 5
  | .paren _ => 12
  | .binary o _ _ => 8 + o.index

theorem action_close {c : Ctx} {look : Option Token} (hp : ∀ c', c ≠ .paren c')
    (h : ∀ o, look = some (.op o) → ¬ c.prec < o.prec) : action c.hold look = .reduce c.rule := by
  cases look with
  | none =>
    cases c with
    | paren c' => exact absurd rfl (hp c')
    | binary o _ _ => cases o <;> rfl
    | _ => rfl
  | some t =>
    cases t with
    | op o =>
      have ho := h o rfl
      cases c with
      | paren c' => exact absurd rfl (hp c')
      | binary o' _ _ =>
        change ¬ o'.prec < o.prec at ho
        cases o <;> cases o' <;> first | rfl | exact absurd (by decide) ho
      | _ => exact absurd o.prec_pos ho
    | _ =>
      cases c with
      | paren c' => exact absurd rfl (hp c')
      | binary o' _ _ => cases o' <;> rfl
      | _ => rfl

theorem action_rpar (c : Ctx) : action (Ctx.paren c).hold (some .rpar) = .shift 17 := rfl

theorem action_paren {c : Ctx} {look : Option Token} (ho : ∀ o, look ≠ some (.op o)) (hp : look ≠ some .rpar) :
    action (Ctx.paren c).hold look = .error := by
  cases look with
  | none => rfl
  | some t =>
    cases t with
    | op o => exact absurd rfl (ho o)
    | rpar => exact absurd rfl hp
    | _ => rfl

/-- A state with no choice. -/
theorem action_default {s : Nat} (h : yypact s = YYPACT_NINF) (look : Option Token) : action s look = yydefault s :=
  if_pos h

/-- A variable on its own is an operand. -/
theorem action_lone {look : Option Token} (h : look ≠ some .assign) : action 4 look = .reduce 7 := by
  cases look with
  | none => rfl
  | some t =>
    cases t with
    | assign => exact absurd rfl h
    | op o => cases o <;> rfl
    | _ => rfl

theorem action_operand {c : Ctx} {rest : List Token} (h : ¬ (c = .stmt ∧ rest.head? = some .assign)) :
    action (if c = .stmt then 4 else 9) rest.head? = .reduce 7 := by
  by_cases hc : c = .stmt
  · rw [if_pos hc]
    exact action_lone fun ha => h ⟨hc, ha⟩
  · rw [if_neg hc]
    exact action_default rfl _

theorem action_done {look : Option Token} (h : look ≠ some .newline) : action 6 look = .error := by
  cases look with
  | none => rfl
  | some t =>
    cases t with
    | newline => exact absurd rfl h
    | op o => cases o <;> rfl
    | _ => rfl

/-! ## What the parser is up to -/

/-- Entries the stack needs until the next configuration. -/
def Cfg.room : Cfg → Nat
  | .want c _ _ => c.under.length + 2
  | .after (.paren c) _ _ _ => (Ctx.paren c).under.length + 3
  | .after c _ _ _ => c.under.length + 2
  | .done _ _ => 4

/-- A parser that is up to `k`. -/
def Follows : Cfg → Yyparse → Prop
  | .want c rest m, p => ∃ vs, Values c vs ∧ At p (c.entry :: c.under) vs rest m.env
  | .after c v rest m, p => ∃ vs, Values c vs ∧ At p (c.hold :: c.entry :: c.under) (v :: vs) rest m.env
  | .done rest m, p => ∃ v a b, At p [6, 1, 0] [v, a, b] rest m.env

/-- A parser one shift behind one that is up to `k`, where the machine's next step is two of the
    parser's. -/
inductive Shifted : Cfg → Yyparse → Prop
  | integer {c : Ctx} {vs : List Int} {n : Int} {rest : List Token} {m : Mem} {q : Yyparse} : Values c vs →
      At q (3 :: c.entry :: c.under) (n :: vs) rest m.env → Shifted (.want c (.INTEGER n :: rest) m) q
  | var {c : Ctx} {vs : List Int} {x : Fin 26} {rest : List Token} {m : Mem} {q : Yyparse} : Values c vs →
      ¬ (c = .stmt ∧ rest.head? = some .assign) →
      At q ((if c = .stmt then 4 else 9) :: c.entry :: c.under) ((x.val : Int) :: vs) rest m.env →
      Shifted (.want c (.VARIABLE x :: rest) m) q
  | assign {vs : List Int} {x : Fin 26} {rest : List Token} {m : Mem} {q : Yyparse} : Values .stmt vs →
      At q [4, 1, 0] ((x.val : Int) :: vs) (.assign :: rest) m.env →
      Shifted (.want .stmt (.VARIABLE x :: .assign :: rest) m) q
  | rpar {c : Ctx} {vs : List Int} {v w : Int} {rest : List Token} {m : Mem} {q : Yyparse} : Values (.paren c) vs →
      At q (17 :: (Ctx.paren c).hold :: (Ctx.paren c).entry :: (Ctx.paren c).under) (w :: v :: vs) rest m.env →
      Shifted (.after (.paren c) v (.rpar :: rest) m) q
  | newline {v w a b : Int} {rest : List Token} {m : Mem} {q : Yyparse} : At q [11, 6, 1, 0] [w, v, a, b] rest m.env →
      Shifted (.done (.newline :: rest) m) q

/-- What `yyparse` returns for an outcome. -/
inductive Returns : Outcome → Result → Prop
  | accept {m : Mem} {q : Yyparse} : q.sym = List.ofFn m.sym → q.stdout = m.stdout → q.stderr = [] →
      Returns (.accept m) (.ret 0 q)
  | error {rest : List Token} {m : Mem} {q : Yyparse} : q.sym = List.ofFn m.sym → q.stdout = m.stdout →
      q.stderr = ["syntax error"] → q.yychar = some rest.head? → q.toks = rest.tail → Returns (.error rest m) (.ret 1 q)
  | trap {m : Mem} {q : Yyparse} : q.sym = List.ofFn m.sym → q.stdout = m.stdout → Returns (.trap m) (.trap q)

variable {maxdepth} {p : Yyparse} {c : Ctx} {vs : List Int} {rest : List Token} {m : Mem} {v : Int}

theorem room_mono {a b : Nat} (h : ¬ exhausted maxdepth b) (hab : a ≤ b) : ¬ exhausted maxdepth a := by
  intro ⟨n, hn, hle⟩
  exact h ⟨n, hn, Nat.le_trans hle hab⟩

/-- Rule 7 finds the variable's index on the value stack. -/
theorem switch_variable {d : Nat → Int} {x : Fin 26} (hd : d 1 = x.val) (w : Int) :
    switch arith 7 d w m.env.sym m.env.stdout = .ok (m.sym x, m.env.sym, m.env.stdout) := by
  have h0 : 0 ≤ d 1 := by rw [hd]; exact Int.natCast_nonneg _
  have hx : m.env.sym[(d 1).toNat]? = some (m.sym x) := by
    rw [hd, Int.toNat_natCast, Mem.env, List.getElem?_ofFn]
    simp
  simp only [switch, if_pos h0, hx]

theorem set_ofFn (f : Fin 26 → Int) (x : Fin 26) (v : Int) :
    (List.ofFn f).set x.val v = List.ofFn (Function.update f x v) := by
  refine List.ext_getElem (by simp) fun i h1 h2 => ?_
  rw [List.getElem_set, List.getElem_ofFn, List.getElem_ofFn]
  by_cases hx : x.val = i
  · subst hx
    simp
  · have hne : (⟨i, by simpa using h2⟩ : Fin 26) ≠ x := by
      intro e
      exact hx (congrArg Fin.val e).symm
    rw [if_neg hx, Function.update_of_ne hne]

/-- Rule 5 finds the variable's index below the operand. -/
theorem switch_assign {d : Nat → Int} {x : Fin 26} (hd : d 1 = x.val) (hv : d 3 = v) (w : Int) :
    switch arith 5 d w m.env.sym m.env.stdout = .ok (w, (m.set x v).env.sym, (m.set x v).env.stdout) := by
  have h0 : 0 ≤ d 1 ∧ d 1 < (m.env.sym.length : Int) := by
    have := x.isLt
    rw [hd, Mem.env, List.length_ofFn]
    omega
  have hset : m.env.sym.set (d 1).toNat (d 3) = (m.set x v).env.sym := by
    rw [hd, hv, Int.toNat_natCast]
    exact set_ofFn m.sym x v
  simp only [switch, if_pos h0, hset]
  rfl

/-- Rules 8 to 11 are the operators. -/
theorem switch_binary (o : Op) (d : Nat → Int) (w : Int) (sym stdout : List Int) :
    switch arith (8 + o.index) d w sym stdout =
      match arith o (d 1) (d 3) with
      | some v => .ok (v, sym, stdout)
      | none => .error .trap := by
  cases o <;> rfl

/-! ## One step -/

/-- The step of a parser that is up to `k`: a move of the machine, the first half of one, or its
    end. -/
inductive Advances (maxdepth : Option Nat) (arith : Op → Int → Int → Option Int) (k : Cfg) (p : Yyparse) : Prop
  | moves {k' : Cfg} {q : Yyparse} : fstep arith k = .inl k' → step maxdepth arith p = .inl q → Follows k' q →
      Advances maxdepth arith k p
  | shifts {q : Yyparse} : step maxdepth arith p = .inl q → Shifted k q → Advances maxdepth arith k p
  | halts {r : Outcome} {res : Result} : fstep arith k = .inr r → step maxdepth arith p = .inr res → Returns r res →
      Advances maxdepth arith k p

theorem advance_integer {n : Int} (h : At p (c.entry :: c.under) vs (.INTEGER n :: rest) m.env) (hv : Values c vs)
    (hroom : ¬ exhausted maxdepth (c.under.length + 2)) : Advances maxdepth arith (.want c (.INTEGER n :: rest) m) p := by
  obtain ⟨q, w, h1, hw, h2⟩ := step_shift arith h (room_mono hroom (by simp)) (action_integer c n)
  have hw' : w = n := hw
  subst hw'
  exact .shifts h1 (.integer hv h2)

theorem advance_variable {x : Fin 26} (h : At p (c.entry :: c.under) vs (.VARIABLE x :: rest) m.env) (hv : Values c vs)
    (hroom : ¬ exhausted maxdepth (c.under.length + 2)) : Advances maxdepth arith (.want c (.VARIABLE x :: rest) m) p := by
  obtain ⟨q, w, h1, hw, h2⟩ := step_shift arith h (room_mono hroom (by simp)) (action_variable c x)
  have hw' : w = (x.val : Int) := hw
  subst hw'
  by_cases hc : c = .stmt ∧ rest.head? = some .assign
  · obtain ⟨rfl, ha⟩ := hc
    obtain ⟨rest, rfl⟩ := List.head?_eq_some_iff.mp ha
    exact .shifts h1 (.assign hv h2)
  · exact .shifts h1 (.var hv hc h2)

theorem advance_lpar (h : At p (c.entry :: c.under) vs (.lpar :: rest) m.env) (hv : Values c vs)
    (hroom : ¬ exhausted maxdepth (c.under.length + 2)) : Advances maxdepth arith (.want c (.lpar :: rest) m) p := by
  obtain ⟨q, w, h1, -, h2⟩ := step_shift arith h (room_mono hroom (by simp)) (action_lpar c)
  exact .moves (fstep_lpar arith) h1 ⟨_, hv.paren w, h2⟩

theorem advance_op {o : Op} (h : At p (c.hold :: c.entry :: c.under) (v :: vs) (.op o :: rest) m.env) (hv : Values c vs)
    (ho : c.prec < o.prec) (hroom : ¬ exhausted maxdepth (c.under.length + 2)) :
    Advances maxdepth arith (.after c v (.op o :: rest) m) p := by
  obtain ⟨q, w, h1, -, h2⟩ := step_shift arith h (room_mono hroom (by simp)) (action_op ho)
  exact .moves (fstep_op arith ho) h1 ⟨_, hv.binary o v w, h2⟩

theorem advance_rpar
    (h : At p ((Ctx.paren c).hold :: (Ctx.paren c).entry :: (Ctx.paren c).under) (v :: vs) (.rpar :: rest) m.env)
    (hv : Values (.paren c) vs) (hroom : ¬ exhausted maxdepth ((Ctx.paren c).under.length + 2)) :
    Advances maxdepth arith (.after (.paren c) v (.rpar :: rest) m) p := by
  obtain ⟨q, w, h1, -, h2⟩ := step_shift arith h (room_mono hroom (by simp)) (action_rpar c)
  exact .shifts h1 (.rpar hv h2)

theorem advance_newline {a b : Int} (h : At p [6, 1, 0] [v, a, b] (.newline :: rest) m.env)
    (hroom : ¬ exhausted maxdepth 4) : Advances maxdepth arith (.done (.newline :: rest) m) p := by
  obtain ⟨q, w, h1, -, h2⟩ := step_shift arith h (room_mono hroom (by decide))
    (show action 6 (some .newline) = .shift 11 from rfl)
  exact .shifts h1 (.newline h2)

theorem advance_error {k : Cfg} {s : Nat} {ss : List Nat} (hk : fstep arith k = .inr (.error rest m))
    (h : At p (s :: ss) vs rest m.env) (hroom : ¬ exhausted maxdepth (s :: ss).length)
    (ha : action s rest.head? = .error) : Advances maxdepth arith k p := by
  obtain ⟨q, h1, h2, h3⟩ := step_error arith h hroom ha
  exact .halts hk h1 (.error h2.sym h2.stdout rfl h3.1 h3.2.1)

/-- A context with no parenthesis open closes by its rule. -/
theorem advance_close (hp : ∀ c', c ≠ .paren c') (ho : ∀ o, rest.head? = some (.op o) → ¬ c.prec < o.prec)
    (h : At p (c.hold :: c.entry :: c.under) (v :: vs) rest m.env) (hv : Values c vs)
    (hroom : ¬ exhausted maxdepth (c.under.length + 2)) : Advances maxdepth arith (.after c v rest m) p := by
  have hact := action_close hp ho
  have hroom' : ¬ exhausted maxdepth (c.hold :: c.entry :: c.under).length := room_mono hroom (by simp)
  have hk := fstep_close arith (v := v) (m := m) ho
  cases hv with
  | paren d hv => exact absurd rfl (hp _)
  | stmt a b =>
    obtain ⟨q, h1, h2⟩ := step_reduce arith 4 (m.print v).env h hroom' hact rfl rfl
    exact .moves hk h1 ⟨_, _, _, h2⟩
  | assign x a b d =>
    obtain ⟨q, h1, h2⟩ := step_reduce arith 5 (m.set x v).env h hroom' hact (switch_assign arith rfl rfl _) rfl
    exact .moves hk h1 ⟨_, _, _, h2⟩
  | @binary c vs o a d hv =>
    have hlen : yyr2 (8 + o.index) = 3 := by cases o <;> rfl
    have hlhs : yyr1 (8 + o.index) = 16 := by cases o <;> rfl
    have hsw : switch arith (8 + o.index) (fun k => (v :: d :: a :: vs).getD (yyr2 (8 + o.index) - k) 0)
        ((v :: d :: a :: vs).getD (yyr2 (8 + o.index) - 1) 0) m.env.sym m.env.stdout =
        match arith o a v with
        | some w => .ok (w, m.env.sym, m.env.stdout)
        | none => .error .trap := by
      rw [switch_binary, hlen]
      rfl
    cases hw : arith o a v with
    | some w =>
      rw [hw] at hsw
      obtain ⟨q, h1, h2⟩ := step_reduce arith (8 + o.index) m.env h hroom' hact hsw (by rw [hlen]; rfl)
      rw [goto_expr hlhs, hlen] at h2
      exact .moves (hk.trans (close_binary arith hw)) h1 ⟨_, hv, h2⟩
    | none =>
      rw [hw] at hsw
      obtain ⟨q, h1, h2⟩ := step_trap arith (8 + o.index) h hroom' hact hsw
      exact .halts (hk.trans (close_trap arith hw)) h1 (.trap h2.sym h2.stdout)

/-- A token that begins no operand. -/
theorem advance_stop (h : At p (c.entry :: c.under) vs rest m.env) (hroom : ¬ exhausted maxdepth (c.under.length + 2))
    (hs : ¬ Starts rest) : Advances maxdepth arith (.want c rest m) p := by
  have hact := action_want (c := c) hs
  have hroom' : ¬ exhausted maxdepth (c.entry :: c.under).length := room_mono hroom (by simp)
  have hk := fstep_stop arith (c := c) (m := m) hs
  by_cases hc : c = .stmt ∧ rest = []
  · rw [if_pos hc] at hact hk
    obtain ⟨q, h1, h2⟩ := step_accept arith h hroom' hact
    exact .halts hk h1 (.accept h2.sym h2.stdout h2.stderr)
  · rw [if_neg hc] at hact hk
    exact advance_error arith hk h hroom' hact

theorem advance_want (h : Follows (.want c rest m) p) (hroom : ¬ exhausted maxdepth (c.under.length + 2)) :
    Advances maxdepth arith (.want c rest m) p := by
  obtain ⟨vs, hv, h⟩ := h
  by_cases hs : Starts rest
  · cases hs with
    | integer n rest => exact advance_integer arith h hv hroom
    | var x rest => exact advance_variable arith h hv hroom
    | lpar rest => exact advance_lpar arith h hv hroom
  · exact advance_stop arith h hroom hs

theorem advance_after (h : Follows (.after c v rest m) p) (hroom : ¬ exhausted maxdepth (c.under.length + 2)) :
    Advances maxdepth arith (.after c v rest m) p := by
  obtain ⟨vs, hv, h⟩ := h
  rcases fstep_after arith c v rest m with ⟨o, rest', rfl, hlt⟩ | ⟨hno, hc⟩
  · exact advance_op arith h hv hlt hroom
  · by_cases hp : ∃ c', c = .paren c'
    · obtain ⟨c, rfl⟩ := hp
      by_cases hr : rest.head? = some .rpar
      · obtain ⟨rest, rfl⟩ := List.head?_eq_some_iff.mp hr
        exact advance_rpar arith h hv hroom
      · have hops : ∀ o, rest.head? ≠ some (.op o) := by
          intro o ho
          exact hno o ho o.prec_pos
        exact advance_error arith (hc.trans (close_paren arith hr)) h (room_mono hroom (by simp)) (action_paren hops hr)
    · exact advance_close arith (fun c' hc' => hp ⟨c', hc'⟩) hno h hv hroom

theorem advance_done (h : Follows (.done rest m) p) (hroom : ¬ exhausted maxdepth 4) :
    Advances maxdepth arith (.done rest m) p := by
  obtain ⟨v, a, b, h⟩ := h
  by_cases hn : rest.head? = some .newline
  · obtain ⟨rest, rfl⟩ := List.head?_eq_some_iff.mp hn
    exact advance_newline arith h hroom
  · exact advance_error arith (fstep_done arith hn) h (room_mono hroom (by decide)) (action_done hn)

theorem follows_advances {k : Cfg} (h : Follows k p) (hroom : ¬ exhausted maxdepth k.room) : Advances maxdepth arith k p := by
  cases k with
  | want c rest m => exact advance_want arith h hroom
  | after c v rest m => exact advance_after arith h (room_mono hroom (by cases c <;> simp [Cfg.room]))
  | done rest m => exact advance_done arith h hroom

/-- The second half of a move is a reduction. -/
theorem shifted_moves {k : Cfg} (h : Shifted k p) (hroom : ¬ exhausted maxdepth k.room) :
    ∃ k' q, fstep arith k = .inl k' ∧ step maxdepth arith p = .inl q ∧ Follows k' q := by
  cases h with
  | @integer c vs n rest m _ hv h =>
    obtain ⟨q, h1, h2⟩ := step_reduce arith 6 m.env h (room_mono hroom (by simp [Cfg.room])) (action_default rfl _) rfl rfl
    rw [goto_expr rfl] at h2
    exact ⟨_, q, fstep_integer arith, h1, vs, hv, h2⟩
  | @var c vs x rest m _ hv hn h =>
    obtain ⟨q, h1, h2⟩ := step_reduce arith 7 m.env h (room_mono hroom (by simp [Cfg.room])) (action_operand hn)
      (switch_variable arith rfl _) rfl
    rw [goto_expr rfl] at h2
    exact ⟨_, q, fstep_variable arith hn, h1, vs, hv, h2⟩
  | @assign vs x rest m _ hv h =>
    obtain ⟨q, w, h1, -, h2⟩ := step_shift arith h hroom (show action 4 (some .assign) = .shift 8 from rfl)
    cases hv with
    | stmt a b => exact ⟨_, q, fstep_assign arith, h1, _, .assign x a b w, h2⟩
  | @rpar c vs v w rest m _ hv h =>
    obtain ⟨q, h1, h2⟩ := step_reduce arith 12 m.env h (room_mono hroom (by simp [Cfg.room])) (action_default rfl _) rfl rfl
    rw [goto_expr rfl] at h2
    cases hv with
    | paren d hv => exact ⟨_, q, close_rpar arith, h1, _, hv, h2⟩
  | @newline v w a b rest m _ h =>
    obtain ⟨q, h1, h2⟩ := step_reduce arith 2 m.env h hroom (action_default rfl _) rfl rfl
    exact ⟨_, q, rfl, h1, _, .stmt _ _, h2⟩

/-! ## `yyparse` follows -/

/-- The parser goes on with the machine, or returns for its outcome. -/
def Agrees (maxdepth : Option Nat) (arith : Op → Int → Int → Option Int) (x : Cfg ⊕ Outcome) (p : Yyparse) : Prop :=
  (∀ k, x = .inl k → ∃ q, Goes (step maxdepth arith) p q ∧ Follows k q) ∧
    ∀ r, x = .inr r → ∃ q, Ends (step maxdepth arith) p q ∧ Returns r q

theorem agrees_inl {k : Cfg} (h : ∃ q, Goes (step maxdepth arith) p q ∧ Follows k q) : Agrees maxdepth arith (.inl k) p := by
  constructor
  · intro k hk
    cases hk
    exact h
  · intro r hr
    cases hr

theorem agrees_inr {r : Outcome} (h : ∃ q, Ends (step maxdepth arith) p q ∧ Returns r q) : Agrees maxdepth arith (.inr r) p := by
  constructor
  · intro k hk
    cases hk
  · intro r hr
    cases hr
    exact h

theorem Advances.agrees {k : Cfg} (h : Advances maxdepth arith k p) (hroom : ¬ exhausted maxdepth k.room) :
    Agrees maxdepth arith (fstep arith k) p := by
  cases h with
  | @moves k' q hk hst hf =>
    rw [hk]
    exact agrees_inl arith ⟨q, .one hst, hf⟩
  | @shifts q hst hs =>
    obtain ⟨k', q', hk, hst', hf⟩ := shifted_moves arith hs hroom
    rw [hk]
    exact agrees_inl arith ⟨q', .next hst (.one hst'), hf⟩
  | @halts r res hk hst hr =>
    rw [hk]
    exact agrees_inr arith ⟨res, ends_of_step hst, hr⟩

/-- `yyparse` follows the machine while its stack has room. -/
theorem yyparse_follows :
    Sim (fstep arith) (step maxdepth arith) (fun k => ¬ exhausted maxdepth k.room) Follows Returns := by
  have h : ∀ k p, ¬ exhausted maxdepth k.room → Follows k p → Agrees maxdepth arith (fstep arith k) p := by
    intro k p hroom hf
    exact (follows_advances arith hf hroom).agrees arith hroom
  constructor
  · intro s t s' hok hr hs
    exact (h _ _ hok hr).1 _ hs
  · intro s t r hok hr hs
    exact (h _ _ hok hr).2 _ hs

end NetworkCourse.Calc
