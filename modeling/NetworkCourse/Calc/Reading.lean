/-
  NetworkCourse.Calc.Reading — what the grammar writes, the parser reads.

  An expression written for level `l` is read in every context that binds less tightly,
  as long as no operator that binds tighter than `l` comes next (`Renders.reads`); the
  stack it takes is `d` over the context's own. A line is read to its newline
  (`RendersStmt.reads`), and so are any number of lines (`RendersAll.reads`).
-/

import NetworkCourse.Calc.Follows
import NetworkCourse.Calc.Grammar

namespace NetworkCourse.Calc

open Lib.Machine

variable {maxdepth : Option Nat} (arith : Op → Int → Int → Option Int)

/-- The machine gets there with the parser's stack keeping to its limit. -/
def Reads (maxdepth : Option Nat) (arith : Op → Int → Int → Option Int) : Cfg → Cfg → Prop :=
  Through (fun k => ¬ exhausted maxdepth k.room) (fstep arith)

variable {arith}

theorem Reads.move {k k' : Cfg} (hroom : ¬ exhausted maxdepth k.room) (h : fstep arith k = .inl k') :
    Reads maxdepth arith k k' := Through.one hroom h

theorem Reads.trans {k k' k'' : Cfg} (h : Reads maxdepth arith k k') (h' : Reads maxdepth arith k' k'') :
    Reads maxdepth arith k k'' := Through.trans h h'

theorem Reads.snoc {k k' k'' : Cfg} (h : Reads maxdepth arith k k') (hroom : ¬ exhausted maxdepth k'.room)
    (h' : fstep arith k' = .inl k'') : Reads maxdepth arith k k'' := h.trans (Reads.move hroom h')

/-- No operator that binds tighter than `l` comes next. -/
def Stops (l : Nat) (rest : List Token) : Prop := ∀ o, rest.head? = some (.op o) → o.prec ≤ l

theorem Stops.mono {l l' : Nat} {rest : List Token} (h : Stops l rest) (hl : l ≤ l') : Stops l' rest := by
  intro o ho
  exact Nat.le_trans (h o ho) hl

theorem stops_top (rest : List Token) : Stops 2 rest := by
  intro o _
  exact o.prec_le

theorem stops_op (o : Op) (rest : List Token) : Stops o.prec (.op o :: rest) := by
  intro o' ho
  cases ho
  exact Nat.le_refl _

theorem stops_of {rest : List Token} (h : ∀ o, rest.head? ≠ some (.op o)) (l : Nat) : Stops l rest := by
  intro o ho
  exact absurd ho (h o)

/-- Not the variable in front of a `=`. -/
def Lone (c : Ctx) (ts rest : List Token) : Prop := c = .stmt → ∀ x, ts = [.VARIABLE x] → rest.head? ≠ some .assign

theorem lone_of {rest : List Token} (h : rest.head? ≠ some .assign) (c : Ctx) (ts : List Token) : Lone c ts rest := by
  intro _ _ _
  exact h

theorem lone_binary (o : Op) (c : Ctx) (a : Int) (ts rest : List Token) : Lone (.binary o c a) ts rest := by
  intro h
  cases h

section
variable {c : Ctx} {v : Int} {x : Fin 26} {o : Op} {rest : List Token} {m : Mem}

theorem reads_integer {n : Int} (hroom : ¬ exhausted maxdepth (c.under.length + 2)) :
    Reads maxdepth arith (.want c (.INTEGER n :: rest) m) (.after c n rest m) := .move hroom rfl

theorem reads_variable (h : Lone c [.VARIABLE x] rest) (hroom : ¬ exhausted maxdepth (c.under.length + 2)) :
    Reads maxdepth arith (.want c (.VARIABLE x :: rest) m) (.after c (m.sym x) rest m) := by
  apply Reads.move hroom
  apply fstep_variable
  intro ⟨hc, ha⟩
  exact h hc x rfl ha

theorem reads_lpar (hroom : ¬ exhausted maxdepth (c.under.length + 2)) :
    Reads maxdepth arith (.want c (.lpar :: rest) m) (.want (.paren c) rest m) := .move hroom rfl

theorem reads_rpar (hroom : ¬ exhausted maxdepth (c.under.length + 4)) :
    Reads maxdepth arith (.after (.paren c) v (.rpar :: rest) m) (.after c v rest m) := .move hroom rfl

theorem reads_op (h : c.prec < o.prec) (hroom : ¬ exhausted maxdepth (c.under.length + 3)) :
    Reads maxdepth arith (.after c v (.op o :: rest) m) (.want (.binary o c v) rest m) := by
  apply Reads.move _ (fstep_op arith h)
  apply room_mono hroom
  cases c <;> simp [Cfg.room, Ctx.under]

theorem reads_apply {a w : Int} (hs : Stops o.prec rest) (hw : arith o a v = some w)
    (hroom : ¬ exhausted maxdepth (c.under.length + 4)) :
    Reads maxdepth arith (.after (.binary o c a) v rest m) (.after c w rest m) := by
  apply Reads.move hroom
  rw [fstep_close arith]
  · exact close_binary arith hw
  · intro o' ho
    exact Nat.not_lt.mpr (hs o' ho)

end

/-! ## Expressions -/

section
variable {c : Ctx} {d d' : Nat}

/-- What is in parentheses has room where they have. -/
theorem room_paren (h : ¬ exhausted maxdepth (c.under.length + 1 + max (d + 1) 3)) :
    ¬ exhausted maxdepth ((Ctx.paren c).under.length + 1 + d) := by
  apply room_mono h
  simp only [Ctx.under, List.length_cons]
  omega

/-- And a right operand where its operation has. -/
theorem room_binary (o : Op) (a : Int) (h : ¬ exhausted maxdepth (c.under.length + 1 + max d (d' + 2))) :
    ¬ exhausted maxdepth ((Ctx.binary o c a).under.length + 1 + d') := by
  apply room_mono h
  simp only [Ctx.under, List.length_cons]
  omega

theorem room_expr (h : ¬ exhausted maxdepth (max (d + 2) 4)) : ¬ exhausted maxdepth (Ctx.stmt.under.length + 1 + d) := by
  apply room_mono h
  simp only [Ctx.under, List.length_singleton]
  omega

theorem room_assign (x : Fin 26) (h : ¬ exhausted maxdepth (d + 4)) :
    ¬ exhausted maxdepth ((Ctx.assign x).under.length + 1 + d) := by
  apply room_mono h
  simp only [Ctx.under, List.length_cons, List.length_nil]
  omega

/-- Up to what is in parentheses. -/
theorem reads_open (ts rest : List Token) (m : Mem) (hroom : ¬ exhausted maxdepth (c.under.length + 2)) :
    Reads maxdepth arith (.want c (.lpar :: (ts ++ [.rpar]) ++ rest) m) (.want (.paren c) (ts ++ .rpar :: rest) m) := by
  rw [List.cons_append, List.append_assoc]
  exact reads_lpar hroom

theorem reads_assign (x : Fin 26) (ts rest : List Token) (m : Mem) (hroom : ¬ exhausted maxdepth (d + 4)) :
    Reads maxdepth arith (.want .stmt (.VARIABLE x :: .assign :: ts ++ .newline :: rest) m)
      (.want (.assign x) (ts ++ .newline :: rest) m) :=
  .move (room_mono hroom (by simp [Cfg.room, Ctx.under])) (fstep_assign arith)

end

/-- An expression is read, whatever the context waits for. -/
theorem Renders.reads {l : Nat} {e : Expr} {ts : List Token} {d : Nat} (h : Renders l e ts d) {c : Ctx} {rest : List Token}
    {m : Mem} {v : Int} (hc : c.prec < l) (hs : Stops l rest) (hl : Lone c ts rest) (hv : eval arith m.sym e = some v)
    (hroom : ¬ exhausted maxdepth (c.under.length + 1 + d)) :
    Reads maxdepth arith (.want c (ts ++ rest) m) (.after c v rest m) := by
  induction h generalizing c rest v with
  | num n =>
    cases hv
    exact reads_integer hroom
  | var x =>
    cases hv
    exact reads_variable hl hroom
  | @paren e ts d _ ih =>
    have h1 : Reads maxdepth arith (.want c (.lpar :: (ts ++ [.rpar]) ++ rest) m) (.want (.paren c) (ts ++ .rpar :: rest) m) :=
      reads_open ts rest m (room_mono hroom (by omega))
    have h2 : Reads maxdepth arith (.want (.paren c) (ts ++ .rpar :: rest) m) (.after (.paren c) v (.rpar :: rest) m) :=
      ih (show (Ctx.paren c).prec < 1 from Nat.one_pos) (stops_of (by simp) 1) (lone_of (by simp) _ _) hv (room_paren hroom)
    exact (h1.trans h2).trans (reads_rpar (room_mono hroom (by omega)))
  | @op o a b ts us d d' _ hb iha ihb =>
    rw [eval, Option.bind_eq_some_iff] at hv
    obtain ⟨u, hu, hv⟩ := hv
    rw [Option.bind_eq_some_iff] at hv
    obtain ⟨w, hw, hv⟩ := hv
    have hd := hb.pos
    have h1 : Reads maxdepth arith (.want c (ts ++ .op o :: us ++ rest) m) (.after c u (.op o :: (us ++ rest)) m) := by
      rw [List.append_assoc]
      exact iha hc (stops_op o _) (lone_of (by simp) _ _) hu (room_mono hroom (by omega))
    have h2 : Reads maxdepth arith (.after c u (.op o :: (us ++ rest)) m) (.want (.binary o c u) (us ++ rest) m) :=
      reads_op hc (room_mono hroom (by omega))
    have h3 : Reads maxdepth arith (.want (.binary o c u) (us ++ rest) m) (.after (.binary o c u) w rest m) :=
      ihb (Nat.lt_succ_self _) (hs.mono (Nat.le_succ _)) (lone_binary o c u _ _) hw (room_binary o u hroom)
    exact ((h1.trans h2).trans h3).trans (reads_apply hs hv (room_mono hroom (by omega)))
  | loosen _ ih => exact ih (Nat.lt_succ_of_lt hc) (hs.mono (Nat.le_succ _)) hl hv hroom

/-! ## Lines -/

/-- A line is read up to its newline. -/
theorem RendersStmt.reads {s : Stmt} {ts : List Token} {d : Nat} (h : RendersStmt s ts d) {rest : List Token} {m m' : Mem}
    (hm : exec arith m s = some m') (hroom : ¬ exhausted maxdepth d) :
    Reads maxdepth arith (.want .stmt (ts ++ .newline :: rest) m) (.done (.newline :: rest) m') := by
  cases h with
  | @expr e ts d h =>
    rw [exec, Option.map_eq_some_iff] at hm
    obtain ⟨v, hv, rfl⟩ := hm
    have h1 : Reads maxdepth arith (.want .stmt (ts ++ .newline :: rest) m) (.after .stmt v (.newline :: rest) m) :=
      h.reads (show Ctx.stmt.prec < 1 from Nat.one_pos) (stops_of (by simp) 1) (lone_of (by simp) _ _) hv (room_expr hroom)
    exact h1.snoc (room_mono hroom (by simp [Cfg.room, Ctx.under])) rfl
  | @assign x e ts d h =>
    rw [exec, Option.map_eq_some_iff] at hm
    obtain ⟨v, hv, rfl⟩ := hm
    have hd := h.pos
    have h1 : Reads maxdepth arith (.want (.assign x) (ts ++ .newline :: rest) m) (.after (.assign x) v (.newline :: rest) m) :=
      h.reads (show (Ctx.assign x).prec < 1 from Nat.one_pos) (stops_of (by simp) 1) (lone_of (by simp) _ _) hv
        (room_assign x hroom)
    exact ((reads_assign x ts rest m hroom).trans h1).snoc (room_mono hroom (by simp [Cfg.room, Ctx.under]; omega)) rfl

theorem RendersStmt.four_le {s : Stmt} {ts : List Token} {d : Nat} (h : RendersStmt s ts d) : 4 ≤ d := by
  cases h with
  | expr _ => exact Nat.le_max_right _ _
  | assign _ _ => exact Nat.le_add_left _ _

/-- Lines are read one by one. -/
theorem RendersAll.reads {ss : List Stmt} {ts : List Token} {d : Nat} (h : RendersAll ss ts d) {rest : List Token} {m m' : Mem}
    (hm : execAll arith m ss = some m') (hroom : ¬ exhausted maxdepth d) :
    Reads maxdepth arith (.want .stmt (ts ++ rest) m) (.want .stmt rest m') := by
  induction h generalizing rest m' with
  | nil =>
    cases hm
    exact Relation.ReflTransGen.refl
  | @snoc ss s ts us d d' _ hs ih =>
    rw [execAll_snoc, Option.bind_eq_some_iff] at hm
    obtain ⟨m1, h1, h2⟩ := hm
    have hd := hs.four_le
    have hall : Reads maxdepth arith (.want .stmt (ts ++ us ++ [.newline] ++ rest) m) (.want .stmt (us ++ .newline :: rest) m1) := by
      rw [List.append_assoc, List.append_assoc]
      exact ih h1 (room_mono hroom (Nat.le_max_left _ _))
    have hline : Reads maxdepth arith (.want .stmt (us ++ .newline :: rest) m1) (.done (.newline :: rest) m') :=
      hs.reads h2 (room_mono hroom (Nat.le_max_right _ _))
    exact (hall.trans hline).snoc (room_mono hroom (by simp only [Cfg.room]; omega)) rfl

/-! ## The parser reads -/

/-- The first step is past the empty program in front. -/
theorem start_step (hroom : ¬ exhausted maxdepth 1) (sym : Fin 26 → Int) (garbage : Int) (toks : List Token) :
    ∃ q, step maxdepth arith (start (List.ofFn sym) garbage toks) = .inl q ∧ Follows (.want .stmt toks ⟨sym, []⟩) q := by
  have h0 : At (start (List.ofFn sym) garbage toks) [0] [garbage] toks (Mem.env ⟨sym, []⟩) := at_start _ _ _
  obtain ⟨q, h1, h2⟩ := step_reduce arith 3 (Mem.env ⟨sym, []⟩) h0 hroom (action_default rfl _) rfl rfl
  exact ⟨q, h1, _, .stmt _ _, h2⟩

theorem start_follows (hroom : ¬ exhausted maxdepth 1) (sym : Fin 26 → Int) (garbage : Int) (toks : List Token) :
    ∃ q, Goes (step maxdepth arith) (start (List.ofFn sym) garbage toks) q ∧ Follows (.want .stmt toks ⟨sym, []⟩) q := by
  obtain ⟨q, h1, h2⟩ := start_step hroom sym garbage toks
  exact ⟨q, .one h1, h2⟩

/-- Complete lines whose stack fits: `yyparse` returns 0 with what they mean. -/
theorem RendersAll.parsed {ss : List Stmt} {toks : List Token} {d : Nat} (h : RendersAll ss toks d) {sym : Fin 26 → Int} {m : Mem}
    (hm : execAll arith ⟨sym, []⟩ ss = some m) (hroom : ¬ exhausted maxdepth (max d 3)) (garbage : Int) :
    ∃ q, Ends (step maxdepth arith) (start (List.ofFn sym) garbage toks) (.ret 0 q) ∧ q.sym = List.ofFn m.sym ∧
      q.stdout = m.stdout ∧ q.stderr = [] := by
  obtain ⟨q, h1, h2⟩ := start_follows (room_mono hroom (by omega)) sym garbage toks
  have hr : Reads maxdepth arith (.want .stmt (toks ++ []) ⟨sym, []⟩) (.want .stmt [] m) :=
    h.reads hm (room_mono hroom (Nat.le_max_left _ _))
  rw [List.append_nil] at hr
  obtain ⟨q', h3, h4⟩ := (yyparse_follows arith).through h2 hr
  obtain ⟨r, h5, h6⟩ := (yyparse_follows arith).ends (room_mono hroom (Nat.le_max_right _ _)) h4 (fstep_end arith)
  cases h6 with
  | accept hsym hout herr => exact ⟨_, ((h1.trans h3).ends_iff _).mpr h5, hsym, hout, herr⟩

end NetworkCourse.Calc
