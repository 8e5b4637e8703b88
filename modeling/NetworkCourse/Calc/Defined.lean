/-
  NetworkCourse.Calc.Defined — when the calculator's arithmetic is defined.

  Neither the scanner nor the parser checks a value, so a text can be accepted and yet make
  `atoi` or an action leave `int`. `Defined` says that a run does not: what `atoi` is called
  on fits, and no action traps. For an accepted text that is so exactly when its digit runs
  fit and its statements, in integers and with no parser, are safe (`defined_exactly`).

  That safe statements run is `SafeAll.exec`. For the other direction, a statement whose value
  is undefined leads the parser to the operation that is (`Renders.traps`, and so on up).
-/

import NetworkCourse.Calc.Session
import NetworkCourse.Calc.RoundTrip

namespace NetworkCourse.Calc

open Lib.Machine Lib.Ascii

variable {maxdepth : Option Nat} {arith : Op → Int → Int → Option Int}

/-! ## Conversions -/

theorem conversions_digits {ds rest : List UInt8} (hne : ds ≠ []) (hd : ∀ b ∈ ds, isDigit b = true) (hr : NoDigit rest) :
    conversions (ds ++ rest) = ds :: conversions rest := by
  rw [conversions, matched_digits hne hd hr]
  rfl

theorem conversions_byte {b : UInt8} (h : isDigit b = false) (rest : List UInt8) :
    conversions (b :: rest) = conversions rest := by
  have hrule : ruleOf b ≠ 2 := by
    unfold ruleOf
    split_ifs <;> decide
  rw [conversions, matched_byte h, List.filter_cons_of_neg (by simpa using hrule)]
  rfl

/-- `atoi` is called on the digit runs. -/
theorem conversions_fit (text : List UInt8) : (∀ ds ∈ conversions text, (digits ds : Int) ≤ INT_MAX) ↔ RunsFit text := by
  induction text using runs_induction with
  | nil =>
    refine ⟨?_, ?_⟩
    · intro _
      exact runsFit_nil
    · intro _ ds hds
      cases hds
  | run ds rest hne hd hr ih => rw [conversions_digits hne hd hr, List.forall_mem_cons, ih, runsFit_digits hne hd hr]
  | byte b rest hb ih => rw [conversions_byte hb, ih, runsFit_byte hb]

/-! ## Where arithmetic is undefined -/

/-- The machine gets to an operation that is undefined. -/
def Traps (maxdepth : Option Nat) (arith : Op → Int → Int → Option Int) (k : Cfg) : Prop :=
  ∃ k' m, Reads maxdepth arith k k' ∧ ¬ exhausted maxdepth k'.room ∧ fstep arith k' = .inr (.trap m)

theorem Reads.traps {k k' : Cfg} (h : Reads maxdepth arith k k') (h' : Traps maxdepth arith k') : Traps maxdepth arith k := by
  obtain ⟨k1, m, hr, hroom, ht⟩ := h'
  exact ⟨k1, m, h.trans hr, hroom, ht⟩

theorem Renders.traps {l : Nat} {e : Expr} {ts : List Token} {d : Nat} (h : Renders l e ts d) {c : Ctx} {rest : List Token}
    {m : Mem} (hc : c.prec < l) (hs : Stops l rest) (hl : Lone c ts rest) (hv : eval arith m.sym e = none)
    (hroom : ¬ exhausted maxdepth (c.under.length + 1 + d)) : Traps maxdepth arith (.want c (ts ++ rest) m) := by
  induction h generalizing c rest with
  | num n => cases hv
  | var x => cases hv
  | @paren e ts d _ ih =>
    apply (reads_open ts rest m (room_mono hroom (by omega))).traps
    exact ih (show (Ctx.paren c).prec < 1 from Nat.one_pos) (stops_of (by simp) 1) (lone_of (by simp) _ _) hv (room_paren hroom)
  | @op o a b ts us d d' ha hb iha ihb =>
    have hd := hb.pos
    have hlone : Lone c ts (.op o :: (us ++ rest)) := lone_of (by simp) _ _
    have hroom1 : ¬ exhausted maxdepth (c.under.length + 1 + d) := room_mono hroom (by omega)
    rw [List.append_assoc, List.cons_append]
    cases hu : eval arith m.sym a with
    | none => exact iha hc (stops_op o _) hlone hu hroom1
    | some u =>
      have h1 : Reads maxdepth arith (.want c (ts ++ .op o :: (us ++ rest)) m) (.want (.binary o c u) (us ++ rest) m) :=
        (ha.reads hc (stops_op o _) hlone hu hroom1).trans (reads_op hc (room_mono hroom (by omega)))
      have hroom2 : ¬ exhausted maxdepth ((Ctx.binary o c u).under.length + 1 + d') := room_binary o u hroom
      apply h1.traps
      cases hw : eval arith m.sym b with
      | none => exact ihb (Nat.lt_succ_self _) (hs.mono (Nat.le_succ _)) (lone_binary o c u _ _) hw hroom2
      | some w =>
        have h2 : Reads maxdepth arith (.want (.binary o c u) (us ++ rest) m) (.after (.binary o c u) w rest m) :=
          hb.reads (Nat.lt_succ_self _) (hs.mono (Nat.le_succ _)) (lone_binary o c u _ _) hw hroom2
        have hnone : arith o u w = none := by simpa [eval, hu, hw] using hv
        refine ⟨_, m, h2, room_mono hroom2 (by simp only [Cfg.room]; omega), ?_⟩
        rw [fstep_close arith]
        · exact close_trap arith hnone
        · intro o' ho'
          exact Nat.not_lt.mpr (hs o' ho')
  | loosen _ ih => exact ih (Nat.lt_succ_of_lt hc) (hs.mono (Nat.le_succ _)) hl hv hroom

theorem RendersStmt.traps {s : Stmt} {ts : List Token} {d : Nat} (h : RendersStmt s ts d) {rest : List Token} {m : Mem}
    (hm : exec arith m s = none) (hroom : ¬ exhausted maxdepth d) :
    Traps maxdepth arith (.want .stmt (ts ++ .newline :: rest) m) := by
  cases h with
  | @expr e ts d h =>
    rw [exec, Option.map_eq_none_iff] at hm
    exact h.traps (show Ctx.stmt.prec < 1 from Nat.one_pos) (stops_of (by simp) 1) (lone_of (by simp) _ _) hm (room_expr hroom)
  | @assign x e ts d h =>
    rw [exec, Option.map_eq_none_iff] at hm
    apply (reads_assign x ts rest m hroom).traps
    exact h.traps (show (Ctx.assign x).prec < 1 from Nat.one_pos) (stops_of (by simp) 1) (lone_of (by simp) _ _) hm
      (room_assign x hroom)

theorem fstep_traps {ss : List Stmt} {ts : List Token} {d : Nat} (h : RendersAll ss ts d) {rest : List Token} {m : Mem}
    (hm : execAll arith m ss = none) (hroom : ¬ exhausted maxdepth d) : Traps maxdepth arith (.want .stmt (ts ++ rest) m) := by
  induction h generalizing rest with
  | nil => cases hm
  | @snoc ss s ts us d d' hss hs ih =>
    have hroom1 : ¬ exhausted maxdepth d := room_mono hroom (Nat.le_max_left _ _)
    rw [List.append_assoc, List.append_assoc]
    cases h1 : execAll arith m ss with
    | none => exact ih h1 hroom1
    | some m1 =>
      rw [execAll_snoc, h1, Option.bind_some] at hm
      have hr : Reads maxdepth arith (.want .stmt (ts ++ (us ++ .newline :: rest)) m) (.want .stmt (us ++ .newline :: rest) m1) :=
        hss.reads h1 hroom1
      exact hr.traps (hs.traps hm (room_mono hroom (Nat.le_max_right _ _)))

/-- Lines with an undefined operation: `yyparse` traps. -/
theorem yyparse_traps {ss : List Stmt} {toks : List Token} {d : Nat} (h : RendersAll ss toks d) {sym : Fin 26 → Int}
    (hm : execAll arith ⟨sym, []⟩ ss = none) (hroom : ¬ exhausted maxdepth (max d 1)) (garbage : Int) :
    ∃ q, Ends (step maxdepth arith) (start (List.ofFn sym) garbage toks) (.trap q) := by
  obtain ⟨p, h1, h2⟩ := @start_follows maxdepth arith (room_mono hroom (Nat.le_max_right _ _)) sym garbage toks
  have ht : Traps maxdepth arith (.want .stmt (toks ++ []) ⟨sym, []⟩) :=
    fstep_traps h hm (room_mono hroom (Nat.le_max_left _ _))
  rw [List.append_nil] at ht
  obtain ⟨k, m, hr, hk, hst⟩ := ht
  obtain ⟨p', h3, h4⟩ := (yyparse_follows arith).through h2 hr
  obtain ⟨r, h5, h6⟩ := (yyparse_follows arith).ends hk h4 hst
  cases h6 with
  | trap _ _ => exact ⟨_, ((h1.trans h3).ends_iff _).mpr h5⟩

/-! ## Safe statements -/

theorem safe_of_intArith {o : Op} {a b w : Int} (h : intArith o a b = some w) :
    (o = .divide → b ≠ 0) ∧ INT_MIN ≤ o.apply a b ∧ o.apply a b ≤ INT_MAX := by
  have hcond : ¬ ((o = .divide ∧ b = 0) ∨ o.apply a b < INT_MIN ∨ INT_MAX < o.apply a b) := by
    intro hbad
    have hnone : intArith o a b = none := by
      cases o <;> exact if_pos hbad
    rw [hnone] at h
    cases h
  refine ⟨fun ho hb => hcond (Or.inl ⟨ho, hb⟩), ?_, ?_⟩
  · exact Int.not_lt.mp fun hlt => hcond (Or.inr (Or.inl hlt))
  · exact Int.not_lt.mp fun hlt => hcond (Or.inr (Or.inr hlt))

/-- What is computed is safe. -/
theorem safe_of_eval {sym : Fin 26 → Int} {e : Expr} {v : Int} (h : eval intArith sym e = some v) : e.Safe sym := by
  induction e generalizing v with
  | num n => trivial
  | var x => trivial
  | op o a b iha ihb =>
    rw [eval, Option.bind_eq_some_iff] at h
    obtain ⟨u, hu, h⟩ := h
    rw [Option.bind_eq_some_iff] at h
    obtain ⟨w, hw, h⟩ := h
    have ha := iha hu
    have hb := ihb hw
    rw [ha.eval] at hu
    rw [hb.eval] at hw
    cases hu
    cases hw
    exact ⟨ha, hb, safe_of_intArith h⟩

theorem safeAll_of_exec {m m' : Mem} {ss : List Stmt} (h : execAll intArith m ss = some m') : SafeAll m ss := by
  induction ss generalizing m with
  | nil => trivial
  | cons s ss ih =>
    rw [execAll, Option.bind_eq_some_iff] at h
    obtain ⟨m1, h1, h2⟩ := h
    have hs : s.rhs.Safe m.sym := by
      cases s with
      | expr e =>
        rw [exec, Option.map_eq_some_iff] at h1
        obtain ⟨v, hv, -⟩ := h1
        exact safe_of_eval hv
      | assign x e =>
        rw [exec, Option.map_eq_some_iff] at h1
        obtain ⟨v, hv, -⟩ := h1
        exact safe_of_eval hv
    rw [exec_safe hs] at h1
    cases h1
    exact ⟨hs, ih h2⟩

/-! ## Accepted texts -/

/-- Accepted lines do not take the stack to its limit. -/
theorem depth_of_accepted {ss : List Stmt} {toks : List Token} {d n : Nat} (hall : RendersAll ss toks d) (h0 : 0 < n)
    {sym : Fin 26 → Int} {garbage : Int} {q : Yyparse}
    (h : Ends (step (some n) arith) (start (List.ofFn sym) garbage toks) (.ret 0 q)) : d < n := by
  by_contra hd
  cases hm : execAll arith ⟨sym, []⟩ ss with
  | some m =>
    obtain ⟨q', hq'⟩ := hall.exhausted hm h0 (Nat.le_of_not_lt hd) garbage
    cases h.unique hq'
  | none =>
    have h1 := ends_unlimited arith h fun q' hq => by cases hq
    obtain ⟨q', hq'⟩ := yyparse_traps hall hm (not_exhausted _) garbage
    cases h1.unique hq'

/-- Running the text takes no conversion and no operation out of C's `int`. -/
def Defined (garbage : Int) (text : List UInt8) : Prop :=
  (∀ ds ∈ conversions text, (digits ds : Int) ≤ INT_MAX) ∧
    ∀ q, ¬ Ends (step (some YYMAXDEPTH) intArith) (start (List.ofFn sym0) garbage (tokens text)) (.trap q)

/-- A text accepted by whatever arithmetic writes lines of statements. Running it is defined
    exactly when its digit runs fit `int` and the statements are safe. -/
theorem defined_exactly (arith : Op → Int → Int → Option Int) (garbage : Int) (text : List UInt8) {q : Yyparse}
    (h : Ends (step (some YYMAXDEPTH) arith) (start (List.ofFn sym0) garbage (tokens text)) (.ret 0 q)) :
    (∃ ss d, RendersAll ss (tokens text) d) ∧
      ∀ ss d, RendersAll ss (tokens text) d → (Defined garbage text ↔ RunsFit text ∧ SafeAll ⟨sym0, []⟩ ss) := by
  refine ⟨?_, ?_⟩
  · obtain ⟨ss, d, -, hall, -⟩ := lines_of_accepted (by decide) h
    exact ⟨ss, d, hall⟩
  · intro ss d hall
    have hd : d < YYMAXDEPTH := depth_of_accepted hall (by decide) h
    have hroom : ¬ exhausted (some YYMAXDEPTH) (max d 3) := room_of_lt (Nat.max_lt.mpr ⟨hd, by decide⟩)
    rw [Defined, conversions_fit]
    apply and_congr_right
    intro _
    refine ⟨?_, ?_⟩
    · intro hno
      cases hm : execAll intArith ⟨sym0, []⟩ ss with
      | some m => exact safeAll_of_exec hm
      | none =>
        obtain ⟨q', hq'⟩ := yyparse_traps hall hm (room_mono hroom (by omega)) garbage
        exact absurd hq' (hno q')
    · intro hs q' hq'
      obtain ⟨q1, hq1, -⟩ := hall.parsed hs.exec hroom garbage
      cases hq1.unique hq'

/-- `6/2`, which is accepted. -/
theorem defined_exactly_quotient :
    (∃ ss d, RendersAll ss (tokens [54, 47, 50, 10]) d) ∧
      ∀ ss d, RendersAll ss (tokens [54, 47, 50, 10]) d →
        (Defined 0 [54, 47, 50, 10] ↔ RunsFit [54, 47, 50, 10] ∧ SafeAll ⟨sym0, []⟩ ss) :=
  defined_exactly intArith 0 [54, 47, 50, 10]
    (@ends_of_run _ _ (step (some YYMAXDEPTH) intArith) 15 (start (List.ofFn sym0) 0 (tokens [54, 47, 50, 10])) _ rfl)

/-- `2147483648` is accepted, and is no `int`. -/
theorem accepted_undefined :
    ¬ ∀ text q, Ends (step (some YYMAXDEPTH) intArith) (start (List.ofFn sym0) 0 (tokens text)) (.ret 0 q) → Defined 0 text := by
  intro h
  have hd := h [50, 49, 52, 55, 52, 56, 51, 54, 52, 56, 10] _
    (@ends_of_run _ _ (step (some YYMAXDEPTH) intArith) 10 (start (List.ofFn sym0) 0 (tokens _)) _ rfl)
  have hfit := hd.1 [50, 49, 52, 55, 52, 56, 51, 54, 52, 56] (by decide)
  exact absurd hfit (by decide)

/-- Nor is the sum in `2147483647+1`. -/
example : ¬ Defined 0 (ascii "2147483647+1\n") := fun h =>
  h.2 _ (@ends_of_run _ _ (step (some YYMAXDEPTH) intArith) 10 (start (List.ofFn sym0) 0 (tokens (ascii "2147483647+1\n"))) _ rfl)

end NetworkCourse.Calc
