/-
  NetworkCourse.Calc.Depth — how high the parser's stack gets.

  The `d` of `Renders` is not only enough: reading the tokens takes the stack to `d`
  entries over the context's own (`Renders.peaks`). So lines whose `d` reaches the limit
  end with "memory exhausted" (`RendersAll.exhausted`).
-/

import NetworkCourse.Calc.Accepts

namespace NetworkCourse.Calc

open Lib.Machine

variable {arith : Op → Int → Int → Option Int}

/-- With no limit, the stack gets to `n` entries. -/
def Peaks (arith : Op → Int → Int → Option Int) (n : Nat) (p : Yyparse) : Prop :=
  ∃ q, Goes (step none arith) p q ∧ n ≤ q.yyss.length

theorem Peaks.of_goes {n : Nat} {p q : Yyparse} (h : Goes (step none arith) p q) (hq : Peaks arith n q) : Peaks arith n p := by
  obtain ⟨q', h', hn⟩ := hq
  exact ⟨q', h.trans h', hn⟩

theorem Peaks.le {n n' : Nat} {p : Yyparse} (h : Peaks arith n' p) (hn : n ≤ n') : Peaks arith n p := by
  obtain ⟨q, hg, hq⟩ := h
  exact ⟨q, hg, Nat.le_trans hn hq⟩

theorem Peaks.max {n n' : Nat} {p : Yyparse} (h : Peaks arith n p) (h' : Peaks arith n' p) : Peaks arith (max n n') p := by
  rcases Nat.le_total n n' with hn | hn
  · rwa [Nat.max_eq_right hn]
  · rwa [Nat.max_eq_left hn]

/-- A shift adds an entry. -/
theorem peaks_shift {p : Yyparse} {s n : Nat} {ss : List Nat} {vs : List Int} {t : Token} {rest : List Token} {e : Env}
    (h : At p (s :: ss) vs (t :: rest) e) (ha : action s (some t) = .shift n) : Peaks arith (ss.length + 2) p := by
  obtain ⟨q, v, hst, -, hq⟩ := step_shift arith h (not_exhausted _) ha
  exact ⟨q, .one hst, by rw [hq.yyss]; rfl⟩

/-- A stack that gets to the limit ends the parse. -/
theorem Peaks.exhausted {n : Nat} {p : Yyparse} (h : Peaks arith n p) (hn : 0 < n) :
    ∃ q, Ends (step (some n) arith) p (.ret 2 q) := by
  obtain ⟨q, hg, hq⟩ := h
  induction hg using Relation.ReflTransGen.head_induction_on with
  | refl =>
    have hne : q.yyss ≠ [] := by
      intro he
      rw [he] at hq
      exact absurd hq (Nat.not_le.mpr hn)
    exact ⟨_, ends_of_step (step_exhausted arith q hne ⟨n, rfl, hq⟩)⟩
  | @head p p' h1 _ ih =>
    rcases @step_agrees (some n) arith p with heq | ⟨r, hr, q', rfl⟩
    · obtain ⟨q', h2⟩ := ih
      rw [h1] at heq
      exact ⟨q', h2.next heq⟩
    · exact ⟨q', ends_of_step hr⟩

/-- What is read leads the parser on. -/
theorem Reads.follows {k k' : Cfg} {p : Yyparse} (h : Reads none arith k k') (hp : Follows k p) :
    ∃ q, Goes (step none arith) p q ∧ Follows k' q := (yyparse_follows arith).through hp h

/-! ## Expressions -/

theorem Renders.peaks {l : Nat} {e : Expr} {ts : List Token} {d : Nat} (h : Renders l e ts d) {c : Ctx} {rest : List Token}
    {m : Mem} {v : Int} (hc : c.prec < l) (hl : Lone c ts rest) (hv : eval arith m.sym e = some v) {p : Yyparse}
    (hp : Follows (.want c (ts ++ rest) m) p) : Peaks arith (c.under.length + 1 + d) p := by
  induction h generalizing c rest v p with
  | num n =>
    obtain ⟨vs, -, hp⟩ := hp
    exact peaks_shift hp (action_integer c n)
  | var x =>
    obtain ⟨vs, -, hp⟩ := hp
    exact peaks_shift hp (action_variable c x)
  | @paren e ts d he ih =>
    have hp' : Follows (.want c (.lpar :: (ts ++ .rpar :: rest)) m) p := by simpa using hp
    obtain ⟨p1, h1, hp1⟩ := (reads_lpar (not_exhausted _)).follows hp'
    have hpos : (Ctx.paren c).prec < 1 := Nat.one_pos
    have hlone : Lone (.paren c) ts (.rpar :: rest) := lone_of (by simp) _ _
    have hin := ih hpos hlone hv hp1
    have hr : Reads none arith (.want (.paren c) (ts ++ .rpar :: rest) m) (.after (.paren c) v (.rpar :: rest) m) :=
      he.reads hpos (stops_of (by simp) 1) hlone hv (not_exhausted _)
    obtain ⟨p2, h2, vs, -, hp2⟩ := hr.follows hp1
    have hout : Peaks arith (c.under.length + 1 + 3) p2 := peaks_shift hp2 (action_rpar c)
    have hboth := (hin.of_goes h1).max (hout.of_goes (h1.trans h2))
    apply hboth.le
    simp only [Ctx.under, List.length_cons]
    omega
  | @op o a b ts us d d' ha hb iha ihb =>
    rw [eval, Option.bind_eq_some_iff] at hv
    obtain ⟨u, hu, hv⟩ := hv
    rw [Option.bind_eq_some_iff] at hv
    obtain ⟨w, hw, hv⟩ := hv
    have hp' : Follows (.want c (ts ++ .op o :: (us ++ rest)) m) p := by simpa using hp
    have hlone : Lone c ts (.op o :: (us ++ rest)) := lone_of (by simp) _ _
    have hleft := iha hc hlone hu hp'
    have hr : Reads none arith (.want c (ts ++ .op o :: (us ++ rest)) m) (.after c u (.op o :: (us ++ rest)) m) :=
      ha.reads hc (stops_op o _) hlone hu (not_exhausted _)
    obtain ⟨p1, h1, hp1⟩ := (hr.trans (reads_op hc (not_exhausted _))).follows hp'
    have hright := ihb (Nat.lt_succ_self _) (lone_binary o c u _ _) hw hp1
    have hboth := hleft.max (hright.of_goes h1)
    apply hboth.le
    simp only [Ctx.under, List.length_cons]
    omega
  | loosen _ ih => exact ih (Nat.lt_succ_of_lt hc) hl hv hp

/-! ## Lines -/

theorem RendersStmt.peaks {s : Stmt} {ts : List Token} {d : Nat} (h : RendersStmt s ts d) {rest : List Token} {m m' : Mem}
    (hm : exec arith m s = some m') {p : Yyparse} (hp : Follows (.want .stmt (ts ++ .newline :: rest) m) p) :
    Peaks arith d p := by
  have hline : Peaks arith 4 p := by
    have hr : Reads none arith (.want .stmt (ts ++ .newline :: rest) m) (.done (.newline :: rest) m') :=
      h.reads hm (not_exhausted _)
    obtain ⟨q, hg, v, a, b, hq⟩ := hr.follows hp
    exact (peaks_shift hq (show action 6 (some .newline) = .shift 11 from rfl)).of_goes hg
  cases h with
  | @expr e ts d h =>
    rw [exec, Option.map_eq_some_iff] at hm
    obtain ⟨v, hv, -⟩ := hm
    have he := h.peaks (show Ctx.stmt.prec < 1 from Nat.one_pos) (lone_of (by simp) _ _) hv hp
    apply (he.max hline).le
    simp only [Ctx.under, List.length_singleton]
    omega
  | @assign x e ts d h =>
    rw [exec, Option.map_eq_some_iff] at hm
    obtain ⟨v, hv, -⟩ := hm
    have hr : Reads none arith (.want .stmt (.VARIABLE x :: .assign :: (ts ++ .newline :: rest)) m)
        (.want (.assign x) (ts ++ .newline :: rest) m) := .move (not_exhausted _) (fstep_assign arith)
    obtain ⟨q, hg, hq⟩ := hr.follows hp
    have he := h.peaks (show (Ctx.assign x).prec < 1 from Nat.one_pos) (lone_of (by simp) _ _) hv hq
    apply (he.of_goes hg).le
    simp only [Ctx.under, List.length_cons, List.length_nil]
    omega

theorem RendersAll.peaks {ss : List Stmt} {ts : List Token} {d : Nat} (h : RendersAll ss ts d) {rest : List Token} {m m' : Mem}
    (hm : execAll arith m ss = some m') {p : Yyparse} (hp : Follows (.want .stmt (ts ++ rest) m) p) : Peaks arith d p := by
  induction h generalizing rest m' with
  | nil => exact ⟨p, .refl p, Nat.zero_le _⟩
  | @snoc ss s ts us d d' hss hs ih =>
    rw [execAll_snoc, Option.bind_eq_some_iff] at hm
    obtain ⟨m1, h1, h2⟩ := hm
    have hp' : Follows (.want .stmt (ts ++ (us ++ .newline :: rest)) m) p := by simpa using hp
    have hr : Reads none arith (.want .stmt (ts ++ (us ++ .newline :: rest)) m) (.want .stmt (us ++ .newline :: rest) m1) :=
      hss.reads h1 (not_exhausted _)
    obtain ⟨q, hg, hq⟩ := hr.follows hp'
    exact (ih h1 hp').max ((hs.peaks h2 hq).of_goes hg)

/-- Lines that take the stack to its limit: `yyparse` returns 2. -/
theorem RendersAll.exhausted {ss : List Stmt} {toks : List Token} {d : Nat} (h : RendersAll ss toks d) {sym : Fin 26 → Int} {m : Mem}
    (hm : execAll arith ⟨sym, []⟩ ss = some m) {n : Nat} (h0 : 0 < n) (hn : n ≤ d) (garbage : Int) :
    ∃ q, Ends (step (some n) arith) (start (List.ofFn sym) garbage toks) (.ret 2 q) := by
  obtain ⟨p, h1, h2⟩ := @start_follows none arith (not_exhausted 1) sym garbage toks
  have hp : Follows (.want .stmt (toks ++ []) ⟨sym, []⟩) p := by rwa [List.append_nil]
  exact (((h.peaks hm hp).le hn).of_goes h1).exhausted h0

/-- What `yyparse` returns 0 for are lines that mean what it did, and do not take the stack to
    its limit. -/
theorem lines_of_accepted {sym : Fin 26 → Int} {garbage : Int} {toks : List Token} {n : Nat} (h0 : 0 < n) {q : Yyparse}
    (h : Ends (step (some n) arith) (start (List.ofFn sym) garbage toks) (.ret 0 q)) :
    ∃ ss d m, RendersAll ss toks d ∧ execAll arith ⟨sym, []⟩ ss = some m ∧ d < n ∧ q.sym = List.ofFn m.sym ∧
      q.stdout = m.stdout ∧ q.stderr = [] := by
  have h1 := ends_unlimited arith h fun q' hq => by cases hq
  obtain ⟨r, q', hr, hq', hret⟩ := parser_ends arith sym garbage toks
  have heq := h1.unique hq'
  subst heq
  cases hret with
  | @accept m _ hsym hout herr =>
    obtain ⟨ss, d, hall, hm⟩ := accepted_lines hr
    refine ⟨ss, d, m, hall, hm, ?_, hsym, hout, herr⟩
    by_contra hd
    obtain ⟨q', hq'⟩ := hall.exhausted hm h0 (Nat.le_of_not_lt hd) garbage
    cases h.unique hq'

end NetworkCourse.Calc
