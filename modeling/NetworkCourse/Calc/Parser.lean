/-
  NetworkCourse.Calc.Parser — `yyparse` of packetdrill/calc.tab.c with the actions of
  calc.y.

  One `step` runs from `yysetstate` to the next: the overflow check, then a shift, a
  reduction with its action, an error or the end. Stacks have their top first. `toks` is
  what `yylex` has not returned yet. The stack is exhausted at `maxdepth` entries
  (`YYMAXDEPTH`; it grows up to that as long as there is memory), never with `none`.
  `arith` is C's `int` arithmetic, or another one: an undefined operation is a trap.

  `At` says what a parser is up to, whether or not it holds a look-ahead token. The last
  section has one lemma for each thing a step can do.
-/

import NetworkCourse.Calc.Tables
import NetworkCourse.Lib.Machine

namespace NetworkCourse.Calc

/-- The locals of `yyparse`, `sym`, and what was printed. `yychar` is `none` for
    `YYEMPTY`, `some none` for `YYEOF`. -/
structure Yyparse where
  yyss : List Nat
  yyvs : List Int
  yychar : Option (Option Token)
  yylval : Int
  yyerrstatus : Nat
  toks : List Token
  sym : List Int
  stdout : List Int
  stderr : List String

inductive Result where
  | ret (yyresult : Nat) (p : Yyparse)
  | trap (p : Yyparse)
  | outOfBounds (p : Yyparse)

def YYMAXDEPTH : Nat := 10000

def INT_MIN : Int := -2147483648
def INT_MAX : Int := 2147483647

/-- `int` arithmetic where it is defined. -/
def intArith (o : Op) (a b : Int) : Option Int :=
  let c := match o with
    | .plus => a + b
    | .minus => a - b
    | .times => a * b
    | .divide => a.tdiv b
  if (o = .divide ∧ b = 0) ∨ c < INT_MIN ∨ INT_MAX < c then none else some c

variable (maxdepth : Option Nat) (arith : Op → Int → Int → Option Int)

/-- Why an action stops the program. -/
inductive Stop where
  | trap
  | outOfBounds

/-- The `switch` of `yyreduce`: `d k` is `$k`; gives `yyval`, `sym` and the output. -/
def switch (rule : Nat) (d : Nat → Int) (yyval : Int) (sym stdout : List Int) : Except Stop (Int × List Int × List Int) :=
  let binary (o : Op) :=
    match arith o (d 1) (d 3) with
    | some v => .ok (v, sym, stdout)
    | none => .error .trap
  match rule with
  | 4 => .ok (yyval, sym, stdout ++ [d 1])
  | 5 => if 0 ≤ d 1 ∧ d 1 < sym.length then .ok (yyval, sym.set (d 1).toNat (d 3), stdout) else .error .outOfBounds
  | 7 =>
    if 0 ≤ d 1 then
      match sym[(d 1).toNat]? with
      | some v => .ok (v, sym, stdout)
      | none => .error .outOfBounds
    else .error .outOfBounds
  | 8 => binary .plus
  | 9 => binary .minus
  | 10 => binary .times
  | 11 => binary .divide
  | 12 => .ok (d 2, sym, stdout)
  | _ => .ok (yyval, sym, stdout)

/-- `yyreduce`. An empty rule's `yyval` is whatever lies above the stack; no action reads it. -/
def yyreduce (rule : Nat) (p : Yyparse) : Yyparse ⊕ Result :=
  let yylen := yyr2 rule
  match switch arith rule (fun k => p.yyvs.getD (yylen - k) 0) (p.yyvs.getD (yylen - 1) 0) p.sym p.stdout with
  | .error .trap => .inr (.trap p)
  | .error .outOfBounds => .inr (.outOfBounds p)
  | .ok (yyval, sym, stdout) =>
    match p.yyss.drop yylen with
    | [] => .inr (.outOfBounds p)
    | top :: ss =>
      .inl { p with
        yyss := goto rule top :: top :: ss
        yyvs := yyval :: p.yyvs.drop yylen
        sym := sym
        stdout := stdout }

/-- The loop of `yyerrlab1`: pop to a state that shifts the error token. -/
def popToError (yylval : Int) : List Nat → List Int → Option (Nat × List Nat × List Int)
  | [], _ => none
  | s :: ss, vs =>
    match errorTo s with
    | some n => some (n, n :: s :: ss, yylval :: vs)
    | none => popToError yylval ss vs.tail

def yyerrlab1 (p : Yyparse) : Yyparse ⊕ Result :=
  match popToError p.yylval p.yyss p.yyvs with
  | none => .inr (.ret 1 p)
  | some (n, ss, vs) =>
    if n = YYFINAL then .inr (.ret 0 p) else .inl { p with yyss := ss, yyvs := vs, yyerrstatus := 3 }

def yyerrlab (p : Yyparse) : Yyparse ⊕ Result :=
  let q := if p.yyerrstatus = 0 then { p with stderr := p.stderr ++ ["syntax error"] } else p
  if p.yyerrstatus = 3 then
    match p.yychar with
    | some none => .inr (.ret 1 q)
    | some (some _) => yyerrlab1 { q with yychar := none }
    | none => yyerrlab1 q
  else yyerrlab1 q

/-- `yychar = YYLEX`, when there is no look-ahead token yet. -/
def fetch (p : Yyparse) : Yyparse :=
  match p.yychar, p.toks with
  | some _, _ => p
  | none, [] => { p with yychar := some none }
  | none, t :: ts => { p with yychar := some (some t), toks := ts, yylval := t.yylval p.yylval }

/-- The look-ahead token, as `yybackup` sees it. -/
def look (p : Yyparse) : Option Token := p.yychar.getD none

def act (p : Yyparse) : Act → Yyparse ⊕ Result
  | .accept => .inr (.ret 0 p)
  | .error => yyerrlab p
  | .reduce rule => yyreduce arith rule p
  | .shift n =>
    .inl { p with
      yyss := n :: p.yyss
      yyvs := p.yylval :: p.yyvs
      yychar := if p.yychar = some none then some none else none
      yyerrstatus := p.yyerrstatus - 1 }

/-- The stack cannot hold one more entry. -/
def exhausted (n : Nat) : Prop := ∃ m, maxdepth = some m ∧ m ≤ n

instance (n : Nat) : Decidable (exhausted maxdepth n) :=
  match maxdepth with
  | none => .isFalse fun ⟨_, h, _⟩ => by cases h
  | some m => decidable_of_iff (m ≤ n) ⟨fun h => ⟨m, rfl, h⟩, fun ⟨_, h, hle⟩ => by cases h; exact hle⟩

def step (p : Yyparse) : Yyparse ⊕ Result :=
  match p.yyss with
  | [] => .inr (.outOfBounds p)
  | yystate :: _ =>
    if exhausted maxdepth p.yyss.length then .inr (.ret 2 { p with stderr := p.stderr ++ ["memory exhausted"] })
    else if yypact yystate = YYPACT_NINF then act arith p (yydefault yystate)
    else act arith (fetch p) (yybackup yystate (yytoken (look (fetch p))))

/-- `yyparse` in front of its first state; `sym` and the first value are given. -/
def start (sym : List Int) (garbage : Int) (toks : List Token) : Yyparse :=
  ⟨[0], [garbage], none, garbage, 0, toks, sym, [], []⟩

/-! ## What a parser is up to -/

/-- The look-ahead token is read: the first of `rest`, or the end. -/
def Fetched (p : Yyparse) (rest : List Token) : Prop :=
  p.yychar = some rest.head? ∧ p.toks = rest.tail ∧ ∀ t, rest.head? = some t → p.yylval = t.yylval p.yylval

/-- `sym` and what was printed. -/
structure Env where
  sym : List Int
  stdout : List Int

/-- A parser without an error so far: its stacks, the tokens it has not shifted, and its
    effects. -/
structure At (p : Yyparse) (ss : List Nat) (vs : List Int) (rest : List Token) (e : Env) : Prop where
  yyss : p.yyss = ss
  yyvs : p.yyvs = vs
  input : p.yychar = none ∧ p.toks = rest ∨ Fetched p rest
  sym : p.sym = e.sym
  stdout : p.stdout = e.stdout
  yyerrstatus : p.yyerrstatus = 0
  stderr : p.stderr = []

theorem at_start (sym : List Int) (garbage : Int) (toks : List Token) :
    At (start sym garbage toks) [0] [garbage] toks ⟨sym, []⟩ :=
  ⟨rfl, rfl, Or.inl ⟨rfl, rfl⟩, rfl, rfl, rfl, rfl⟩

theorem Token.yylval_idem (t : Token) (x : Int) : t.yylval (t.yylval x) = t.yylval x := by
  cases t <;> rfl

variable {p : Yyparse} {s : Nat} {ss : List Nat} {vs : List Int} {rest : List Token} {e : Env}

theorem fetch_at (h : At p ss vs rest e) : At (fetch p) ss vs rest e ∧ Fetched (fetch p) rest := by
  rcases h.input with ⟨hc, ht⟩ | hf
  · cases rest with
    | nil =>
      have hp : fetch p = { p with yychar := some none } := by unfold fetch; rw [hc, ht]
      have hf : Fetched (fetch p) [] := by rw [hp]; exact ⟨rfl, ht, fun t h => by cases h⟩
      exact ⟨⟨by rw [hp]; exact h.yyss, by rw [hp]; exact h.yyvs, Or.inr hf, by rw [hp]; exact h.sym,
        by rw [hp]; exact h.stdout, by rw [hp]; exact h.yyerrstatus, by rw [hp]; exact h.stderr⟩, hf⟩
    | cons t ts =>
      have hp : fetch p = { p with yychar := some (some t), toks := ts, yylval := t.yylval p.yylval } := by
        unfold fetch; rw [hc, ht]
      have hf : Fetched (fetch p) (t :: ts) := by
        rw [hp]
        refine ⟨rfl, rfl, ?_⟩
        intro u hu
        cases hu
        exact (t.yylval_idem _).symm
      exact ⟨⟨by rw [hp]; exact h.yyss, by rw [hp]; exact h.yyvs, Or.inr hf, by rw [hp]; exact h.sym,
        by rw [hp]; exact h.stdout, by rw [hp]; exact h.yyerrstatus, by rw [hp]; exact h.stderr⟩, hf⟩
  · have hp : fetch p = p := by unfold fetch; rw [hf.1]
    rw [hp]
    exact ⟨h, hf⟩

variable {maxdepth}

/-- A step with room acts on what comes next, and has read it unless it reduces. -/
theorem step_at (h : At p (s :: ss) vs rest e) (hroom : ¬ exhausted maxdepth (s :: ss).length) :
    ∃ q, At q (s :: ss) vs rest e ∧ step maxdepth arith p = act arith q (action s rest.head?) ∧
      (Fetched q rest ∨ ∃ r, action s rest.head? = .reduce r) := by
  have hs : step maxdepth arith p = if yypact s = YYPACT_NINF then act arith p (yydefault s)
      else act arith (fetch p) (yybackup s (yytoken (look (fetch p)))) := by
    unfold step
    rw [h.yyss]
    simp only [if_neg hroom]
  by_cases hn : yypact s = YYPACT_NINF
  · refine ⟨p, h, ?_, ?_⟩
    · rw [hs, if_pos hn, action, if_pos hn]
    · rw [action, if_pos hn]
      exact Or.inr (yydefault_reduce hn)
  · obtain ⟨hq, hf⟩ := fetch_at h
    refine ⟨fetch p, hq, ?_, Or.inl hf⟩
    rw [hs, if_neg hn, action, if_neg hn, look, hf.1, Option.getD_some]

/-- Behind a shift there is no look-ahead token. -/
theorem step_shift_empty {t : Token} {n : Nat} (h : At p (s :: ss) vs (t :: rest) e)
    (hroom : ¬ exhausted maxdepth (s :: ss).length) (ha : action s (some t) = .shift n) :
    ∃ q v, step maxdepth arith p = .inl q ∧ v = t.yylval v ∧ At q (n :: s :: ss) (v :: vs) rest e ∧
      q.yychar = none ∧ q.toks = rest := by
  obtain ⟨q, hq, hst, hf⟩ := step_at arith h hroom
  rw [List.head?_cons, ha] at hst hf
  obtain ⟨hc, ht, hv⟩ : Fetched q (t :: rest) := by
    rcases hf with hf | ⟨r, hf⟩
    · exact hf
    · cases hf
  refine ⟨_, q.yylval, hst, hv t rfl, ?_⟩
  have hchar : (if q.yychar = some none then some none else none : Option (Option Token)) = none := by rw [hc]; rfl
  exact ⟨⟨by rw [← hq.yyss], by rw [← hq.yyvs], Or.inl ⟨hchar, ht⟩, hq.sym, hq.stdout, by rw [hq.yyerrstatus], hq.stderr⟩,
    hchar, ht⟩

theorem step_shift {t : Token} {n : Nat} (h : At p (s :: ss) vs (t :: rest) e)
    (hroom : ¬ exhausted maxdepth (s :: ss).length) (ha : action s (some t) = .shift n) :
    ∃ q v, step maxdepth arith p = .inl q ∧ v = t.yylval v ∧ At q (n :: s :: ss) (v :: vs) rest e := by
  obtain ⟨q, v, hst, hv, hq, -⟩ := step_shift_empty arith h hroom ha
  exact ⟨q, v, hst, hv, hq⟩

theorem step_reduce (r : Nat) {top : Nat} {ss' : List Nat} {w : Int} (e' : Env) (h : At p (s :: ss) vs rest e)
    (hroom : ¬ exhausted maxdepth (s :: ss).length) (ha : action s rest.head? = .reduce r)
    (hsw : switch arith r (fun k => vs.getD (yyr2 r - k) 0) (vs.getD (yyr2 r - 1) 0) e.sym e.stdout =
      .ok (w, e'.sym, e'.stdout))
    (hdrop : (s :: ss).drop (yyr2 r) = top :: ss') :
    ∃ q, step maxdepth arith p = .inl q ∧ At q (goto r top :: top :: ss') (w :: vs.drop (yyr2 r)) rest e' := by
  obtain ⟨q, hq, hst, -⟩ := step_at arith h hroom
  rw [ha, act, yyreduce, hq.yyvs, hq.sym, hq.stdout, hq.yyss] at hst
  simp only [hsw, hdrop] at hst
  refine ⟨_, hst, rfl, rfl, ?_, rfl, rfl, hq.yyerrstatus, hq.stderr⟩
  rcases hq.input with hi | hi
  · exact Or.inl hi
  · exact Or.inr hi

theorem step_trap (r : Nat) (h : At p (s :: ss) vs rest e) (hroom : ¬ exhausted maxdepth (s :: ss).length)
    (ha : action s rest.head? = .reduce r)
    (hsw : switch arith r (fun k => vs.getD (yyr2 r - k) 0) (vs.getD (yyr2 r - 1) 0) e.sym e.stdout = .error .trap) :
    ∃ q, step maxdepth arith p = .inr (.trap q) ∧ At q (s :: ss) vs rest e := by
  obtain ⟨q, hq, hst, -⟩ := step_at arith h hroom
  rw [ha, act, yyreduce, hq.yyvs, hq.sym, hq.stdout, hq.yyss] at hst
  simp only [hsw] at hst
  exact ⟨q, hst, hq⟩

theorem step_accept (h : At p (s :: ss) vs rest e) (hroom : ¬ exhausted maxdepth (s :: ss).length)
    (ha : action s rest.head? = .accept) :
    ∃ q, step maxdepth arith p = .inr (.ret 0 q) ∧ At q (s :: ss) vs rest e := by
  obtain ⟨q, hq, hst, -⟩ := step_at arith h hroom
  rw [ha] at hst
  exact ⟨q, hst, hq⟩

theorem popToError_none (v : Int) (ss : List Nat) (vs : List Int) : popToError v ss vs = none := by
  induction ss generalizing vs with
  | nil => rfl
  | cons s ss ih => rw [popToError, errorTo_none]; exact ih _

/-- An error ends the parse: no state on the stack takes the error token. The token in error
    is the look-ahead. -/
theorem step_error (h : At p (s :: ss) vs rest e) (hroom : ¬ exhausted maxdepth (s :: ss).length)
    (ha : action s rest.head? = .error) :
    ∃ q, step maxdepth arith p = .inr (.ret 1 { q with stderr := ["syntax error"] }) ∧ At q (s :: ss) vs rest e ∧
      Fetched q rest := by
  obtain ⟨q, hq, hst, hf⟩ := step_at arith h hroom
  have hf' : Fetched q rest := by
    rcases hf with hf | ⟨r, hf⟩
    · exact hf
    · rw [ha] at hf
      cases hf
  refine ⟨q, ?_, hq, hf'⟩
  rw [hst, ha, act, yyerrlab, hq.yyerrstatus, hq.stderr]
  simp [yyerrlab1, popToError_none]

theorem not_exhausted (n : Nat) : ¬ exhausted none n := by
  intro ⟨m, hm, _⟩
  cases hm

theorem room_of_lt {d n : Nat} (h : d < n) : ¬ exhausted (some n) d := by
  rintro ⟨m, hm, hle⟩
  cases hm
  exact Nat.not_le.mpr h hle

/-- A full stack ends the parse. -/
theorem step_exhausted (p : Yyparse) (hne : p.yyss ≠ []) (hfull : exhausted maxdepth p.yyss.length) :
    step maxdepth arith p = .inr (.ret 2 { p with stderr := p.stderr ++ ["memory exhausted"] }) := by
  unfold step
  cases h : p.yyss with
  | nil => exact absurd h hne
  | cons s ss =>
    rw [h] at hfull
    exact if_pos hfull

/-- A limit on the stack shows only where it is reached. -/
theorem step_agrees (p : Yyparse) :
    step maxdepth arith p = step none arith p ∨ ∃ r, step maxdepth arith p = .inr r ∧ ∃ q, r = .ret 2 q := by
  unfold step
  cases p.yyss with
  | nil => exact Or.inl rfl
  | cons s ss =>
    by_cases hfull : exhausted maxdepth (s :: ss).length
    · simp only [if_pos hfull]
      exact Or.inr ⟨_, rfl, _, rfl⟩
    · simp only [if_neg hfull, if_neg (not_exhausted _), true_or]

/-- A run that does not reach it ends as with no limit. -/
theorem ends_unlimited {p : Yyparse} {r : Result} (h : Lib.Machine.Ends (step maxdepth arith) p r) (hr : ∀ q, r ≠ .ret 2 q) :
    Lib.Machine.Ends (step none arith) p r := by
  apply h.of_agrees (step_agrees arith)
  intro ⟨q, hq⟩
  exact hr q hq

end NetworkCourse.Calc
