/-
  NetworkCourse.Calc.SymAccess — how the actions of calc.y index `sym`.

  Two of them do, with the `$1` of a `VARIABLE`: rule 7 when it is read, rule 5 when it is
  assigned to. The value stack has one type for all, so that `$1` is such a value is a matter
  of the states on the other stack (`indexes`). It is the scanner's for a letter of the text,
  and so one of 0 to 25 (`sym_accesses`).
-/

import NetworkCourse.Calc.Boundary
import NetworkCourse.Calc.Reached
import NetworkCourse.Calc.Rejected

namespace NetworkCourse.Calc

open Lib.Machine Lib.Ascii

variable {maxdepth : Option Nat} {arith : Op → Int → Int → Option Int} {sym : Fin 26 → Int} {garbage : Int}

/-! ## The scanner's variables -/

/-- `i` is what `yylval` is set to for a match of the first rule, and `rest` are the tokens
    behind it. -/
def Scanned (text : List UInt8) (i : Int) (rest : List Token) : Prop :=
  ∃ m ∈ matched text, ∃ b, m.act = 1 ∧ m.yytext = [b] ∧ isLetter b = true ∧ i = (b.toNat : Int) - 97 ∧ tokens m.rest = rest

theorem letter_of_variable {b : UInt8} {x : Fin 26} (h : (doAction (ruleOf b) [b]).token? = some (.VARIABLE x)) :
    isLetter b = true ∧ ruleOf b = 1 ∧ (x.val : Int) = (b.toNat : Int) - 97 := by
  cases hact : calcRule (ruleOf b) [b] with
  | ret yychar yylval =>
    obtain ⟨⟨t, ht, hy, hold⟩, -⟩ := byte_returns hact
    rw [ht] at h
    obtain rfl : t = .VARIABLE x := Option.some.inj h
    by_cases hl : isLetter b = true
    · have hr : ruleOf b = 1 := if_pos hl
      rw [hr] at hact
      cases hact
      exact ⟨hl, hr, hold 0⟩
    · -- a byte is no code of a variable
      exfalso
      have hlt := b.toNat_lt
      rw [show ruleOf b = if isChar b then 3 else if isBlank b then 4 else 5 from if_neg hl] at hact
      have hv : yychar = 259 := hy.symm
      split at hact
      · cases hact
        omega
      · split at hact <;> cases hact
  | nothing | yyerror =>
    rw [doAction, hact] at h
    cases h

/-- A `VARIABLE` among the tokens of a text is a letter of it. -/
theorem scanned_variable {text : List UInt8} {ts us : List Token} {x : Fin 26} (h : tokens text = ts ++ .VARIABLE x :: us) :
    Scanned text x.val us := by
  induction text using runs_induction generalizing ts with
  | nil => simp [tokens, lexed, lexedUpTo] at h
  | run ds rest hne hd hr ih =>
    rw [tokens_digits hne hd hr] at h
    cases ts with
    | nil => cases h
    | cons t ts =>
      obtain ⟨m, hm, hs⟩ := ih (List.cons.inj h).2
      exact ⟨m, by rw [matched_digits hne hd hr]; exact List.mem_cons_of_mem _ hm, hs⟩
  | byte b rest hb ih =>
    have hlater : ∀ {ts}, tokens rest = ts ++ .VARIABLE x :: us → Scanned (b :: rest) x.val us := by
      intro ts hts
      obtain ⟨m, hm, hs⟩ := ih hts
      exact ⟨m, by rw [matched_byte hb]; exact List.mem_cons_of_mem _ hm, hs⟩
    rw [tokens_byte hb] at h
    cases ha : (doAction (ruleOf b) [b]).token? with
    | none =>
      rw [ha] at h
      exact hlater h
    | some t =>
      rw [ha] at h
      cases ts with
      | nil =>
        obtain ⟨rfl, hus⟩ : t = .VARIABLE x ∧ tokens rest = us := List.cons.inj h
        obtain ⟨hl, hr, hx⟩ := letter_of_variable ha
        exact ⟨_, by rw [matched_byte hb]; exact List.mem_cons_self, b, hr, rfl, hl, hx, hus⟩
      | cons t' ts => exact hlater (List.cons.inj h).2

/-! ## The next action -/

/-- What the next step does, if the stack has room. -/
def nextAct (maxdepth : Option Nat) (p : Yyparse) : Option Act :=
  match p.yyss with
  | [] => none
  | yystate :: _ =>
    if exhausted maxdepth p.yyss.length then none
    else if yypact yystate = YYPACT_NINF then some (yydefault yystate)
    else some (yybackup yystate (yytoken (look (fetch p))))

/-- The tokens not shifted yet: the look-ahead token, and what `yylex` has not returned. -/
def unshifted (p : Yyparse) : List Token :=
  match p.yychar with
  | some (some t) => t :: p.toks
  | _ => p.toks

theorem At.unshifted {p : Yyparse} {ss : List Nat} {vs : List Int} {rest : List Token} {e : Env} (h : At p ss vs rest e) :
    unshifted p = rest := by
  unfold Calc.unshifted
  rcases h.input with ⟨hc, ht⟩ | ⟨hc, ht, -⟩
  · rw [hc]
    exact ht
  · rw [hc]
    cases rest with
    | nil => exact ht
    | cons t ts => exact congrArg _ ht

theorem At.nextAct {p : Yyparse} {s : Nat} {ss : List Nat} {vs : List Int} {rest : List Token} {e : Env} {a : Act}
    (h : At p (s :: ss) vs rest e) (ha : nextAct maxdepth p = some a) : action s rest.head? = a := by
  unfold Calc.nextAct at ha
  rw [h.yyss] at ha
  simp only at ha
  split at ha
  · cases ha
  · unfold action
    by_cases hn : yypact s = YYPACT_NINF
    · rw [if_pos hn] at ha ⊢
      exact Option.some.inj ha
    · rw [if_neg hn] at ha ⊢
      obtain ⟨-, hf⟩ := fetch_at h
      rw [look, hf.1, Option.getD_some] at ha
      exact Option.some.inj ha

/-- A step that goes on does the next action, behind a token it may have read. -/
theorem step_nextAct {p q : Yyparse} (h : step maxdepth arith p = .inl q) :
    ∃ a p', nextAct maxdepth p = some a ∧ act arith p' a = .inl q ∧ p'.yyvs = p.yyvs ∧ p'.sym = p.sym := by
  obtain ⟨-, hyyvs, hsym, -⟩ := fetch_frame p
  unfold step at h
  unfold nextAct
  cases hs : p.yyss with
  | nil =>
    rw [hs] at h
    cases h
  | cons s ss =>
    rw [hs] at h
    simp only at h ⊢
    split at h
    · cases h
    · next hroom =>
      rw [if_neg hroom]
      split at h
      · next hn => exact ⟨_, p, if_pos hn, h, rfl, rfl⟩
      · next hn => exact ⟨_, fetch p, if_neg hn, h, hyyvs, hsym⟩

theorem switch_sym {rule : Nat} {d : Nat → Int} {w v : Int} {sym sym' out out' : List Int}
    (h : switch arith rule d w sym out = .ok (v, sym', out')) :
    rule = 5 ∧ sym' = sym.set (d 1).toNat (d 3) ∨ rule ≠ 5 ∧ sym' = sym := by
  by_cases hr : rule = 5
  · subst hr
    simp only [switch] at h
    split at h
    · cases h
      exact Or.inl ⟨rfl, rfl⟩
    · cases h
  · refine Or.inr ⟨hr, ?_⟩
    unfold switch at h
    simp only at h
    split at h
    case h_2 => exact absurd rfl hr
    all_goals
      repeat' split at h
      all_goals
        cases h
        try rfl

/-- Only rule 5 changes `sym`, by its assignment. -/
theorem step_sym {p q : Yyparse} (h : step maxdepth arith p = .inl q) :
    nextAct maxdepth p = some (.reduce 5) ∧ q.sym = p.sym.set (p.yyvs.getD 2 0).toNat (p.yyvs.getD 0 0) ∨
      nextAct maxdepth p ≠ some (.reduce 5) ∧ q.sym = p.sym := by
  obtain ⟨a, p', ha, hact, hvs, hsym⟩ := step_nextAct h
  rw [ha, ← hvs, ← hsym]
  cases a with
  | accept => cases hact
  | error =>
    obtain ⟨r, hr, -⟩ := yyerrlab_ends p'
    rw [act, hr] at hact
    cases hact
  | shift n =>
    cases hact
    exact Or.inr ⟨by simp, rfl⟩
  | reduce r =>
    rw [act, yyreduce] at hact
    split at hact
    · cases hact
    · cases hact
    · next hsw =>
      split at hact
      · cases hact
      · cases hact
        rcases switch_sym hsw with ⟨rfl, hset⟩ | ⟨hne, hkeep⟩
        · exact Or.inl ⟨rfl, hset⟩
        · exact Or.inr ⟨by simpa using hne, hkeep⟩

/-! ## The index -/

/-- A state that wants an operand shifts. -/
theorem entry_shifts (c : Ctx) (rest : List Token) (r : Nat) : action c.entry rest.head? ≠ .reduce r := by
  intro h
  by_cases hs : Starts rest
  · cases hs with
    | integer n rest => rw [List.head?_cons, action_integer] at h; cases h
    | var x rest => rw [List.head?_cons, action_variable] at h; cases h
    | lpar rest => rw [List.head?_cons, action_lpar] at h; cases h
  · rw [action_want hs] at h
    split at h <;> cases h

/-- Behind an operand, a state reduces by the rule its context closes by. -/
theorem hold_reduces {c : Ctx} {look : Option Token} {r : Nat} (h : action c.hold look = .reduce r) : r = c.rule := by
  by_cases hop : ∃ o, look = some (.op o) ∧ c.prec < o.prec
  · obtain ⟨o, rfl, ho⟩ := hop
    rw [action_op ho] at h
    cases h
  · have hno : ∀ o, look = some (.op o) → ¬ c.prec < o.prec := fun o ho hlt => hop ⟨o, ho, hlt⟩
    by_cases hp : ∃ c', c = .paren c'
    · obtain ⟨c, rfl⟩ := hp
      by_cases hr : look = some .rpar
      · rw [hr, action_rpar] at h
        cases h
      · rw [action_paren (fun o ho => hno o ho o.prec_pos) hr] at h
        cases h
    · rw [action_close (fun c' hc' => hp ⟨c', hc'⟩) hno] at h
      cases h
      rfl

/-- Of the contexts, an assignment closes by rule 5, and none by rule 7. -/
theorem rule_indexes {c : Ctx} (h : c.rule = 5 ∨ c.rule = 7) : c.rule = 5 ∧ ∃ x, c = .assign x := by
  cases c with
  | assign x => exact ⟨rfl, x, rfl⟩
  | binary o c a => cases o <;> rcases h with h | h <;> cases h
  | _ => rcases h with h | h <;> cases h

/-- Where the next action indexes `sym`: rule 7 behind a variable that is an operand, rule 5
    behind the operand of an assignment, each with the variable's value for `$1`. -/
inductive Indexes : Nat → Cfg → Yyparse → Prop
  | reads {c : Ctx} {x : Fin 26} {rest : List Token} {m : Mem} {p : Yyparse} : p.yyvs[0]? = some (x.val : Int) →
      unshifted p = rest → Indexes 7 (.want c (.VARIABLE x :: rest) m) p
  | assigns {x : Fin 26} {v : Int} {rest : List Token} {m : Mem} {p : Yyparse} : p.yyvs[2]? = some (x.val : Int) →
      p.yyvs[0]? = some v → unshifted p = rest → Indexes 5 (.after (.assign x) v rest m) p

theorem indexes {k : Cfg} {p : Yyparse} {r : Nat} (h : UpTo k p) (ha : nextAct maxdepth p = some (.reduce r))
    (hr : r = 5 ∨ r = 7) : Indexes r k p := by
  rcases h with h | h
  · cases k with
    | want c rest m =>
      obtain ⟨vs, -, h⟩ := h
      exact absurd (h.nextAct ha) (entry_shifts c rest r)
    | after c v rest m =>
      obtain ⟨vs, hv, h⟩ := h
      have hrule := hold_reduces (h.nextAct ha)
      subst hrule
      obtain ⟨h5, x, rfl⟩ := rule_indexes hr
      cases hv with
      | assign x a b d => exact .assigns (by rw [h.yyvs]; rfl) (by rw [h.yyvs]; rfl) h.unshifted
    | done rest m =>
      obtain ⟨v, a, b, h⟩ := h
      have hact := h.nextAct ha
      by_cases hn : rest.head? = some .newline
      · rw [hn] at hact
        cases hact
      · rw [action_done hn] at hact
        cases hact
  · cases h with
    | integer hv h =>
      cases (action_default rfl _).symm.trans (h.nextAct ha)
      rcases hr with hr | hr <;> cases hr
    | @var c vs x rest m _ hv hn h =>
      have hact : action (if c = .stmt then 4 else 9) rest.head? = .reduce 7 := action_operand hn
      rw [h.nextAct ha] at hact
      cases hact
      exact .reads (by rw [h.yyvs]; rfl) h.unshifted
    | assign hv h => cases h.nextAct ha
    | rpar hv h =>
      cases (action_default rfl _).symm.trans (h.nextAct ha)
      rcases hr with hr | hr <;> cases hr
    | newline h =>
      cases (action_default rfl _).symm.trans (h.nextAct ha)
      rcases hr with hr | hr <;> cases hr

/-- What is behind the machine there says that it is the scanner's. -/
theorem Indexes.scanned {text : List UInt8} {m0 : Mem} {k : Cfg} {p : Yyparse} {r : Nat} (h : Indexes r k p)
    (hb : Behind arith (tokens text) m0 k) :
    r = 7 ∧ (∃ x : Fin 26, p.yyvs[0]? = some (x.val : Int) ∧ Scanned text x.val (unshifted p)) ∨
      r = 5 ∧ ∃ (x : Fin 26) (v : Int), p.yyvs[2]? = some (x.val : Int) ∧ p.yyvs[0]? = some v ∧
        ∃ ts, IsExpr ts ∧ Scanned text x.val (.assign :: (ts ++ unshifted p)) := by
  cases h with
  | @reads c x rest m _ hx hrest =>
    cases hb with
    | @want _ ts u _ _ _ _ ht =>
      have htoks : tokens text = (ts ++ u) ++ .VARIABLE x :: rest := by rw [ht, List.append_assoc]
      refine Or.inl ⟨rfl, x, hx, ?_⟩
      rw [hrest]
      exact scanned_variable htoks
  | @assigns x v rest m _ hx hv hrest =>
    cases hb with
    | @after _ ts u us _ _ _ _ _ hc he _ _ ht =>
      cases hc
      have htoks : tokens text = ts ++ .VARIABLE x :: (.assign :: (us ++ rest)) := ht
      refine Or.inr ⟨rfl, x, v, hx, hv, us, he.isExpr, ?_⟩
      rw [hrest]
      exact scanned_variable htoks

theorem upTo_length {k : Cfg} {p : Yyparse} (h : UpTo k p) : p.sym.length = 26 := by
  have hlen : ∀ m : Mem, m.env.sym.length = 26 := fun m => List.length_ofFn
  rcases h with h | h
  · cases k with
    | want c rest m =>
      obtain ⟨vs, -, h⟩ := h
      rw [h.sym, hlen]
    | after c v rest m =>
      obtain ⟨vs, -, h⟩ := h
      rw [h.sym, hlen]
    | done rest m =>
      obtain ⟨v, a, b, h⟩ := h
      rw [h.sym, hlen]
  · cases h with
    | integer _ h => rw [h.sym, hlen]
    | var _ _ h => rw [h.sym, hlen]
    | assign _ h => rw [h.sym, hlen]
    | rpar _ h => rw [h.sym, hlen]
    | newline h => rw [h.sym, hlen]

/-- No step goes past an end of `sym` or of a stack. -/
theorem upTo_in_bounds {k : Cfg} {p : Yyparse} (h : UpTo k p) (q : Yyparse) :
    step maxdepth arith p ≠ .inr (.outOfBounds q) := by
  intro hst
  rcases @step_agrees maxdepth arith p with heq | ⟨r, hr, q', rfl⟩
  · rw [heq] at hst
    rcases h with h | h
    · cases follows_advances arith h (not_exhausted _) with
      | moves _ hst' _ =>
        rw [hst] at hst'
        cases hst'
      | shifts hst' _ =>
        rw [hst] at hst'
        cases hst'
      | halts _ hst' hret =>
        rw [hst] at hst'
        cases hst'
        cases hret
    · obtain ⟨_, _, -, hst', -⟩ := shifted_moves arith h (not_exhausted _)
      rw [hst] at hst'
      cases hst'
  · rw [hst] at hr
    cases hr

/-- The parse begins with rule 3. -/
theorem start_reduces {toks : List Token} {r : Nat}
    (h : nextAct maxdepth (start (List.ofFn sym) garbage toks) = some (.reduce r)) : r = 3 := by
  have hat : At (start (List.ofFn sym) garbage toks) [0] [garbage] toks (Mem.env ⟨sym, []⟩) := at_start _ _ _
  cases (action_default rfl _).symm.trans (hat.nextAct h)
  rfl

theorem start_in_bounds (toks : List Token) (q : Yyparse) :
    step maxdepth arith (start (List.ofFn sym) garbage toks) ≠ .inr (.outOfBounds q) := by
  intro hst
  rcases @step_agrees maxdepth arith (start (List.ofFn sym) garbage toks) with heq | ⟨r, hr, q', rfl⟩
  · obtain ⟨q', hst', -⟩ := @start_step none arith (not_exhausted 1) sym garbage toks
    rw [heq, hst'] at hst
    cases hst
  · rw [hst] at hr
    cases hr

/-- At any time in the parse of any text: `sym` has its 26 elements, and the next step stays
    within it and the stacks. If its action is that of rule 7 or 5, the index `$1` is on the value
    stack, is what the scanner gave for a letter, read just before or in front of `=` and the
    operand, and is one of 0 to 25. The element at it is all that rule 5 changes; other steps
    change none. -/
theorem sym_accesses (maxdepth : Option Nat) (arith : Op → Int → Int → Option Int) (sym : Fin 26 → Int) (garbage : Int)
    (text : List UInt8) {p : Yyparse} (h : Goes (step maxdepth arith) (start (List.ofFn sym) garbage (tokens text)) p) :
    p.sym.length = 26 ∧ (∀ q, step maxdepth arith p ≠ .inr (.outOfBounds q)) ∧
      (nextAct maxdepth p = some (.reduce 7) → ∃ i, p.yyvs[0]? = some i ∧ 0 ≤ i ∧ i ≤ 25 ∧ Scanned text i (unshifted p)) ∧
      (nextAct maxdepth p = some (.reduce 5) → ∃ i v, p.yyvs[2]? = some i ∧ p.yyvs[0]? = some v ∧ 0 ≤ i ∧ i ≤ 25 ∧
        (∃ ts, IsExpr ts ∧ Scanned text i (.assign :: (ts ++ unshifted p))) ∧
        ∀ q, step maxdepth arith p = .inl q → q.sym = p.sym.set i.toNat v) ∧
      (nextAct maxdepth p ≠ some (.reduce 5) → ∀ q, step maxdepth arith p = .inl q → q.sym = p.sym) := by
  have hkeep : nextAct maxdepth p ≠ some (.reduce 5) → ∀ q, step maxdepth arith p = .inl q → q.sym = p.sym := by
    intro hne q hst
    rcases step_sym hst with ⟨h5, -⟩ | ⟨-, hs⟩
    · exact absurd h5 hne
    · exact hs
  rcases reached_behind h with rfl | ⟨k, hb, hu⟩
  · refine ⟨List.length_ofFn, start_in_bounds _, fun h7 => ?_, fun h5 => ?_, hkeep⟩
    · cases start_reduces h7
    · cases start_reduces h5
  · refine ⟨upTo_length hu, upTo_in_bounds hu, fun h7 => ?_, fun h5 => ?_, hkeep⟩
    · rcases (indexes hu h7 (Or.inr rfl)).scanned hb with ⟨-, x, hx, hs⟩ | ⟨h, -⟩
      · exact ⟨_, hx, Int.natCast_nonneg _, by have := x.isLt; omega, hs⟩
      · cases h
    · rcases (indexes hu h5 (Or.inl rfl)).scanned hb with ⟨h, -⟩ | ⟨-, x, v, hx, hv, hs⟩
      · cases h
      · refine ⟨_, v, hx, hv, Int.natCast_nonneg _, by have := x.isLt; omega, hs, fun q hst => ?_⟩
        rcases step_sym hst with ⟨-, hset⟩ | ⟨hne, -⟩
        · rw [hset, List.getD_eq_getElem?_getD, List.getD_eq_getElem?_getD, hx, hv]
          rfl
        · exact absurd h5 hne

/-- `z=7`, when the operand has been read: 7 is stored at 25. -/
theorem sym_accesses_assign : ∃ p i v, Goes (step (some YYMAXDEPTH) intArith) (start (List.ofFn sym0) 0 (tokens [122, 61, 55, 10])) p ∧
    nextAct (some YYMAXDEPTH) p = some (.reduce 5) ∧ p.yyvs[2]? = some i ∧ p.yyvs[0]? = some v ∧ i = 25 ∧ v = 7 ∧
    ∀ q, step (some YYMAXDEPTH) intArith p = .inl q → q.sym = p.sym.set i.toNat v := by
  have hg : Goes (step (some YYMAXDEPTH) intArith) (start (List.ofFn sym0) 0 (tokens [122, 61, 55, 10])) _ :=
    .next rfl (.next rfl (.next rfl (.next rfl (.next rfl (.refl _)))))
  obtain ⟨-, -, -, h5, -⟩ := sym_accesses (some YYMAXDEPTH) intArith sym0 0 [122, 61, 55, 10] hg
  obtain ⟨i, v, hi, hv, -, -, -, hset⟩ := h5 rfl
  refine ⟨_, i, v, hg, rfl, hi, hv, ?_, ?_, hset⟩
  · cases hi
    rfl
  · cases hv
    rfl

end NetworkCourse.Calc
