/-
  NetworkCourse.Calc.Accepts — what the parser has read is what the grammar writes.

  `Behind` is the invariant: the tokens read so far are complete lines and the beginning of
  one more, the context says what that one holds, and the values are those of the operands
  read (`behind_step`, `behind_run`). With the reading of `Reading`, `yyparse` accepts the
  sentences of the grammar and no others (`accepts_exactly`).
-/

import NetworkCourse.Calc.Reading

namespace NetworkCourse.Calc

open Lib.Machine

variable (arith : Op → Int → Int → Option Int)

/-! ## What was read -/

/-- `ts` writes an expression of level `l` and value `v`. -/
def Evaluates (sym : Fin 26 → Int) (l : Nat) (ts : List Token) (v : Int) : Prop :=
  ∃ e d, Renders l e ts d ∧ eval arith sym e = some v

/-- `ts` writes a statement that takes `m` to `m'`. -/
def Executes (m : Mem) (ts : List Token) (m' : Mem) : Prop := ∃ s d, RendersStmt s ts d ∧ exec arith m s = some m'

/-- `ts` writes complete lines that take `m` to `m'`. -/
def ExecutesAll (m : Mem) (ts : List Token) (m' : Mem) : Prop := ∃ ss d, RendersAll ss ts d ∧ execAll arith m ss = some m'

/-- `u` is what a statement has given its context so far. -/
inductive Spells (sym : Fin 26 → Int) : Ctx → List Token → Prop
  | stmt : Spells sym .stmt []
  | assign (x : Fin 26) : Spells sym (.assign x) [.VARIABLE x, .assign]
  | paren {c : Ctx} {u : List Token} : Spells sym c u → Spells sym (.paren c) (u ++ [.lpar])
  | binary {c : Ctx} {u ts : List Token} {o : Op} {a : Int} : Spells sym c u → c.prec < o.prec → Evaluates arith sym o.prec ts a →
      Spells sym (.binary o c a) (u ++ ts ++ [.op o])

variable {arith}

section
variable {sym : Fin 26 → Int} {l : Nat} {ts us : List Token} {v w : Int} {m m' m'' : Mem}

theorem evaluates_integer (n : Int) : Evaluates arith sym 3 [.INTEGER n] n := ⟨_, _, .num n, rfl⟩

theorem evaluates_variable (x : Fin 26) : Evaluates arith sym 3 [.VARIABLE x] (sym x) := ⟨_, _, .var x, rfl⟩

theorem Evaluates.mono {l' : Nat} (h : Evaluates arith sym l ts v) (hl : l' ≤ l) : Evaluates arith sym l' ts v := by
  obtain ⟨e, d, h, hv⟩ := h
  exact ⟨e, d, h.mono hl, hv⟩

theorem Evaluates.paren (h : Evaluates arith sym 1 ts v) : Evaluates arith sym 3 (.lpar :: (ts ++ [.rpar])) v := by
  obtain ⟨e, d, h, hv⟩ := h
  exact ⟨e, _, h.paren, hv⟩

theorem Evaluates.op {o : Op} {u : Int} (h : Evaluates arith sym o.prec ts u) (h' : Evaluates arith sym (o.prec + 1) us v)
    (hw : arith o u v = some w) : Evaluates arith sym o.prec (ts ++ .op o :: us) w := by
  obtain ⟨a, d, h, hu⟩ := h
  obtain ⟨b, d', h', hv⟩ := h'
  refine ⟨.op o a b, _, .op o h h', ?_⟩
  rw [eval, hu, Option.bind_some, hv, Option.bind_some, hw]

theorem Evaluates.print (h : Evaluates arith m.sym 1 ts v) : Executes arith m ts (m.print v) := by
  obtain ⟨e, d, h, hv⟩ := h
  exact ⟨_, _, .expr h, by rw [exec, hv]; rfl⟩

theorem Evaluates.set (x : Fin 26) (h : Evaluates arith m.sym 1 ts v) :
    Executes arith m (.VARIABLE x :: .assign :: ts) (m.set x v) := by
  obtain ⟨e, d, h, hv⟩ := h
  exact ⟨_, _, .assign x h, by rw [exec, hv]; rfl⟩

theorem executesAll_nil (m : Mem) : ExecutesAll arith m [] m := ⟨[], 0, .nil, rfl⟩

theorem ExecutesAll.snoc (h : ExecutesAll arith m ts m') (h' : Executes arith m' us m'') :
    ExecutesAll arith m (ts ++ us ++ [.newline]) m'' := by
  obtain ⟨ss, d, h, hm⟩ := h
  obtain ⟨s, d', h', hm'⟩ := h'
  refine ⟨_, _, .snoc h h', ?_⟩
  rw [execAll_snoc, hm, Option.bind_some, hm']

end

/-! ## The invariant -/

/-- What the machine has behind it, of all tokens and from the first memory on. -/
inductive Behind (arith : Op → Int → Int → Option Int) (toks : List Token) (m0 : Mem) : Cfg → Prop
  | want {c : Ctx} {ts u rest : List Token} {m : Mem} : ExecutesAll arith m0 ts m → Spells arith m.sym c u →
      toks = ts ++ (u ++ rest) → Behind arith toks m0 (.want c rest m)
  | after {c : Ctx} {ts u us rest : List Token} {l : Nat} {v : Int} {m : Mem} : ExecutesAll arith m0 ts m → Spells arith m.sym c u →
      Evaluates arith m.sym l us v → c.prec < l → Stops l rest → toks = ts ++ (u ++ us ++ rest) →
      Behind arith toks m0 (.after c v rest m)
  | done {ts us rest : List Token} {m m' : Mem} : ExecutesAll arith m0 ts m → Executes arith m us m' → toks = ts ++ (us ++ rest) →
      Behind arith toks m0 (.done rest m')

theorem behind_start (toks : List Token) (m : Mem) : Behind arith toks m (.want .stmt toks m) :=
  .want (executesAll_nil m) .stmt rfl

theorem Ctx.prec_lt (c : Ctx) : c.prec < 3 := by
  cases c with
  | binary o c a => exact Nat.lt_succ_of_le o.prec_le
  | _ => exact Nat.succ_pos _

theorem behind_step {toks : List Token} {m0 : Mem} {k k' : Cfg} (h : Behind arith toks m0 k) (hst : fstep arith k = .inl k') :
    Behind arith toks m0 k' := by
  cases fstep_moves arith hst with
  | integer =>
    cases h with
    | want hall hc ht =>
      refine .after hall hc (evaluates_integer _) (Ctx.prec_lt _) ((stops_top _).mono (by decide)) ?_
      simpa using ht
  | var _ =>
    cases h with
    | want hall hc ht =>
      refine .after hall hc (evaluates_variable _) (Ctx.prec_lt _) ((stops_top _).mono (by decide)) ?_
      simpa using ht
  | @assign x rest m =>
    cases h with
    | want hall hc ht =>
      cases hc
      exact .want hall (.assign x) ht
  | lpar =>
    cases h with
    | want hall hc ht =>
      refine .want hall hc.paren ?_
      simpa using ht
  | op hlt =>
    cases h with
    | after hall hc he _ hs ht =>
      refine .want hall (.binary hc hlt (he.mono (hs _ rfl))) ?_
      simpa using ht
  | print =>
    cases h with
    | after hall hc he hl _ ht =>
      cases hc
      exact .done hall (he.mono hl).print ht
  | @set x v rest m =>
    cases h with
    | after hall hc he hl _ ht =>
      cases hc
      exact .done hall ((he.mono hl).set x) ht
  | rpar =>
    cases h with
    | after hall hc he hl _ ht =>
      cases hc with
      | paren hc =>
        refine .after hall hc (he.mono hl).paren (Ctx.prec_lt _) ((stops_top _).mono (by decide)) ?_
        simpa using ht
  | apply hs hw =>
    cases h with
    | after hall hc he hl _ ht =>
      cases hc with
      | binary hc hlt ha =>
        refine .after hall hc (ha.op (he.mono hl) hw) hlt hs ?_
        simpa using ht
  | newline =>
    cases h with
    | done hall hs ht =>
      refine .want (hall.snoc hs) .stmt ?_
      simpa using ht

theorem behind_run {toks : List Token} {m0 : Mem} {k k' : Cfg} (h : Goes (fstep arith) k k') (hk : Behind arith toks m0 k) :
    Behind arith toks m0 k' := h.keeps (fun _ _ hb hst => behind_step hb hst) hk

/-- Complete lines are read to the end. -/
theorem ExecutesAll.accepted {toks : List Token} {m m' : Mem} (h : ExecutesAll arith m toks m') :
    Ends (fstep arith) (.want .stmt toks m) (.accept m') := by
  obtain ⟨ss, d, h, hm⟩ := h
  have hr : Reads none arith (.want .stmt (toks ++ []) m) (.want .stmt [] m') := h.reads hm (not_exhausted d)
  rw [List.append_nil] at hr
  exact ⟨_, hr.goes, fstep_end arith⟩

/-- Lines mean one thing, however they are taken apart. -/
theorem ExecutesAll.unique {toks : List Token} {m m' m'' : Mem} (h : ExecutesAll arith m toks m')
    (h' : ExecutesAll arith m toks m'') : m' = m'' := by
  cases h.accepted.unique h'.accepted
  rfl

/-- And so does a statement. -/
theorem Executes.unique {toks : List Token} {m m' m'' : Mem} (h : Executes arith m toks m') (h' : Executes arith m toks m'') :
    m' = m'' := ((executesAll_nil m).snoc h).unique ((executesAll_nil m).snoc h')

/-- Tokens that are read to the end are complete lines. -/
theorem accepted_lines {toks : List Token} {m0 m : Mem} (h : Ends (fstep arith) (.want .stmt toks m0) (.accept m)) :
    ExecutesAll arith m0 toks m := by
  obtain ⟨k, hg, hst⟩ := h
  have hb := behind_run hg (behind_start toks m0)
  cases fstep_halts arith hst with
  | accept =>
    cases hb with
    | want hall hc ht =>
      cases hc
      rw [ht]
      simpa using hall

/-! ## What `yyparse` accepts -/

/-- With no limit on its stack the parser ends as the machine does. -/
theorem parser_ends (arith : Op → Int → Int → Option Int) (sym : Fin 26 → Int) (garbage : Int) (toks : List Token) :
    ∃ r q, Ends (fstep arith) (.want .stmt toks ⟨sym, []⟩) r ∧
      Ends (step none arith) (start (List.ofFn sym) garbage toks) q ∧ Returns r q := by
  obtain ⟨p, h1, h2⟩ := start_follows (not_exhausted 1) sym garbage toks
  obtain ⟨r, hr⟩ := fstep_ends arith (.want .stmt toks ⟨sym, []⟩)
  obtain ⟨q, h3, h4⟩ := (yyparse_follows arith).run h2 hr fun k _ => not_exhausted k.room
  exact ⟨r, q, hr, (h1.ends_iff _).mpr h3, h4⟩

/-- Arithmetic that never traps. -/
def trapless (f : Op → Int → Int → Int) : Op → Int → Int → Option Int := fun o a b => some (f o a b)

section
variable {f : Op → Int → Int → Int} {sym : Fin 26 → Int} {garbage : Int} {toks : List Token}

theorem trapless_ends {k : Cfg} {m : Mem} : ¬ Ends (fstep (trapless f)) k (.trap m) := by
  intro ⟨k', _, hst⟩
  cases fstep_halts (trapless f) hst with
  | trap h => cases h

/-- A sentence is accepted. -/
theorem program_accepted (h : IsProgram toks) :
    ∃ q, Ends (step none (trapless f)) (start (List.ofFn sym) garbage toks) (.ret 0 q) := by
  obtain ⟨ss, d, h⟩ := isProgram_iff.mp h
  have htotal : ∀ o a b, (trapless f o a b).isSome := by
    intro _ _ _
    exact rfl
  obtain ⟨m, hm⟩ := Option.isSome_iff_exists.mp (execAll_isSome (trapless f) htotal ⟨sym, []⟩ ss)
  obtain ⟨q, hq, -⟩ := h.parsed hm (not_exhausted _) garbage
  exact ⟨q, hq⟩

/-- What is accepted is a sentence. -/
theorem program_of_accepted {arith : Op → Int → Int → Option Int} {q : Yyparse}
    (h : Ends (step none arith) (start (List.ofFn sym) garbage toks) (.ret 0 q)) : IsProgram toks := by
  obtain ⟨r, q', hr, hq', hret⟩ := parser_ends arith sym garbage toks
  have heq := h.unique hq'
  subst heq
  cases hret with
  | accept _ _ _ =>
    obtain ⟨ss, d, h, -⟩ := accepted_lines hr
    exact isProgram_iff.mpr ⟨ss, d, h⟩

/-- What is not is refused. -/
theorem program_refused (h : ¬ IsProgram toks) :
    ∃ q, Ends (step none (trapless f)) (start (List.ofFn sym) garbage toks) (.ret 1 q) := by
  obtain ⟨r, q, hr, hq, hret⟩ := parser_ends (trapless f) sym garbage toks
  cases hret with
  | accept _ _ _ => exact absurd (program_of_accepted hq) h
  | error _ _ _ _ _ => exact ⟨_, hq⟩
  | trap _ _ => exact absurd hr trapless_ends

end

/-- Without a limit on its stack, and whatever the arithmetic gives where C's traps, `yyparse`
    returns 0 on the sentences of the grammar as written and 1 on everything else. -/
theorem accepts_exactly (f : Op → Int → Int → Int) (sym : Fin 26 → Int) (garbage : Int) (toks : List Token) :
    ((∃ q, Ends (step none (trapless f)) (start (List.ofFn sym) garbage toks) (.ret 0 q)) ↔ IsProgram toks) ∧
      ((∃ q, Ends (step none (trapless f)) (start (List.ofFn sym) garbage toks) (.ret 1 q)) ↔ ¬ IsProgram toks) := by
  refine ⟨⟨fun ⟨q, hq⟩ => program_of_accepted hq, program_accepted⟩, ⟨?_, program_refused⟩⟩
  intro ⟨q, hq⟩ h
  obtain ⟨q', hq'⟩ := program_accepted (f := f) h
  cases hq.unique hq'

end NetworkCourse.Calc
