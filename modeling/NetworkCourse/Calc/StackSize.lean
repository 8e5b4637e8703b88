/-
  NetworkCourse.Calc.StackSize — how large `yyparse` makes its stacks.

  They begin with `YYINITDEPTH` entries and are doubled when they are full, up to
  `YYMAXDEPTH`. With memory for that, the parse is the one with the limit `YYMAXDEPTH`
  (`sized_ends`).

  The height does not depend on how many lines there are or how long they are. A line is
  reduced at its end, and an operator waits only behind ones that bind looser, of which
  there are two kinds: between two open parentheses there are at most five entries
  (`Spells.height`). So 5 entries for each parenthesis open at a time and 10 more are
  enough (`stack_bounded`).
-/

import NetworkCourse.Calc.Boundary
import NetworkCourse.Calc.Reached
import NetworkCourse.Calc.Rejected

namespace NetworkCourse.Calc

open Lib.Machine

variable {maxdepth : Option Nat} {arith : Op → Int → Int → Option Int} {sym : Fin 26 → Int} {garbage : Int}
  {toks : List Token}

/-! ## The height of the stack -/

/-- Five entries at most for a parenthesis: its own, and two for each operator in front of it. -/
theorem Spells.height {sym : Fin 26 → Int} {c : Ctx} {u : List Token} (h : Spells arith sym c u) :
    c.under.length ≤ 3 + 5 * c.parens + 2 * c.prec := by
  induction h with
  | stmt => decide
  | assign x => exact Nat.le_refl 3
  | @paren c u h ih =>
    have hlt := c.prec_lt
    simp only [Ctx.under, Ctx.parens, Ctx.prec, List.length_cons]
    omega
  | @binary c u ts o a h hlt he ih =>
    simp only [Ctx.under, Ctx.parens, Ctx.prec, List.length_cons]
    omega

theorem IsProgram.opened {ts : List Token} (h : IsProgram ts) : opened ts = 0 := by
  induction h with
  | empty => rfl
  | statement _ hs ih => simp [ih, hs.opened, Token.opens]

theorem ExecutesAll.opened {m m' : Mem} {ts : List Token} (h : ExecutesAll arith m ts m') : opened ts = 0 := by
  obtain ⟨ss, d, h, -⟩ := h
  exact (isProgram_iff.mpr ⟨ss, d, h⟩).opened

/-- Not more than `d` parentheses are open at any place. -/
def OpenAtMost (d : Nat) (toks : List Token) : Prop := ∀ ts, ts <+: toks → opened ts ≤ d

/-- A context has the parentheses that are open where it is. -/
theorem parens_le {d : Nat} (hd : OpenAtMost d toks) {m0 m : Mem} {c : Ctx} {ts u rest : List Token}
    (hall : ExecutesAll arith m0 ts m) (hc : Spells arith m.sym c u) (ht : toks = ts ++ (u ++ rest)) : c.parens ≤ d := by
  have hopen := hd (ts ++ u) ⟨rest, by rw [ht, List.append_assoc]⟩
  rw [opened_append, hall.opened, hc.opened_eq] at hopen
  omega

theorem behind_room {d : Nat} (hd : OpenAtMost d toks) {m0 : Mem} {k : Cfg} (h : Behind arith toks m0 k) :
    k.room ≤ 5 * d + 10 := by
  cases h with
  | @want c ts u rest m hall hc ht =>
    have hp := parens_le hd hall hc ht
    have hh := hc.height
    have hlt := c.prec_lt
    simp only [Cfg.room]
    omega
  | @after c ts u us rest l v m hall hc he hl hs ht =>
    have hp := parens_le hd hall hc (ht.trans (by rw [List.append_assoc u]))
    have hh := hc.height
    have hlt := c.prec_lt
    cases c with
    | paren c =>
      simp only [Cfg.room, Ctx.prec] at hh ⊢
      omega
    | _ =>
      simp only [Cfg.room]
      omega
  | done _ _ _ =>
    simp only [Cfg.room]
    omega

theorem upTo_height {k : Cfg} {p : Yyparse} (h : UpTo k p) : p.yyss.length ≤ k.room := by
  rcases h with h | h
  · cases k with
    | want c rest m =>
      obtain ⟨vs, -, h⟩ := h
      rw [h.yyss]
      simp [Cfg.room]
    | after c v rest m =>
      obtain ⟨vs, -, h⟩ := h
      rw [h.yyss]
      cases c <;> simp [Cfg.room]
    | done rest m =>
      obtain ⟨v, a, b, h⟩ := h
      rw [h.yyss]
      simp [Cfg.room]
  · cases h with
    | integer _ h => rw [h.yyss]; simp [Cfg.room]
    | var _ _ h => rw [h.yyss]; simp [Cfg.room]
    | assign _ h => rw [h.yyss]; simp [Cfg.room, Ctx.under]
    | rpar _ h => rw [h.yyss]; simp [Cfg.room]
    | newline h => rw [h.yyss]; simp [Cfg.room]

/-- The height at any time, whatever the limit is. -/
theorem height_le {d : Nat} (hd : OpenAtMost d toks) {p : Yyparse}
    (h : Goes (step maxdepth arith) (start (List.ofFn sym) garbage toks) p) : p.yyss.length ≤ 5 * d + 10 := by
  rcases reached_behind h with rfl | ⟨k, hk, hu⟩
  · show 1 ≤ 5 * d + 10
    omega
  · exact Nat.le_trans (upTo_height hu) (behind_room hd hk)

/-! ## The size of the stack -/

def YYINITDEPTH : Nat := 200

/-- `yyparse` with the size of its arrays. -/
structure Sized where
  yystacksize : Nat
  yyparse : Yyparse

/-- `yysetstate`: the size to go on with, or the end. `malloc` says whether there is memory for
    arrays of a size. -/
def yysetstate (malloc : Nat → Bool) (s : Sized) : Nat ⊕ Result :=
  let yyexhaustedlab := .ret 2 { s.yyparse with stderr := s.yyparse.stderr ++ ["memory exhausted"] }
  if s.yystacksize ≤ s.yyparse.yyss.length then
    if YYMAXDEPTH ≤ s.yystacksize then .inr yyexhaustedlab
    else
      let yystacksize := if YYMAXDEPTH < s.yystacksize * 2 then YYMAXDEPTH else s.yystacksize * 2
      if malloc yystacksize then
        if yystacksize ≤ s.yyparse.yyss.length then .inr (.ret 1 s.yyparse) else .inl yystacksize
      else .inr yyexhaustedlab
  else .inl s.yystacksize

def sizedStep (malloc : Nat → Bool) (arith : Op → Int → Int → Option Int) (s : Sized) : Sized ⊕ Result :=
  match yysetstate malloc s with
  | .inr r => .inr r
  | .inl yystacksize =>
    match step none arith s.yyparse with
    | .inl p => .inl ⟨yystacksize, p⟩
    | .inr r => .inr r

def Sized.start (sym : Fin 26 → Int) (garbage : Int) (toks : List Token) : Sized :=
  ⟨YYINITDEPTH, Calc.start (List.ofFn sym) garbage toks⟩

variable {malloc : Nat → Bool}

theorem sizedStep_inl {s s' : Sized} (h : sizedStep malloc arith s = .inl s') :
    yysetstate malloc s = .inl s'.yystacksize ∧ step none arith s.yyparse = .inl s'.yyparse := by
  unfold sizedStep at h
  cases hy : yysetstate malloc s with
  | inr r =>
    rw [hy] at h
    cases h
  | inl n =>
    rw [hy] at h
    simp only at h
    cases hst : step none arith s.yyparse with
    | inr r =>
      rw [hst] at h
      cases h
    | inl p =>
      rw [hst] at h
      cases h
      exact ⟨rfl, rfl⟩

theorem sizedStep_inr {s : Sized} {r : Result} (h : sizedStep malloc arith s = .inr r) :
    yysetstate malloc s = .inr r ∨ step none arith s.yyparse = .inr r := by
  unfold sizedStep at h
  cases hy : yysetstate malloc s with
  | inr r' =>
    rw [hy] at h
    cases h
    exact Or.inl rfl
  | inl n =>
    rw [hy] at h
    simp only at h
    cases hst : step none arith s.yyparse with
    | inr r' =>
      rw [hst] at h
      cases h
      exact Or.inr rfl
    | inl p =>
      rw [hst] at h
      cases h

/-- The growth leads to no other states. -/
theorem sized_goes {s s' : Sized} (h : Goes (sizedStep malloc arith) s s') : Goes (step none arith) s.yyparse s'.yyparse :=
  h.keeps (P := fun t => Goes (step none arith) s.yyparse t.yyparse) (fun _ _ ht hst => ht.trans (.one (sizedStep_inl hst).2))
    (.refl _)

/-! ### The arrays hold what is on them -/

theorem act_height {a : Act} {p q : Yyparse} (h : act arith p a = .inl q) : q.yyss.length ≤ p.yyss.length + 1 := by
  cases a with
  | accept => cases h
  | error =>
    obtain ⟨r, hr, -⟩ := yyerrlab_ends p
    rw [act, hr] at h
    cases h
  | shift n =>
    cases h
    exact Nat.le_refl _
  | reduce r =>
    rw [act, yyreduce] at h
    split at h
    · cases h
    · cases h
    · split at h
      · cases h
      · next top ss hdrop =>
        cases h
        have hlen := congrArg List.length hdrop
        simp only [List.length_drop, List.length_cons] at hlen ⊢
        omega

/-- A step adds one entry at most. -/
theorem step_height {p q : Yyparse} (h : step maxdepth arith p = .inl q) : q.yyss.length ≤ p.yyss.length + 1 := by
  rcases @step_acts maxdepth arith p with ⟨-, a, hst⟩ | ⟨-, a, hst⟩ | ⟨-, r, hst, -⟩
  · rw [hst] at h
    rw [← (fetch_frame p).1]
    exact act_height h
  · rw [hst] at h
    exact act_height h
  · rw [hst] at h
    cases h

structure Sized.Fits (s : Sized) : Prop where
  pos : 0 < s.yystacksize
  le : s.yystacksize ≤ YYMAXDEPTH
  holds : s.yyparse.yyss.length ≤ s.yystacksize

theorem start_fits : (Sized.start sym garbage toks).Fits := by
  refine ⟨?_, ?_, ?_⟩
  · show 0 < 200
    decide
  · show 200 ≤ 10000
    decide
  · show 1 ≤ 200
    decide

/-- The stack gets more room just below `YYMAXDEPTH`, where there is memory. -/
theorem yysetstate_cases (hm : ∀ n, malloc n = true) {s : Sized} (h : s.Fits) :
    (∃ n, yysetstate malloc s = .inl n ∧ s.yyparse.yyss.length < n ∧ n ≤ YYMAXDEPTH) ∧ s.yyparse.yyss.length < YYMAXDEPTH ∨
      yysetstate malloc s = .inr (.ret 2 { s.yyparse with stderr := s.yyparse.stderr ++ ["memory exhausted"] }) ∧
        s.yyparse.yyss.length = YYMAXDEPTH := by
  obtain ⟨hpos, hle, hholds⟩ := h
  unfold yysetstate
  by_cases hfull : s.yystacksize ≤ s.yyparse.yyss.length
  · by_cases hmax : YYMAXDEPTH ≤ s.yystacksize
    · simp only [if_pos hfull, if_pos hmax]
      exact Or.inr ⟨trivial, by omega⟩
    · have hlt : s.yyparse.yyss.length < if YYMAXDEPTH < s.yystacksize * 2 then YYMAXDEPTH else s.yystacksize * 2 := by
        split <;> omega
      simp only [if_pos hfull, if_neg hmax, hm, if_true, if_neg (Nat.not_le.mpr hlt)]
      refine Or.inl ⟨⟨_, rfl, hlt, ?_⟩, by omega⟩
      split <;> omega
  · simp only [if_neg hfull]
    exact Or.inl ⟨⟨_, rfl, by omega, hle⟩, by omega⟩

theorem sizedStep_fits (hm : ∀ n, malloc n = true) {s s' : Sized} (h : s.Fits) (hst : sizedStep malloc arith s = .inl s') :
    s'.Fits := by
  obtain ⟨hy, hst⟩ := sizedStep_inl hst
  rcases yysetstate_cases hm h with ⟨⟨n, hn, hlt, hle⟩, -⟩ | ⟨hr, -⟩
  · rw [hy] at hn
    cases hn
    have hh := step_height hst
    exact ⟨by omega, hle, by omega⟩
  · rw [hy] at hr
    cases hr

/-- With memory, a step is one with the limit `YYMAXDEPTH`. -/
theorem sizedStep_eq (hm : ∀ n, malloc n = true) {s : Sized} (h : s.Fits) :
    (∃ s', sizedStep malloc arith s = .inl s' ∧ step (some YYMAXDEPTH) arith s.yyparse = .inl s'.yyparse) ∨
      ∃ r, sizedStep malloc arith s = .inr r ∧ step (some YYMAXDEPTH) arith s.yyparse = .inr r := by
  rcases yysetstate_cases hm h with ⟨⟨n, hn, -⟩, hlt⟩ | ⟨hr, hfull⟩
  · have heq : step (some YYMAXDEPTH) arith s.yyparse = step none arith s.yyparse := by
      unfold step
      cases hs : s.yyparse.yyss with
      | nil => rfl
      | cons t ts =>
        rw [hs] at hlt
        simp only [if_neg (room_of_lt hlt), if_neg (not_exhausted _)]
    rw [heq, sizedStep, hn]
    cases step none arith s.yyparse with
    | inl p => exact Or.inl ⟨_, rfl, rfl⟩
    | inr r => exact Or.inr ⟨r, rfl, rfl⟩
  · have hne : s.yyparse.yyss ≠ [] := by
      intro hnil
      rw [hnil] at hfull
      cases hfull
    refine Or.inr ⟨_, ?_, step_exhausted arith s.yyparse hne ⟨YYMAXDEPTH, rfl, Nat.le_of_eq hfull.symm⟩⟩
    rw [sizedStep, hr]

/-- And so is the parse. -/
theorem sized_ends (hm : ∀ n, malloc n = true) (r : Result) :
    Ends (sizedStep malloc arith) (.start sym garbage toks) r ↔
      Ends (step (some YYMAXDEPTH) arith) (start (List.ofFn sym) garbage toks) r := by
  have hlock : ∀ s p, Sized.Fits s ∧ s.yyparse = p →
      (∃ s' p', sizedStep malloc arith s = .inl s' ∧ step (some YYMAXDEPTH) arith p = .inl p' ∧ s'.Fits ∧ s'.yyparse = p') ∨
        ∃ r, sizedStep malloc arith s = .inr r ∧ step (some YYMAXDEPTH) arith p = .inr r := by
    rintro s p ⟨hf, rfl⟩
    rcases @sizedStep_eq arith malloc hm s hf with ⟨s', h1, h2⟩ | hend
    · exact Or.inl ⟨s', _, h1, h2, sizedStep_fits hm hf h1, rfl⟩
    · exact Or.inr hend
  exact ends_iff_in_step hlock ⟨start_fits, rfl⟩ r

/-- Only a full stack makes `yyparse` return 2. -/
theorem unlimited_ret {r : Result} (h : Ends (step none arith) (start (List.ofFn sym) garbage toks) r) (q : Yyparse) :
    r ≠ .ret 2 q := by
  obtain ⟨o, r', -, hr', hret⟩ := parser_ends arith sym garbage toks
  rw [h.unique hr']
  cases hret <;> simp

/-- With at most `d` parentheses open at a time the stack has at most `5 * d + 10` entries; and
    if there are no more than 1900 of them, and memory, it does not get full. -/
theorem stack_bounded (malloc : Nat → Bool) (arith : Op → Int → Int → Option Int) (sym : Fin 26 → Int) (garbage : Int)
    {toks : List Token} {d : Nat} (hd : OpenAtMost d toks) :
    (∀ s, Goes (sizedStep malloc arith) (.start sym garbage toks) s → s.yyparse.yyss.length ≤ 5 * d + 10) ∧
      (d ≤ 1900 → (∀ n, malloc n = true) →
        (∀ s, Goes (sizedStep malloc arith) (.start sym garbage toks) s → s.yyparse.yyss.length < YYMAXDEPTH) ∧
          ∀ q, ¬ Ends (sizedStep malloc arith) (.start sym garbage toks) (.ret 2 q)) := by
  have hheight : ∀ s, Goes (sizedStep malloc arith) (.start sym garbage toks) s → s.yyparse.yyss.length ≤ 5 * d + 10 :=
    fun s hs => height_le hd (sized_goes hs)
  refine ⟨hheight, fun hle hm => ?_⟩
  have hlow : ∀ s, Goes (sizedStep malloc arith) (.start sym garbage toks) s → s.yyparse.yyss.length < YYMAXDEPTH := by
    intro s hs
    have hh := hheight s hs
    rw [YYMAXDEPTH]
    omega
  refine ⟨hlow, fun q hq => ?_⟩
  obtain ⟨s, hg, hst⟩ := hq
  rcases sizedStep_inr hst with hy | hstep
  · have hfits : s.Fits := hg.keeps (P := Sized.Fits) (fun _ _ hf hst' => sizedStep_fits hm hf hst') start_fits
    rcases yysetstate_cases hm hfits with ⟨⟨n, hn, -⟩, -⟩ | ⟨-, hfull⟩
    · rw [hy] at hn
      cases hn
    · have hh := hlow s hg
      omega
  · exact unlimited_ret ⟨s.yyparse, sized_goes hg, hstep⟩ q rfl

/-- `((1)+2)*3`, two open at a time. -/
theorem stack_bounded_two :
    (∀ s, Goes (sizedStep (fun _ => true) intArith)
        (.start sym0 0 [.lpar, .lpar, .INTEGER 1, .rpar, .op .plus, .INTEGER 2, .rpar, .op .times, .INTEGER 3, .newline]) s →
        s.yyparse.yyss.length ≤ 20) ∧
      ∀ q, ¬ Ends (sizedStep (fun _ => true) intArith)
        (.start sym0 0 [.lpar, .lpar, .INTEGER 1, .rpar, .op .plus, .INTEGER 2, .rpar, .op .times, .INTEGER 3, .newline])
        (.ret 2 q) := by
  have hd : OpenAtMost 2 [.lpar, .lpar, .INTEGER 1, .rpar, .op .plus, .INTEGER 2, .rpar, .op .times, .INTEGER 3, .newline] := by
    intro ts hts
    rw [List.prefix_iff_eq_take] at hts
    rw [hts]
    have hall : ∀ n ≤ 10, opened (List.take n
        [.lpar, .lpar, .INTEGER 1, .rpar, .op .plus, .INTEGER 2, .rpar, .op .times, .INTEGER 3, .newline]) ≤ 2 := by decide
    rcases Nat.le_total ts.length 10 with hle | hle
    · exact hall _ hle
    · rw [List.take_of_length_le hle]
      decide
  obtain ⟨h1, h2⟩ := stack_bounded (fun _ => true) intArith sym0 0 hd
  exact ⟨h1, (h2 (by decide) fun _ => rfl).2⟩

end NetworkCourse.Calc
