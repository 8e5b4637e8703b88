/-
  NetworkCourse.Calc.Boundary — lines do not depend on what follows them.

  The two places where they could: a token across the boundary, which a newline does not
  allow (`lexed_lines`), and a look-ahead token that decides about the line before it. Behind
  a newline the parser reduces without one, so when `yylex` is first asked for a token of
  the rest, the line's effects are done and the stack is the empty program's
  (`lines_ready`).

  What holds of every run: output only grows, and tokens are asked for one by one
  (`step_silent`, `step_asks`).
-/

import NetworkCourse.Calc.Session

namespace NetworkCourse.Calc

open Lib.Machine Lib.Ascii

variable {maxdepth : Option Nat} {arith : Op → Int → Int → Option Int}

/-! ## What any step does -/

/-- The next step calls `yylex`. -/
def Asks (maxdepth : Option Nat) (p : Yyparse) : Prop :=
  p.yychar = none ∧ ¬ exhausted maxdepth p.yyss.length ∧ ∃ s, p.yyss.head? = some s ∧ yypact s ≠ YYPACT_NINF

/-- The parser at a result. -/
def Result.final : Result → Yyparse
  | .ret _ p | .trap p | .outOfBounds p => p

/-- `yyerrlab` ends the parse and prints nothing to `stdout`. -/
theorem yyerrlab_ends (p : Yyparse) : ∃ r, yyerrlab p = .inr r ∧ r.final.stdout = p.stdout := by
  unfold yyerrlab yyerrlab1
  simp only [popToError_none]
  split
  · split
    · exact ⟨_, rfl, by simp only [Result.final]; split <;> rfl⟩
    · exact ⟨_, rfl, by simp only [Result.final]; split <;> rfl⟩
    · exact ⟨_, rfl, by simp only [Result.final]; split <;> rfl⟩
  · exact ⟨_, rfl, by simp only [Result.final]; split <;> rfl⟩

/-- An action adds to the output. -/
theorem switch_stdout {rule : Nat} {d : Nat → Int} {w v : Int} {sym sym' out out' : List Int}
    (h : switch arith rule d w sym out = .ok (v, sym', out')) : out <+: out' := by
  unfold switch at h
  simp only at h
  split at h
  · cases h
    exact List.prefix_append _ _
  all_goals
    repeat' split at h
    all_goals
      cases h
      try exact List.prefix_refl _

theorem yyreduce_inl {r : Nat} {p q : Yyparse} (h : yyreduce arith r p = .inl q) :
    q.toks = p.toks ∧ q.yychar = p.yychar ∧ p.stdout <+: q.stdout := by
  unfold yyreduce at h
  simp only at h
  split at h
  · cases h
  · cases h
  · next hsw =>
    split at h
    · cases h
    · cases h
      exact ⟨rfl, rfl, switch_stdout hsw⟩

theorem yyreduce_inr {r : Nat} {p : Yyparse} {res : Result} (h : yyreduce arith r p = .inr res) : res.final.stdout = p.stdout := by
  unfold yyreduce at h
  simp only at h
  split at h
  · cases h
    rfl
  · cases h
    rfl
  · split at h
    · cases h
      rfl
    · cases h

theorem act_inl {a : Act} {p q : Yyparse} (h : act arith p a = .inl q) :
    q.toks = p.toks ∧ (p.yychar = none → q.yychar = none) ∧ (p.yychar = some none → q.yychar = some none) ∧
      p.stdout <+: q.stdout := by
  cases a with
  | accept => cases h
  | error =>
    obtain ⟨r, hr, -⟩ := yyerrlab_ends p
    rw [act, hr] at h
    cases h
  | reduce r =>
    obtain ⟨h1, h2, h3⟩ := yyreduce_inl h
    exact ⟨h1, fun hc => h2.trans hc, fun hc => h2.trans hc, h3⟩
  | shift n =>
    cases h
    refine ⟨rfl, ?_, ?_, List.prefix_refl _⟩
    · intro hc
      simp [hc]
    · intro hc
      simp [hc]

theorem act_inr {a : Act} {p : Yyparse} {r : Result} (h : act arith p a = .inr r) : r.final.stdout = p.stdout := by
  cases a with
  | accept =>
    cases h
    rfl
  | error =>
    obtain ⟨r', hr, ho⟩ := yyerrlab_ends p
    rw [act, hr] at h
    cases h
    exact ho
  | reduce r => exact yyreduce_inr h
  | shift n => cases h

/-- A token is asked for without an effect on the stacks, `sym` and the output. -/
theorem fetch_frame (p : Yyparse) :
    (fetch p).yyss = p.yyss ∧ (fetch p).yyvs = p.yyvs ∧ (fetch p).sym = p.sym ∧ (fetch p).stdout = p.stdout := by
  unfold fetch
  split <;> exact ⟨rfl, rfl, rfl, rfl⟩

theorem fetch_stdout (p : Yyparse) : (fetch p).stdout = p.stdout := (fetch_frame p).2.2.2

/-- A step acts behind a token it asks for or asks for none, or there is no room for one. -/
theorem step_acts (p : Yyparse) :
    (Asks maxdepth p ∧ ∃ a, step maxdepth arith p = act arith (fetch p) a) ∨
      (¬ Asks maxdepth p ∧ ∃ a, step maxdepth arith p = act arith p a) ∨
      (¬ Asks maxdepth p ∧ ∃ r, step maxdepth arith p = .inr r ∧ r.final.stdout = p.stdout) := by
  unfold step Asks
  cases hs : p.yyss with
  | nil => exact Or.inr (Or.inr ⟨by simp, _, rfl, rfl⟩)
  | cons s ss =>
    by_cases hfull : exhausted maxdepth (s :: ss).length
    · simp only [if_pos hfull]
      exact Or.inr (Or.inr ⟨fun h => h.2.1 hfull, _, rfl, rfl⟩)
    · simp only [if_neg hfull]
      by_cases hn : yypact s = YYPACT_NINF
      · simp only [if_pos hn]
        refine Or.inr (Or.inl ⟨?_, _, rfl⟩)
        rintro ⟨-, -, s', hs', hn'⟩
        cases hs'
        exact hn' hn
      · simp only [if_neg hn]
        cases hc : p.yychar with
        | none => exact Or.inl ⟨⟨rfl, hfull, s, rfl, hn⟩, _, rfl⟩
        | some look =>
          have hf : fetch p = p := by
            unfold fetch
            rw [hc]
          rw [hf]
          refine Or.inr (Or.inl ⟨?_, _, rfl⟩)
          intro h
          cases h.1

theorem fetch_asked {p : Yyparse} (h : p.yychar = none) :
    (fetch p).toks = p.toks.tail ∧ (p.toks = [] → (fetch p).yychar = some none) := by
  unfold fetch
  rw [h]
  cases hp : p.toks with
  | nil => exact ⟨rfl, fun _ => rfl⟩
  | cons t ts => simp

/-- A step that does not ask leaves the tokens, and no look-ahead token where there is none. -/
theorem step_silent {p q : Yyparse} (h : step maxdepth arith p = .inl q) (ha : ¬ Asks maxdepth p) :
    q.toks = p.toks ∧ (p.yychar = none → q.yychar = none) ∧ (p.yychar = some none → q.yychar = some none) := by
  rcases @step_acts maxdepth arith p with ⟨ha', -⟩ | ⟨-, a, hst⟩ | ⟨-, r, hst, -⟩
  · exact absurd ha' ha
  · rw [hst] at h
    obtain ⟨h1, h2, h3, -⟩ := act_inl h
    exact ⟨h1, h2, h3⟩
  · rw [hst] at h
    cases h

/-- One that asks takes one token, or sees the end. -/
theorem step_asks {p q : Yyparse} (h : step maxdepth arith p = .inl q) (ha : Asks maxdepth p) :
    q.toks = p.toks.tail ∧ (p.toks = [] → q.yychar = some none) := by
  obtain ⟨hf1, hf2⟩ := fetch_asked ha.1
  rcases @step_acts maxdepth arith p with ⟨-, a, hst⟩ | ⟨ha', -⟩ | ⟨ha', -⟩
  · rw [hst] at h
    obtain ⟨h1, -, h3, -⟩ := act_inl h
    exact ⟨h1.trans hf1, fun hn => h3 (hf2 hn)⟩
  · exact absurd ha ha'
  · exact absurd ha ha'

theorem step_stdout {p q : Yyparse} (h : step maxdepth arith p = .inl q) : p.stdout <+: q.stdout := by
  rcases @step_acts maxdepth arith p with ⟨-, a, hst⟩ | ⟨-, a, hst⟩ | ⟨-, r, hst, -⟩
  · rw [hst] at h
    rw [← fetch_stdout p]
    exact (act_inl h).2.2.2
  · rw [hst] at h
    exact (act_inl h).2.2.2
  · rw [hst] at h
    cases h

theorem step_final {p : Yyparse} {r : Result} (h : step maxdepth arith p = .inr r) : r.final.stdout = p.stdout := by
  rcases @step_acts maxdepth arith p with ⟨-, a, hst⟩ | ⟨-, a, hst⟩ | ⟨-, r', hst, ho⟩
  · rw [hst] at h
    rw [← fetch_stdout p]
    exact act_inr h
  · rw [hst] at h
    exact act_inr h
  · rw [hst] at h
    cases h
    exact ho

/-! ## What any run does -/

/-- Output only grows. -/
theorem goes_stdout {p q : Yyparse} (h : Goes (step maxdepth arith) p q) : p.stdout <+: q.stdout :=
  h.keeps (P := fun q => p.stdout <+: q.stdout) (fun _ _ hp hst => hp.trans (step_stdout hst)) (List.prefix_refl _)

theorem ends_stdout {p : Yyparse} {r : Result} (h : Ends (step maxdepth arith) p r) : p.stdout <+: r.final.stdout := by
  obtain ⟨q, hg, hst⟩ := h
  rw [step_final hst]
  exact goes_stdout hg

/-- Calls of `yylex` still to come at most, the one for the end included. -/
def unread (p : Yyparse) : Nat := p.toks.length + if p.yychar = some none then 0 else 1

theorem step_toks {p q : Yyparse} (h : step maxdepth arith p = .inl q) : q.toks <:+ p.toks := by
  by_cases ha : Asks maxdepth p
  · rw [(step_asks h ha).1]
    exact List.tail_suffix _
  · exact ⟨[], (step_silent h ha).1⟩

theorem goes_toks {p q : Yyparse} (h : Goes (step maxdepth arith) p q) : q.toks <:+ p.toks :=
  h.keeps (P := fun q => q.toks <:+ p.toks) (fun _ _ hp hst => (step_toks hst).trans hp) (List.suffix_refl _)

theorem unread_le (p : Yyparse) : unread p ≤ p.toks.length + 1 := by
  unfold unread
  split <;> omega

theorem unread_asked {p q : Yyparse} (h : step maxdepth arith p = .inl q) (ha : Asks maxdepth p) : unread q ≤ p.toks.length := by
  obtain ⟨h1, h2⟩ := step_asks h ha
  cases hp : p.toks with
  | nil =>
    rw [unread, h1, h2 hp, hp]
    simp
  | cons t ts =>
    have hle := unread_le q
    rw [h1, hp] at hle
    simpa using hle

theorem step_unread {p q : Yyparse} (h : step maxdepth arith p = .inl q) : unread q ≤ unread p := by
  by_cases ha : Asks maxdepth p
  · apply Nat.le_trans (unread_asked h ha)
    exact Nat.le_add_right _ _
  · obtain ⟨h1, -, h3⟩ := step_silent h ha
    unfold unread
    rw [h1]
    by_cases hc : p.yychar = some none
    · rw [if_pos hc, if_pos (h3 hc)]
    · rw [if_neg hc]
      split <;> omega

theorem goes_unread {p q : Yyparse} (h : Goes (step maxdepth arith) p q) : unread q ≤ unread p :=
  h.keeps (P := fun q => unread q ≤ unread p) (fun _ _ hp hst => Nat.le_trans (step_unread hst) hp) (Nat.le_refl _)

/-- Each question on the way to one takes a token. -/
theorem asked_before {p' p : Yyparse} (hg : Goes (step maxdepth arith) p' p) (hne : p' ≠ p) (ha' : Asks maxdepth p')
    (hc : p.yychar = none) : ∃ t ts, p'.toks = t :: (ts ++ p.toks) := by
  rcases Relation.ReflTransGen.cases_head hg with rfl | ⟨p1, h1, h2⟩
  · exact absurd rfl hne
  · obtain ⟨pre, hpre⟩ := goes_toks hg
    have hle : unread p ≤ p'.toks.length := Nat.le_trans (goes_unread h2) (unread_asked h1 ha')
    have hun : unread p = p.toks.length + 1 := by simp [unread, hc]
    cases pre with
    | nil =>
      rw [List.nil_append] at hpre
      rw [← hpre, hun] at hle
      exact absurd hle (Nat.not_succ_le_self _)
    | cons t ts => exact ⟨t, ts, hpre.symm⟩

/-! ## Behind a line -/

theorem want_asks {p : Yyparse} {rest : List Token} {m : Mem} (h : Follows (.want .stmt rest m) p) (hc : p.yychar = none)
    (hroom : ¬ exhausted maxdepth 2) : Asks maxdepth p := by
  obtain ⟨vs, -, hp⟩ := h
  refine ⟨hc, ?_, 1, ?_, by decide⟩
  · rw [hp.yyss]
    exact hroom
  · rw [hp.yyss]
    rfl

/-- A reduction in a state with no choice asks for nothing. -/
theorem silent_of_default {p : Yyparse} {s : Nat} (hs : p.yyss.head? = some s) (hn : yypact s = YYPACT_NINF) :
    ¬ Asks maxdepth p := by
  rintro ⟨-, -, s', hs', hn'⟩
  rw [hs] at hs'
  cases hs'
  exact hn' hn

/-- Lines are read, and what follows them is not asked for yet. -/
theorem lines_ready {ss : List Stmt} {toks : List Token} {d : Nat} (h : RendersAll ss toks d) {sym : Fin 26 → Int} {m : Mem}
    (hm : execAll arith ⟨sym, []⟩ ss = some m) (hroom : ¬ exhausted maxdepth (max d 1)) (garbage : Int) (rest : List Token) :
    ∃ p, Goes (step maxdepth arith) (start (List.ofFn sym) garbage (toks ++ rest)) p ∧ Follows (.want .stmt rest m) p ∧
      p.yychar = none ∧ p.toks = rest := by
  have hroom1 : ¬ exhausted maxdepth 1 := room_mono hroom (Nat.le_max_right _ _)
  cases h with
  | nil =>
    cases hm
    have h0 : At (start (List.ofFn sym) garbage rest) [0] [garbage] rest (Mem.env ⟨sym, []⟩) := at_start _ _ _
    obtain ⟨q, h1, h2⟩ := step_reduce arith 3 (Mem.env ⟨sym, []⟩) h0 hroom1 (action_default rfl _) rfl rfl
    obtain ⟨ht, hc, -⟩ := step_silent h1 (silent_of_default rfl rfl)
    exact ⟨q, .one h1, ⟨_, .stmt _ _, h2⟩, hc rfl, ht⟩
  | @snoc ss s ts us d d' hss hs =>
    rw [execAll_snoc, Option.bind_eq_some_iff] at hm
    obtain ⟨m1, hm1, hm2⟩ := hm
    have hd := hs.four_le
    have hroom4 : ¬ exhausted maxdepth 4 := room_mono hroom (by omega)
    obtain ⟨p0, h1, h2⟩ := @start_follows maxdepth arith hroom1 sym garbage (ts ++ us ++ [.newline] ++ rest)
    have hr : Reads maxdepth arith (.want .stmt (ts ++ us ++ [.newline] ++ rest) ⟨sym, []⟩) (.done (.newline :: rest) m) := by
      rw [List.append_assoc, List.append_assoc]
      exact (hss.reads hm1 (room_mono hroom (Nat.le_trans (Nat.le_max_left _ _) (Nat.le_max_left _ _)))).trans
        (hs.reads hm2 (room_mono hroom (Nat.le_trans (Nat.le_max_right _ _) (Nat.le_max_left _ _))))
    obtain ⟨p1, h3, v, a, b, hp1⟩ := (yyparse_follows arith).through h2 hr
    -- the newline, then rule 2 without a look-ahead token
    obtain ⟨p2, w, h4, -, hp2, hc, ht⟩ := step_shift_empty arith hp1 (room_mono hroom4 (by simp))
      (show action 6 (some .newline) = .shift 11 from rfl)
    obtain ⟨p3, h5, hp3⟩ := step_reduce arith 2 m.env hp2 hroom4 (action_default rfl _) rfl rfl
    obtain ⟨ht', hc', -⟩ := step_silent h5 (silent_of_default (by rw [hp2.yyss]; rfl) rfl)
    exact ⟨p3, (h1.trans h3).trans (.next h4 (.one h5)), ⟨_, .stmt _ _, hp3⟩, hc' hc, ht'.trans ht⟩

/-- A text of whole lines. -/
def CompleteLines (text : List UInt8) : Prop := ∀ b, text.getLast? = some b → b = nl

/-- No match goes past their end. -/
theorem lexed_lines {P : List UInt8} (hP : CompleteLines P) (S : List UInt8) : lexed (P ++ S) = lexed P ++ lexed S := by
  rcases List.eq_nil_or_concat P with rfl | ⟨P, b, rfl⟩
  · rfl
  · have hb : b = nl := hP b (by simp)
    subst hb
    have hcut : ∀ S, NoDigit (nl :: S) := by
      intro S b hb
      cases hb
      rfl
    have hnl : lexed (nl :: S) = lexed [nl] ++ lexed S := by
      rw [lexed_byte rfl, lexed_byte rfl]
      rfl
    rw [List.concat_eq_append, List.append_assoc, List.singleton_append, lexed_append (hcut S), hnl, lexed_append (hcut []),
      List.append_assoc]

/-- Lines that are accepted on their own, in front of any text. The scanner's matches are theirs,
    then those of the text. When `yylex` is first asked for a token of the text, `sym` and the
    output are as at the end of the lines alone; the output then only grows. -/
theorem line_effects (arith : Op → Int → Int → Option Int) (sym : Fin 26 → Int) (garbage garbage' : Int) {P : List UInt8}
    (hP : CompleteLines P) {q : Yyparse}
    (h : Ends (step (some YYMAXDEPTH) arith) (start (List.ofFn sym) garbage (tokens P)) (.ret 0 q)) (S : List UInt8) :
    lexed (P ++ S) = lexed P ++ lexed S ∧
      ∃ p, Goes (step (some YYMAXDEPTH) arith) (start (List.ofFn sym) garbage' (tokens (P ++ S))) p ∧
        Asks (some YYMAXDEPTH) p ∧ p.toks = tokens S ∧ p.sym = q.sym ∧ p.stdout = q.stdout ∧ p.stderr = q.stderr ∧
        (∀ p', Goes (step (some YYMAXDEPTH) arith) (start (List.ofFn sym) garbage' (tokens (P ++ S))) p' →
          Goes (step (some YYMAXDEPTH) arith) p' p → p' ≠ p → Asks (some YYMAXDEPTH) p' →
          ∃ t ts, p'.toks = t :: (ts ++ tokens S)) ∧
        ∀ r, Ends (step (some YYMAXDEPTH) arith) (start (List.ofFn sym) garbage' (tokens (P ++ S))) r →
          q.stdout <+: r.final.stdout := by
  have hlex := lexed_lines hP S
  have htoks : tokens (P ++ S) = tokens P ++ tokens S := by rw [tokens, hlex, List.filterMap_append]; rfl
  obtain ⟨ss, d, m, hall, hm, hd, hsym, hout, herr⟩ := lines_of_accepted (by decide) h
  have hroom : ¬ exhausted (some YYMAXDEPTH) (max d 2) := room_of_lt (Nat.max_lt.mpr ⟨hd, by decide⟩)
  obtain ⟨p, hg, hp, hc, ht⟩ := lines_ready hall hm (room_mono hroom (by omega)) garbage' (tokens S)
  rw [← htoks] at hg
  obtain ⟨vs, -, hat⟩ := id hp
  have hstd : p.stdout = q.stdout := hat.stdout.trans hout.symm
  refine ⟨hlex, p, hg, want_asks hp hc (room_mono hroom (Nat.le_max_right _ _)), ht, hat.sym.trans hsym.symm,
    hstd, hat.stderr.trans herr.symm, ?_, ?_⟩
  · intro p' _ hg' hne ha
    rw [← ht]
    exact asked_before hg' hne ha hc
  · intro r hr
    rw [← hstd]
    exact ends_stdout ((hg.ends_iff r).mp hr)

/-- `1`, and then `2 2` without an end. -/
theorem line_effects_malformed :
    ∃ p, Goes (step (some YYMAXDEPTH) intArith) (start (List.ofFn sym0) 0 (tokens ([49, 10] ++ [50, 32, 50]))) p ∧
      Asks (some YYMAXDEPTH) p ∧ p.toks = tokens [50, 32, 50] ∧ p.stdout = [1] := by
  obtain ⟨-, p, h1, h2, h3, -, h4, -⟩ := line_effects intArith sym0 0 0 (P := [49, 10]) (by intro b hb; cases hb; rfl)
    (@ends_of_run _ _ (step (some YYMAXDEPTH) intArith) 10 (start (List.ofFn sym0) 0 (tokens [49, 10])) _ rfl) [50, 32, 50]
  exact ⟨p, h1, h2, h3, h4⟩

end NetworkCourse.Calc
