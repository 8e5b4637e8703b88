/-
  NetworkCourse.Calc.Program — the calculator as one program: `yyparse` that calls `yylex` for
  each look-ahead token, and `yylex` on its input buffer.

  The parser's own model has the tokens in a list. Here it has none (`bare`): where it asks for
  one, the scanner runs, on whatever pieces the input comes in. Both write to `stderr`, each
  when it gets there.

  The program follows the parser, with the scanner as far as the tokens it has given
  (`Feeding`, `program_follows`). So it ends, as the parser on the tokens of the text, with the
  scanner's messages up to the last token asked for in front of the parser's
  (`program_refines`). `program_calculates`: sessions, from bytes to the exit status.
  `program_ready`: at a terminal a line's numbers are out before anything of the next line is
  read.
-/

import NetworkCourse.Calc.Yylex
import NetworkCourse.Calc.Boundary

namespace NetworkCourse.Calc

open Lib.Machine Lib.Ascii

/-- `yyparse`, or its call of `yylex`. -/
inductive Program where
  | yyparse (p : Yyparse) (s : Lexer)
  | yylex (p : Yyparse) (c : Yylex)

/-- `yyparse` returns to `main`, or stops there, or the scanner does. -/
inductive Exit where
  | main (r : Result) (s : Lexer)
  | abort (a : Abort)

variable (m : Platform) (maxdepth : Option Nat) (arith : Op → Int → Int → Option Int)

instance (p : Yyparse) : Decidable (Asks maxdepth p) :=
  decidable_of_iff (p.yychar = none ∧ ¬ exhausted maxdepth p.yyss.length ∧ (p.yyss.head?.any fun s => yypact s ≠ YYPACT_NINF) = true)
    (by simp [Asks, Option.any_eq_true])

def Lexer.report (s : Lexer) (msgs : List String) : Lexer := { s with stderr := s.stderr ++ msgs }

def programStep : Program → Program ⊕ Exit
  | .yyparse p s =>
    if Asks maxdepth p then .inl (.yylex p (yylexEntry s))
    else
      match step maxdepth arith p with
      | .inl q => .inl (.yyparse { q with stderr := [] } (s.report q.stderr))
      | .inr r => .inr (.main r (s.report r.final.stderr))
  | .yylex p c =>
    match yylexStep m c with
    | .inl c => .inl (.yylex p c)
    | .inr (.returned t s) => .inl (.yyparse (fetch { p with toks := t.toList }) s)
    | .inr (.abort a) => .inr (.abort a)

/-! ## The parser, without its tokens -/

def Yyparse.bare (p : Yyparse) : Yyparse := { p with toks := [] }

def Result.bare : Result → Result
  | .ret yyresult p => .ret yyresult p.bare
  | .trap p => .trap p.bare
  | .outOfBounds p => .outOfBounds p.bare

variable {maxdepth arith}

theorem yyerrlab_bare {p : Yyparse} (h : p.yyerrstatus = 0) : yyerrlab p.bare = Sum.map Yyparse.bare Result.bare (yyerrlab p) := by
  have hb : p.bare.yyerrstatus = 0 := h
  unfold yyerrlab yyerrlab1
  simp only [popToError_none, h, hb]
  rfl

theorem yyreduce_bare (r : Nat) (p : Yyparse) :
    yyreduce arith r p.bare = Sum.map Yyparse.bare Result.bare (yyreduce arith r p) := by
  unfold yyreduce Yyparse.bare
  simp only
  split
  · rfl
  · rfl
  · split <;> rfl

/-- No action looks at the tokens to come. -/
theorem act_bare (a : Act) {p : Yyparse} (h : p.yyerrstatus = 0) :
    act arith p.bare a = Sum.map Yyparse.bare Result.bare (act arith p a) := by
  cases a with
  | accept => rfl
  | error => exact yyerrlab_bare h
  | reduce r => exact yyreduce_bare r p
  | shift n => rfl

theorem asks_bare (p : Yyparse) : Asks maxdepth p.bare ↔ Asks maxdepth p := Iff.rfl

/-- Nor does a step that asks for none. -/
theorem step_bare {p : Yyparse} (h0 : p.yyerrstatus = 0) (h : ¬ Asks maxdepth p) :
    step maxdepth arith p.bare = Sum.map Yyparse.bare Result.bare (step maxdepth arith p) := by
  unfold step
  rw [show p.bare.yyss = p.yyss from rfl]
  cases hs : p.yyss with
  | nil => rfl
  | cons s ss =>
    by_cases hfull : exhausted maxdepth (s :: ss).length
    · simp only [if_pos hfull]
      rfl
    · simp only [if_neg hfull]
      by_cases hn : yypact s = YYPACT_NINF
      · simp only [if_pos hn]
        exact act_bare _ h0
      · simp only [if_neg hn]
        cases hc : p.yychar with
        | none => exact absurd ⟨hc, by rw [hs]; exact hfull, s, by rw [hs]; rfl, hn⟩ h
        | some look =>
          have hf : fetch p = p := by
            unfold fetch
            rw [hc]
          have hfb : fetch p.bare = p.bare := by
            unfold fetch Yyparse.bare
            rw [hc]
          rw [hf, hfb]
          exact act_bare _ h0

/-! ## What a step leaves alone -/

theorem act_quiet {a : Act} {p q : Yyparse} (h : act arith p a = .inl q) (h0 : p.yyerrstatus = 0) :
    q.stderr = p.stderr ∧ q.yyerrstatus = 0 ∧ unread q = unread p := by
  cases a with
  | accept => cases h
  | error =>
    obtain ⟨r, hr, -⟩ := yyerrlab_ends p
    rw [act, hr] at h
    cases h
  | reduce r =>
    rw [act] at h
    unfold yyreduce at h
    simp only at h
    split at h
    · cases h
    · cases h
    · split at h <;> cases h
      exact ⟨rfl, h0, rfl⟩
  | shift n =>
    cases h
    refine ⟨rfl, ?_, ?_⟩
    · show p.yyerrstatus - 1 = 0
      rw [h0]
    · unfold unread
      by_cases hc : p.yychar = some none <;> simp [hc]

theorem step_quiet {p q : Yyparse} (h : step maxdepth arith p = .inl q) (ha : ¬ Asks maxdepth p) (h0 : p.yyerrstatus = 0) :
    q.stderr = p.stderr ∧ q.yyerrstatus = 0 ∧ unread q = unread p := by
  rcases @step_acts maxdepth arith p with ⟨ha', -⟩ | ⟨-, a, hst⟩ | ⟨-, r, hst, -⟩
  · exact absurd ha' ha
  · exact act_quiet (hst.symm.trans h) h0
  · rw [hst] at h
    cases h

/-- What a token asked for changes. -/
theorem fetch_asks {p : Yyparse} (h : p.yychar = none) :
    fetch { p.bare with toks := p.toks.head?.toList } = (fetch p).bare ∧ (fetch p).toks = p.toks.tail ∧
      unread (fetch p) + 1 = unread p ∧ (fetch p).stderr = p.stderr ∧ (fetch p).yyerrstatus = p.yyerrstatus ∧
      (fetch p).yychar ≠ none := by
  unfold fetch Yyparse.bare unread
  cases ht : p.toks with
  | nil => simp [h]
  | cons t ts => simp [h]

/-- The step behind it. -/
theorem step_fetch {p : Yyparse} (h : Asks maxdepth p) :
    step maxdepth arith p = step maxdepth arith (fetch p) ∧ ¬ Asks maxdepth (fetch p) := by
  obtain ⟨hc, hroom, s, hs, hn⟩ := h
  have hsome := (fetch_asks hc).2.2.2.2.2
  have hff : fetch (fetch p) = fetch p := by
    cases hcf : (fetch p).yychar with
    | none => exact absurd hcf hsome
    | some t =>
      rw [fetch, hcf]
  refine ⟨?_, fun h => hsome h.1⟩
  unfold step
  rw [(fetch_frame p).1, hff]
  cases hss : p.yyss with
  | nil =>
    rw [hss] at hs
    cases hs
  | cons s' ss =>
    rw [hss] at hs hroom
    cases hs
    simp only [if_neg hroom, if_neg hn]

/-! ## Calls of the scanner, one after the other -/

/-- What `n` calls write, and what they leave. -/
def nexts : Nat → List UInt8 → List String × List UInt8
  | 0, text => ([], text)
  | n + 1, text => ((nexts n text).1 ++ (next (nexts n text).2).1, (next (nexts n text).2).2.2)

theorem nexts_spec (n : Nat) (text : List UInt8) :
    tokens (nexts n text).2 = (tokens text).drop n ∧ errors text = (nexts n text).1 ++ errors (nexts n text).2 ∧
      ∀ mt ∈ matched (nexts n text).2, mt ∈ matched text := by
  induction n with
  | zero => exact ⟨rfl, rfl, fun _ h => h⟩
  | succ n ih =>
    obtain ⟨iht, ihe, ihm⟩ := ih
    obtain ⟨ht, he, hnone, hm⟩ := next_spec (nexts n text).2
    refine ⟨?_, ?_, fun mt hmt => ihm mt (hm mt hmt)⟩
    · rw [← List.tail_drop, ← iht, ht]
      cases hn : (next (nexts n text).2).2.1 with
      | none =>
        rw [nexts, hnone hn]
        rfl
      | some t => rfl
    · rw [ihe, he, nexts, List.append_assoc]

theorem next_token (n : Nat) (text : List UInt8) : (next (nexts n text).2).2.1 = (tokens text)[n]? := by
  obtain ⟨ht, -, -⟩ := nexts_spec n text
  obtain ⟨h1, -, hnone, -⟩ := next_spec (nexts n text).2
  have hhead : (tokens text)[n]? = (tokens (nexts n text).2).head? := by
    rw [ht, List.head?_drop]
  rw [hhead, h1]
  cases hn : (next (nexts n text).2).2.1 with
  | none =>
    rw [hnone hn]
    rfl
  | some t => rfl

/-! ## The program and the parser -/

section
variable {m : Platform} {N : Nat} {e : Effects} {text : List UInt8} {n : Nat} {p q : Yyparse} {s : Lexer}

/-- A parser that has taken `n` tokens of the text, with the end as one, and the scanner that gave them. -/
structure Feeding (m : Platform) (N : Nat) (e : Effects) (text : List UInt8) (n : Nat) (p : Yyparse) (s : Lexer) : Prop where
  ready : Ready m N (e.wrote (nexts n text).1) (nexts n text).2 s
  toks : p.toks = (tokens text).drop n
  calls : n + unread p = (tokens text).length + 1
  stderr : p.stderr = []
  yyerrstatus : p.yyerrstatus = 0
  line : e.isatty = true → (∀ t, ((tokens text).take n).getLast? = some t → t = .newline) → s.yyin.text = (nexts n text).2

theorem Lexer.report_nil (s : Lexer) : s.report [] = s := by
  rw [report, List.append_nil]

/-- A step of the parser alone. -/
theorem Feeding.quiet (h : Feeding m N e text n p s) (hst : step maxdepth arith p = .inl q) (ha : ¬ Asks maxdepth p) :
    programStep m maxdepth arith (.yyparse p.bare s) = .inl (.yyparse q.bare s) ∧ Feeding m N e text n q s := by
  obtain ⟨herr, h0, hun⟩ := step_quiet hst ha h.yyerrstatus
  constructor
  · have hb : step maxdepth arith p.bare = .inl q.bare := by rw [step_bare h.yyerrstatus ha, hst]; rfl
    have hq : q.stderr = [] := herr.trans h.stderr
    have hq' : q.bare.stderr = [] := hq
    rw [programStep, if_neg (mt (asks_bare p).mp ha), hb]
    simp only [hq', s.report_nil]
    rw [show ({ q.bare with stderr := [] } : Yyparse) = q.bare by rw [← hq']]
  · exact ⟨h.ready, (step_silent hst ha).1.trans h.toks, by rw [hun]; exact h.calls, herr.trans h.stderr, h0, h.line⟩

/-- A token is asked for: the scanner runs. -/
theorem Feeding.asks (hm : m.Serves N) (hN : ∀ mt ∈ matched text, mt.yytext.length ≤ N) (h : Feeding m N e text n p s)
    (ha : Asks maxdepth p) :
    ∃ s', Goes (programStep m maxdepth arith) (.yyparse p.bare s) (.yyparse (fetch p).bare s') ∧
      Feeding m N e text (n + 1) (fetch p) s' := by
  obtain ⟨-, -, hmem⟩ := nexts_spec n text
  obtain ⟨s', hends, hready, hline⟩ := yylex_returns hm (fun mt hmt => hN mt (hmem mt hmt)) h.ready
  obtain ⟨hbare, htoks, hun, herr, h0, -⟩ := fetch_asks ha.1
  have hhead : (next (nexts n text).2).2.1 = p.toks.head? := by
    rw [next_token, h.toks, List.head?_drop]
  refine ⟨s', ?_, ?_⟩
  · have hcall : programStep m maxdepth arith (.yyparse p.bare s) = .inl (.yylex p.bare (yylexEntry s)) := by
      rw [programStep, if_pos ((asks_bare p).mpr ha)]
    refine .next hcall (hends.called ?_ ?_)
    · intro c c' hc
      show programStep m maxdepth arith (.yylex p.bare c) = _
      rw [programStep, hc]
    · intro c hc
      rw [hhead] at hc
      rw [programStep, hc, ← hbare]
  · rw [Effects.wrote_wrote] at hready
    refine ⟨hready, ?_, ?_, herr.trans h.stderr, h0.trans h.yyerrstatus, ?_⟩
    · rw [htoks, h.toks, List.tail_drop]
    · rw [← h.calls, ← hun]
      omega
    · intro htty hlast
      cases ht : (next (nexts n text).2).2.1 with
      | none =>
        have hnil := (next_spec (nexts n text).2).2.2.1 ht
        obtain ⟨left, -, -, htext, -⟩ := hready.rest
        show s'.yyin.text = (next (nexts n text).2).2.2
        rw [hnil] at htext ⊢
        exact (List.append_eq_nil_iff.mp htext.symm).2
      | some t =>
        apply hline htty
        rw [ht]
        rw [next_token] at ht
        obtain ⟨hlt, hget⟩ := List.getElem?_eq_some_iff.mp ht
        rw [hlast t]
        rw [List.take_add_one, ht]
        simp

theorem act_final {a : Act} {r : Result} (h : act arith p a = .inr r) (h0 : p.yyerrstatus = 0) : unread r.final = unread p := by
  cases a with
  | accept =>
    cases h
    rfl
  | error =>
    rw [act, yyerrlab] at h
    simp only [h0, yyerrlab1, popToError_none] at h
    cases h
    rfl
  | reduce r' =>
    rw [act] at h
    unfold yyreduce at h
    simp only at h
    split at h
    · cases h
      rfl
    · cases h
      rfl
    · split at h <;> cases h
      rfl
  | shift n => cases h

theorem step_final_unread {r : Result} (h : step maxdepth arith p = .inr r) (ha : ¬ Asks maxdepth p) (h0 : p.yyerrstatus = 0) :
    unread r.final = unread p := by
  unfold step at h
  cases hs : p.yyss with
  | nil =>
    rw [hs] at h
    cases h
    rfl
  | cons s ss =>
    rw [hs] at h
    by_cases hfull : exhausted maxdepth (s :: ss).length
    · simp only [if_pos hfull] at h
      cases h
      rfl
    · simp only [if_neg hfull] at h
      by_cases hn : yypact s = YYPACT_NINF
      · rw [if_pos hn] at h
        exact act_final h h0
      · rw [if_neg hn] at h
        have hf : fetch p = p := by
          cases hc : p.yychar with
          | none => exact absurd ⟨hc, by rw [hs]; exact hfull, s, by rw [hs]; rfl, hn⟩ ha
          | some t => rw [fetch, hc]
        rw [hf] at h
        exact act_final h h0

/-- How the program ends when the parser does. -/
structure Done (e : Effects) (text : List UInt8) (r : Result) (s : Lexer) : Prop where
  stderr : ∃ n, s.stderr = e.stderr ++ (nexts n text).1 ++ r.final.stderr ∧ n + unread r.final = (tokens text).length + 1
  yyout : s.yyout = e.yyout

theorem Feeding.done {r : Result} (h : Feeding m N e text n p s) (hst : step maxdepth arith p = .inr r)
    (ha : ¬ Asks maxdepth p) :
    ∃ s', programStep m maxdepth arith (.yyparse p.bare s) = .inr (.main r.bare s') ∧ Done e text r s' := by
  have hb : step maxdepth arith p.bare = .inr r.bare := by rw [step_bare h.yyerrstatus ha, hst]; rfl
  have hfin : r.bare.final.stderr = r.final.stderr := by cases r <;> rfl
  refine ⟨s.report r.final.stderr, ?_, ⟨n, ?_, ?_⟩, ?_⟩
  · rw [programStep, if_neg (mt (asks_bare p).mp ha), hb]
    simp only [hfin]
  · show s.stderr ++ r.final.stderr = _
    rw [show s.stderr = e.stderr ++ (nexts n text).1 from congrArg Effects.stderr h.ready.effects]
  · rw [step_final_unread hst ha h.yyerrstatus]
    exact h.calls
  · exact congrArg Effects.yyout h.ready.effects

/-- The program does what the parser does on the tokens of the text. -/
theorem program_follows (hm : m.Serves N) (hN : ∀ mt ∈ matched text, mt.yytext.length ≤ N) :
    Sim (step maxdepth arith) (programStep m maxdepth arith) (fun _ => True)
      (fun p P => ∃ n s, P = .yyparse p.bare s ∧ Feeding m N e text n p s)
      (fun r x => ∃ s, x = .main r.bare s ∧ Done e text r s) := by
  constructor
  · rintro p _ q - ⟨n, s, rfl, h⟩ hst
    by_cases ha : Asks maxdepth p
    · obtain ⟨hf, hna⟩ := @step_fetch maxdepth arith p ha
      obtain ⟨s', hg, h'⟩ := @Feeding.asks maxdepth arith m N e text n p s hm hN h ha
      obtain ⟨hone, h''⟩ := h'.quiet (hf.symm.trans hst) hna
      exact ⟨_, hg.trans (.one hone), n + 1, s', rfl, h''⟩
    · obtain ⟨hone, h'⟩ := h.quiet hst ha
      exact ⟨_, .one hone, n, s, rfl, h'⟩
  · rintro p _ r - ⟨n, s, rfl, h⟩ hst
    by_cases ha : Asks maxdepth p
    · obtain ⟨hf, hna⟩ := @step_fetch maxdepth arith p ha
      obtain ⟨s', hg, h'⟩ := @Feeding.asks maxdepth arith m N e text n p s hm hN h ha
      obtain ⟨s'', hone, hd⟩ := h'.done (hf.symm.trans hst) hna
      exact ⟨_, (hg.ends_iff _).mpr (ends_of_step hone), s'', rfl, hd⟩
    · obtain ⟨s', hone, hd⟩ := h.done hst ha
      exact ⟨_, ends_of_step hone, s', rfl, hd⟩

end

/-! ## Whole runs -/

/-- With any limit on its stack the parser comes to an end. -/
theorem yyparse_ends (maxdepth : Option Nat) (arith : Op → Int → Int → Option Int) (sym : Fin 26 → Int) (garbage : Int)
    (toks : List Token) : ∃ r, Ends (step maxdepth arith) (start (List.ofFn sym) garbage toks) r := by
  obtain ⟨-, r, -, hr, -⟩ := parser_ends arith sym garbage toks
  rcases hr.agrees_or (step_agrees arith) with h | ⟨r', h, -⟩
  · exact ⟨r, h⟩
  · exact ⟨r', h⟩

section
variable {m : Platform} {N : Nat} {text : List UInt8}

theorem feeding_start {s : Lexer} {isatty : Bool} (h : Ready m N ⟨[], [], isatty⟩ text s) (hin : s.yyin.text = text)
    (sym : List Int) (garbage : Int) : Feeding m N ⟨[], [], isatty⟩ text 0 (start sym garbage (tokens text)) s := by
  refine ⟨?_, rfl, ?_, rfl, rfl, fun _ _ => hin⟩
  · rw [nexts, Effects.wrote_nil]
    exact h
  · show 0 + ((tokens text).length + 1) = _
    rw [Nat.zero_add]

/-- Whatever is typed, the program ends in `main`, where the parser on the tokens of the text
    does. On `stderr` is what the scanner found on its way to the last token asked for, then what the parser
    had to say. -/
theorem program_refines (hm : m.Serves N) (hN : ∀ mt ∈ matched text, mt.yytext.length ≤ N) (isatty : Bool)
    (maxdepth : Option Nat) (arith : Op → Int → Int → Option Int) (sym : Fin 26 → Int) (garbage : Int) :
    ∃ s, yylexInit m ⟨text.map .char, false, isatty⟩ = .ok s ∧ ∃ r s' n,
      Ends (step maxdepth arith) (start (List.ofFn sym) garbage (tokens text)) r ∧
      Ends (programStep m maxdepth arith) (.yyparse (start (List.ofFn sym) garbage []) s) (.main r.bare s') ∧
      s'.stderr = (nexts n text).1 ++ r.final.stderr ∧ n + unread r.final = (tokens text).length + 1 ∧ s'.yyout = [] := by
  obtain ⟨s, hs, hready, hin⟩ := yylexInit_ready hm text isatty
  obtain ⟨r, hr⟩ := yyparse_ends maxdepth arith sym garbage (tokens text)
  obtain ⟨x, hx, s', rfl, ⟨n, herr, hn⟩, hout⟩ := (program_follows hm hN).run
    ⟨0, s, rfl, feeding_start hready hin (List.ofFn sym) garbage⟩ hr fun _ _ => trivial
  exact ⟨s, hs, r, s', n, hr, hx, herr, hn, hout⟩

/-- `1$2`: a byte that is no token, then a token too many. -/
theorem program_refines_two :
    ∃ s, yylexInit hosted ⟨([49, 36, 50, 10] : List UInt8).map .char, false, false⟩ = .ok s ∧ ∃ r s',
      Ends (programStep hosted (some YYMAXDEPTH) intArith) (.yyparse (start (List.ofFn sym0) 0 []) s) (.main r s') ∧
      s'.stderr = ["invalid input", "syntax error"] := by
  obtain ⟨s, hs, r, s', n, hr, hp, herr, hn, -⟩ := @program_refines hosted 1 [49, 36, 50, 10]
    (hosted_serves (by decide : 1 < 2147483647)) (by decide) false (some YYMAXDEPTH) intArith sym0 0
  have hrun := @ends_of_run _ _ (step (some YYMAXDEPTH) intArith) 20 (start (List.ofFn sym0) 0 (tokens [49, 36, 50, 10])) _ rfl
  have heq := hr.unique hrun
  subst heq
  have h2 : n = 2 := Nat.add_right_cancel (show n + 2 = 2 + 2 from hn)
  refine ⟨s, hs, _, s', hp, ?_⟩
  rw [herr, h2]
  rfl

/-! ## Sessions -/

/-- `printf("%d\n", ..)` -/
def printed (v : Int) : String := toString v ++ "\n"

/-- What `main` leaves on `stdout`. -/
def Result.output (r : Result) : String := "A simple calculator.\n" ++ String.join (r.final.stdout.map printed)

/-- The exit status, where there is one. -/
def Exit.status : Exit → Option Nat
  | .main (.ret _ _) _ => some 0
  | .main _ _ => none
  | .abort (.fatal _) => some 2
  | .abort _ => none

theorem errors_digits {ds rest : List UInt8} (hne : ds ≠ []) (hd : ∀ b ∈ ds, isDigit b = true) (hr : NoDigit rest) :
    errors (ds ++ rest) = errors rest := by
  rw [errors, lexed_digits hne hd hr]
  rfl

theorem errors_byte {b : UInt8} (h : isDigit b = false) (hb : (doAction (ruleOf b) [b]).error? = none) (rest : List UInt8) :
    errors (b :: rest) = errors rest := by
  rw [errors, lexed_byte h, List.filterMap_cons_none hb]
  rfl

theorem blank_error : ∀ b, isBlank b = true → isDigit b = false ∧ (doAction (ruleOf b) [b]).error? = none := by
  intro b hb
  have hi := isIgnored_blank b hb
  obtain ⟨hd, -⟩ := doAction_ignored hi
  simp only [isIgnored, Bool.not_eq_true', Bool.or_eq_false_iff] at hi
  obtain ⟨⟨-, hl⟩, hc⟩ := hi
  refine ⟨hd, ?_⟩
  simp only [ruleOf, hl, hc, hb]
  rfl

/-- There is nothing to report about a text that writes tokens with blanks between them. -/
theorem Writes.errors {ts : List Token} {text : List UInt8} (h : Writes isBlank Apart ts text) : errors text = [] := by
  induction h with
  | nil => rfl
  | gap hb _ ih =>
    obtain ⟨hd, he⟩ := blank_error _ hb
    rw [errors_byte hd he, ih]
  | @token t s ts text hs hw hnext ih =>
    cases hs with
    | INTEGER hne hd _ _ =>
      rw [errors_digits hne hd (hw.behind_number isIgnored_blank (fun _ _ h => h) hnext), ih]
    | VARIABLE x =>
      obtain ⟨hd, ha⟩ := doAction_letter x
      rw [List.singleton_append, errors_byte hd (by rw [ha]; rfl), ih]
    | char h =>
      obtain ⟨hd, ha⟩ := doAction_char (charToken_yychar h)
      rw [List.singleton_append, errors_byte hd (by rw [ha]; rfl), ih]

theorem Source.errors {ss : List Stmt} {d : Nat} (h : Source ss d text) : errors text = [] := by
  obtain ⟨toks, hr, hw⟩ := h
  exact (hw.apart (isProgram_iff.mpr ⟨ss, d, hr⟩).isChain).errors

/-- A session of statements: the program prints their values in decimal, a line each, and nothing
    else, and exits with 0. -/
theorem program_calculates (hm : m.Serves N) (hN : ∀ mt ∈ matched text, mt.yytext.length ≤ N) {ss : List Stmt} {d : Nat}
    (h : Source ss d text) (hs : SafeAll ⟨sym0, []⟩ ss) (hd : d < YYMAXDEPTH) (isatty : Bool) (garbage : Int) :
    ∃ s, yylexInit m ⟨text.map .char, false, isatty⟩ = .ok s ∧ ∃ r s',
      Ends (programStep m (some YYMAXDEPTH) intArith) (.yyparse (start (List.ofFn sym0) garbage []) s) (.main r s') ∧
      (Exit.main r s').status = some 0 ∧ s'.stderr = [] ∧ s'.yyout = [] ∧
      r.output = "A simple calculator.\n" ++ String.join ((runAll ⟨sym0, []⟩ ss).stdout.map printed) := by
  have hroom : ¬ exhausted (some YYMAXDEPTH) (max d 3) := room_of_lt (Nat.max_lt.mpr ⟨hd, by decide⟩)
  obtain ⟨q, hq, -, hout, herr⟩ := h.tokens.parsed hs.exec hroom garbage
  obtain ⟨s, hs, hready, hin⟩ := yylexInit_ready hm text isatty
  obtain ⟨x, hx, s', rfl, ⟨n, hstderr, -⟩, hyyout⟩ := (program_follows hm hN).run
    ⟨0, s, rfl, feeding_start hready hin (List.ofFn sym0) garbage⟩ hq fun _ _ => trivial
  have hnone : (nexts n text).1 = [] := by
    have he := (nexts_spec n text).2.1
    rw [h.errors] at he
    exact (List.append_eq_nil_iff.mp he.symm).1
  refine ⟨s, hs, _, s', hx, rfl, ?_, hyyout, ?_⟩
  · rw [hstderr, hnone, Result.final, herr]
    rfl
  · show "A simple calculator.\n" ++ String.join (q.stdout.map printed) = _
    rw [hout]

/-- `a = 2*3`, `a+1` and `(a-1)/2`, a line each. -/
theorem program_calculates_lines :
    ∃ s, yylexInit hosted ⟨(ascii "a = 2*3\na+1\n(a-1)/2\n").map .char, false, false⟩ = .ok s ∧ ∃ r s',
      Ends (programStep hosted (some YYMAXDEPTH) intArith) (.yyparse (start (List.ofFn sym0) 0 []) s) (.main r s') ∧
      s'.stderr = [] ∧ r.output = "A simple calculator.\n7\n2\n" := by
  have hnum : ∀ b : UInt8, isDigit b = true → (digits [b] : Int) ≤ INT_MAX → Spelling (.INTEGER (digits [b])) [b] := by
    intro b hb hle
    exact .INTEGER (by simp) (by simpa using hb) rfl hle
  have h1 : RendersStmt (.assign 0 (.op .times (.num 2) (.num 3)))
      [.VARIABLE 0, .assign, .INTEGER 2, .op .times, .INTEGER 3] 7 :=
    .assign 0 (.loosen (.op .times (.loosen (.num 2)) (.num 3)))
  have h2 : RendersStmt (.expr (.op .plus (.var 0) (.num 1))) [.VARIABLE 0, .op .plus, .INTEGER 1] 5 :=
    .expr (.op .plus (.loosen (.loosen (.var 0))) (.loosen (.num 1)))
  have h3 : RendersStmt (.expr (.op .divide (.op .minus (.var 0) (.num 1)) (.num 2)))
      [.lpar, .VARIABLE 0, .op .minus, .INTEGER 1, .rpar, .op .divide, .INTEGER 2] 6 :=
    .expr (.loosen (.op .divide (.loosen (.paren (.op .minus (.loosen (.loosen (.var 0))) (.loosen (.num 1)))))
      (.num 2)))
  have hsrc : Source _ 7 (ascii "a = 2*3\na+1\n(a-1)/2\n") :=
    ⟨_, .snoc (.snoc (.snoc .nil h1) h2) h3,
      .next (.VARIABLE 0) (.gap rfl (.next (.char rfl) (.gap rfl (.next (hnum 50 rfl (by decide)) (.next (.char rfl)
        (.next (hnum 51 rfl (by decide)) (.next (.char rfl)
        (.next (.VARIABLE 0) (.next (.char rfl) (.next (hnum 49 rfl (by decide)) (.next (.char rfl)
        (.next (.char rfl) (.next (.VARIABLE 0) (.next (.char rfl) (.next (hnum 49 rfl (by decide)) (.next (.char rfl)
        (.next (.char rfl) (.next (hnum 50 rfl (by decide)) (.next (.char rfl) .nil)))))))))))))))))))⟩
  obtain ⟨s, hs, r, s', hp, -, herr, -, hout⟩ := program_calculates (hosted_serves (by decide : 1 < 2147483647)) (by decide) hsrc
    (by decide) (by decide) false 0
  exact ⟨s, hs, r, s', hp, herr, hout.trans rfl⟩

/-! ## At a terminal -/

theorem nexts_succ (n : Nat) (text : List UInt8) :
    nexts (n + 1) text = ((next text).1 ++ (nexts n (next text).2.2).1, (nexts n (next text).2.2).2) := by
  induction n with
  | zero =>
    show (([] : List String) ++ (next text).1, (next text).2.2) = _
    rw [List.nil_append]
    show _ = ((next text).1 ++ [], (next text).2.2)
    rw [List.append_nil]
  | succ n ih =>
    rw [nexts, ih, nexts]
    simp only [List.append_assoc]

theorem next_digits {ds rest : List UInt8} (hne : ds ≠ []) (hd : ∀ b ∈ ds, isDigit b = true) (hr : NoDigit rest) :
    next (ds ++ rest) = ([], some (.INTEGER (atoi ds)), rest) := by
  rw [next, matched_digits hne hd hr]
  rfl

theorem next_byte {b : UInt8} (h : isDigit b = false) (rest : List UInt8) :
    next (b :: rest) = match doAction (ruleOf b) [b] with
      | .token t => ([], some t, rest)
      | .ignored => next rest
      | .yyerror e => (e :: (next rest).1, (next rest).2) := by
  rw [next, matched_byte h]
  rfl

/-- The calls that a line's tokens take end with the line. -/
theorem nexts_line (text S : List UInt8) :
    nexts (tokens (text ++ [nl])).length (text ++ nl :: S) = (errors (text ++ [nl]), S) := by
  have hcut : ∀ S, NoDigit (nl :: S) := by
    intro S b hb
    cases hb
    rfl
  have hpos : ∀ text, ∃ k, (tokens (text ++ [nl])).length = k + 1 := by
    intro text
    rw [tokens, lexed_append (hcut []), List.filterMap_append, List.length_append]
    exact ⟨(tokens text).length, rfl⟩
  induction text using runs_induction with
  | nil =>
    show nexts 1 (nl :: S) = _
    rw [nexts_succ, next_byte rfl]
    rfl
  | run ds text hne hd hn ih =>
    have hn' : ∀ S, NoDigit (text ++ nl :: S) := by
      intro S
      cases text with
      | nil => exact hcut S
      | cons b text => exact hn
    rw [List.append_assoc, List.append_assoc, tokens_digits hne hd (hn' []), errors_digits hne hd (hn' []), List.length_cons, nexts_succ,
      next_digits hne hd (hn' S), ih]
    rfl
  | byte b text hb ih =>
    obtain ⟨k, hk⟩ := hpos text
    rw [hk, nexts_succ] at ih
    rw [List.cons_append, List.cons_append, tokens_byte hb, List.length_append]
    cases hdo : doAction (ruleOf b) [b] with
    | token t =>
      show nexts (1 + _) _ = _
      rw [hk, Nat.add_comm 1, nexts_succ, next_byte hb, hdo, errors_byte hb (by rw [hdo]; rfl), nexts_succ]
      exact ih
    | ignored =>
      show nexts (0 + _) _ = _
      rw [hk, Nat.zero_add, nexts_succ, next_byte hb, hdo, errors_byte hb (by rw [hdo]; rfl)]
      exact ih
    | yyerror e =>
      show nexts (0 + _) _ = _
      have herr : errors (b :: (text ++ [nl])) = e :: errors (text ++ [nl]) := by rw [errors, lexed_byte hb, hdo]; rfl
      rw [hk, Nat.zero_add, nexts_succ, next_byte hb, hdo, herr]
      exact congrArg (fun x : List String × List UInt8 => (e :: x.1, x.2)) ih

/-- And those of whole lines with the lines. -/
theorem nexts_lines {P : List UInt8} (hP : CompleteLines P) (S : List UInt8) :
    nexts (tokens P).length (P ++ S) = (errors P, S) ∧ ∀ t, (tokens P).getLast? = some t → t = .newline := by
  rcases List.eq_nil_or_concat P with rfl | ⟨P, b, rfl⟩
  · exact ⟨rfl, fun t ht => by cases ht⟩
  · have hb : b = nl := hP b (by simp)
    subst hb
    have hcut : NoDigit [nl] := by
      intro b hb
      cases hb
      rfl
    rw [List.concat_eq_append]
    constructor
    · rw [List.append_assoc]
      exact nexts_line P S
    · intro t ht
      have htoks : tokens (P ++ [nl]) = tokens P ++ [.newline] := by
        rw [tokens, lexed_append hcut, List.filterMap_append]
        rfl
      rw [htoks, List.getLast?_concat] at ht
      cases ht
      rfl

/-- Lines at a terminal that are accepted on their own. When the program asks for a token and its buffer
    is used up behind them, what they print and assign is done, and nothing of what follows them has
    been read. -/
theorem program_ready (hm : m.Serves N) {P : List UInt8} (hP : CompleteLines P) {S : List UInt8}
    (hN : ∀ mt ∈ matched (P ++ S), mt.yytext.length ≤ N) (sym : Fin 26 → Int) (garbage garbage' : Int) {q : Yyparse}
    (h : Ends (step (some YYMAXDEPTH) arith) (start (List.ofFn sym) garbage (tokens P)) (.ret 0 q)) :
    ∃ s, yylexInit m ⟨(P ++ S).map .char, false, true⟩ = .ok s ∧ ∃ p s',
      Goes (programStep m (some YYMAXDEPTH) arith) (.yyparse (start (List.ofFn sym) garbage' []) s) (.yylex p (yylexEntry s')) ∧
      p.stdout = q.stdout ∧ p.sym = q.sym ∧ s'.stderr = errors P ∧ s'.yy_c_buf_p = s'.yy_n_chars ∧ s'.yyin.text = S := by
  obtain ⟨ss, d, mem, hall, hmem, hd, hsym, hout, -⟩ := lines_of_accepted (by decide) h
  have hroom : ¬ exhausted (some YYMAXDEPTH) (max d 2) := room_of_lt (Nat.max_lt.mpr ⟨hd, by decide⟩)
  have htoks : tokens (P ++ S) = tokens P ++ tokens S := by rw [tokens, lexed_lines hP S, List.filterMap_append]; rfl
  obtain ⟨p, hg, hp, hc, ht⟩ := lines_ready hall hmem (room_mono hroom (by omega)) garbage' (tokens S)
  rw [← htoks] at hg
  have hasks := want_asks hp hc (room_mono hroom (Nat.le_max_right _ _))
  obtain ⟨vs, -, hat⟩ := hp
  obtain ⟨s, hs, hready, hin⟩ := yylexInit_ready hm (P ++ S) true
  have hthrough : Through (fun _ => True) (step (some YYMAXDEPTH) arith) (start (List.ofFn sym) garbage' (tokens (P ++ S))) p :=
    Relation.ReflTransGen.mono (fun _ _ hst => ⟨trivial, hst⟩) _ _ hg
  obtain ⟨_, hgo, n, s', rfl, hf⟩ := (program_follows hm hN).through
    ⟨0, s, rfl, feeding_start hready hin (List.ofFn sym) garbage'⟩ hthrough
  have hn : n = (tokens P).length := by
    have hcalls := hf.calls
    rw [unread, hc, ht, htoks, List.length_append] at hcalls
    simp only [reduceCtorEq, if_false] at hcalls
    omega
  obtain ⟨hnexts, hlast⟩ := nexts_lines hP S
  have hyyin : s'.yyin.text = S := by
    rw [hf.line rfl, hn, hnexts]
    intro t htl
    rw [hn, htoks, List.take_left] at htl
    exact hlast t htl
  refine ⟨s, hs, p.bare, s', ?_, hat.stdout.trans hout.symm, hat.sym.trans hsym.symm, ?_, ?_, hyyin⟩
  · refine hgo.trans (.one ?_)
    rw [programStep, if_pos ((asks_bare p).mpr hasks)]
  · have herr : s'.stderr = (nexts n (P ++ S)).1 := congrArg Effects.stderr hf.ready.effects
    rw [herr, hn, hnexts]
  · -- what is left of the text is `S`, and that is not read
    obtain ⟨left, -, hchars, htext, -⟩ := hf.ready.rest
    rw [hn, hnexts, hyyin] at htext
    have hleft : left = [] := List.self_eq_append_left.mp htext
    rw [hchars, hleft]
    rfl

end

/-- `1 + 2 $` and a line that has not come yet. -/
theorem program_ready_sum :
    ∃ s, yylexInit hosted ⟨([49, 43, 50, 36, 10] ++ [51] : List UInt8).map .char, false, true⟩ = .ok s ∧ ∃ p s',
      Goes (programStep hosted (some YYMAXDEPTH) intArith) (.yyparse (start (List.ofFn sym0) 0 []) s) (.yylex p (yylexEntry s')) ∧
      p.stdout = [3] ∧ s'.stderr = ["invalid input"] ∧ s'.yy_c_buf_p = s'.yy_n_chars ∧ s'.yyin.text = [51] := by
  obtain ⟨s, hs, p, s', hg, hout, -, herr, hused, hin⟩ := @program_ready intArith hosted 1
    (hosted_serves (by decide : 1 < 2147483647)) [49, 43, 50, 36, 10] (by intro b hb; cases hb; rfl) [51] (by decide) sym0 0 0 _
    (@ends_of_run _ _ (step (some YYMAXDEPTH) intArith) 20 (start (List.ofFn sym0) 0 (tokens [49, 43, 50, 36, 10])) _ rfl)
  exact ⟨s, hs, p, s', hg, hout, herr, hused, hin⟩

end NetworkCourse.Calc
