/-
  NetworkCourse.Calc.Arrays — `yyparse` of packetdrill/calc.tab.c on its arrays.

  Both stacks are arrays of `yystacksize` entries with a pointer each. They begin as `yyssa`
  and `yyvsa`; a full one is copied to a block of twice the size, in which the second lies
  behind the first. Every access, of a stack, a table or `sym`, is checked: `none` is one out
  of bounds, and so is a block freed that is not allocated.

  The arrays hold the stacks of the parser's model (`Arrays.view`). An empty rule copies what
  lies above the stack, which the model does not have; but it is only reduced at the start,
  and its value is never read. From there on each step is the model's (`Sound`), so that the parser
  ends, with no access out of bounds and no block left, as the machine of `Frames` does, or
  with its memory exhausted: at a full stack that has `YYMAXDEPTH` entries, or for which `malloc` gives
  no larger one (`arrays_end`).
-/

import NetworkCourse.Calc.StackSize
import NetworkCourse.Lib.Window

namespace NetworkCourse.Calc

open Lib.Machine Lib.Window

/-! ## The arrays -/

/-- The locals of `yyparse`, `sym`, and what was printed. The pointers are offsets; `onHeap` is
    `yyss != yyssa`. -/
structure Arrays where
  yyss : List Int
  yyvs : List Int
  yystacksize : Nat
  yyssp : Nat
  yyvsp : Nat
  onHeap : Bool
  allocated : Nat
  yystate : Int
  yychar : Option (Option Token)
  yylval : Int
  yyerrstatus : Nat
  toks : List Token
  sym : List Int
  stdout : List Int
  stderr : List String

inductive Halt where
  | ret (yyresult : Nat) (a : Arrays)
  | trap (a : Arrays)
  | fault

/-- `xs[i]` -/
def at? {α : Type} (xs : List α) (i : Int) : Option α := if 0 ≤ i then xs[i.toNat]? else none

def yystosTable : List Nat := [0, 14, 0, 3, 4, 11, 15, 16, 10, 4, 16, 9, 5, 6, 7, 8, 16, 12, 16, 16, 16, 16]

/-! ### Memory -/

/-- `sizeof (yytype_int16)`, `sizeof (YYSTYPE)` and `sizeof (union yyalloc)` -/
def sizeofState : Nat := 2
def sizeofYYSTYPE : Nat := 4
def sizeofYyalloc : Nat := 4

def YYSTACK_GAP_MAXIMUM : Nat := sizeofYyalloc - 1

def YYSTACK_BYTES (n : Nat) : Nat := n * (sizeofState + sizeofYYSTYPE) + YYSTACK_GAP_MAXIMUM

/-- How far `YYSTACK_RELOCATE (yyss)` moves `yyptr`, in bytes. -/
def yynewbytes (yystacksize : Nat) : Nat :=
  (yystacksize * sizeofState + YYSTACK_GAP_MAXIMUM) / sizeofYyalloc * sizeofYyalloc

/-- `YYCOPY (To, From, Count)` -/
def YYCOPY {α : Type} (To From : List α) (Count : Nat) : Option (List α) :=
  if Count ≤ To.length ∧ Count ≤ From.length then some (From.take Count ++ To.drop Count) else none

/-- `YYSTACK_FREE` -/
def free (a : Arrays) : Option Arrays := if a.allocated = 0 then none else some { a with allocated := a.allocated - 1 }

/-! ### The end -/

/-- The loop of `yyreturn`: `n` entries are popped, each with its symbol's number. -/
def popAll (yyss : List Int) : Nat → Option Unit
  | 0 => some ()
  | n + 1 => do
    let s ← yyss[n + 1]?
    let _ ← at? yystosTable s
    popAll yyss n

def yyreturn (yyresult : Nat) (a : Arrays) : Option Halt := do
  popAll a.yyss a.yyssp
  let a ← if a.onHeap then free a else some a
  some (.ret yyresult { a with yyssp := 0, yyvsp := a.yyvsp - a.yyssp })

def yyexhaustedlab (a : Arrays) : Option Halt := yyreturn 2 { a with stderr := a.stderr ++ ["memory exhausted"] }

/-! ### `yysetstate` -/

/-- The stacks, moved to a block for `yystacksize` entries with `ss` and `vs` in it. -/
def relocate (yystacksize : Nat) (ss vs : List Int) (a : Arrays) : Option Arrays :=
  let yysize := a.yyssp + 1
  -- both stacks lie in the block, one behind the other
  if yynewbytes yystacksize < yystacksize * sizeofState ∨
      YYSTACK_BYTES yystacksize < yynewbytes yystacksize + yystacksize * sizeofYYSTYPE then none
  else do
    let yyss ← YYCOPY ss a.yyss yysize
    let yyvs ← YYCOPY vs a.yyvs yysize
    let a' : Arrays := { a with
      yyss := yyss
      yyvs := yyvs
      yystacksize := yystacksize
      yyssp := yysize - 1
      yyvsp := yysize - 1
      onHeap := true
      allocated := a.allocated + 1 }
    if a.onHeap then free a' else some a'

/-- The size asked for when stacks of a size are full. -/
def grown (yystacksize : Nat) : Nat := if YYMAXDEPTH < yystacksize * 2 then YYMAXDEPTH else yystacksize * 2

/-- `malloc` gives what lies in the memory for stacks of a size, if there is any. -/
def grow (malloc : Nat → Option (List Int × List Int)) (a : Arrays) : Option (Arrays ⊕ Halt) :=
  if YYMAXDEPTH ≤ a.yystacksize then (yyexhaustedlab a).map .inr
  else
    let yystacksize := grown a.yystacksize
    match malloc yystacksize with
    | none => (yyexhaustedlab { a with yystacksize := yystacksize }).map .inr
    | some (ss, vs) => do
      let a ← relocate yystacksize ss vs a
      if yystacksize ≤ a.yyssp + 1 then (yyreturn 1 a).map .inr else some (.inl a)

def yysetstateOn (malloc : Nat → Option (List Int × List Int)) (a : Arrays) : Option (Arrays ⊕ Halt) := do
  let yyss ← store a.yyss a.yyssp a.yystate
  if a.yystacksize ≤ a.yyssp + 1 then grow malloc { a with yyss := yyss } else some (.inl { a with yyss := yyss })

/-! ### `yybackup` -/

/-- `yychar = YYLEX` -/
def Arrays.fetch (a : Arrays) : Arrays :=
  match a.yychar, a.toks with
  | some _, _ => a
  | none, [] => { a with yychar := some none }
  | none, t :: ts => { a with yychar := some (some t), toks := ts, yylval := t.yylval a.yylval }

def yytokenOn : Option Token → Option Nat
  | none => some 0
  | some t => if t.yychar ≤ YYMAXUTOK then at? yytranslateTable t.yychar else some YYUNDEFTOK

def yydefaultOn (yystate : Int) : Option Act := do
  let yyn ← at? yydefactTable yystate
  some (if yyn = 0 then .error else .reduce yyn)

/-- Behind the look-ahead token. -/
def yybackupOn (yystate yyn : Int) (yytoken : Nat) : Option Act := do
  let yyn := yyn + yytoken
  if yyn < 0 ∨ YYLAST < yyn then yydefaultOn yystate
  else
    let c ← at? yycheckTable yyn
    if c ≠ yytoken then yydefaultOn yystate
    else
      let yyn ← at? yytableTable yyn
      some (if yyn ≤ 0 then if yyn = 0 ∨ yyn = YYTABLE_NINF then .error else .reduce (-yyn).toNat
        else if yyn = YYFINAL then .accept
        else .shift yyn.toNat)

/-- What to do, with the look-ahead token read if it is asked for. -/
def chooseOn (a : Arrays) : Option (Arrays × Act) := do
  let yyn ← at? yypactTable a.yystate
  if yyn = YYPACT_NINF then (yydefaultOn a.yystate).map fun act => (a, act)
  else
    let yytoken ← yytokenOn (a.fetch.yychar.getD none)
    (yybackupOn a.yystate yyn yytoken).map fun act => (a.fetch, act)

/-! ### `yyreduce` -/

/-- The `$k` that a rule's action reads. -/
def operands : Nat → List Nat
  | 4 | 7 => [1]
  | 5 | 8 | 9 | 10 | 11 => [1, 3]
  | 12 => [2]
  | _ => []

/-- `yyvsp[(k) - (yylen)]` -/
def Arrays.operand (a : Arrays) (yylen k : Nat) : Option Int := at? a.yyvs (a.yyvsp + k - yylen)

def gotoOn (yyn : Nat) (top : Int) : Option Int := do
  let yyn ← at? yyr1Table yyn
  let g ← at? yypgotoTable (yyn - YYNTOKENS : Int)
  let yystate := g + top
  if 0 ≤ yystate ∧ yystate ≤ YYLAST then
    let c ← at? yycheckTable yystate
    if c = top then at? yytableTable yystate else at? yydefgotoTable (yyn - YYNTOKENS : Int)
  else at? yydefgotoTable (yyn - YYNTOKENS : Int)

/-- `yyval` and the action's effects are there. -/
def pushValue (yyn yylen : Nat) (yyval : Int) (sym stdout : List Int) (a : Arrays) : Option Arrays :=
  if a.yyssp < yylen ∨ a.yyvsp < yylen then none
  else do
    let yyvs ← store a.yyvs (a.yyvsp - yylen + 1) yyval
    let top ← a.yyss[a.yyssp - yylen]?
    let yystate ← gotoOn yyn top
    some { a with
      yyvs := yyvs
      yyssp := a.yyssp - yylen + 1
      yyvsp := a.yyvsp - yylen + 1
      yystate := yystate
      sym := sym
      stdout := stdout }

def yyreduceOn (arith : Op → Int → Int → Option Int) (yyn : Nat) (a : Arrays) : Option (Arrays ⊕ Halt) := do
  let yylen ← at? yyr2Table yyn
  let yyval ← at? a.yyvs (a.yyvsp + 1 - yylen)
  if ∃ k ∈ operands yyn, a.operand yylen k = none then none
  else
    match switch arith yyn (fun k => (a.operand yylen k).getD 0) yyval a.sym a.stdout with
    | .error .trap => some (.inr (.trap a))
    | .error .outOfBounds => none
    | .ok (yyval, sym, stdout) => (pushValue yyn yylen yyval sym stdout a).map .inl

/-! ### Errors -/

/-- Where a state shifts the error token to: `none` is an access out of bounds. -/
def errorToOn (yystate : Int) : Option (Option Int) := do
  let yyn ← at? yypactTable yystate
  if yyn = YYPACT_NINF then some none
  else
    let yyn := yyn + YYTERROR
    if 0 ≤ yyn ∧ yyn ≤ YYLAST then
      let c ← at? yycheckTable yyn
      if c = YYTERROR then (at? yytableTable yyn).map fun yyn => if 0 < yyn then some yyn else none else some none
    else some none

/-- The loop of `yyerrlab1`, with `n` entries below the current one: the state the error token is
    shifted to, and what is left. -/
def popToErrorOn (yyss : List Int) : Nat → Int → Option (Option (Int × Nat))
  | 0, yystate => (errorToOn yystate).map fun target => target.map fun yyn => (yyn, 0)
  | n + 1, yystate => do
    match ← errorToOn yystate with
    | some yyn => some (some (yyn, n + 1))
    | none =>
      let _ ← at? yystosTable yystate
      let s ← yyss[n]?
      popToErrorOn yyss n s

def yyerrlab1On (a : Arrays) : Option (Arrays ⊕ Halt) := do
  match ← popToErrorOn a.yyss a.yyssp a.yystate with
  | none => (yyreturn 1 { a with yyerrstatus := 3, yyssp := 0, yyvsp := a.yyvsp - a.yyssp }).map .inr
  | some (yyn, n) =>
    let a := { a with yyerrstatus := 3, yyssp := n, yyvsp := a.yyvsp - (a.yyssp - n) }
    if yyn = YYFINAL then (yyreturn 0 a).map .inr
    else do
      let yyvs ← store a.yyvs (a.yyvsp + 1) a.yylval
      some (.inl { a with yyvs := yyvs, yyvsp := a.yyvsp + 1, yyssp := a.yyssp + 1, yystate := yyn })

def yyerrlabOn (a : Arrays) : Option (Arrays ⊕ Halt) :=
  let a := if a.yyerrstatus = 0 then { a with stderr := a.stderr ++ ["syntax error"] } else a
  if a.yyerrstatus = 3 then
    match a.yychar with
    | some none => (yyreturn 1 a).map .inr
    | some (some _) => yyerrlab1On { a with yychar := none }
    | none => yyerrlab1On a
  else yyerrlab1On a

/-! ### From `yysetstate` to `yynewstate` -/

def actOn (arith : Op → Int → Int → Option Int) (a : Arrays) : Act → Option (Arrays ⊕ Halt)
  | .accept => (yyreturn 0 a).map .inr
  | .error => yyerrlabOn a
  | .reduce rule => yyreduceOn arith rule a
  | .shift n => do
    let yyvs ← store a.yyvs (a.yyvsp + 1) a.yylval
    some (.inl { a with
      yyvs := yyvs
      yyssp := a.yyssp + 1
      yyvsp := a.yyvsp + 1
      yystate := n
      yychar := if a.yychar = some none then some none else none
      yyerrstatus := a.yyerrstatus - 1 })

def arraysTurn (malloc : Nat → Option (List Int × List Int)) (arith : Op → Int → Int → Option Int) (a : Arrays) :
    Option (Arrays ⊕ Halt) := do
  match ← yysetstateOn malloc a with
  | .inr h => some (.inr h)
  | .inl a => do
    let (a, act) ← chooseOn a
    actOn arith a act

def arraysStep (malloc : Nat → Option (List Int × List Int)) (arith : Op → Int → Int → Option Int) (a : Arrays) : Arrays ⊕ Halt :=
  (arraysTurn malloc arith a).getD (.inr .fault)

/-- In front of the first state; `yyssa` and `yyvsa` hold whatever was there. -/
def Arrays.start (yyssa yyvsa : List Int) (yylval : Int) (sym : List Int) (toks : List Token) : Arrays :=
  ⟨yyssa, yyvsa, YYINITDEPTH, 0, 0, false, 0, 0, none, yylval, 0, toks, sym, [], []⟩

/-! ## The tables -/

def YYNSTATES : Nat := 22

/-- A state that is entered: the parse is over before `YYFINAL` is. -/
def IsState (s : Nat) : Prop := s < YYNSTATES ∧ s ≠ 2

/-- The symbols of the rule that a state reduces by, if it does. -/
def seen : Nat → Nat
  | 3 | 4 | 7 | 9 => 1
  | 11 | 16 | 17 | 18 | 19 | 20 | 21 => 3
  | _ => 0

/-- What a state can do. Only the first one reduces by the empty rule. -/
def Act.Of (yystate : Nat) : Act → Prop
  | .shift n => n < YYNSTATES ∧ n ≠ 2
  | .reduce rule => 2 ≤ rule ∧ rule ≤ 12 ∧ (rule = 3 → yystate = 0) ∧ yyr2 rule ≤ seen yystate
  | _ => True

instance (yystate : Nat) (act : Act) : Decidable (act.Of yystate) := by
  cases act <;> unfold Act.Of <;> infer_instance

theorem yypact_at : ∀ s < YYNSTATES, at? yypactTable s = some (yypact s) := by decide

theorem yystos_at : ∀ s < YYNSTATES, at? yystosTable s = some (yystosTable.getD s 0) := by decide

theorem yydefaultOn_eq : ∀ s < YYNSTATES, s ≠ 2 → yydefaultOn s = some (yydefault s) ∧ (yydefault s).Of s := by decide

theorem yybackupOn_eq : ∀ s < YYNSTATES, ∀ t < YYNTOKENS, s ≠ 2 ∧ yypact s ≠ YYPACT_NINF →
    yybackupOn s (yypact s) t = some (yybackup s t) ∧ (yybackup s t).Of s := by decide

theorem errorToOn_eq : ∀ s < YYNSTATES, errorToOn s = some none := by decide

theorem gotoOn_eq : ∀ r ≤ 12, ∀ top < YYNSTATES, 2 ≤ r →
    gotoOn r top = some (goto r top : Int) ∧ goto r top < YYNSTATES ∧ goto r top ≠ 2 := by decide

theorem yyr2_at : ∀ r : Nat, r ≤ 12 → at? yyr2Table r = some (yyr2 r) ∧ (2 ≤ r → r ≠ 3 → 0 < yyr2 r) ∧
    ∀ k ∈ operands r, 1 ≤ k ∧ k ≤ yyr2 r := by decide

theorem yytranslate_at : ∀ n ∈ [258, 259, 43, 45, 42, 47, 61, 40, 41, 10],
    n ≤ YYMAXUTOK ∧ at? yytranslateTable n = some (yytranslate n) ∧ yytranslate n < YYNTOKENS := by decide +kernel

theorem yytokenOn_eq (t : Option Token) : yytokenOn t = some (yytoken t) ∧ yytoken t < YYNTOKENS := by
  cases t with
  | none => decide
  | some t =>
    have ht : t.yychar ∈ [258, 259, 43, 45, 42, 47, 61, 40, 41, 10] := by
      cases t with
      | op o => cases o <;> simp [Token.yychar]
      | _ => simp [Token.yychar]
    obtain ⟨hle, hat, hlt⟩ := yytranslate_at _ ht
    rw [yytokenOn, yytoken, YYTRANSLATE, if_pos hle, if_pos hle]
    exact ⟨hat, hlt⟩

/-! ## The stacks in the arrays -/

def Arrays.view (a : Arrays) : Yyparse :=
  ⟨a.yystate.toNat :: ((a.yyss.take a.yyssp).reverse.map Int.toNat), (a.yyvs.take (a.yyvsp + 1)).reverse, a.yychar, a.yylval,
    a.yyerrstatus, a.toks, a.sym, a.stdout, a.stderr⟩

def Arrays.effects (a : Arrays) : List Int × List Int × List String := (a.sym, a.stdout, a.stderr)

/-- The first entries of the stack are states. -/
def States (yyss : List Int) (n : Nat) : Prop := ∀ i < n, ∃ s, IsState s ∧ yyss[i]? = some (s : Int)

/-- The sizes the stacks can have. -/
inductive Size : Nat → Prop
  | init : Size YYINITDEPTH
  | next {n : Nat} : Size n → n < YYMAXDEPTH → Size (grown n)

theorem Size.bounds {n : Nat} (h : Size n) : 0 < n ∧ n ≤ YYMAXDEPTH := by
  induction h with
  | init => decide
  | next _ hlt ih =>
    unfold grown
    split <;> omega

theorem Size.lt_grown {n : Nat} (h : Size n) (hlt : n < YYMAXDEPTH) : n < grown n := by
  have hpos := h.bounds.1
  unfold grown
  split <;> omega

/-- In front of `yysetstate`. -/
structure Sound (a : Arrays) : Prop where
  yyss : a.yyss.length = a.yystacksize
  yyvs : a.yyvs.length = a.yystacksize
  level : a.yyvsp = a.yyssp
  below : a.yyssp < a.yystacksize
  size : Size a.yystacksize
  yystate : ∃ s, IsState s ∧ a.yystate = s
  states : States a.yyss a.yyssp
  block : a.allocated = if a.onHeap then 1 else 0

/-- Behind it: the state is on the stack, and there is room for one more. -/
structure Seated (a : Arrays) : Prop extends Sound a where
  top : a.yyss[a.yyssp]? = some a.yystate
  room : a.yyssp + 1 < a.yystacksize

section
variable {a : Arrays} {malloc : Nat → Option (List Int × List Int)}

theorem Seated.all (h : Seated a) : States a.yyss (a.yyssp + 1) := by
  intro i hi
  rcases Nat.lt_or_eq_of_le (Nat.le_of_lt_succ hi) with hlt | rfl
  · exact h.states i hlt
  · obtain ⟨s, hs, he⟩ := h.yystate
    exact ⟨s, hs, by rw [h.top, he]⟩

theorem popAll_spec {yyss : List Int} {n : Nat} (h : States yyss (n + 1)) : popAll yyss n = some () := by
  induction n with
  | zero => rfl
  | succ n ih =>
    obtain ⟨s, hs, hget⟩ := h (n + 1) (Nat.lt_succ_self _)
    rw [popAll, hget, Option.bind_eq_bind, Option.bind_some, yystos_at s hs.1, Option.bind_eq_bind, Option.bind_some]
    exact ih fun i hi => h i (Nat.lt_succ_of_lt hi)

/-- `yyparse` returns, and has freed its block. -/
theorem yyreturn_spec (hs : States a.yyss (a.yyssp + 1)) (hb : a.allocated = if a.onHeap then 1 else 0) (yyresult : Nat) :
    ∃ a', yyreturn yyresult a = some (.ret yyresult a') ∧ a'.allocated = 0 ∧ a'.effects = a.effects := by
  rw [yyreturn, popAll_spec hs, Option.bind_eq_bind, Option.bind_some]
  cases ho : a.onHeap with
  | true =>
    rw [ho, if_pos rfl] at hb
    rw [if_pos rfl, free, hb, if_neg (by decide)]
    exact ⟨_, rfl, rfl, rfl⟩
  | false =>
    rw [ho, if_neg (by decide)] at hb
    exact ⟨_, rfl, hb, rfl⟩

theorem States.of_eq {yyss yyss' : List Int} {n : Nat} (h : States yyss n) (he : yyss'.take n = yyss.take n) : States yyss' n := by
  intro i hi
  obtain ⟨s, hs, hget⟩ := h i hi
  refine ⟨s, hs, ?_⟩
  rw [← List.getElem?_take_of_lt hi, he, List.getElem?_take_of_lt hi, hget]

theorem YYCOPY_spec {To From : List Int} {n : Nat} (ht : n ≤ To.length) (hf : n ≤ From.length) :
    ∃ xs, YYCOPY To From n = some xs ∧ xs.length = To.length ∧ xs.take n = From.take n := by
  refine ⟨_, if_pos ⟨ht, hf⟩, ?_, ?_⟩
  · rw [List.length_append, List.length_take, List.length_drop, Nat.min_eq_left hf]
    omega
  · rw [List.take_left' (by rw [List.length_take, Nat.min_eq_left hf])]

theorem getElem?_of_take {α : Type} {xs ys : List α} {i n : Nat} (h : xs.take n = ys.take n) (hi : i < n) : xs[i]? = ys[i]? := by
  rw [← List.getElem?_take_of_lt hi, h, List.getElem?_take_of_lt hi]

/-- Arrays with the same stacks on them. -/
theorem view_of_take {yyss yyvs : List Int} {yystacksize allocated : Nat} {onHeap : Bool} (hs : yyss.take a.yyssp = a.yyss.take a.yyssp)
    (hv : yyvs.take (a.yyvsp + 1) = a.yyvs.take (a.yyvsp + 1)) :
    Arrays.view { a with yyss := yyss, yyvs := yyvs, yystacksize := yystacksize, onHeap := onHeap, allocated := allocated } =
      a.view := by
  unfold Arrays.view
  simp only [hs, hv]

/-- One block is left. -/
theorem free_old (h : Sound a) {a' : Arrays} (ha : a'.allocated = a.allocated + 1) :
    (if a.onHeap then free a' else some a') = some { a' with allocated := 1 } := by
  have hb := h.block
  cases ho : a.onHeap with
  | true =>
    rw [ho, if_pos rfl] at hb
    rw [if_pos rfl, free, ha, hb]
    rfl
  | false =>
    rw [ho, if_neg (by decide)] at hb
    have ha' : a'.allocated = 1 := by rw [ha, hb]
    rw [if_neg (by decide), ← ha']

/-- A larger block takes the place of the arrays. -/
theorem relocate_spec (h : Sound a) (htop : a.yyss[a.yyssp]? = some a.yystate) {n : Nat} {ss vs : List Int} (hss : ss.length = n)
    (hvs : vs.length = n) (hlt : a.yystacksize < n) (hn : Size n) :
    ∃ a', relocate n ss vs a = some a' ∧ Seated a' ∧ a'.view = a.view ∧ a'.yystacksize = n ∧ a'.yyssp = a.yyssp := by
  have hbelow := h.below
  obtain ⟨yyss, hcs, hlens, htake⟩ := @YYCOPY_spec ss a.yyss (a.yyssp + 1) (by omega) (by rw [h.yyss]; omega)
  obtain ⟨yyvs, hcv, hlenv, htakev⟩ := @YYCOPY_spec vs a.yyvs (a.yyssp + 1) (by omega) (by rw [h.yyvs]; omega)
  have hblock : ¬ (yynewbytes n < n * sizeofState ∨ YYSTACK_BYTES n < yynewbytes n + n * sizeofYYSTYPE) := by
    unfold yynewbytes YYSTACK_BYTES YYSTACK_GAP_MAXIMUM sizeofYyalloc sizeofState sizeofYYSTYPE
    omega
  have htake' : yyss.take a.yyssp = a.yyss.take a.yyssp := by
    have ht := congrArg (List.take a.yyssp) htake
    rwa [List.take_take, List.take_take, Nat.min_eq_left (Nat.le_succ _)] at ht
  refine ⟨{ a with yyss := yyss, yyvs := yyvs, yystacksize := n, yyvsp := a.yyssp, onHeap := true, allocated := 1 }, ?_,
    ⟨⟨hlens.trans hss, hlenv.trans hvs, rfl, Nat.lt_trans hbelow hlt, hn, h.yystate, h.states.of_eq htake', rfl⟩,
      ?_, ?_⟩, ?_, rfl, rfl⟩
  · rw [relocate, if_neg hblock, hcs, Option.bind_eq_bind, Option.bind_some, hcv, Option.bind_some]
    exact free_old h rfl
  · exact (getElem?_of_take htake (Nat.lt_succ_self _)).trans htop
  · show a.yyssp + 1 < n
    omega
  · unfold Arrays.view
    simp only [htake', htakev, h.level]

/-- What memory there is for stacks. -/
def Mallocs (malloc : Nat → Option (List Int × List Int)) : Prop :=
  ∀ n ss vs, malloc n = some (ss, vs) → ss.length = n ∧ vs.length = n

theorem yyexhaustedlab_spec (hs : States a.yyss (a.yyssp + 1)) (hb : a.allocated = if a.onHeap then 1 else 0) :
    ∃ a', yyexhaustedlab a = some (.ret 2 a') ∧ a'.allocated = 0 ∧
      a'.effects = (a.sym, a.stdout, a.stderr ++ ["memory exhausted"]) :=
  @yyreturn_spec { a with stderr := a.stderr ++ ["memory exhausted"] } hs hb 2

/-- Full stacks are not grown: they have all the entries they may have, or there is no memory for more. -/
def Refused (malloc : Nat → Option (List Int × List Int)) (yystacksize : Nat) : Prop :=
  yystacksize = YYMAXDEPTH ∨ yystacksize < YYMAXDEPTH ∧ malloc (grown yystacksize) = none

/-- `yysetstate`: there is room on the stack, or it is full and not grown. -/
theorem yysetstateOn_spec (hm : Mallocs malloc) (h : Sound a) :
    (∃ a', yysetstateOn malloc a = some (.inl a') ∧ Seated a' ∧ a'.view = a.view) ∨
      (a.yyssp + 1 = a.yystacksize ∧ Refused malloc a.yystacksize ∧
        ∃ a', yysetstateOn malloc a = some (.inr (.ret 2 a')) ∧ a'.allocated = 0 ∧
          a'.effects = (a.sym, a.stdout, a.stderr ++ ["memory exhausted"])) := by
  have hlt : a.yyssp < a.yyss.length := by rw [h.yyss]; exact h.below
  have htake : (a.yyss.set a.yyssp a.yystate).take a.yyssp = a.yyss.take a.yyssp := List.take_set_of_le (Nat.le_refl _)
  have hset : Sound { a with yyss := a.yyss.set a.yyssp a.yystate } :=
    ⟨List.length_set.trans h.yyss, h.yyvs, h.level, h.below, h.size, h.yystate, h.states.of_eq htake, h.block⟩
  have htop : (a.yyss.set a.yyssp a.yystate)[a.yyssp]? = some a.yystate := List.getElem?_set_self hlt
  have hview : Arrays.view { a with yyss := a.yyss.set a.yyssp a.yystate } = a.view := view_of_take htake rfl
  have hall : States (a.yyss.set a.yyssp a.yystate) (a.yyssp + 1) := by
    intro i hi
    rcases Nat.lt_or_eq_of_le (Nat.le_of_lt_succ hi) with hlt | rfl
    · exact hset.states i hlt
    · obtain ⟨s, hs, he⟩ := h.yystate
      exact ⟨s, hs, by rw [htop, he]⟩
  rw [yysetstateOn, store_of_lt hlt, Option.bind_eq_bind, Option.bind_some]
  by_cases hfull : a.yystacksize ≤ a.yyssp + 1
  · have hlast : a.yyssp + 1 = a.yystacksize := Nat.le_antisymm h.below hfull
    rw [if_pos hfull, grow]
    by_cases hmax : YYMAXDEPTH ≤ a.yystacksize
    · obtain ⟨a', h1, h2, h3⟩ := @yyexhaustedlab_spec { a with yyss := a.yyss.set a.yyssp a.yystate } hall h.block
      rw [if_pos hmax, h1]
      exact Or.inr ⟨hlast, Or.inl (Nat.le_antisymm h.size.bounds.2 hmax), a', rfl, h2, h3⟩
    · rw [if_neg hmax]
      have hlt : a.yystacksize < YYMAXDEPTH := Nat.lt_of_not_le hmax
      cases hmem : malloc (grown a.yystacksize) with
      | none =>
        obtain ⟨a', h1, h2, h3⟩ := @yyexhaustedlab_spec
          { a with yyss := a.yyss.set a.yyssp a.yystate, yystacksize := grown a.yystacksize } hall h.block
        refine Or.inr ⟨hlast, Or.inr ⟨hlt, hmem⟩, a', ?_, h2, h3⟩
        simp only [hmem, h1]
        rfl
      | some mem =>
        obtain ⟨ss, vs⟩ := mem
        obtain ⟨hss, hvs⟩ := hm _ ss vs hmem
        obtain ⟨a', h1, h2, h3, h4, h5⟩ := relocate_spec hset htop hss hvs (h.size.lt_grown hlt) (.next h.size hlt)
        refine Or.inl ⟨a', ?_, h2, h3.trans hview⟩
        have hroom : ¬ grown a.yystacksize ≤ a'.yyssp + 1 := by
          rw [← h4]
          exact Nat.not_le.mpr h2.room
        simp only [hmem, h1, Option.bind_eq_bind, Option.bind_some, if_neg hroom]
  · rw [if_neg hfull]
    exact Or.inl ⟨_, rfl, ⟨hset, htop, Nat.lt_of_not_le hfull⟩, hview⟩

/-! ## Steps -/

variable {arith : Op → Int → Int → Option Int}

theorem view_fetch (a : Arrays) : a.fetch.view = Calc.fetch a.view := by
  obtain ⟨_, _, _, _, _, _, _, _, yychar, _, _, toks, _, _, _⟩ := a
  cases yychar with
  | some t => rfl
  | none => cases toks <;> rfl

theorem Seated.fetch (h : Seated a) : Seated a.fetch ∧ a.fetch.yystate = a.yystate ∧ a.fetch.yyerrstatus = a.yyerrstatus ∧
    a.fetch.yyssp = a.yyssp := by
  unfold Arrays.fetch
  split
  · exact ⟨h, rfl, rfl, rfl⟩
  · exact ⟨⟨⟨h.yyss, h.yyvs, h.level, h.below, h.size, h.yystate, h.states, h.block⟩, h.top, h.room⟩, rfl, rfl, rfl⟩
  · exact ⟨⟨⟨h.yyss, h.yyvs, h.level, h.below, h.size, h.yystate, h.states, h.block⟩, h.top, h.room⟩, rfl, rfl, rfl⟩

/-- The tables say what the model's do. -/
theorem chooseOn_spec (h : Seated a) (arith : Op → Int → Int → Option Int) :
    ∃ a' yyact, ∃ s : Nat,
      chooseOn a = some (a', yyact) ∧ Seated a' ∧ a'.yyerrstatus = a.yyerrstatus ∧ a'.yyssp = a.yyssp ∧ a.yystate = s ∧
      yyact.Of s ∧ step none arith a.view = act arith a'.view yyact := by
  obtain ⟨s, ⟨hlt, hne⟩, hs⟩ := h.yystate
  have hstep : step none arith a.view = if yypact s = YYPACT_NINF then act arith a.view (yydefault s)
      else act arith (Calc.fetch a.view) (yybackup s (yytoken (look (Calc.fetch a.view)))) := by
    unfold step
    simp only [Arrays.view, hs, Int.toNat_natCast, if_neg (not_exhausted _)]
  by_cases hn : yypact s = YYPACT_NINF
  · obtain ⟨hd, hof⟩ := yydefaultOn_eq s hlt hne
    refine ⟨a, yydefault s, s, ?_, h, rfl, rfl, hs, hof, hstep.trans (if_pos hn)⟩
    rw [chooseOn, hs, yypact_at s hlt, Option.bind_eq_bind, Option.bind_some, if_pos hn, hd]
    rfl
  · obtain ⟨hf, hst, herr, hssp⟩ := h.fetch
    obtain ⟨ht, htlt⟩ := yytokenOn_eq (a.fetch.yychar.getD none)
    obtain ⟨hb, hof⟩ := yybackupOn_eq s hlt _ htlt ⟨hne, hn⟩
    refine ⟨a.fetch, _, s, ?_, hf, herr, hssp, hs, hof, ?_⟩
    · rw [chooseOn, hs, yypact_at s hlt, Option.bind_eq_bind, Option.bind_some, if_neg hn, ht, Option.bind_eq_bind,
        Option.bind_some, hb]
      rfl
    · rw [hstep, if_neg hn, ← view_fetch]
      rfl

/-- The last entries of an array's first ones are the first ones of a stack. -/
theorem drop_taken {α : Type} (xs : List α) {n : Nat} (hn : n ≤ xs.length) (k : Nat) :
    ((xs.take n).reverse).drop k = (xs.take (n - k)).reverse := by
  rw [List.drop_reverse, List.length_take, Nat.min_eq_left hn, List.take_take, Nat.min_eq_left (Nat.sub_le _ _)]

theorem taken_succ {α : Type} {xs : List α} {n : Nat} {x : α} (h : xs[n]? = some x) :
    (xs.take (n + 1)).reverse = x :: (xs.take n).reverse := by
  rw [List.take_add_one, h, List.reverse_append]
  rfl

theorem Seated.view_yyss (h : Seated a) : a.view.yyss = ((a.yyss.take (a.yyssp + 1)).reverse).map Int.toNat := by
  rw [taken_succ h.top]
  rfl

theorem Seated.operand (h : Seated a) {yylen k : Nat} (hk : k ≤ yylen) (hl : yylen ≤ a.yyssp + k) :
    a.operand yylen k = some (a.view.yyvs.getD (yylen - k) 0) := by
  have hbelow := h.below
  have hv := h.yyvs
  have hlevel := h.level
  have hi : ((a.yyvsp : Int) + k - yylen).toNat = a.yyvsp - (yylen - k) := by omega
  have hlt : a.yyvsp - (yylen - k) < a.yyvs.length := by omega
  have hget : ((a.yyvs.take (a.yyvsp + 1)).reverse)[yylen - k]? = some a.yyvs[a.yyvsp - (yylen - k)] := by
    rw [List.getElem?_reverse (by rw [List.length_take]; omega), List.length_take, Nat.min_eq_left (by omega),
      List.getElem?_take_of_lt (by omega), show a.yyvsp + 1 - 1 - (yylen - k) = a.yyvsp - (yylen - k) by omega,
      List.getElem?_eq_getElem hlt]
  rw [Arrays.operand, at?, if_pos (by omega), hi, List.getElem?_eq_getElem hlt]
  show _ = some (((a.yyvs.take (a.yyvsp + 1)).reverse).getD (yylen - k) 0)
  rw [List.getD_eq_getElem?_getD, hget]
  rfl

/-- An action reads its operands only. -/
theorem switch_congr {rule : Nat} {d d' : Nat → Int} (h : ∀ k ∈ operands rule, d k = d' k) (yyval : Int) (sym stdout : List Int) :
    switch arith rule d yyval sym stdout = switch arith rule d' yyval sym stdout := by
  unfold switch
  unfold operands at h
  split <;> simp_all

/-- What is on top goes on top. -/
theorem taken_set {xs : List Int} {n : Nat} (hn : n < xs.length) (v : Int) :
    ((xs.set n v).take (n + 1)).reverse = v :: (xs.take n).reverse := by
  rw [taken_succ (List.getElem?_set_self hn), List.take_set_of_le (Nat.le_refl n)]

/-- What the arrays do where the stacks do something. -/
inductive Matches : Yyparse ⊕ Result → Arrays ⊕ Halt → Prop
  | goes {a : Arrays} : Sound a → Matches (.inl a.view) (.inl a)
  | ret {yyresult : Nat} {p : Yyparse} {a : Arrays} : a.allocated = 0 → a.effects = (p.sym, p.stdout, p.stderr) →
      Matches (.inr (.ret yyresult p)) (.inr (.ret yyresult a))
  | trap {p : Yyparse} {a : Arrays} : a.effects = (p.sym, p.stdout, p.stderr) → Matches (.inr (.trap p)) (.inr (.trap a))

theorem pushValue_spec (h : Seated a) {rule : Nat} (h2 : 2 ≤ rule) (h12 : rule ≤ 12) {yylen : Nat} (hle : yylen ≤ a.yyssp)
    (yyval : Int) (sym stdout : List Int) :
    ∃ a' top ss, pushValue rule yylen yyval sym stdout a = some a' ∧ Sound a' ∧ a.view.yyss.drop yylen = top :: ss ∧
      a'.view = { a.view with
        yyss := goto rule top :: top :: ss
        yyvs := yyval :: a.view.yyvs.drop yylen
        sym := sym
        stdout := stdout } := by
  have hbelow := h.below
  have hs := h.yyss
  have hv := h.yyvs
  have hlevel := h.level
  have hroom := h.room
  obtain ⟨top, ⟨hlt, hne⟩, hget⟩ := h.all (a.yyssp - yylen) (by omega)
  have hrest : (a.yyss.take (a.yyssp - yylen + 1)).reverse.map Int.toNat =
      top :: ((a.yyss.take (a.yyssp - yylen)).reverse).map Int.toNat := by
    rw [taken_succ hget]
    rfl
  have hdrop : a.view.yyss.drop yylen = top :: ((a.yyss.take (a.yyssp - yylen)).reverse).map Int.toNat := by
    rw [h.view_yyss, ← List.map_drop, drop_taken _ (by omega), show a.yyssp + 1 - yylen = a.yyssp - yylen + 1 by omega, hrest]
  obtain ⟨hgoto, hglt, hgne⟩ := gotoOn_eq rule h12 top hlt h2
  have hpush : pushValue rule yylen yyval sym stdout a = some { a with
      yyvs := a.yyvs.set (a.yyvsp - yylen + 1) yyval
      yyssp := a.yyssp - yylen + 1
      yyvsp := a.yyvsp - yylen + 1
      yystate := goto rule top
      sym := sym
      stdout := stdout } := by
    rw [pushValue, if_neg (by omega), store_of_lt (by omega), Option.bind_eq_bind, Option.bind_some, hget, Option.bind_eq_bind,
      Option.bind_some, hgoto]
    rfl
  refine ⟨_, top, _, hpush, ⟨hs, List.length_set.trans hv, ?_, ?_, h.size, ⟨_, ⟨hglt, hgne⟩, rfl⟩, ?_, h.block⟩, hdrop, ?_⟩
  · show a.yyvsp - yylen + 1 = a.yyssp - yylen + 1
    rw [hlevel]
  · show a.yyssp - yylen + 1 < a.yystacksize
    omega
  · intro i hi
    exact h.all i (Nat.lt_of_lt_of_le hi (show a.yyssp - yylen + 1 ≤ a.yyssp + 1 by omega))
  · have hvs : ((a.yyvs.set (a.yyvsp - yylen + 1) yyval).take (a.yyvsp - yylen + 1 + 1)).reverse =
        yyval :: ((a.yyvs.take (a.yyvsp + 1)).reverse).drop yylen := by
      rw [taken_set (by omega), drop_taken _ (by omega), show a.yyvsp + 1 - yylen = a.yyvsp - yylen + 1 by omega]
    unfold Arrays.view
    simp only [hrest, hvs, Int.toNat_natCast]

/-- A reduction by a rule with symbols. -/
theorem yyreduceOn_spec (h : Seated a) {rule : Nat} (h2 : 2 ≤ rule) (h12 : rule ≤ 12) (h3 : rule ≠ 3) (hle : yyr2 rule ≤ a.yyssp)
    (hin : ∀ p, yyreduce arith rule a.view ≠ .inr (.outOfBounds p)) :
    ∃ x, yyreduceOn arith rule a = some x ∧ Matches (yyreduce arith rule a.view) x := by
  obtain ⟨hlen, hpos, hops⟩ := yyr2_at rule h12
  have hpos := hpos h2 h3
  have hyyval : at? a.yyvs (a.yyvsp + 1 - yyr2 rule) = some (a.view.yyvs.getD (yyr2 rule - 1) 0) :=
    h.operand hpos (by omega)
  have hall : ¬ ∃ k ∈ operands rule, a.operand (yyr2 rule) k = none := by
    rintro ⟨k, hk, hnone⟩
    rw [h.operand (hops k hk).2 (by omega)] at hnone
    cases hnone
  have hsw : switch arith rule (fun k => (a.operand (yyr2 rule) k).getD 0) (a.view.yyvs.getD (yyr2 rule - 1) 0) a.sym a.stdout =
      switch arith rule (fun k => a.view.yyvs.getD (yyr2 rule - k) 0) (a.view.yyvs.getD (yyr2 rule - 1) 0) a.view.sym
        a.view.stdout := by
    apply switch_congr
    intro k hk
    rw [h.operand (hops k hk).2 (by omega)]
    rfl
  rw [yyreduceOn, hlen, Option.bind_eq_bind, Option.bind_some, hyyval, Option.bind_eq_bind, Option.bind_some, if_neg hall, hsw]
  cases hres : switch arith rule (fun k => a.view.yyvs.getD (yyr2 rule - k) 0) (a.view.yyvs.getD (yyr2 rule - 1) 0) a.view.sym
      a.view.stdout with
  | error stop =>
    cases stop with
    | trap =>
      have hred : yyreduce arith rule a.view = .inr (.trap a.view) := by
        unfold yyreduce
        simp only [hres]
      rw [hred]
      exact ⟨_, rfl, .trap rfl⟩
    | outOfBounds =>
      have hred : yyreduce arith rule a.view = .inr (.outOfBounds a.view) := by
        unfold yyreduce
        simp only [hres]
      exact absurd hred (hin a.view)
  | ok res =>
    obtain ⟨yyval, sym, stdout⟩ := res
    obtain ⟨a', top, ss, hpush, hsound, hdrop, hview⟩ := pushValue_spec h h2 h12 hle yyval sym stdout
    have hred : yyreduce arith rule a.view = .inl a'.view := by
      unfold yyreduce
      simp only [hres, hdrop, hview]
    rw [hred]
    exact ⟨.inl a', by simp only [hpush]; rfl, .goes hsound⟩

/-- No state takes the error token: all are popped. -/
theorem popToErrorOn_spec {yyss : List Int} {n s : Nat} (hs : IsState s) (h : States yyss n) : popToErrorOn yyss n s = some none := by
  induction n generalizing s with
  | zero =>
    rw [popToErrorOn, errorToOn_eq s hs.1]
    rfl
  | succ n ih =>
    obtain ⟨s', hs', hget⟩ := h n (Nat.lt_succ_self n)
    rw [popToErrorOn, errorToOn_eq s hs.1, Option.bind_eq_bind, Option.bind_some]
    simp only [yystos_at s hs.1, hget, Option.bind_eq_bind, Option.bind_some]
    exact ih hs' fun i hi => h i (Nat.lt_succ_of_lt hi)

theorem yyerrlabOn_spec (h : Seated a) (h0 : a.yyerrstatus = 0) :
    ∃ x, yyerrlabOn a = some x ∧ Matches (yyerrlab a.view) x := by
  have hlist : yyerrlab a.view = .inr (.ret 1 { a.view with stderr := a.stderr ++ ["syntax error"] }) := by
    have h0' : a.view.yyerrstatus = 0 := h0
    have h3 : ¬ a.view.yyerrstatus = 3 := by rw [h0']; decide
    rw [yyerrlab, if_pos h0', if_neg h3, yyerrlab1, popToError_none]
    rfl
  obtain ⟨s, hs, he⟩ := h.yystate
  have hone : States a.yyss (0 + 1) := fun i hi => h.all i (by omega)
  obtain ⟨a', hret, hfree, heff⟩ := @yyreturn_spec { a with
      yyerrstatus := 3
      yyssp := 0
      yyvsp := a.yyvsp - a.yyssp
      stderr := a.stderr ++ ["syntax error"] } hone h.block 1
  refine ⟨.inr (.ret 1 a'), ?_, ?_⟩
  · rw [yyerrlabOn, if_pos h0]
    simp only [h0]
    have hpop : popToErrorOn a.yyss a.yyssp a.yystate = some none := by rw [he, popToErrorOn_spec hs h.states]
    rw [if_neg (by decide), yyerrlab1On]
    simp only [hpop, Option.bind_eq_bind, Option.bind_some, hret]
    rfl
  · rw [hlist]
    exact .ret hfree heff

/-- What an action does to the stacks, it does to the arrays. -/
theorem actOn_spec (h : Seated a) (h0 : a.yyerrstatus = 0) {s : Nat} {yyact : Act} (hof : yyact.Of s) (hs0 : s ≠ 0)
    (hseen : seen s ≤ a.yyssp) (hin : ∀ p, act arith a.view yyact ≠ .inr (.outOfBounds p)) :
    ∃ x, actOn arith a yyact = some x ∧ Matches (act arith a.view yyact) x := by
  cases yyact with
  | accept =>
    obtain ⟨a', hret, hfree, heff⟩ := yyreturn_spec h.all h.block 0
    exact ⟨.inr (.ret 0 a'), by rw [actOn, hret]; rfl, .ret hfree heff⟩
  | error => exact yyerrlabOn_spec h h0
  | reduce rule =>
    obtain ⟨h2, h12, h3, hlen⟩ := hof
    exact yyreduceOn_spec h h2 h12 (fun he => hs0 (h3 he)) (Nat.le_trans hlen hseen) hin
  | shift n =>
    obtain ⟨hlt, hne⟩ := hof
    have hroom := h.room
    have hv := h.yyvs
    have hlevel := h.level
    have hvlt : a.yyvsp + 1 < a.yyvs.length := by omega
    have hview : act arith a.view (.shift n) = .inl (Arrays.view { a with
        yyvs := a.yyvs.set (a.yyvsp + 1) a.yylval
        yyssp := a.yyssp + 1
        yyvsp := a.yyvsp + 1
        yystate := n
        yychar := if a.yychar = some none then some none else none
        yyerrstatus := a.yyerrstatus - 1 }) := by
      rw [act, h.view_yyss]
      unfold Arrays.view
      simp only [taken_set hvlt, Int.toNat_natCast]
    refine ⟨_, by rw [actOn, store_of_lt hvlt]; rfl, ?_⟩
    rw [hview]
    refine .goes ⟨h.yyss, List.length_set.trans hv, ?_, ?_, h.size, ⟨n, ⟨hlt, hne⟩, rfl⟩, h.all, h.block⟩
    · show a.yyvsp + 1 = a.yyssp + 1
      rw [hlevel]
    · exact hroom

end

/-! ## Runs -/

section
variable {arith : Op → Int → Int → Option Int} {k : Cfg} {p : Yyparse}

/-- A reduction has its symbols on the stack. -/
theorem upTo_seen (h : UpTo k p) : ∃ s ss, p.yyss = s :: ss ∧ s ≠ 0 ∧ seen s ≤ ss.length := by
  have hentry : ∀ c : Ctx, c.entry ≠ 0 ∧ seen c.entry = 0 := by
    intro c
    cases c with
    | binary o _ _ => cases o <;> exact ⟨by simp [Ctx.entry], rfl⟩
    | _ => exact ⟨by simp [Ctx.entry], rfl⟩
  rcases h with h | h
  · cases k with
    | want c rest m =>
      obtain ⟨vs, -, h⟩ := h
      refine ⟨_, _, h.yyss, (hentry c).1, ?_⟩
      rw [(hentry c).2]
      exact Nat.zero_le _
    | after c v rest m =>
      obtain ⟨vs, -, h⟩ := h
      refine ⟨_, _, h.yyss, ?_⟩
      cases c with
      | binary o c a => cases o <;> simp [Ctx.hold, Ctx.under, Op.index, seen]
      | _ => simp [Ctx.hold, Ctx.under, seen]
    | done rest m =>
      obtain ⟨v, a, b, h⟩ := h
      exact ⟨_, _, h.yyss, by decide, by decide⟩
  · cases h with
    | integer _ h => exact ⟨_, _, h.yyss, by decide, by simp [seen]⟩
    | @var c vs x rest m q _ _ h =>
      refine ⟨_, _, h.yyss, ?_⟩
      split <;> simp [seen]
    | assign _ h => exact ⟨_, _, h.yyss, by decide, by decide⟩
    | rpar _ h => exact ⟨_, _, h.yyss, by decide, by simp [seen, Ctx.under]⟩
    | newline h => exact ⟨_, _, h.yyss, by decide, by decide⟩

/-- It goes on as the machine does, or returns for its outcome. -/
theorem upTo_steps (h : UpTo k p) :
    (∃ k' q, step none arith p = .inl q ∧ Goes (fstep arith) k k' ∧ UpTo k' q) ∨
      ∃ o r, step none arith p = .inr r ∧ fstep arith k = .inr o ∧ Returns o r := by
  cases hst : step none arith p with
  | inl q =>
    obtain ⟨k', hg, hu⟩ := upTo_step h hst
    exact Or.inl ⟨k', q, rfl, hg, hu⟩
  | inr r =>
    rcases h with h | h
    · cases follows_advances arith h (not_exhausted _) with
      | moves _ hst' _ =>
        rw [hst] at hst'
        cases hst'
      | shifts hst' _ =>
        rw [hst] at hst'
        cases hst'
      | halts hk hst' hr =>
        rw [hst] at hst'
        cases hst'
        exact Or.inr ⟨_, _, rfl, hk, hr⟩
    · obtain ⟨k', q', -, hst', -⟩ := shifted_moves arith h (not_exhausted _)
      rw [hst] at hst'
      cases hst'

def Cfg.mem : Cfg → Mem
  | .want _ _ m | .after _ _ _ m | .done _ m => m

/-- No error so far, and the machine's variables and output. -/
theorem upTo_mem (h : UpTo k p) : p.yyerrstatus = 0 ∧ p.stderr = [] ∧ p.sym = List.ofFn k.mem.sym ∧ p.stdout = k.mem.stdout := by
  rcases h with h | h
  · cases k with
    | want c rest m =>
      obtain ⟨vs, -, h⟩ := h
      exact ⟨h.yyerrstatus, h.stderr, h.sym, h.stdout⟩
    | after c v rest m =>
      obtain ⟨vs, -, h⟩ := h
      exact ⟨h.yyerrstatus, h.stderr, h.sym, h.stdout⟩
    | done rest m =>
      obtain ⟨v, a, b, h⟩ := h
      exact ⟨h.yyerrstatus, h.stderr, h.sym, h.stdout⟩
  · cases h with
    | integer _ h => exact ⟨h.yyerrstatus, h.stderr, h.sym, h.stdout⟩
    | var _ _ h => exact ⟨h.yyerrstatus, h.stderr, h.sym, h.stdout⟩
    | assign _ h => exact ⟨h.yyerrstatus, h.stderr, h.sym, h.stdout⟩
    | rpar _ h => exact ⟨h.yyerrstatus, h.stderr, h.sym, h.stdout⟩
    | newline h => exact ⟨h.yyerrstatus, h.stderr, h.sym, h.stdout⟩

variable {malloc : Nat → Option (List Int × List Int)} {a : Arrays}

/-- A step of the arrays: what the stacks do, or out of memory. -/
theorem arrays_step (hm : Mallocs malloc) (h : Sound a) (hu : UpTo k a.view) :
    Matches (step none arith a.view) (arraysStep malloc arith a) ∨
      (a.yyssp + 1 = a.yystacksize ∧ Refused malloc a.yystacksize ∧
        ∃ a', arraysStep malloc arith a = .inr (.ret 2 a') ∧ a'.allocated = 0 ∧
          a'.effects = (a.sym, a.stdout, a.stderr ++ ["memory exhausted"])) := by
  rcases yysetstateOn_spec hm h with ⟨a1, hset, h1, hview⟩ | ⟨hlast, hno, a', hset, hfree, heff⟩
  · rw [← hview] at hu ⊢
    obtain ⟨a2, yyact, s, hchoose, h2, herr, hssp, hs, hof, hstep⟩ := chooseOn_spec h1 arith
    obtain ⟨s', ss, hss, hne, hseen⟩ := upTo_seen hu
    obtain ⟨h0, -⟩ := upTo_mem hu
    have hhead : s = s' ∧ ss.length = a2.yyssp := by
      obtain ⟨hs', hss'⟩ := List.cons.inj hss
      have hlt := h1.below
      refine ⟨by rw [← hs', hs, Int.toNat_natCast], ?_⟩
      rw [← hss', List.length_map, List.length_reverse, List.length_take, Nat.min_eq_left (by rw [h1.yyss]; omega), hssp]
    have hin : ∀ p, act arith a2.view yyact ≠ .inr (.outOfBounds p) := by
      intro p hp
      rw [← hstep] at hp
      rcases @upTo_steps arith k a1.view hu with ⟨k', q, hq, -⟩ | ⟨o, r, hr, -, hret⟩
      · rw [hp] at hq
        cases hq
      · rw [hp] at hr
        cases hr
        cases hret
    obtain ⟨x, hact, hmatch⟩ := actOn_spec h2 (herr.trans h0) hof (hhead.1 ▸ hne) (by rw [← hhead.2, hhead.1]; exact hseen) hin
    refine Or.inl ?_
    rw [arraysStep, arraysTurn, hset, Option.bind_eq_bind, Option.bind_some]
    simp only [hchoose, Option.bind_eq_bind, Option.bind_some, hact, Option.getD_some]
    rw [hstep]
    exact hmatch
  · refine Or.inr ⟨hlast, hno, a', ?_, hfree, heff⟩
    rw [arraysStep, arraysTurn, hset]
    rfl

/-- What `yyparse` does for an outcome; no block is left when it returns. -/
inductive Answers : Outcome → Halt → Prop
  | accept {m : Mem} {a : Arrays} : a.allocated = 0 → a.effects = (List.ofFn m.sym, m.stdout, []) → Answers (.accept m) (.ret 0 a)
  | error {rest : List Token} {m : Mem} {a : Arrays} : a.allocated = 0 →
      a.effects = (List.ofFn m.sym, m.stdout, ["syntax error"]) → Answers (.error rest m) (.ret 1 a)
  | trap {m : Mem} {a : Arrays} : a.sym = List.ofFn m.sym → a.stdout = m.stdout → Answers (.trap m) (.trap a)

/-- Out of memory, where the machine has got to `k`: `yystate` goes to the last entry of the stack, and the stack
    is not grown. -/
structure Spent (malloc : Nat → Option (List Int × List Int)) (k : Cfg) (a : Arrays) (x : Halt) : Prop where
  sound : Sound a
  upTo : UpTo k a.view
  full : a.yyssp + 1 = a.yystacksize
  refused : Refused malloc a.yystacksize
  ends : ∃ a', x = .ret 2 a' ∧ a'.allocated = 0 ∧ a'.effects = (List.ofFn k.mem.sym, k.mem.stdout, ["memory exhausted"])

theorem matches_answers {o : Outcome} {r : Result} {x : Arrays ⊕ Halt} (h : Returns o r) (hx : Matches (.inr r) x) :
    ∃ y, x = .inr y ∧ Answers o y := by
  cases h with
  | accept hsym hout herr =>
    cases hx with
    | ret hfree heff => exact ⟨_, rfl, .accept hfree (by rw [heff, hsym, hout, herr])⟩
  | error hsym hout herr _ _ =>
    cases hx with
    | ret hfree heff => exact ⟨_, rfl, .error hfree (by rw [heff, hsym, hout, herr])⟩
  | trap hsym hout =>
    cases hx with
    | trap heff =>
      obtain ⟨h1, h2⟩ := Prod.mk.inj heff
      exact ⟨_, rfl, .trap (h1.trans hsym) ((Prod.mk.inj h2).1.trans hout)⟩

/-- One step, on the way of the machine. -/
theorem arrays_cases (hm : Mallocs malloc) (h : Sound a) (hu : UpTo k a.view) :
    (∃ a' k', arraysStep malloc arith a = .inl a' ∧ step none arith a.view = .inl a'.view ∧ Sound a' ∧ Goes (fstep arith) k k' ∧
        UpTo k' a'.view) ∨
      (∃ x o, arraysStep malloc arith a = .inr x ∧ fstep arith k = .inr o ∧ Answers o x) ∨
      ∃ x, arraysStep malloc arith a = .inr x ∧ Spent malloc k a x := by
  rcases @arrays_step arith k malloc a hm h hu with hmatch | ⟨hlast, hno, a', hst, hfree, heff⟩
  · rcases @upTo_steps arith k a.view hu with ⟨k', q, hq, hg, hu'⟩ | ⟨o, r, hr, hk, hret⟩
    · rw [hq] at hmatch
      generalize hx : arraysStep malloc arith a = x at hmatch
      cases hmatch with
      | @goes a' hs => exact Or.inl ⟨a', k', rfl, hq, hs, hg, hu'⟩
    · rw [hr] at hmatch
      obtain ⟨y, hy, hans⟩ := matches_answers hret hmatch
      exact Or.inr (Or.inl ⟨y, o, hy, hk, hans⟩)
  · obtain ⟨-, herr, hsym, hout⟩ := upTo_mem hu
    have hsym' : a.sym = List.ofFn k.mem.sym := hsym
    have hout' : a.stdout = k.mem.stdout := hout
    have herr' : a.stderr = [] := herr
    refine Or.inr (Or.inr ⟨_, hst, h, hu, hlast, hno, a', rfl, hfree, ?_⟩)
    rw [heff, hsym', hout', herr']
    rfl

/-- The arrays' run to where the memory is exhausted, beside the machine's. -/
def RunsOut (malloc : Nat → Option (List Int × List Int)) (arith : Op → Int → Int → Option Int) (k : Cfg)
    (a : Arrays) (x : Halt) : Prop :=
  ∃ k' b, Goes (fstep arith) k k' ∧ Goes (arraysStep malloc arith) a b ∧
    arraysStep malloc arith b = .inr x ∧ Spent malloc k' b x

theorem arrays_run (hm : Mallocs malloc) {r : Result} (h : Sound a) (hu : UpTo k a.view) (he : Ends (step none arith) a.view r) :
    ∃ x, Ends (arraysStep malloc arith) a x ∧
      ((∃ o, Ends (fstep arith) k o ∧ Answers o x) ∨ RunsOut malloc arith k a x) := by
  obtain ⟨p', hg, hend⟩ := he
  generalize hv : a.view = p at hg
  induction hg using Relation.ReflTransGen.head_induction_on generalizing a k with
  | refl =>
    subst hv
    rcases @arrays_cases arith k malloc a hm h hu with ⟨a', k', -, hst, -⟩ | ⟨x, o, hst, hk, hans⟩ | ⟨x, hst, hsp⟩
    · rw [hend] at hst
      cases hst
    · exact ⟨x, ends_of_step hst, Or.inl ⟨o, ends_of_step hk, hans⟩⟩
    · exact ⟨x, ends_of_step hst, Or.inr ⟨k, a, .refl k, .refl a, hst, hsp⟩⟩
  | @head p p1 h1 _ ih =>
    subst hv
    rcases @arrays_cases arith k malloc a hm h hu with ⟨a', k', hst, hlist, hs, hgo, hu'⟩ | ⟨x, o, hst, hk, hans⟩ | ⟨x, hst, hsp⟩
    · rw [h1] at hlist
      cases hlist
      obtain ⟨x, hx, ⟨o, ho, hans⟩ | ⟨k'', b, hgo', hga, hend', hsp⟩⟩ := ih hs hu' rfl
      · exact ⟨x, hx.next hst, Or.inl ⟨o, (hgo.ends_iff o).mpr ho, hans⟩⟩
      · exact ⟨x, hx.next hst, Or.inr ⟨k'', b, hgo.trans hgo', hga.head hst, hend', hsp⟩⟩
    · exact ⟨x, ends_of_step hst, Or.inl ⟨o, ends_of_step hk, hans⟩⟩
    · exact ⟨x, ends_of_step hst, Or.inr ⟨k, a, .refl k, .refl a, hst, hsp⟩⟩

/-- The empty program in front, with whatever is above the stack for its value. -/
theorem arrays_first {yyssa yyvsa : List Int} (hss : yyssa.length = YYINITDEPTH) (hvs : yyvsa.length = YYINITDEPTH) (yylval : Int)
    (sym : Fin 26 → Int) (toks : List Token) :
    ∃ a, arraysStep malloc arith (.start yyssa yyvsa yylval (List.ofFn sym) toks) = .inl a ∧ Sound a ∧
      Follows (.want .stmt toks ⟨sym, []⟩) a.view := by
  have hpos : 0 < yyssa.length := by rw [hss]; decide
  let a1 : Arrays := { Arrays.start yyssa yyvsa yylval (List.ofFn sym) toks with yyss := yyssa.set 0 0 }
  have h1 : Seated a1 :=
    ⟨⟨List.length_set.trans hss, hvs, rfl, (by decide : 0 < 200), .init, ⟨0, ⟨by decide, by decide⟩, rfl⟩,
      fun i hi => absurd hi (Nat.not_lt_zero i), rfl⟩, List.getElem?_set_self hpos, (by decide : 0 + 1 < 200)⟩
  have hset : yysetstateOn malloc (.start yyssa yyvsa yylval (List.ofFn sym) toks) = some (.inl a1) := by
    rw [yysetstateOn]
    show (store yyssa 0 0).bind _ = _
    rw [store_of_lt hpos]
    rfl
  obtain ⟨garbage, rest, rfl⟩ : ∃ x xs, yyvsa = x :: xs := by
    cases yyvsa with
    | nil => cases hvs
    | cons x xs => exact ⟨x, xs, rfl⟩
  obtain ⟨above, rest, rfl⟩ : ∃ x xs, rest = x :: xs := by
    cases rest with
    | nil => cases hvs
    | cons x xs => exact ⟨x, xs, rfl⟩
  obtain ⟨a2, top, ss, hpush, hs, hdrop, hview⟩ := pushValue_spec h1 (by decide : 2 ≤ 3) (by decide) (Nat.zero_le _) above
    (List.ofFn sym) []
  cases hdrop
  refine ⟨a2, ?_, hs, [above, garbage], .stmt above garbage, ?_⟩
  · have hact : actOn arith a1 (.reduce 3) = some (.inl a2) := by
      show (pushValue 3 0 above (List.ofFn sym) [] a1).map _ = _
      rw [hpush]
      rfl
    rw [arraysStep, arraysTurn, hset]
    show (actOn arith a1 (.reduce 3)).getD _ = _
    rw [hact]
    rfl
  · rw [hview]
    exact ⟨rfl, rfl, Or.inl ⟨rfl, rfl⟩, rfl, rfl, rfl, rfl⟩

/-- The parser on its arrays. Whatever they hold at first, and whatever memory there is, no access is out
    of bounds, and no block is left when it returns; its result, the variables and what it printed
    are the machine's, unless its stack is full and has `YYMAXDEPTH` entries, or there is no memory for the
    larger one. -/
theorem arrays_end (hm : Mallocs malloc) (arith : Op → Int → Int → Option Int) {yyssa yyvsa : List Int}
    (hss : yyssa.length = YYINITDEPTH) (hvs : yyvsa.length = YYINITDEPTH) (yylval : Int) (sym : Fin 26 → Int) (toks : List Token) :
    ∃ x, Ends (arraysStep malloc arith) (.start yyssa yyvsa yylval (List.ofFn sym) toks) x ∧
      ((∃ o, Ends (fstep arith) (.want .stmt toks ⟨sym, []⟩) o ∧ Answers o x) ∨
        RunsOut malloc arith (.want .stmt toks ⟨sym, []⟩) (.start yyssa yyvsa yylval (List.ofFn sym) toks) x) := by
  obtain ⟨a, hst, hs, hf⟩ := @arrays_first arith malloc yyssa yyvsa hss hvs yylval sym toks
  obtain ⟨o, ho⟩ := fstep_ends arith (.want .stmt toks ⟨sym, []⟩)
  obtain ⟨r, hr, -⟩ := (yyparse_follows arith).run hf ho fun k _ => not_exhausted k.room
  obtain ⟨x, hx, hres | ⟨k', b, hgk, hgb, hend, hsp⟩⟩ := @arrays_run arith _ malloc a hm r hs (Or.inl hf) hr
  · exact ⟨x, hx.next hst, Or.inl hres⟩
  · exact ⟨x, hx.next hst, Or.inr ⟨k', b, hgk, hgb.head hst, hend, hsp⟩⟩

/-- With at most 1900 parentheses open at a time, and memory, they do not get that large. -/
theorem not_spent {toks : List Token} {d : Nat} (hd : OpenAtMost d toks) (hle : d ≤ 1900) (hmem : ∀ n, malloc n ≠ none) {m : Mem}
    (hg : Goes (fstep arith) (.want .stmt toks m) k) (x : Halt) : ¬ Spent malloc k a x := by
  rintro ⟨hs, hu, hfull, hmax | ⟨-, hnone⟩, -⟩
  · have hlen : a.view.yyss.length = a.yyssp + 1 := by
      have hlt := hs.below
      show ((a.yyss.take a.yyssp).reverse.map Int.toNat).length + 1 = a.yyssp + 1
      rw [List.length_map, List.length_reverse, List.length_take, Nat.min_eq_left (by rw [hs.yyss]; omega)]
    have hheight := upTo_height hu
    have hroom := behind_room hd (behind_run hg (behind_start toks m))
    rw [hlen, hfull, hmax, YYMAXDEPTH] at hheight
    omega
  · exact hmem _ hnone

end

/-- `7`, with junk in all memory. -/
theorem arrays_end_seven :
    ∃ a, Ends (arraysStep (fun n => some (List.replicate n 9, List.replicate n 9)) intArith)
        (.start (List.replicate 200 5) (List.replicate 200 5) 3 (List.ofFn sym0) [.INTEGER 7, .newline]) (.ret 0 a) ∧
      a.stdout = [7] ∧ a.allocated = 0 := by
  have hm : Mallocs fun n => some (List.replicate n 9, List.replicate n 9) := by
    intro n ss vs h
    cases h
    exact ⟨List.length_replicate, List.length_replicate⟩
  have hd : OpenAtMost 0 [.INTEGER 7, .newline] := by
    intro ts hts
    rw [List.prefix_iff_eq_take.mp hts]
    rcases Nat.le_total ts.length 2 with hle | hle
    · have hall : ∀ n ≤ 2, opened (List.take n [.INTEGER 7, .newline]) ≤ 0 := by decide
      exact hall _ hle
    · rw [List.take_of_length_le hle]
      decide
  obtain ⟨x, hx, ⟨o, ho, hans⟩ | ⟨k, b, hg, -, -, hsp⟩⟩ := @arrays_end _ hm intArith (List.replicate 200 5)
    (List.replicate 200 5) List.length_replicate List.length_replicate 3 sym0 [.INTEGER 7, .newline]
  · have hrun := @ends_of_run _ _ (fstep intArith) 10 (.want .stmt [.INTEGER 7, .newline] ⟨sym0, []⟩) _ rfl
    cases ho.unique hrun
    cases hans with
    | accept hfree heff => exact ⟨_, hx, (Prod.mk.inj (Prod.mk.inj heff).2).1, hfree⟩
  · exact absurd hsp (not_spent hd (by decide) (fun n hn => by cases hn) hg x)

end NetworkCourse.Calc
