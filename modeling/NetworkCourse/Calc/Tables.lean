/-
  NetworkCourse.Calc.Tables — the tables of packetdrill/calc.tab.c and what the parser
  reads off them.

  A state acts by default when `yypact` says so (no look-ahead is read then), else on
  the translated look-ahead token (`action`). No state shifts the error token
  (`errorTo_none`).
-/

import Mathlib.Data.List.Basic

namespace NetworkCourse.Calc

/-- `+ - * /` -/
inductive Op where
  | plus
  | minus
  | times
  | divide
  deriving DecidableEq

/-- Tokens; `INTEGER` and `VARIABLE` with their `yylval`. -/
inductive Token where
  | INTEGER (yylval : Int)
  | VARIABLE (yylval : Fin 26)
  | op (o : Op)
  | assign
  | lpar
  | rpar
  | newline
  deriving DecidableEq

/-- What `yylex` returns. -/
def Token.yychar : Token → Nat
  | .INTEGER _ => 258
  | .VARIABLE _ => 259
  | .op .plus => 43
  | .op .minus => 45
  | .op .times => 42
  | .op .divide => 47
  | .assign => 61
  | .lpar => 40
  | .rpar => 41
  | .newline => 10

/-- `yylval` behind a token; most leave it as it was. -/
def Token.yylval (old : Int) : Token → Int
  | .INTEGER n => n
  | .VARIABLE x => x.val
  | _ => old

/-! ## The tables -/

def YYFINAL : Int := 2
def YYLAST : Int := 31
def YYNTOKENS : Nat := 13
def YYMAXUTOK : Nat := 259
def YYUNDEFTOK : Nat := 2
def YYTERROR : Int := 1
def YYPACT_NINF : Int := -7
def YYTABLE_NINF : Int := -1

def yytranslateTable : List Nat :=
  [0, 2, 2, 2, 2, 2, 2, 2, 2, 2, 9, 2, 2, 2, 2, 2, 2, 2, 2, 2, 2, 2, 2, 2, 2, 2, 2, 2, 2, 2, 2, 2, 2, 2, 2, 2, 2, 2,
   2, 2, 11, 12, 7, 5, 2, 6, 2, 8, 2, 2, 2, 2, 2, 2, 2, 2, 2, 2, 2, 2, 2, 10, 2, 2, 2, 2, 2, 2, 2, 2, 2, 2, 2, 2, 2,
   2, 2, 2, 2, 2, 2, 2, 2, 2, 2, 2, 2, 2, 2, 2, 2, 2, 2, 2, 2, 2, 2, 2, 2, 2, 2, 2, 2, 2, 2, 2, 2, 2, 2, 2, 2, 2, 2,
   2, 2, 2, 2, 2, 2, 2, 2, 2, 2, 2, 2, 2, 2, 2, 2, 2, 2, 2, 2, 2, 2, 2, 2, 2, 2, 2, 2, 2, 2, 2, 2, 2, 2, 2, 2, 2, 2,
   2, 2, 2, 2, 2, 2, 2, 2, 2, 2, 2, 2, 2, 2, 2, 2, 2, 2, 2, 2, 2, 2, 2, 2, 2, 2, 2, 2, 2, 2, 2, 2, 2, 2, 2, 2, 2, 2,
   2, 2, 2, 2, 2, 2, 2, 2, 2, 2, 2, 2, 2, 2, 2, 2, 2, 2, 2, 2, 2, 2, 2, 2, 2, 2, 2, 2, 2, 2, 2, 2, 2, 2, 2, 2, 2, 2,
   2, 2, 2, 2, 2, 2, 2, 2, 2, 2, 2, 2, 2, 2, 2, 2, 2, 2, 2, 2, 2, 2, 2, 2, 2, 2, 2, 2, 2, 1, 2, 3, 4]

def yyr1Table : List Nat :=
  [0, 13, 14, 14, 15, 15, 16, 16, 16, 16, 16, 16, 16]

def yyr2Table : List Nat :=
  [0, 2, 3, 0, 1, 3, 1, 1, 3, 3, 3, 3, 3]

def yydefactTable : List Nat :=
  [3, 0, 1, 6, 7, 0, 0, 4, 0, 7, 0, 2, 0, 0, 0, 0, 5, 12, 8, 9, 10, 11]

def yydefgotoTable : List Int :=
  [-1, 1, 6, 7]

def yypactTable : List Int :=
  [-7, 0, -7, -7, -5, 14, -2, 23, 14, -7, 15, -7, 14, 14, 14, 14, 23, -7, -6, -6, -7, -7]

def yypgotoTable : List Int :=
  [-7, -7, -7, 1]

def yytableTable : List Int :=
  [2, 14, 15, 3, 4, 8, 10, 11, 0, 16, 0, 5, 0, 18, 19, 20, 21, 3, 9, 0, 12, 13, 14, 15, 0, 5, 0, 17, 12, 13, 14, 15]

def yycheckTable : List Int :=
  [0, 7, 8, 3, 4, 10, 5, 9, -1, 8, -1, 11, -1, 12, 13, 14, 15, 3, 4, -1, 5, 6, 7, 8, -1, 11, -1, 12, 5, 6, 7, 8]

def yytranslate (i : Nat) : Nat := yytranslateTable.getD i 0
def yyr1 (r : Nat) : Nat := yyr1Table.getD r 0
def yyr2 (r : Nat) : Nat := yyr2Table.getD r 0
def yydefact (s : Nat) : Nat := yydefactTable.getD s 0
def yydefgoto (i : Nat) : Int := yydefgotoTable.getD i 0
def yypact (s : Nat) : Int := yypactTable.getD s 0
def yypgoto (i : Nat) : Int := yypgotoTable.getD i 0
def yytable (i : Int) : Int := yytableTable.getD i.toNat 0
def yycheck (i : Int) : Int := yycheckTable.getD i.toNat 0

/-! ## What a state does -/

/-- `YYTRANSLATE` -/
def YYTRANSLATE (yychar : Nat) : Nat := if yychar ≤ YYMAXUTOK then yytranslate yychar else YYUNDEFTOK

/-- `yytoken`; the end of input is 0. -/
def yytoken : Option Token → Nat
  | none => 0
  | some t => YYTRANSLATE t.yychar

inductive Act where
  | shift (state : Nat)
  | reduce (rule : Nat)
  | accept
  | error
  deriving DecidableEq

/-- `yydefault` -/
def yydefault (yystate : Nat) : Act := if yydefact yystate = 0 then .error else .reduce (yydefact yystate)

/-- A state that acts without looking reduces. -/
theorem yydefault_reduce {s : Nat} (h : yypact s = YYPACT_NINF) : ∃ r, yydefault s = .reduce r := by
  have hs : s < yypactTable.length := by
    by_contra hs
    rw [yypact, List.getD_eq_getElem?_getD, List.getElem?_eq_none (Nat.le_of_not_lt hs)] at h
    cases h
  have hall : ∀ s < yypactTable.length, yypact s = YYPACT_NINF → yydefact s ≠ 0 := by decide
  exact ⟨_, if_neg (hall s hs h)⟩

/-- `yybackup`, behind the look-ahead token. -/
def yybackup (yystate yytoken : Nat) : Act :=
  let yyn := yypact yystate + yytoken
  if yyn < 0 ∨ YYLAST < yyn ∨ yycheck yyn ≠ yytoken then yydefault yystate
  else
    let yyn := yytable yyn
    if yyn ≤ 0 then
      if yyn = 0 ∨ yyn = YYTABLE_NINF then .error else .reduce (-yyn).toNat
    else if yyn = YYFINAL then .accept
    else .shift yyn.toNat

/-- What a state does when `look` comes next. -/
def action (yystate : Nat) (look : Option Token) : Act :=
  if yypact yystate = YYPACT_NINF then yydefault yystate else yybackup yystate (yytoken look)

/-- The state behind a reduction by `rule` down to `top`. -/
def goto (rule top : Nat) : Nat :=
  let yystate := yypgoto (yyr1 rule - YYNTOKENS) + top
  (if 0 ≤ yystate ∧ yystate ≤ YYLAST ∧ yycheck yystate = top then yytable yystate
    else yydefgoto (yyr1 rule - YYNTOKENS)).toNat

/-- The state a state shifts the error token to. -/
def errorTo (yystate : Nat) : Option Nat :=
  if yypact yystate = YYPACT_NINF then none
  else
    let yyn := yypact yystate + YYTERROR
    if 0 ≤ yyn ∧ yyn ≤ YYLAST ∧ yycheck yyn = YYTERROR ∧ 0 < yytable yyn then some (yytable yyn).toNat else none

theorem yycheck_ne_error (i : Int) : yycheck i ≠ YYTERROR := by
  unfold yycheck
  rw [List.getD_eq_getElem?_getD]
  cases h : yycheckTable[i.toNat]? with
  | none => decide
  | some x =>
    have hall : ∀ x ∈ yycheckTable, x ≠ YYTERROR := by decide
    exact hall x (List.mem_of_getElem? h)

theorem errorTo_none (s : Nat) : errorTo s = none := by
  unfold errorTo
  split
  · rfl
  · exact if_neg fun h => yycheck_ne_error _ h.2.2.1

example : action 18 (some (.op .times)) = .shift 14 ∧ action 18 (some .newline) = .reduce 8 := by decide

end NetworkCourse.Calc
