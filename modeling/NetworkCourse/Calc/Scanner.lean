/-
  NetworkCourse.Calc.Scanner — `yylex` of packetdrill/lex.yy.c with the rules of calc.l.

  The scanner runs the tables over the bytes it has (`yyMatch`), keeps the last accepting
  state in mind, and does the rule of the longest match. `lexed` are the matches of a whole
  text, `tokens` what `yylex` returns for it. Refills of the buffer do not show: a NUL byte has
  the class that `yy_get_previous_state` and `yy_try_NUL_trans` give it, and at the end of the
  text the last match counts.

  A run of digits is one match, any other byte is one on its own (`yyMatch_eq`). What a match returns
  is a token, with a variable's `yylval` one of 0 to 25 (`matched_returns`).
-/

import NetworkCourse.Calc.Parser
import NetworkCourse.Lib.Ascii

namespace NetworkCourse.Calc

open Lib.Ascii

/-! ## The tables -/

/-- The base of the states the matching loop stops in. -/
def yyJamBase : Nat := 9
def yyAcceptTable : List Nat :=
  [0, 0, 0, 7, 5, 4, 3, 3, 2, 1, 2, 0]

def yyEcTable : List Nat :=
  [0, 1, 1, 1, 1, 1, 1, 1, 1, 2, 3, 1, 1, 1, 1, 1, 1, 1, 1, 1, 1, 1, 1, 1, 1, 1, 1, 1, 1, 1, 1, 1, 2, 1, 1, 1,
   1, 1, 1, 1, 4, 4, 4, 4, 1, 4, 1, 4, 5, 5, 5, 5, 5, 5, 5, 5, 5, 5, 1, 1, 1, 4, 1, 1, 1, 1, 1, 1, 1, 1, 1, 1,
   1, 1, 1, 1, 1, 1, 1, 1, 1, 1, 1, 1, 1, 1, 1, 1, 1, 1, 1, 1, 1, 1, 1, 1, 1, 6, 6, 6, 6, 6, 6, 6, 6, 6, 6, 6,
   6, 6, 6, 6, 6, 6, 6, 6, 6, 6, 6, 6, 6, 6, 6, 1, 1, 1, 1, 1, 1, 1, 1, 1, 1, 1, 1, 1, 1, 1, 1, 1, 1, 1, 1, 1,
   1, 1, 1, 1, 1, 1, 1, 1, 1, 1, 1, 1, 1, 1, 1, 1, 1, 1, 1, 1, 1, 1, 1, 1, 1, 1, 1, 1, 1, 1, 1, 1, 1, 1, 1, 1,
   1, 1, 1, 1, 1, 1, 1, 1, 1, 1, 1, 1, 1, 1, 1, 1, 1, 1, 1, 1, 1, 1, 1, 1, 1, 1, 1, 1, 1, 1, 1, 1, 1, 1, 1, 1,
   1, 1, 1, 1, 1, 1, 1, 1, 1, 1, 1, 1, 1, 1, 1, 1, 1, 1, 1, 1, 1, 1, 1, 1, 1, 1, 1, 1, 1, 1, 1, 1, 1, 1, 1, 1,
   1, 1, 1, 1]

def yyMetaTable : List Nat :=
  [0, 1, 1, 1, 1, 2, 1]

def yyBaseTable : List Nat :=
  [0, 0, 0, 8, 9, 9, 9, 9, 0, 9, 0, 9, 5]

def yyDefTable : List Nat :=
  [0, 11, 1, 11, 11, 11, 11, 11, 12, 11, 12, 0, 11]

def yyNxtTable : List Nat :=
  [0, 4, 5, 6, 7, 8, 9, 10, 11, 3, 11, 11, 11, 11, 11, 11]

def yyChkTable : List Nat :=
  [0, 1, 1, 1, 1, 1, 1, 12, 3, 11, 11, 11, 11, 11, 11, 11]

def yyAccept (s : Nat) : Nat := yyAcceptTable.getD s 0
def yyEc (c : Nat) : Nat := yyEcTable.getD c 0
def yyMeta (c : Nat) : Nat := yyMetaTable.getD c 0
def yyBase (s : Nat) : Nat := yyBaseTable.getD s 0
def yyDef (s : Nat) : Nat := yyDefTable.getD s 0
def yyNxt (i : Nat) : Nat := yyNxtTable.getD i 0
def yyChk (i : Nat) : Nat := yyChkTable.getD i 0

/-! ## A match -/

/-- The class of a byte; a NUL byte is an ordinary one. -/
def yyClass (b : UInt8) : Nat := if b = 0 then 1 else yyEc b.toNat

/-- One transition: down the default states until the tables have an entry. There are 13. -/
def yyTrans : Nat → Nat → Nat → Nat
  | 0, s, _ => s
  | n + 1, s, c =>
    if yyChk (yyBase s + c) = s then yyNxt (yyBase s + c)
    else yyTrans n (yyDef s) (if 12 ≤ yyDef s then yyMeta c else c)

/-- The rule of the match, `yytext`, and what is left. -/
structure Match where
  act : Nat
  yytext : List UInt8
  rest : List UInt8
  deriving DecidableEq

/-- `yy_find_action`, backing up where the state accepts nothing. -/
def yyFindAction (state : Nat) (here last : Match) : Match :=
  if yyAccept state = 0 then last else { here with act := yyAccept state }

/-- `yy_match` in a state, behind the bytes `yytext`. -/
def yyMatch (state : Nat) (yytext : List UInt8) (last : Match) : List UInt8 → Match
  | [] => yyFindAction state ⟨0, yytext, []⟩ last
  | b :: bs =>
    let last := yyFindAction state ⟨0, yytext, b :: bs⟩ last
    let state := yyTrans 13 state (yyClass b)
    if yyBase state = yyJamBase then yyFindAction state ⟨0, yytext ++ [b], bs⟩ last
    else yyMatch state (yytext ++ [b]) last bs

/-! ## The rules -/

/-- The value of a digit string. -/
def digits (ds : List UInt8) : Nat := ds.foldl (fun n b => 10 * n + (b.toNat - 48)) 0

def LONG_MAX : Int := 9223372036854775807

/-- `atoi` of a digit string: what `strtol` gives, which stops at the largest `long`, as an
    `int` of 32 bits. Defined up to `INT_MAX`. -/
def atoi (ds : List UInt8) : Int := Int.bmod (min (digits ds) LONG_MAX) 4294967296

/-- What the action of a rule does: `return`, with the `int` that `yylval` is set to if it is, `yyerror`, or nothing. -/
inductive Action where
  | ret (yychar : Nat) (yylval : Option Int)
  | nothing
  | yyerror (s : String)

/-- The rules of calc.l by number. -/
def calcRule (act : Nat) (yytext : List UInt8) : Action :=
  match act, yytext with
  | 1, b :: _ => .ret 259 (some (b.toNat - 97))
  | 2, ds => .ret 258 (some (atoi ds))
  | 3, b :: _ => .ret b.toNat none
  | 5, _ => .yyerror "invalid input"
  | _, _ => .nothing

/-- What a match comes to. -/
inductive Round where
  | token (t : Token)
  | ignored
  | yyerror (s : String)
  deriving DecidableEq

/-- The token that is a character. -/
def charToken (c : Nat) : Option Token :=
  match c with
  | 43 => some (.op .plus)
  | 45 => some (.op .minus)
  | 42 => some (.op .times)
  | 47 => some (.op .divide)
  | 61 => some .assign
  | 40 => some .lpar
  | 41 => some .rpar
  | 10 => some .newline
  | _ => none

/-- The token that the parser sees for what is returned. -/
def Token.of (yychar : Nat) (yylval : Option Int) : Option Token :=
  match yylval with
  | none => charToken yychar
  | some n =>
    if yychar = 258 then some (.INTEGER n)
    else if h : yychar = 259 ∧ 0 ≤ n ∧ n < 26 then some (.VARIABLE ⟨n.toNat, by omega⟩)
    else none

/-- The action of a match. All that is ever returned are tokens (`matched_returns`). -/
def doAction (act : Nat) (yytext : List UInt8) : Round :=
  match calcRule act yytext with
  | .ret yychar yylval => (Token.of yychar yylval).elim .ignored .token
  | .nothing => .ignored
  | .yyerror s => .yyerror s

/-- `yyStart`, the only start condition. -/
def yyStart : Nat := 1

/-- The matches of a text, as many as there is fuel for. -/
def lexedUpTo : Nat → List UInt8 → List Round
  | 0, _ => []
  | _ + 1, [] => []
  | n + 1, b :: bs =>
    let m := yyMatch yyStart [] ⟨0, [], []⟩ (b :: bs)
    doAction m.act m.yytext :: lexedUpTo n m.rest

/-- A match is not empty, so a text has no more of them than bytes. -/
def lexed (text : List UInt8) : List Round := lexedUpTo text.length text

/-- The matches themselves. -/
def matchedUpTo : Nat → List UInt8 → List Match
  | 0, _ => []
  | _ + 1, [] => []
  | n + 1, b :: bs =>
    let m := yyMatch yyStart [] ⟨0, [], []⟩ (b :: bs)
    m :: matchedUpTo n m.rest

def matched (text : List UInt8) : List Match := matchedUpTo text.length text

/-- What `atoi` is called on. -/
def conversions (text : List UInt8) : List (List UInt8) := ((matched text).filter fun m => m.act = 2).map Match.yytext

def Round.token? : Round → Option Token
  | .token t => some t
  | _ => none

/-- What `yylex` returns one after the other. -/
def tokens (text : List UInt8) : List Token := (lexed text).filterMap Round.token?

/-! ## What a match is -/

def isLetter (b : UInt8) : Bool := 97 ≤ b && b ≤ 122

/-- Bytes of one-byte tokens. -/
def isChar (b : UInt8) : Bool := (charToken b.toNat).isSome

def isBlank (b : UInt8) : Bool := b == 32 || b == 9

/-- The rule for a byte that is no digit. -/
def ruleOf (b : UInt8) : Nat := if isLetter b then 1 else if isChar b then 3 else if isBlank b then 4 else 5

/-- The classes of `yy_ec`. -/
theorem yyClass_eq : ∀ b, yyClass b = if isDigit b then 5 else if isLetter b then 6
    else if isChar b then (if b = 10 then 3 else 4) else if isBlank b then 2 else 1 :=
  forall_byte (by decide +kernel)

/-- A number begins with a digit; any other byte is a match on its own. -/
theorem yyTrans_start (b : UInt8) : if isDigit b then yyTrans 13 yyStart (yyClass b) = 8
    else yyBase (yyTrans 13 yyStart (yyClass b)) = yyJamBase ∧ yyAccept (yyTrans 13 yyStart (yyClass b)) = ruleOf b := by
  rw [yyClass_eq, ruleOf]
  split_ifs <;> decide

/-- In a number, digits go on and anything else jams. -/
theorem yyTrans_digit {s : Nat} (hs : s = 8 ∨ s = 10) (b : UInt8) :
    yyTrans 13 s (yyClass b) = if isDigit b then 10 else 11 := by
  rw [yyClass_eq]
  rcases hs with rfl | rfl <;> split_ifs <;> rfl

theorem yyMatch_digits {s : Nat} (hs : s = 8 ∨ s = 10) (text : List UInt8) (last : Match) (bs : List UInt8) :
    yyMatch s text last bs = ⟨2, text ++ bs.takeWhile isDigit, bs.dropWhile isDigit⟩ := by
  have hacc : yyAccept s = 2 := by
    rcases hs with rfl | rfl <;> rfl
  induction bs generalizing s text last with
  | nil => simp [yyMatch, yyFindAction, hacc]
  | cons b bs ih =>
    have htr := yyTrans_digit hs b
    unfold yyMatch
    cases hb : isDigit b with
    | true =>
      rw [hb, if_pos rfl] at htr
      simp only [htr]
      rw [if_neg (by decide), ih (Or.inr rfl) _ _ rfl]
      simp [hb]
    | false =>
      rw [hb, if_neg (by decide)] at htr
      simp only [htr]
      rw [if_pos (by decide)]
      simp [yyFindAction, hacc, hb, show yyAccept 11 = 0 from rfl]

theorem ruleOf_pos (b : UInt8) : ruleOf b ≠ 0 := by
  unfold ruleOf
  split_ifs <;> decide

/-- The match at the front of a text. -/
theorem yyMatch_eq (b : UInt8) (bs : List UInt8) (last : Match) :
    yyMatch yyStart [] last (b :: bs) =
      if isDigit b then ⟨2, b :: bs.takeWhile isDigit, bs.dropWhile isDigit⟩ else ⟨ruleOf b, [b], bs⟩ := by
  have htr := yyTrans_start b
  unfold yyMatch
  cases hd : isDigit b with
  | true =>
    rw [hd, if_pos rfl] at htr
    simp only [htr]
    rw [if_neg (by decide), yyMatch_digits (Or.inl rfl)]
    rfl
  | false =>
    rw [hd, if_neg (by decide)] at htr
    simp only [htr.1, if_pos]
    rw [yyFindAction, htr.2, if_neg (ruleOf_pos b)]
    rfl

theorem yyMatch_rest_le (b : UInt8) (bs : List UInt8) (last : Match) :
    (yyMatch yyStart [] last (b :: bs)).rest.length ≤ bs.length := by
  rw [yyMatch_eq]
  split
  · exact (List.dropWhile_sublist _).length_le
  · exact Nat.le_refl _

theorem matchedUpTo_eq {n : Nat} {text : List UInt8} (h : text.length ≤ n) : matchedUpTo n text = matched text := by
  induction n using Nat.strongRecOn generalizing text with
  | ind n ih =>
    cases text with
    | nil => cases n <;> rfl
    | cons b bs =>
      cases n with
      | zero => cases h
      | succ n =>
        have hr := yyMatch_rest_le b bs ⟨0, [], []⟩
        have hn : bs.length ≤ n := Nat.le_of_succ_le_succ h
        rw [matched, List.length_cons, matchedUpTo, matchedUpTo, ih n (Nat.lt_succ_self n) (Nat.le_trans hr hn)]
        rcases Nat.eq_or_lt_of_le hn with heq | hlt
        · rw [heq, ih n (Nat.lt_succ_self n) (Nat.le_trans hr hn)]
        · rw [ih bs.length (by omega) hr]

/-- The first match, and the rest. -/
theorem matched_cons (b : UInt8) (bs : List UInt8) :
    matched (b :: bs) =
      if isDigit b then ⟨2, b :: bs.takeWhile isDigit, bs.dropWhile isDigit⟩ :: matched (bs.dropWhile isDigit)
      else ⟨ruleOf b, [b], bs⟩ :: matched bs := by
  rw [matched, List.length_cons, matchedUpTo, matchedUpTo_eq (yyMatch_rest_le b bs _), yyMatch_eq]
  split <;> rfl

theorem lexed_eq_map (text : List UInt8) : lexed text = (matched text).map fun m => doAction m.act m.yytext := by
  have hall : ∀ n text, lexedUpTo n text = (matchedUpTo n text).map fun m => doAction m.act m.yytext := by
    intro n
    induction n with
    | zero =>
      intro text
      rfl
    | succ n ih =>
      intro text
      cases text with
      | nil => rfl
      | cons b bs => rw [lexedUpTo, matchedUpTo, List.map_cons, ih]
  exact hall _ _

theorem matched_digits {ds rest : List UInt8} (hne : ds ≠ []) (hd : ∀ b ∈ ds, isDigit b = true) (hr : NoDigit rest) :
    matched (ds ++ rest) = ⟨2, ds, rest⟩ :: matched rest := by
  cases ds with
  | nil => exact absurd rfl hne
  | cons b ds =>
    obtain ⟨h1, h2⟩ := takeWhile_digits (fun c hc => hd c (List.mem_cons_of_mem _ hc)) hr
    rw [List.cons_append, matched_cons, if_pos (hd b List.mem_cons_self), h1, h2]

theorem matched_byte {b : UInt8} (h : isDigit b = false) (rest : List UInt8) :
    matched (b :: rest) = ⟨ruleOf b, [b], rest⟩ :: matched rest := by
  rw [matched_cons, h, if_neg (by decide)]

theorem lexed_digits {ds rest : List UInt8} (hne : ds ≠ []) (hd : ∀ b ∈ ds, isDigit b = true) (hr : NoDigit rest) :
    lexed (ds ++ rest) = .token (.INTEGER (atoi ds)) :: lexed rest := by
  rw [lexed_eq_map, matched_digits hne hd hr, List.map_cons, lexed_eq_map]
  rfl

theorem lexed_byte {b : UInt8} (h : isDigit b = false) (rest : List UInt8) :
    lexed (b :: rest) = doAction (ruleOf b) [b] :: lexed rest := by
  rw [lexed_eq_map, matched_byte h, List.map_cons, lexed_eq_map]

/-- No match goes past a text that begins with no digit. -/
theorem lexed_append {rest : List UInt8} (hr : NoDigit rest) (text : List UInt8) :
    lexed (text ++ rest) = lexed text ++ lexed rest := by
  induction text using runs_induction with
  | nil => rfl
  | run ds text hne hd hn ih =>
    have hn' : NoDigit (text ++ rest) := by
      cases text with
      | nil => exact hr
      | cons b text => exact hn
    rw [List.append_assoc, lexed_digits hne hd hn', lexed_digits hne hd hn, ih, List.cons_append]
  | byte b text hb ih => rw [List.cons_append, lexed_byte hb, lexed_byte hb, ih, List.cons_append]

/-! ## What `yylex` returns -/

theorem tokens_digits {ds rest : List UInt8} (hne : ds ≠ []) (hd : ∀ b ∈ ds, isDigit b = true) (hr : NoDigit rest) :
    tokens (ds ++ rest) = .INTEGER (atoi ds) :: tokens rest := by
  rw [tokens, lexed_digits hne hd hr]
  rfl

/-- A byte that is no digit is a token of its own, or none. -/
theorem tokens_byte {b : UInt8} (h : isDigit b = false) (rest : List UInt8) :
    tokens (b :: rest) = (doAction (ruleOf b) [b]).token?.toList ++ tokens rest := by
  rw [tokens, lexed_byte h, List.filterMap_cons]
  cases (doAction (ruleOf b) [b]).token? <;> rfl

theorem doAction_letter : ∀ x : Fin 26, isDigit (UInt8.ofNat (97 + x.val)) = false ∧
    doAction (ruleOf (UInt8.ofNat (97 + x.val))) [UInt8.ofNat (97 + x.val)] = .token (.VARIABLE x) := by
  decide

theorem isChar_not : ∀ b, isChar b = true → isDigit b = false ∧ isLetter b = false :=
  forall_byte (by decide +kernel)

theorem doAction_char {b : UInt8} {t : Token} (h : charToken b.toNat = some t) :
    isDigit b = false ∧ doAction (ruleOf b) [b] = .token t := by
  have hc : isChar b = true := by rw [isChar, h]; rfl
  obtain ⟨hd, hl⟩ := isChar_not b hc
  refine ⟨hd, ?_⟩
  simp [ruleOf, hl, hc, doAction, calcRule, Token.of, h]

theorem charToken_some {n : Nat} {t : Token} (h : charToken n = some t) : t.yychar = n ∧ ∀ old, t.yylval old = old := by
  unfold charToken at h
  split at h <;> cases h <;> exact ⟨rfl, fun _ => rfl⟩

/-- A match is a number, or one byte. -/
theorem matched_mem {m : Match} {text : List UInt8} (h : m ∈ matched text) :
    m.act = 2 ∨ ∃ b, m.act = ruleOf b ∧ m.yytext = [b] := by
  induction text using runs_induction with
  | nil => cases h
  | run ds text hne hd hn ih =>
    rw [matched_digits hne hd hn] at h
    rcases List.mem_cons.mp h with rfl | h
    · exact Or.inl rfl
    · exact ih h
  | byte b text hb ih =>
    rw [matched_byte hb] at h
    rcases List.mem_cons.mp h with rfl | h
    · exact Or.inr ⟨b, rfl, rfl⟩
    · exact ih h

/-- What is returned for a byte. -/
theorem byte_returns {b : UInt8} {yychar : Nat} {yylval : Option Int} (h : calcRule (ruleOf b) [b] = .ret yychar yylval) :
    (∃ t, doAction (ruleOf b) [b] = .token t ∧ t.yychar = yychar ∧ ∀ old, t.yylval old = yylval.getD old) ∧
      (yychar = 259 → ∃ x : Fin 26, yylval = some (x.val : Int)) := by
  by_cases hl : isLetter b = true
  · have hb := hl
    simp only [isLetter, Bool.and_eq_true, decide_eq_true_eq, UInt8.le_iff_toNat_le] at hb
    have h97 : (97 : UInt8).toNat = 97 := rfl
    have h122 : (122 : UInt8).toNat = 122 := rfl
    have hrange : (0 : Int) ≤ (b.toNat : Int) - 97 ∧ (b.toNat : Int) - 97 < 26 := by omega
    have hof : Token.of 259 (some ((b.toNat : Int) - 97)) = some (.VARIABLE ⟨((b.toNat : Int) - 97).toNat, by omega⟩) := by
      rw [Token.of, if_neg (by decide), dif_pos ⟨rfl, hrange⟩]
    have hval : ((((b.toNat : Int) - 97).toNat : Nat) : Int) = (b.toNat : Int) - 97 := Int.toNat_of_nonneg hrange.1
    rw [show ruleOf b = 1 from if_pos hl] at h ⊢
    cases h
    refine ⟨⟨.VARIABLE ⟨((b.toNat : Int) - 97).toNat, by omega⟩, ?_, rfl, fun _ => hval⟩,
      fun _ => ⟨⟨((b.toNat : Int) - 97).toNat, by omega⟩, congrArg some hval.symm⟩⟩
    show (Token.of 259 (some ((b.toNat : Int) - 97))).elim _ _ = _
    rw [hof]
    rfl
  · rw [show ruleOf b = if isChar b then 3 else if isBlank b then 4 else 5 from if_neg hl] at h ⊢
    by_cases hc : isChar b = true
    · rw [if_pos hc] at h ⊢
      cases h
      obtain ⟨t, ht⟩ := Option.isSome_iff_exists.mp hc
      obtain ⟨hy, hold⟩ := charToken_some ht
      have hlt := b.toNat_lt
      refine ⟨⟨t, ?_, hy, hold⟩, fun hv => by omega⟩
      show (charToken b.toNat).elim _ _ = _
      rw [ht]
      rfl
    · rw [if_neg hc] at h
      split at h <;> cases h

/-- What is returned for a match is a token's code, with its `yylval` where it has one: that of a variable is one of
    0 to 25. -/
theorem matched_returns {m : Match} {text : List UInt8} (hm : m ∈ matched text) {yychar : Nat} {yylval : Option Int}
    (h : calcRule m.act m.yytext = .ret yychar yylval) :
    (∃ t, doAction m.act m.yytext = .token t ∧ t.yychar = yychar ∧ ∀ old, t.yylval old = yylval.getD old) ∧
      (yychar = 259 → ∃ x : Fin 26, yylval = some (x.val : Int)) := by
  rcases matched_mem hm with hact | ⟨b, hact, htext⟩
  · have hrule : calcRule m.act m.yytext = .ret 258 (some (atoi m.yytext)) := by rw [hact]; rfl
    rw [hrule] at h
    cases h
    exact ⟨⟨.INTEGER (atoi m.yytext), by rw [hact]; rfl, rfl, fun _ => rfl⟩, fun hv => absurd hv (by decide)⟩
  · rw [hact, htext] at h ⊢
    exact byte_returns h

/-- Bytes that are no part of a token. -/
def isIgnored (b : UInt8) : Bool := !(isDigit b || isLetter b || isChar b)

theorem doAction_ignored {b : UInt8} (h : isIgnored b = true) : isDigit b = false ∧ (doAction (ruleOf b) [b]).token? = none := by
  simp only [isIgnored, Bool.not_eq_true', Bool.or_eq_false_iff] at h
  obtain ⟨⟨hd, hl⟩, hc⟩ := h
  refine ⟨hd, ?_⟩
  simp only [ruleOf, hl, hc]
  cases isBlank b <;> rfl

theorem tokens_ignored {b : UInt8} (h : isIgnored b = true) (rest : List UInt8) : tokens (b :: rest) = tokens rest := by
  obtain ⟨hd, ha⟩ := doAction_ignored h
  rw [tokens_byte hd, ha]
  rfl

/-! ## Texts that write tokens -/

/-- How a token is spelled. -/
inductive Spelling : Token → List UInt8 → Prop
  | INTEGER {n : Int} {ds : List UInt8} : ds ≠ [] → (∀ b ∈ ds, isDigit b = true) → digits ds = n → n ≤ INT_MAX →
      Spelling (.INTEGER n) ds
  | VARIABLE (x : Fin 26) : Spelling (.VARIABLE x) [UInt8.ofNat (97 + x.val)]
  | char {t : Token} {b : UInt8} : t.yychar = b.toNat → Spelling t [b]

/-- A text that writes `ts`, with bytes of `gap` anywhere between the tokens; only
    neighbours that may `touch` need none. -/
inductive Writes (gap : UInt8 → Bool) (touch : Token → Token → Prop) : List Token → List UInt8 → Prop
  | nil : Writes gap touch [] []
  | gap {b : UInt8} {ts : List Token} {text : List UInt8} : gap b = true → Writes gap touch ts text →
      Writes gap touch ts (b :: text)
  | token {t : Token} {s : List UInt8} {ts : List Token} {text : List UInt8} : Spelling t s → Writes gap touch ts text →
      (∀ t', ts.head? = some t' → touch t t' ∨ ∃ b, text.head? = some b ∧ gap b = true) →
      Writes gap touch (t :: ts) (s ++ text)

/-- Not two numbers. -/
def Apart (t t' : Token) : Prop := ∀ n n', t = .INTEGER n → t' ≠ .INTEGER n'

theorem atoi_eq {ds : List UInt8} (h : (digits ds : Int) ≤ INT_MAX) : atoi ds = digits ds := by
  have h0 : (0 : Int) ≤ digits ds := Int.natCast_nonneg _
  rw [INT_MAX] at h
  rw [atoi, LONG_MAX, Int.min_eq_left (by omega)]
  exact Int.bmod_eq_of_le (by omega) (by omega)

/-- A one-byte token is spelled by its code. -/
theorem charToken_yychar {t : Token} {b : UInt8} (h : t.yychar = b.toNat) : charToken b.toNat = some t := by
  have hb := b.toNat_lt
  rw [← h] at hb ⊢
  cases t with
  | INTEGER n => exact absurd hb (show ¬ 258 < 256 by decide)
  | VARIABLE x => exact absurd hb (show ¬ 259 < 256 by decide)
  | op o => cases o <;> rfl
  | _ => rfl

/-- A spelling is scanned back, if no digit follows a number. -/
theorem Spelling.scanned {t : Token} {s : List UInt8} (h : Spelling t s) {rest : List UInt8}
    (hr : ∀ n, t = .INTEGER n → NoDigit rest) : tokens (s ++ rest) = t :: tokens rest := by
  cases h with
  | INTEGER hne hd hn hmax =>
    subst hn
    rw [tokens_digits hne hd (hr _ rfl), atoi_eq hmax]
  | VARIABLE x =>
    obtain ⟨hd, ha⟩ := doAction_letter x
    rw [List.singleton_append, tokens_byte hd, ha]
    rfl
  | char h =>
    obtain ⟨hd, ha⟩ := doAction_char (charToken_yychar h)
    rw [List.singleton_append, tokens_byte hd, ha]
    rfl

/-- Only a number is spelled with a digit in front. -/
theorem Spelling.starts {t : Token} {s : List UInt8} (h : Spelling t s) (hn : ∀ n, t ≠ .INTEGER n) (rest : List UInt8) :
    NoDigit (s ++ rest) := by
  intro b hb
  cases h with
  | INTEGER _ _ _ _ => exact absurd rfl (hn _)
  | VARIABLE x => cases hb; exact (doAction_letter x).1
  | char h => cases hb; exact (doAction_char (charToken_yychar h)).1

variable {gap : UInt8 → Bool} {touch : Token → Token → Prop}

theorem Writes.starts (hg : ∀ b, gap b = true → isIgnored b = true) {ts : List Token} {text : List UInt8}
    (h : Writes gap touch ts text) (hn : ∀ n, ts.head? ≠ some (.INTEGER n)) : NoDigit text := by
  intro b hb
  cases h with
  | nil => cases hb
  | gap h _ => cases hb; exact (doAction_ignored (hg b h)).1
  | token hs _ _ => exact hs.starts (fun n he => hn n (congrArg some he)) _ b hb

/-- No digit follows a number. -/
theorem Writes.behind_number (hg : ∀ b, gap b = true → isIgnored b = true) (ht : ∀ t t', touch t t' → Apart t t') {n : Int}
    {ts : List Token} {text : List UInt8} (h : Writes gap touch ts text)
    (hnext : ∀ t', ts.head? = some t' → touch (.INTEGER n) t' ∨ ∃ b, text.head? = some b ∧ gap b = true) : NoDigit text := by
  by_cases hnum : ∃ n', ts.head? = some (.INTEGER n')
  · obtain ⟨n', hn'⟩ := hnum
    intro b hb
    rcases hnext _ hn' with hto | ⟨b', hb', hgap⟩
    · exact absurd rfl (ht _ _ hto n n' rfl)
    · rw [hb] at hb'
      cases hb'
      exact (doAction_ignored (hg b hgap)).1
  · exact h.starts hg fun n' hn' => hnum ⟨n', hn'⟩

/-- A text is scanned back to the tokens it writes. -/
theorem Writes.scanned (hg : ∀ b, gap b = true → isIgnored b = true) (ht : ∀ t t', touch t t' → Apart t t')
    {ts : List Token} {text : List UInt8} (h : Writes gap touch ts text) : tokens text = ts := by
  induction h with
  | nil => rfl
  | gap hb _ ih => rw [tokens_ignored (hg _ hb), ih]
  | @token t s ts text hs hw hnext ih =>
    rw [hs.scanned, ih]
    intro n hn
    subst hn
    exact hw.behind_number hg ht hnext

theorem Writes.next {t : Token} {s : List UInt8} {ts : List Token} {text : List UInt8} (hs : Spelling t s)
    (h : Writes gap (fun _ _ => True) ts text) : Writes gap (fun _ _ => True) (t :: ts) (s ++ text) :=
  .token hs h fun _ _ => Or.inl trivial

theorem Writes.append {ts us : List Token} {text text' : List UInt8} (h : Writes gap (fun _ _ => True) ts text)
    (h' : Writes gap (fun _ _ => True) us text') : Writes gap (fun _ _ => True) (ts ++ us) (text ++ text') := by
  induction h with
  | nil => exact h'
  | gap hb _ ih => exact .gap hb ih
  | token hs _ _ ih =>
    rw [List.append_assoc]
    exact .next hs ih

/-- Where no two numbers are neighbours, no gap is needed anywhere. -/
theorem Writes.apart {ts : List Token} {text : List UInt8} (h : Writes gap (fun _ _ => True) ts text) (hc : ts.IsChain Apart) :
    Writes gap Apart ts text := by
  induction h with
  | nil => exact .nil
  | gap hb _ ih => exact .gap hb (ih hc)
  | @token t s ts text hs _ _ ih =>
    refine .token hs (ih hc.of_cons) ?_
    intro t' ht'
    obtain ⟨ts, rfl⟩ := List.head?_eq_some_iff.mp ht'
    exact Or.inl (List.isChain_cons_cons.mp hc).1

example : tokens (ascii "b = 12*(a+ 007)") = [.VARIABLE 1, .assign, .INTEGER 12, .op .times, .lpar, .VARIABLE 0, .op .plus,
    .INTEGER 7, .rpar] := by decide

end NetworkCourse.Calc
