/-
  NetworkCourse.Calc.Yylex — `yylex` of packetdrill/lex.yy.c on its input buffer.

  A machine with one step for each turn of a labelled piece of the function: the start of a
  token, one transition of `yy_match`, `yy_find_action`, and the action. The class of a NUL byte
  is that of the end of the buffer, so the match ends in `YY_END_OF_BUFFER` on either; which of
  them it was is seen by `yy_c_buf_p`, and the match goes on where it was
  (`yy_get_previous_state`).

  `yylex_returns`: whatever the pieces the input comes in, and wherever the buffer ends, a call
  returns the token that `next` finds in the text still to be scanned, leaves the rest of it,
  and writes the errors on the way. No access is out of bounds, no internal error is reached,
  and the buffer is never larger than the longest match needs.
-/

import NetworkCourse.Calc.Buffer
import NetworkCourse.Calc.Scanner
import NetworkCourse.Lib.Machine
import Mathlib.Data.List.Induction

namespace NetworkCourse.Calc

open Lib.Window Lib.Ascii Lib.CInt Lib.Machine

inductive Label where
  | scan
  | yy_match
  | yy_find_action
  | do_action
  deriving DecidableEq

/-- The locals of `yylex`, and where it is. -/
structure Yylex where
  pc : Label
  yy_current_state : Nat
  yy_cp : Nat
  yy_bp : Nat
  yy_act : Nat
  s : Lexer

/-- `none` is `YY_NULL`. -/
inductive Called where
  | returned (t : Option Token) (s : Lexer)
  | abort (a : Abort)

def Lexer.put (s : Lexer) (ch : List UInt8) : Lexer := { s with buffer := { s.buffer with yy_ch_buf := ch } }

def Lexer.seek (s : Lexer) (p : Nat) : Lexer := { s with yy_c_buf_p := p }

def yylexEntry (s : Lexer) : Yylex := ⟨.scan, 0, 0, 0, 0, s⟩

/-- `yylex`, the first time it is called. -/
def yylexInit (m : Platform) (yyin : Stream) : Except Abort Lexer := do
  let b ← yy_create_buffer m yyin m.YY_BUF_SIZE
  yy_load_buffer_state ⟨b, 0, 0, 0, 0, 0, 0, 0, yyin, [], []⟩

/-- `if ( yy_accept[yy_current_state] )` -/
def accepting (state cp : Nat) (s : Lexer) : Lexer :=
  if yyAccept state = 0 then s else { s with yy_last_accepting_state := state, yy_last_accepting_cpos := cp }

/-! ## Going back to a match -/

/-- The loop of `yy_get_previous_state`, over `n` characters. -/
def previousLoop : Nat → Nat → Nat → Lexer → Except Abort (Nat × Lexer)
  | 0, state, _, s => .ok (state, s)
  | n + 1, state, cp, s => do
    let b ← access s.buffer.yy_ch_buf[cp]?
    previousLoop n (yyTrans 13 state (yyClass b)) (cp + 1) (accepting state cp s)

def yy_get_previous_state (s : Lexer) : Except Abort (Nat × Lexer) :=
  previousLoop (s.yy_c_buf_p - s.yytext_ptr) yyStart s.yytext_ptr s

def yy_try_NUL_trans (state : Nat) (s : Lexer) : Nat × Lexer :=
  let next := yyTrans 13 state 1
  (if next = 11 then 0 else next, accepting state s.yy_c_buf_p s)

/-! ## The pieces -/

def scanStep (c : Yylex) : Except Abort Yylex := do
  let ch ← access (store c.s.buffer.yy_ch_buf c.s.yy_c_buf_p c.s.yy_hold_char)
  .ok { c with
    pc := .yy_match
    yy_current_state := yyStart
    yy_cp := c.s.yy_c_buf_p
    yy_bp := c.s.yy_c_buf_p
    s := c.s.put ch }

def matchStep (c : Yylex) : Except Abort Yylex := do
  let b ← access c.s.buffer.yy_ch_buf[c.yy_cp]?
  let state := yyTrans 13 c.yy_current_state (yyEc b.toNat)
  .ok { c with
    pc := if yyBase state = yyJamBase then .yy_find_action else .yy_match
    yy_current_state := state
    yy_cp := c.yy_cp + 1
    s := accepting c.yy_current_state c.yy_cp c.s }

/-- The state and the position of the match, after backing up if there is need. -/
def chosen (c : Yylex) : Nat × Nat :=
  if yyAccept c.yy_current_state = 0 then (c.s.yy_last_accepting_state, c.s.yy_last_accepting_cpos)
  else (c.yy_current_state, c.yy_cp)

/-- `yy_find_action` with `YY_DO_BEFORE_ACTION`. -/
def findActionStep (c : Yylex) : Except Abort Yylex := do
  let (state, cp) := chosen c
  let hold ← access c.s.buffer.yy_ch_buf[cp]?
  let ch ← access (store c.s.buffer.yy_ch_buf cp 0)
  .ok { c with
    pc := .do_action
    yy_current_state := state
    yy_cp := cp
    yy_act := yyAccept state
    s := { c.s.put ch with
      yytext_ptr := c.yy_bp
      yyleng := cp - c.yy_bp
      yy_hold_char := hold
      yy_c_buf_p := cp } }

/-- The first action on a new buffer. -/
def newBuffer (s : Lexer) : Lexer :=
  if s.buffer.yy_buffer_status = .NEW then
    { s with yy_n_chars := s.buffer.yy_n_chars, buffer := { s.buffer with yy_buffer_status := .NORMAL } }
  else s

/-- Behind a NUL byte of the input. -/
def nulStep (amount : Int) (c : Yylex) (s : Lexer) : Except Abort Yylex := do
  let (state, s) ← yy_get_previous_state (s.seek (s.yytext_ptr + amount).toNat)
  let (next, s) := yy_try_NUL_trans state s
  if next = 0 then
    .ok { c with pc := .yy_find_action, yy_current_state := state, yy_cp := s.yy_c_buf_p, yy_bp := s.yytext_ptr, s := s }
  else
    .ok { c with
      pc := .yy_match
      yy_current_state := next
      yy_cp := s.yy_c_buf_p + 1
      yy_bp := s.yytext_ptr
      s := s.seek (s.yy_c_buf_p + 1) }

def YY_END_OF_BUFFER : Nat := 7

/-- `YY_STATE_EOF(INITIAL)` -/
def YY_STATE_EOF : Nat := YY_END_OF_BUFFER + 1

/-- At the end of the buffer; `yywrap` is 1. -/
def refillStep (m : Platform) (amount : Int) (c : Yylex) (s : Lexer) : Except Abort Yylex := do
  let (act, s) ← yy_get_next_buffer m s
  match act with
  | .END_OF_FILE => .ok { c with pc := .do_action, yy_act := YY_STATE_EOF, s := s.seek s.yytext_ptr }
  | .CONTINUE_SCAN => do
    let (state, s) ← yy_get_previous_state (s.seek (s.yytext_ptr + amount).toNat)
    .ok { c with pc := .yy_match, yy_current_state := state, yy_cp := s.yy_c_buf_p, yy_bp := s.yytext_ptr, s := s }
  | .LAST_MATCH => do
    let (state, s) ← yy_get_previous_state (s.seek s.yy_n_chars)
    .ok { c with pc := .yy_find_action, yy_current_state := state, yy_cp := s.yy_c_buf_p, yy_bp := s.yytext_ptr, s := s }

def endOfBufferStep (m : Platform) (c : Yylex) : Except Abort Yylex := do
  let amount := toInt (toInt (c.yy_cp - c.s.yytext_ptr) - 1)
  let ch ← access (store c.s.buffer.yy_ch_buf c.yy_cp c.s.yy_hold_char)
  let s := newBuffer (c.s.put ch)
  if s.yy_c_buf_p ≤ s.yy_n_chars then nulStep amount c s else refillStep m amount c s

/-- The string at `p`. -/
def cstring (ch : List UInt8) (p : Nat) : List UInt8 := (ch.drop p).takeWhile (· ≠ 0)

/-- The rules of calc.l, as they see `yytext`. -/
def ruleStep (c : Yylex) : Yylex ⊕ Option Token × Lexer :=
  match doAction c.yy_act (cstring c.s.buffer.yy_ch_buf c.s.yytext_ptr) with
  | .token t => .inr (some t, c.s)
  | .ignored => .inl { c with pc := .scan }
  | .yyerror e => .inl { c with pc := .scan, s := { c.s with stderr := c.s.stderr ++ [e] } }

def doActionStep (m : Platform) (c : Yylex) : Except Abort (Yylex ⊕ Option Token × Lexer) :=
  match c.yy_act with
  | 0 => do
    let ch ← access (store c.s.buffer.yy_ch_buf c.yy_cp c.s.yy_hold_char)
    .ok (.inl { c with
      pc := .yy_find_action
      yy_cp := c.s.yy_last_accepting_cpos
      yy_current_state := c.s.yy_last_accepting_state
      s := c.s.put ch })
  | 1 | 2 | 3 | 4 | 5 => .ok (ruleStep c)
  | 6 =>
    -- ECHO
    .ok (.inl { c with
      pc := .scan
      s := { c.s with yyout := c.s.yyout ++ (c.s.buffer.yy_ch_buf.drop c.s.yytext_ptr).take c.s.yyleng } })
  | 7 => (endOfBufferStep m c).map .inl
  | 8 => .ok (.inr (none, c.s))
  | _ => .error (.fatal "fatal flex scanner internal error--no action found")

def yylexTurn (m : Platform) (c : Yylex) : Except Abort (Yylex ⊕ Option Token × Lexer) :=
  match c.pc with
  | .scan => (scanStep c).map .inl
  | .yy_match => (matchStep c).map .inl
  | .yy_find_action => (findActionStep c).map .inl
  | .do_action => doActionStep m c

def yylexStep (m : Platform) (c : Yylex) : Yylex ⊕ Called :=
  match yylexTurn m c with
  | .ok (.inl c) => .inl c
  | .ok (.inr (t, s)) => .inr (.returned t s)
  | .error a => .inr (.abort a)

/-! ## Matches in progress -/

/-- The state behind the characters `p`. -/
def yyRun (p : List UInt8) : Nat := p.foldl (fun state b => yyTrans 13 state (yyClass b)) yyStart

/-- The match may still grow, or has not been seen to be complete: a NUL byte goes on to
    `yy_match` again. -/
def Live (p : List UInt8) : Prop := p = [] ∨ (p ≠ [] ∧ ∀ b ∈ p, isDigit b = true) ∨ p = [0]

theorem yyRun_snoc (p : List UInt8) (b : UInt8) : yyRun (p ++ [b]) = yyTrans 13 (yyRun p) (yyClass b) := by
  rw [yyRun, List.foldl_append]
  rfl

theorem yyRun_digits {p : List UInt8} (hne : p ≠ []) (hd : ∀ b ∈ p, isDigit b = true) : yyRun p = 8 ∨ yyRun p = 10 := by
  induction p using List.reverseRecOn with
  | nil => exact absurd rfl hne
  | append_singleton p b ih =>
    have hb : isDigit b = true := hd b (by simp)
    rw [yyRun_snoc]
    by_cases hp : p = []
    · have htr := yyTrans_start b
      rw [hb, if_pos rfl] at htr
      rw [hp]
      exact Or.inl htr
    · have htr := yyTrans_digit (ih hp fun c hc => hd c (List.mem_append_left _ hc)) b
      rw [hb, if_pos rfl] at htr
      exact Or.inr htr

/-- Where a match is complete, its rule. -/
theorem yyAccept_run {p : List UInt8} (h : Live p) (hne : p ≠ []) : yyAccept (yyRun p) = if p = [0] then 5 else 2 := by
  rcases h with h | ⟨-, hd⟩ | h
  · exact absurd h hne
  · have h0 : p ≠ [0] := by
      intro h
      subst h
      exact absurd (hd 0 (by simp)) (by decide)
    rw [if_neg h0]
    rcases yyRun_digits hne hd with h | h <;> rw [h] <;> rfl
  · subst h
    rfl

/-- A NUL byte leads to the state that accepts the end of the buffer, and any byte ends the match
    there. -/
theorem yyTrans_eob {p : List UInt8} (h : Live p) : yyTrans 13 (yyRun p) (yyEc 0) = 3 := by
  rcases h with h | ⟨hne, hd⟩ | h
  · subst h
    rfl
  · rcases yyRun_digits hne hd with h | h <;> rw [h] <;> rfl
  · subst h
    rfl

theorem yyTrans_behind_eob : ∀ b : UInt8, yyTrans 13 3 (yyEc b.toNat) = 11 := forall_byte (by decide +kernel)

theorem yyTrans_behind_nul : ∀ b : UInt8, yyTrans 13 4 (yyClass b) = 11 := forall_byte (by decide +kernel)

theorem yyEc_class {b : UInt8} (h : b ≠ 0) : yyEc b.toNat = yyClass b := by rw [yyClass, if_neg h]

/-! ## The matcher's memory -/

def Lexer.mark (s : Lexer) (state cp : Nat) : Lexer := { s with yy_last_accepting_state := state, yy_last_accepting_cpos := cp }

theorem accepting_mark (state cp : Nat) (s : Lexer) : ∃ a b, accepting state cp s = s.mark a b := by
  unfold accepting
  split
  · exact ⟨s.yy_last_accepting_state, s.yy_last_accepting_cpos, rfl⟩
  · exact ⟨state, cp, rfl⟩

theorem previousLoop_spec {s : Lexer} {p : List UInt8} {cp : Nat} (h : Holds s.buffer.yy_ch_buf cp p) (state : Nat) :
    ∃ a b, previousLoop p.length state cp s = .ok (p.foldl (fun state b => yyTrans 13 state (yyClass b)) state, s.mark a b) := by
  induction p generalizing state cp s with
  | nil => exact ⟨s.yy_last_accepting_state, s.yy_last_accepting_cpos, rfl⟩
  | cons x p ih =>
    obtain ⟨hx, hp⟩ := holds_cons.mp h
    obtain ⟨a, b, hab⟩ := accepting_mark state cp s
    obtain ⟨a', b', hprev⟩ := @ih (s.mark a b) (cp + 1) hp (yyTrans 13 state (yyClass x))
    refine ⟨a', b', ?_⟩
    rw [List.length_cons, previousLoop, hx, hab]
    exact hprev

/-- The state in front of the end of the buffer. -/
theorem yy_get_previous_state_spec {s : Lexer} {p : List UInt8} (h : Holds s.buffer.yy_ch_buf s.yytext_ptr p)
    (hc : s.yy_c_buf_p = s.yytext_ptr + p.length) : ∃ a b, yy_get_previous_state s = .ok (yyRun p, s.mark a b) := by
  rw [yy_get_previous_state, hc, Nat.add_sub_cancel_left]
  exact previousLoop_spec h yyStart

/-! ## Steps -/

theorem step_inl {m : Platform} {c c' : Yylex} (h : yylexTurn m c = .ok (.inl c')) : yylexStep m c = .inl c' := by
  rw [yylexStep, h]

theorem matchStep_eq {m : Platform} {c : Yylex} {b : UInt8} (hpc : c.pc = .yy_match) (hb : c.s.buffer.yy_ch_buf[c.yy_cp]? = some b) :
    yylexStep m c = .inl { c with
      pc := if yyBase (yyTrans 13 c.yy_current_state (yyEc b.toNat)) = yyJamBase then .yy_find_action else .yy_match
      yy_current_state := yyTrans 13 c.yy_current_state (yyEc b.toNat)
      yy_cp := c.yy_cp + 1
      s := accepting c.yy_current_state c.yy_cp c.s } := by
  apply step_inl
  rw [yylexTurn, hpc]
  show (matchStep c).map Sum.inl = _
  rw [matchStep, hb]
  rfl

/-- The match is cut off: a NUL byte behind it, the byte there kept in `yy_hold_char`. -/
def Lexer.cutOff (s : Lexer) (bp cp : Nat) (y : UInt8) : Lexer :=
  { s.put (s.buffer.yy_ch_buf.set cp 0) with yytext_ptr := bp, yyleng := cp - bp, yy_hold_char := y, yy_c_buf_p := cp }

theorem findActionStep_eq {m : Platform} {c : Yylex} {state cp : Nat} {y : UInt8} (hpc : c.pc = .yy_find_action)
    (hc : chosen c = (state, cp)) (hy : c.s.buffer.yy_ch_buf[cp]? = some y) :
    yylexStep m c = .inl ⟨.do_action, state, cp, c.yy_bp, yyAccept state, c.s.cutOff c.yy_bp cp y⟩ := by
  have hlt : cp < c.s.buffer.yy_ch_buf.length := (List.getElem?_eq_some_iff.mp hy).1
  apply step_inl
  rw [yylexTurn, hpc]
  show (findActionStep c).map Sum.inl = _
  unfold findActionStep
  rw [hc]
  show ((access c.s.buffer.yy_ch_buf[cp]?).bind _).map _ = _
  rw [hy]
  show ((access (store c.s.buffer.yy_ch_buf cp 0)).bind _).map _ = _
  rw [store_of_lt hlt]
  rfl

/-- What was cut off is put back. -/
theorem store_back {ch : List UInt8} {i : Nat} {y : UInt8} (h : ch[i]? = some y) : store (ch.set i 0) i y = some ch := by
  obtain ⟨hlt, hy⟩ := List.getElem?_eq_some_iff.mp h
  rw [store_of_lt (by rw [List.length_set]; exact hlt), List.set_set, ← hy, List.set_getElem_self]

theorem endOfBufferStep_eq {m : Platform} {c : Yylex} {ch : List UInt8} {amount : Int}
    (hs : store c.s.buffer.yy_ch_buf c.yy_cp c.s.yy_hold_char = some ch)
    (ha : toInt (toInt (c.yy_cp - c.s.yytext_ptr) - 1) = amount) :
    endOfBufferStep m c =
      if (newBuffer (c.s.put ch)).yy_c_buf_p ≤ (newBuffer (c.s.put ch)).yy_n_chars then nulStep amount c (newBuffer (c.s.put ch))
      else refillStep m amount c (newBuffer (c.s.put ch)) := by
  unfold endOfBufferStep
  rw [hs, ha]
  rfl

theorem eob_step {m : Platform} {c c' : Yylex} (hpc : c.pc = .do_action) (hact : c.yy_act = 7) (h : endOfBufferStep m c = .ok c') :
    yylexStep m c = .inl c' := by
  apply step_inl
  rw [yylexTurn, hpc]
  show doActionStep m c = _
  rw [doActionStep, hact]
  show (endOfBufferStep m c).map Sum.inl = _
  rw [h]
  rfl

theorem seek_amount (s : Lexer) (p : List UInt8) : s.seek ((s.yytext_ptr : Int) + p.length).toNat = s.seek (s.yytext_ptr + p.length) := by
  congr 1

theorem yy_try_NUL_trans_eq (state : Nat) (s : Lexer) :
    ∃ a b, yy_try_NUL_trans state s = (if yyTrans 13 state 1 = 11 then 0 else yyTrans 13 state 1, s.mark a b) := by
  obtain ⟨a, b, h⟩ := accepting_mark state s.yy_c_buf_p s
  refine ⟨a, b, ?_⟩
  rw [← h]
  rfl

/-- The NUL byte does not go on. -/
theorem nulStep_jam {s : Lexer} {p : List UInt8} (h : Holds s.buffer.yy_ch_buf s.yytext_ptr p) (c : Yylex)
    (hj : yyTrans 13 (yyRun p) 1 = 11) :
    ∃ a b, nulStep p.length c s = .ok { c with
      pc := .yy_find_action
      yy_current_state := yyRun p
      yy_cp := s.yytext_ptr + p.length
      yy_bp := s.yytext_ptr
      s := (s.seek (s.yytext_ptr + p.length)).mark a b } := by
  obtain ⟨a, b, hprev⟩ := @yy_get_previous_state_spec (s.seek (s.yytext_ptr + p.length)) p h rfl
  obtain ⟨a', b', htry⟩ := yy_try_NUL_trans_eq (yyRun p) ((s.seek (s.yytext_ptr + p.length)).mark a b)
  refine ⟨a', b', ?_⟩
  rw [if_pos hj] at htry
  unfold nulStep
  rw [seek_amount, hprev]
  simp only [bind, Except.bind, htry]
  rfl

/-- It does. -/
theorem nulStep_on {s : Lexer} {p : List UInt8} (h : Holds s.buffer.yy_ch_buf s.yytext_ptr p) (c : Yylex) {next : Nat}
    (hn : yyTrans 13 (yyRun p) 1 = next + 1) (hj : next + 1 ≠ 11) :
    ∃ a b, nulStep p.length c s = .ok { c with
      pc := .yy_match
      yy_current_state := next + 1
      yy_cp := s.yytext_ptr + p.length + 1
      yy_bp := s.yytext_ptr
      s := (s.seek (s.yytext_ptr + p.length + 1)).mark a b } := by
  obtain ⟨a, b, hprev⟩ := @yy_get_previous_state_spec (s.seek (s.yytext_ptr + p.length)) p h rfl
  obtain ⟨a', b', htry⟩ := yy_try_NUL_trans_eq (yyRun p) ((s.seek (s.yytext_ptr + p.length)).mark a b)
  refine ⟨a', b', ?_⟩
  rw [hn, if_neg hj] at htry
  unfold nulStep
  rw [seek_amount, hprev]
  simp only [bind, Except.bind, htry]
  rfl

theorem refillStep_eof {m : Platform} {s t : Lexer} (h : yy_get_next_buffer m s = .ok (.END_OF_FILE, t)) {amount : Int} {c : Yylex} :
    refillStep m amount c s = .ok { c with pc := .do_action, yy_act := YY_STATE_EOF, s := t.seek t.yytext_ptr } := by
  unfold refillStep
  rw [h]
  rfl

theorem refillStep_last {m : Platform} {s t : Lexer} {p : List UInt8} (h : yy_get_next_buffer m s = .ok (.LAST_MATCH, t))
    (hp : Holds t.buffer.yy_ch_buf t.yytext_ptr p) (hn : t.yy_n_chars = t.yytext_ptr + p.length) (amount : Int) (c : Yylex) :
    ∃ a b, refillStep m amount c s = .ok { c with
      pc := .yy_find_action
      yy_current_state := yyRun p
      yy_cp := t.yy_n_chars
      yy_bp := t.yytext_ptr
      s := (t.seek t.yy_n_chars).mark a b } := by
  obtain ⟨a, b, hprev⟩ := @yy_get_previous_state_spec (t.seek t.yy_n_chars) p hp hn
  refine ⟨a, b, ?_⟩
  unfold refillStep
  rw [h]
  show (yy_get_previous_state (t.seek t.yy_n_chars)).bind _ = _
  rw [hprev]
  rfl

/-- The match goes on where it was. -/
theorem refillStep_continue {m : Platform} {s t : Lexer} {p : List UInt8} (h : yy_get_next_buffer m s = .ok (.CONTINUE_SCAN, t))
    (hp : Holds t.buffer.yy_ch_buf t.yytext_ptr p) (c : Yylex) :
    ∃ a b, refillStep m p.length c s = .ok { c with
      pc := .yy_match
      yy_current_state := yyRun p
      yy_cp := t.yytext_ptr + p.length
      yy_bp := t.yytext_ptr
      s := (t.seek (t.yytext_ptr + p.length)).mark a b } := by
  obtain ⟨a, b, hprev⟩ := @yy_get_previous_state_spec (t.seek (t.yytext_ptr + p.length)) p hp rfl
  refine ⟨a, b, ?_⟩
  unfold refillStep
  rw [h]
  show (yy_get_previous_state (t.seek ((t.yytext_ptr : Int) + p.length).toNat)).bind _ = _
  rw [seek_amount, hprev]
  rfl

theorem newBuffer_eq {m : Platform} {N : Nat} {s : Lexer} (h : Kept m N s) :
    ∃ st, newBuffer s = { s with buffer := { s.buffer with yy_buffer_status := st } } ∧ st ≠ .NEW ∧
      (st = .EOF_PENDING → s.buffer.yy_buffer_status = .EOF_PENDING) := by
  unfold newBuffer
  by_cases hnew : s.buffer.yy_buffer_status = .NEW
  · rw [if_pos hnew, h.new hnew]
    refine ⟨.NORMAL, rfl, ?_, ?_⟩
    · intro h
      cases h
    · intro h
      cases h
  · rw [if_neg hnew]
    exact ⟨s.buffer.yy_buffer_status, rfl, hnew, id⟩

/-! ## What holds on the way -/

theorem not_mem_dropLast_right {α : Type} {x : α} {l r : List α} (h : x ∉ (l ++ r).dropLast) : x ∉ r.dropLast := by
  cases r with
  | nil => exact List.not_mem_nil
  | cons y r =>
    rw [List.dropLast_append_of_ne_nil (List.cons_ne_nil y r)] at h
    exact fun hx => h (List.mem_append_right l hx)

/-- Nothing follows what is last only. -/
theorem eq_nil_of_dropLast {α : Type} {x : α} {l r : List α} (h : x ∉ (l ++ r).dropLast) (hx : x ∈ l) : r = [] := by
  cases r with
  | nil => rfl
  | cons y r =>
    rw [List.dropLast_append_of_ne_nil (List.cons_ne_nil y r)] at h
    exact absurd (List.mem_append_left _ hx) h

/-- What every state on the way has in common: the characters `p` of the match, `left` behind
    them in the buffer, and the whole of it with what is to come. -/
structure Holding (m : Platform) (N : Nat) (e : Effects) (text p left : List UInt8) (c : Yylex) : Prop where
  kept : Kept m N c.s
  holds : Holds c.s.buffer.yy_ch_buf c.yy_bp (p ++ (left ++ [0, 0]))
  n_chars : c.s.yy_n_chars = c.yy_bp + p.length + left.length
  text : text = p ++ (left ++ c.s.yyin.text)
  line : e.isatty = true → nl ∉ (p ++ left).dropLast
  effects : c.s.effects = e

/-- In front of a transition. -/
structure Matching (m : Platform) (N : Nat) (e : Effects) (text p left : List UInt8) (c : Yylex) : Prop
    extends Holding m N e text p left c where
  pc : c.pc = .yy_match
  live : Live p
  state : c.yy_current_state = yyRun p
  cp : c.yy_cp = c.yy_bp + p.length

/-- In front of `yy_find_action`, which finds the match `p` and its rule. -/
structure Deciding (m : Platform) (N : Nat) (e : Effects) (text p left : List UInt8) (act : Nat) (c : Yylex) : Prop
    extends Holding m N e text p left c where
  pc : c.pc = .yy_find_action
  chosen : ∃ state, chosen c = (state, c.yy_bp + p.length) ∧ yyAccept state = act

/-- Between two matches, with `text` still to be scanned. -/
structure Ready (m : Platform) (N : Nat) (e : Effects) (text : List UInt8) (s : Lexer) : Prop where
  kept : Kept m N s
  rest : ∃ left, Holds (s.buffer.yy_ch_buf.set s.yy_c_buf_p s.yy_hold_char) s.yy_c_buf_p (left ++ [0, 0]) ∧
    s.yy_n_chars = s.yy_c_buf_p + left.length ∧ text = left ++ s.yyin.text ∧ (e.isatty = true → nl ∉ left.dropLast)
  effects : s.effects = e

/-- In front of the rule of a match. -/
structure Acting (m : Platform) (N : Nat) (e : Effects) (mt : Match) (c : Yylex) : Prop where
  pc : c.pc = .do_action
  act : c.yy_act = mt.act
  yytext : Holds c.s.buffer.yy_ch_buf c.s.yytext_ptr (mt.yytext ++ [0])
  ready : Ready m N e mt.rest c.s
  behind : e.isatty = true → nl ∈ mt.yytext → mt.rest = c.s.yyin.text

section
variable {m : Platform} {N : Nat} {e : Effects} {text p left : List UInt8} {c : Yylex}

theorem Deciding.goes {act : Nat} (h : Deciding m N e text p left act c) :
    ∃ c', Goes (yylexStep m) c c' ∧ Acting m N e ⟨act, p, left ++ c.s.yyin.text⟩ c' := by
  obtain ⟨state, hch, hacc⟩ := h.chosen
  obtain ⟨hp, hrest⟩ := holds_append.mp h.holds
  obtain ⟨y, hy, hback⟩ : ∃ y, c.s.buffer.yy_ch_buf[c.yy_bp + p.length]? = some y ∧
      store (c.s.buffer.yy_ch_buf.set (c.yy_bp + p.length) 0) (c.yy_bp + p.length) y = some c.s.buffer.yy_ch_buf := by
    have hlen : 0 < (left ++ [0, 0]).length := by simp
    exact ⟨_, hrest.get hlen, store_back (hrest.get hlen)⟩
  have hlt : c.yy_bp + p.length < c.s.buffer.yy_ch_buf.length := (List.getElem?_eq_some_iff.mp hy).1
  refine ⟨_, .one (findActionStep_eq h.pc hch hy), rfl, hacc, ?_, ⟨?_, ⟨left, ?_, h.n_chars, rfl, fun ht => ?_⟩, h.effects⟩,
    fun ht hnl => ?_⟩
  · exact holds_append.mpr ⟨hp.set (Or.inr (Nat.le_refl _)) 0, holds_set_self hlt 0⟩
  · exact ⟨⟨List.length_set.trans h.kept.own.length, h.kept.own.pos, h.kept.own.le, h.kept.own.our, h.kept.own.fill⟩, h.kept.room,
      h.kept.clean, h.kept.pending, h.kept.new, h.kept.tty⟩
  · have hset : (c.s.buffer.yy_ch_buf.set (c.yy_bp + p.length) 0).set (c.yy_bp + p.length) y = c.s.buffer.yy_ch_buf := by
      rw [store_of_lt (by rw [List.length_set]; exact hlt)] at hback
      exact Option.some.inj hback
    show Holds ((c.s.buffer.yy_ch_buf.set (c.yy_bp + p.length) 0).set (c.yy_bp + p.length) y) (c.yy_bp + p.length) _
    rw [hset]
    exact hrest
  · exact not_mem_dropLast_right (h.line ht)
  · rw [eq_nil_of_dropLast (h.line ht) hnl]
    rfl

/-- The action of the end of the buffer, or of a NUL byte, with everything put back. -/
structure AtEob (m : Platform) (N : Nat) (p : List UInt8) (c : Yylex) (s : Lexer) : Prop where
  kept : Kept m N s
  buffer : s.buffer.yy_ch_buf = c.s.buffer.yy_ch_buf
  status : s.buffer.yy_buffer_status ≠ .NEW
  yytext_ptr : s.yytext_ptr = c.yy_bp
  yy_c_buf_p : s.yy_c_buf_p = c.yy_bp + p.length + 1
  n_chars : s.yy_n_chars = c.s.yy_n_chars
  yyin : s.yyin = c.s.yyin
  effects : s.effects = c.s.effects

/-- Over a NUL byte and the byte behind it to `YY_END_OF_BUFFER`. -/
theorem Matching.eob (hm : m.Serves N) (h : Matching m N e text p left c) (hp : p.length ≤ N)
    (hz : c.s.buffer.yy_ch_buf[c.yy_cp]? = some 0) :
    ∃ c' s, Goes (yylexStep m) c c' ∧ c'.pc = .do_action ∧ c'.yy_act = 7 ∧ AtEob m N p c s ∧
      endOfBufferStep m c' = if s.yy_c_buf_p ≤ s.yy_n_chars then nulStep p.length c' s else refillStep m p.length c' s := by
  obtain ⟨y, hy⟩ : ∃ y, c.s.buffer.yy_ch_buf[c.yy_bp + p.length + 1]? = some y := by
    have hlen : p.length + 1 < (p ++ (left ++ [0, 0])).length := by
      simp only [List.length_append, List.length_cons, List.length_nil]
      omega
    exact ⟨_, Nat.add_assoc _ _ _ ▸ h.holds.get hlen⟩
  -- the byte itself
  have htr : yyTrans 13 c.yy_current_state (yyEc (0 : UInt8).toNat) = 3 := by
    rw [h.state]
    exact yyTrans_eob h.live
  obtain ⟨a, b, hab⟩ := accepting_mark c.yy_current_state c.yy_cp c.s
  have hstep1 := @matchStep_eq m c 0 h.pc hz
  rw [htr, if_neg (by decide), hab, h.cp] at hstep1
  -- the byte behind it
  have hstep2 := @matchStep_eq m ⟨.yy_match, 3, c.yy_bp + p.length + 1, c.yy_bp, c.yy_act, c.s.mark a b⟩ y rfl hy
  rw [show yyTrans 13 3 (yyEc y.toNat) = 11 from yyTrans_behind_eob y, if_pos (by decide)] at hstep2
  -- backing up
  have hstep3 := @findActionStep_eq m ⟨.yy_find_action, 11, c.yy_bp + p.length + 1 + 1, c.yy_bp, c.yy_act,
    (c.s.mark a b).mark 3 (c.yy_bp + p.length + 1)⟩ 3 (c.yy_bp + p.length + 1) y rfl rfl hy
  let back : Lexer := { c.s.mark 3 (c.yy_bp + p.length + 1) with
    yytext_ptr := c.yy_bp
    yyleng := c.yy_bp + p.length + 1 - c.yy_bp
    yy_hold_char := y
    yy_c_buf_p := c.yy_bp + p.length + 1 }
  have hkept : Kept m N back := ⟨h.kept.own, h.kept.room, h.kept.clean, h.kept.pending, h.kept.new, h.kept.tty⟩
  obtain ⟨st, hnb, hst, hpend⟩ := newBuffer_eq hkept
  refine ⟨_, newBuffer back, .next hstep1 (.next hstep2 (.one hstep3)), rfl, rfl, ?_, ?_⟩
  · rw [hnb]
    exact ⟨⟨⟨h.kept.own.length, h.kept.own.pos, h.kept.own.le, h.kept.own.our, h.kept.own.fill⟩, h.kept.room, h.kept.clean,
      fun he => h.kept.pending (hpend he), fun he => absurd he hst, h.kept.tty⟩, rfl, hst, rfl, rfl, rfl, rfl, rfl⟩
  · exact endOfBufferStep_eq (store_back hy) (toInt_move hp hm.int)

/-- The character in front of the match, of the input or of the end of the buffer. -/
theorem Matching.next (h : Matching m N e text p left c) {x : UInt8} (hx : (left ++ [0, 0]).head? = some x) :
    c.s.buffer.yy_ch_buf[c.yy_cp]? = some x := by
  obtain ⟨-, hrest⟩ := holds_append.mp h.holds
  obtain ⟨l, hl⟩ := List.head?_eq_some_iff.mp hx
  rw [hl, ← h.cp] at hrest
  exact (holds_cons.mp hrest).1

theorem AtEob.holds {s : Lexer} (h : AtEob m N p c s) (hc : Holding m N e text p left c) :
    Holds s.buffer.yy_ch_buf s.yytext_ptr (p ++ (left ++ [0, 0])) := by
  rw [h.buffer, h.yytext_ptr]
  exact hc.holds

/-- A NUL byte of the input is a character like any other that is no digit. -/
theorem Matching.nul (hm : m.Serves N) (h : Matching m N e text p (0 :: left) c) (hp : p.length ≤ N) :
    ∃ c', Goes (yylexStep m) c c' ∧ (p = [] ∧ Matching m N e text [0] left c' ∨
      p ≠ [] ∧ Deciding m N e text p (0 :: left) (yyAccept (yyRun p)) c') := by
  obtain ⟨c1, s, hgo, hpc, hact, he, heob⟩ := h.eob hm hp (h.next rfl)
  have hn := h.n_chars
  have hholds := he.holds h.toHolding
  have hpre : Holds s.buffer.yy_ch_buf s.yytext_ptr p := (holds_append.mp hholds).1
  have hnul : s.yy_c_buf_p ≤ s.yy_n_chars := by
    rw [he.yy_c_buf_p, he.n_chars, hn, List.length_cons]
    omega
  rw [if_pos hnul] at heob
  by_cases hne : p = []
  · subst hne
    obtain ⟨a, b, hst⟩ := @nulStep_on s [] hpre c1 3 rfl (by decide)
    refine ⟨_, hgo.trans (.one (eob_step hpc hact (heob.trans hst))), Or.inl ⟨rfl,
      ⟨⟨he.kept.own, he.kept.room, he.kept.clean, he.kept.pending, he.kept.new, he.kept.tty⟩, hholds, ?_, ?_, h.line, he.effects.trans h.effects⟩,
      rfl, Or.inr (Or.inr rfl), rfl, rfl⟩⟩
    · show s.yy_n_chars = s.yytext_ptr + [0].length + left.length
      rw [he.n_chars, he.yytext_ptr, hn]
      simp only [List.length_cons, List.length_nil]
      omega
    · show text = [0] ++ (left ++ s.yyin.text)
      rw [he.yyin]
      exact h.text
  · have hjam : yyTrans 13 (yyRun p) 1 = 11 := by
      rcases h.live with hl | ⟨-, hd⟩ | hl
      · exact absurd hl hne
      · exact yyTrans_digit (yyRun_digits hne hd) 0
      · subst hl
        rfl
    obtain ⟨a, b, hst⟩ := nulStep_jam hpre c1 hjam
    have hacc := yyAccept_run h.live hne
    refine ⟨_, hgo.trans (.one (eob_step hpc hact (heob.trans hst))), Or.inr ⟨hne,
      ⟨⟨he.kept.own, he.kept.room, he.kept.clean, he.kept.pending, he.kept.new, he.kept.tty⟩, hholds, ?_, ?_, h.line, he.effects.trans h.effects⟩,
      rfl, yyRun p, if_neg ?_, rfl⟩⟩
    · show s.yy_n_chars = s.yytext_ptr + p.length + (0 :: left).length
      rw [he.n_chars, he.yytext_ptr, hn]
    · show text = p ++ (0 :: left ++ s.yyin.text)
      rw [he.yyin]
      exact h.text
    · show yyAccept (yyRun p) ≠ 0
      rw [hacc]
      split <;> decide

theorem Live.not_mem_nl (h : Live p) : nl ∉ p := by
  rcases h with h | ⟨-, hd⟩ | h
  · rw [h]
    exact List.not_mem_nil
  · exact fun hnl => absurd (hd nl hnl) (by decide)
  · rw [h]
    decide

theorem not_mem_dropLast_append {α : Type} {x : α} {l r : List α} (hl : x ∉ l) (hr : x ∉ r.dropLast) : x ∉ (l ++ r).dropLast := by
  cases r with
  | nil =>
    rw [List.append_nil]
    exact fun hx => hl ((List.dropLast_sublist l).subset hx)
  | cons y r =>
    rw [List.dropLast_append_of_ne_nil (List.cons_ne_nil y r), List.mem_append, not_or]
    exact ⟨hl, hr⟩

/-- What the buffer holds once it is filled again, for any place of the scanner in it. -/
theorem Refilled.holding {s t : Lexer} {bs : List UInt8} (hr : Refilled m N p bs s t) (he : s.effects = e) (hp : nl ∉ p)
    (htext : text = p ++ s.yyin.text) {c' : Yylex} {a b cp : Nat} (hs : c'.s = (t.seek cp).mark a b) (hbp : c'.yy_bp = t.yytext_ptr) :
    Holding m N e text p bs c' := by
  obtain ⟨pc, state, cp', bp, act, s'⟩ := c'
  cases hs
  cases hbp
  have heff := hr.effects.trans he
  refine ⟨⟨hr.kept.own, hr.kept.room, hr.kept.clean, hr.kept.pending, hr.kept.new, hr.kept.tty⟩, ?_, ?_, ?_, ?_, heff⟩
  · show Holds t.buffer.yy_ch_buf t.yytext_ptr (p ++ (bs ++ [0, 0]))
    rw [hr.yytext_ptr, ← List.append_assoc]
    exact hr.holds
  · show t.yy_n_chars = t.yytext_ptr + p.length + bs.length
    rw [hr.n_chars, hr.yytext_ptr, Nat.zero_add]
  · show text = p ++ (bs ++ t.yyin.text)
    rw [htext, hr.text]
  · intro ht
    have htty : t.yyin.isatty = true := by rw [← ht, ← heff]; rfl
    exact not_mem_dropLast_append hp (hr.line htty)

/-- At the end of the buffer there is more, or the match is complete, or there is nothing left. -/
theorem Matching.refill (hm : m.Serves N) (h : Matching m N e text p [] c) (hp : p.length ≤ N) :
    ∃ c', Goes (yylexStep m) c c' ∧ ((∃ bs, bs ≠ [] ∧ Matching m N e text p bs c') ∨
      (p ≠ [] ∧ c'.s.yyin.text = [] ∧ Deciding m N e text p [] (yyAccept (yyRun p)) c') ∨
      (text = [] ∧ c'.pc = .do_action ∧ c'.yy_act = 8 ∧ Ready m N e [] c'.s)) := by
  obtain ⟨c1, s, hgo, hpc, hact, he, heob⟩ := h.eob hm hp (h.next rfl)
  have hn := h.n_chars
  rw [List.length_nil] at hn
  have hpre : Holds s.buffer.yy_ch_buf s.yytext_ptr p := (holds_append.mp (he.holds h.toHolding)).1
  have heof : ¬ s.yy_c_buf_p ≤ s.yy_n_chars := by
    rw [he.yy_c_buf_p, he.n_chars, hn]
    omega
  rw [if_neg heof] at heob
  obtain ⟨bs, t, hnext, hr, hheld⟩ := yy_get_next_buffer_spec hm he.kept hp hpre (by rw [he.yy_c_buf_p, he.yytext_ptr])
    (by rw [he.n_chars, he.yytext_ptr, hn, Nat.add_zero]) (fun hnew => absurd hnew he.status)
  have htext : text = p ++ s.yyin.text := by
    rw [he.yyin]
    exact h.text
  have heff : s.effects = e := he.effects.trans h.effects
  have hpre' : Holds t.buffer.yy_ch_buf t.yytext_ptr p := by
    rw [hr.yytext_ptr]
    exact (holds_append.mp (List.append_assoc p bs _ ▸ hr.holds)).1
  by_cases hbs : bs = []
  · have hnone : s.yyin.text = [] := hr.all hbs
    have hnone' : t.yyin.text = [] := by
      have := hr.text
      rw [hnone, hbs] at this
      exact this.symm
    by_cases hne : p = []
    · rw [actFor, if_neg (not_not_intro hbs), if_pos hne] at hnext hheld
      refine ⟨_, hgo.trans (.one (eob_step hpc hact (heob.trans (refillStep_eof hnext)))), Or.inr (Or.inr ⟨?_, rfl, rfl,
        ⟨hr.kept.own, hr.kept.room, hr.kept.clean, hr.kept.pending, hr.kept.new, hr.kept.tty⟩, ⟨[], ?_, ?_, ?_,
          fun _ => List.not_mem_nil⟩, hr.effects.trans heff⟩)⟩
      · rw [htext, hnone, hne]
        rfl
      · have hholds := hr.holds
        rw [hne, hbs, ← hr.yytext_ptr] at hholds
        obtain ⟨hlt, h0⟩ := List.getElem?_eq_some_iff.mp (holds_cons.mp hholds).1
        have hself : t.buffer.yy_ch_buf.set t.yytext_ptr 0 = t.buffer.yy_ch_buf := by
          conv => lhs; rw [← h0]
          exact List.set_getElem_self hlt
        show Holds (t.buffer.yy_ch_buf.set t.yytext_ptr t.yy_hold_char) t.yytext_ptr [0, 0]
        rw [hheld rfl, hself]
        exact hholds
      · show t.yy_n_chars = t.yytext_ptr + 0
        rw [hr.n_chars, hr.yytext_ptr, hne, hbs]
        rfl
      · exact hnone'.symm
    · rw [actFor, if_neg (not_not_intro hbs), if_neg hne] at hnext
      subst hbs
      have hseek : t.yy_n_chars = t.yytext_ptr + p.length := by
        rw [hr.n_chars, hr.yytext_ptr, List.length_nil]
        omega
      obtain ⟨a, b, hst⟩ := @refillStep_last m s t p hnext hpre' hseek p.length c1
      refine ⟨_, hgo.trans (.one (eob_step hpc hact (heob.trans hst))), Or.inr (Or.inl ⟨hne, hnone',
        hr.holding heff h.live.not_mem_nl htext rfl rfl, rfl, yyRun p, ?_, rfl⟩)⟩
      rw [← hseek]
      apply if_neg
      show yyAccept (yyRun p) ≠ 0
      rw [yyAccept_run h.live hne]
      split <;> decide
  · rw [actFor, if_pos hbs] at hnext
    obtain ⟨a, b, hst⟩ := refillStep_continue hnext hpre' c1
    exact ⟨_, hgo.trans (.one (eob_step hpc hact (heob.trans hst))), Or.inl ⟨bs, hbs,
      hr.holding heff h.live.not_mem_nl htext rfl rfl, rfl, h.live, rfl, rfl⟩⟩

theorem Holding.mark (h : Holding m N e text p left c) {c' : Yylex} {a b : Nat} (hs : c'.s = c.s.mark a b)
    (hbp : c'.yy_bp = c.yy_bp) : Holding m N e text p left c' := by
  obtain ⟨pc, state, cp, bp, act, s⟩ := c'
  cases hs
  cases hbp
  exact ⟨⟨h.kept.own, h.kept.room, h.kept.clean, h.kept.pending, h.kept.new, h.kept.tty⟩, h.holds, h.n_chars, h.text, h.line, h.effects⟩

/-- One more character is matched. -/
theorem Holding.shift {x : UInt8} (h : Holding m N e text p (x :: left) c) : Holding m N e text (p ++ [x]) left c := by
  refine ⟨h.kept, ?_, ?_, ?_, ?_, h.effects⟩
  · rw [List.append_assoc]
    exact h.holds
  · rw [h.n_chars, List.length_append, List.length_cons, List.length_singleton]
    omega
  · rw [List.append_assoc]
    exact h.text
  · rw [List.append_assoc]
    exact h.line

theorem Live.snoc {x : UInt8} (h : Live p) (hx : isDigit x = true) (h0 : p ≠ [0]) : Live (p ++ [x]) ∧ yyBase (yyRun (p ++ [x])) ≠ yyJamBase := by
  have hd : ∀ b ∈ p ++ [x], isDigit b = true := by
    intro b hb
    rcases List.mem_append.mp hb with hb | hb
    · rcases h with h | ⟨-, hd⟩ | h
      · rw [h] at hb
        cases hb
      · exact hd b hb
      · exact absurd h h0
    · rw [List.mem_singleton.mp hb]
      exact hx
  have hne : p ++ [x] ≠ [] := by simp
  refine ⟨Or.inr (Or.inl ⟨hne, hd⟩), ?_⟩
  rcases yyRun_digits hne hd with h | h <;> rw [h] <;> decide

/-- Behind a complete match the scanner jams. -/
theorem Live.jam {x : UInt8} (h : Live p) (hne : p ≠ []) (hx : p = [0] ∨ isDigit x = false) : yyRun (p ++ [x]) = 11 := by
  rw [yyRun_snoc]
  rcases h with h | ⟨-, hd⟩ | h
  · exact absurd h hne
  · have htr := yyTrans_digit (yyRun_digits hne hd) x
    rcases hx with h0 | hx
    · rw [h0] at hd
      exact absurd (hd 0 (by simp)) (by decide)
    · rw [htr, hx]
      rfl
  · rw [h]
    exact yyTrans_behind_nul x

/-- Any other character takes the match on, or shows that it is complete. -/
theorem Matching.byte {x : UInt8} (hx : x ≠ 0) (h : Matching m N e text p (x :: left) c) :
    ∃ c', Goes (yylexStep m) c c' ∧ (Matching m N e text (p ++ [x]) left c' ∨
      (p = [] ∧ isDigit x = false ∧ Deciding m N e text [x] left (ruleOf x) c') ∨
      (p ≠ [] ∧ (p = [0] ∨ isDigit x = false) ∧ Deciding m N e text p (x :: left) (yyAccept (yyRun p)) c')) := by
  have hstep := @matchStep_eq m c x h.pc (h.next rfl)
  rw [yyEc_class hx, h.state, ← yyRun_snoc] at hstep
  refine ⟨_, .one hstep, ?_⟩
  obtain ⟨a, b, hab⟩ := accepting_mark (yyRun p) c.yy_cp c.s
  by_cases hon : isDigit x = true ∧ p ≠ [0]
  · obtain ⟨hlive, hbase⟩ := h.live.snoc hon.1 hon.2
    refine Or.inl ⟨h.toHolding.shift.mark hab rfl, if_neg hbase, hlive, rfl, ?_⟩
    show c.yy_cp + 1 = c.yy_bp + (p ++ [x]).length
    rw [h.cp, List.length_append]
    rfl
  · have hend : p = [0] ∨ isDigit x = false := by
      cases hd : isDigit x with
      | true => exact Or.inl (Classical.byContradiction fun h0 => hon ⟨hd, h0⟩)
      | false => exact Or.inr rfl
    by_cases hne : p = []
    · subst hne
      have hd : isDigit x = false := hend.resolve_left (by simp)
      have htr := yyTrans_start x
      rw [hd, if_neg (by decide)] at htr
      refine Or.inr (Or.inl ⟨rfl, hd, h.toHolding.shift.mark hab rfl, if_pos htr.1, yyRun [x], ?_, htr.2⟩)
      have hcp := h.cp
      rw [List.length_nil, Nat.add_zero] at hcp
      show Calc.chosen ⟨_, yyRun [x], c.yy_cp + 1, c.yy_bp, c.yy_act, _⟩ = (yyRun [x], c.yy_bp + 1)
      rw [hcp]
      apply if_neg
      show yyAccept (yyRun [x]) ≠ 0
      exact htr.2 ▸ ruleOf_pos x
    · have hjam := h.live.jam hne hend
      have hacc := yyAccept_run h.live hne
      have hpos : yyAccept (yyRun p) ≠ 0 := by
        rw [hacc]
        split <;> decide
      refine Or.inr (Or.inr ⟨hne, hend, h.toHolding.mark hab rfl, if_pos (by rw [hjam]; rfl), yyRun p, ?_, rfl⟩)
      show Calc.chosen ⟨_, yyRun (p ++ [x]), c.yy_cp + 1, c.yy_bp, c.yy_act, accepting (yyRun p) c.yy_cp c.s⟩ = (yyRun p, c.yy_bp + p.length)
      rw [hjam, accepting, if_neg hpos, ← h.cp]
      rfl

/-! ## A match -/

/-- A complete match is the first of the text. -/
theorem matched_live {rest : List UInt8} (h : Live p) (hne : p ≠ []) (hr : p = [0] ∨ NoDigit rest) :
    matched (p ++ rest) = ⟨yyAccept (yyRun p), p, rest⟩ :: matched rest := by
  rw [yyAccept_run h hne]
  by_cases h0 : p = [0]
  · subst h0
    exact matched_byte rfl rest
  · rcases h with h | ⟨-, hd⟩ | h
    · exact absurd h hne
    · rw [if_neg h0]
      exact matched_digits hne hd (hr.resolve_left h0)
    · exact absurd h h0

/-- What is matched so far is no longer than the match will be. -/
theorem Live.length_le {rest : List UInt8} (h : Live p) (hN : ∀ mt ∈ matched (p ++ rest), mt.yytext.length ≤ N) : p.length ≤ N := by
  rcases h with h | ⟨hne, hd⟩ | h
  · rw [h]
    exact Nat.zero_le N
  · cases p with
    | nil => exact absurd rfl hne
    | cons b ds =>
      rw [List.cons_append, matched_cons, if_pos (hd b List.mem_cons_self),
        List.takeWhile_append_of_pos fun c hc => hd c (List.mem_cons_of_mem b hc)] at hN
      have hle := hN _ List.mem_cons_self
      simp only [List.length_cons, List.length_append] at hle ⊢
      omega
  · subst h
    exact hN _ (by rw [List.singleton_append, matched_byte rfl]; exact List.mem_cons_self)

theorem noDigit_cons {x : UInt8} (h : isDigit x = false) (rest : List UInt8) : NoDigit (x :: rest) := by
  intro b hb
  cases hb
  exact h

/-- From in front of a transition to the rule of the first match, or to the end. The induction
    is on what is not matched yet, where a character still to be read counts twice. -/
theorem Matching.goes (hm : m.Serves N) (hN : ∀ mt ∈ matched text, mt.yytext.length ≤ N) (h : Matching m N e text p left c) :
    ∃ c', Goes (yylexStep m) c c' ∧ ((text = [] ∧ c'.pc = .do_action ∧ c'.yy_act = 8 ∧ Ready m N e [] c'.s) ∨
      ∃ mt, matched text = mt :: matched mt.rest ∧ Acting m N e mt c') := by
  induction hk : 2 * text.length - (2 * p.length + left.length) using Nat.strongRecOn generalizing p left c with
  | ind k ih =>
    have hlen := congrArg List.length h.text
    simp only [List.length_append] at hlen
    have htext := h.text
    have hp : p.length ≤ N := by
      rw [htext] at hN
      exact h.live.length_le hN
    have decided : ∀ {q l : List UInt8} {act : Nat} {c1 : Yylex}, Goes (yylexStep m) c c1 → Deciding m N e text q l act c1 →
        (matched text = ⟨act, q, l ++ c1.s.yyin.text⟩ :: matched (l ++ c1.s.yyin.text)) →
        ∃ c', Goes (yylexStep m) c c' ∧ ((text = [] ∧ c'.pc = .do_action ∧ c'.yy_act = 8 ∧ Ready m N e [] c'.s) ∨
          ∃ mt, matched text = mt :: matched mt.rest ∧ Acting m N e mt c') := by
      intro q l act c1 hgo hd hmt
      obtain ⟨c2, hgo2, ha⟩ := hd.goes
      exact ⟨c2, hgo.trans hgo2, Or.inr ⟨_, hmt, ha⟩⟩
    cases left with
    | nil =>
      obtain ⟨c1, hgo, ⟨bs, hbs, h1⟩ | ⟨hne, hnone, h1⟩ | ⟨ht, hpc, hact, hr⟩⟩ := h.refill hm hp
      · have hlen1 := congrArg List.length h1.text
        simp only [List.length_append] at hlen1
        have hpos := List.length_pos_iff.mpr hbs
        obtain ⟨c2, hgo2, h2⟩ := ih _ (by simp only [List.length_nil] at hk; omega) h1 rfl
        exact ⟨c2, hgo.trans hgo2, h2⟩
      · refine decided hgo h1 ?_
        have ht1 := h1.text
        rw [hnone] at ht1 ⊢
        rw [ht1]
        exact matched_live h.live hne (Or.inr (fun b hb => by cases hb))
      · exact ⟨c1, hgo, Or.inl ⟨ht, hpc, hact, hr⟩⟩
    | cons x left =>
      rw [List.length_cons] at hlen hk
      by_cases hx : x = 0
      · subst hx
        obtain ⟨c1, hgo, ⟨hp0, h1⟩ | ⟨hne, h1⟩⟩ := h.nul hm hp
        · subst hp0
          obtain ⟨c2, hgo2, h2⟩ := ih _ (by simp only [List.length_nil, List.length_cons] at hk hlen ⊢; omega) h1 rfl
          exact ⟨c2, hgo.trans hgo2, h2⟩
        · refine decided hgo h1 ?_
          conv => lhs; rw [h1.text]
          exact matched_live h.live hne (Or.inr (noDigit_cons rfl _))
      · obtain ⟨c1, hgo, h1 | ⟨-, hd, h1⟩ | ⟨hne, hend, h1⟩⟩ := h.byte hx
        · obtain ⟨c2, hgo2, h2⟩ := ih _ (by simp only [List.length_append, List.length_singleton]; omega) h1 rfl
          exact ⟨c2, hgo.trans hgo2, h2⟩
        · refine decided hgo h1 ?_
          conv => lhs; rw [h1.text]
          exact matched_byte hd _
        · refine decided hgo h1 ?_
          conv => lhs; rw [h1.text]
          exact matched_live h.live hne (hend.imp_right fun hd => noDigit_cons hd _)

theorem Ready.matching {s : Lexer} (h : Ready m N e text s) (hpc : c.pc = .scan) (hs : c.s = s) :
    ∃ left c', yylexStep m c = .inl c' ∧ Matching m N e text [] left c' := by
  subst hs
  obtain ⟨left, hholds, hn, htext, hline⟩ := h.rest
  have hlt : c.s.yy_c_buf_p < c.s.buffer.yy_ch_buf.length := by
    have hb := hholds.bound (by simp)
    simp only [List.length_set, List.length_append, List.length_cons, List.length_nil] at hb
    omega
  have hstep : yylexStep m c = .inl { c with
      pc := .yy_match
      yy_current_state := yyStart
      yy_cp := c.s.yy_c_buf_p
      yy_bp := c.s.yy_c_buf_p
      s := c.s.put (c.s.buffer.yy_ch_buf.set c.s.yy_c_buf_p c.s.yy_hold_char) } := by
    apply step_inl
    rw [yylexTurn, hpc]
    show (scanStep c).map Sum.inl = _
    rw [scanStep, store_of_lt hlt]
    rfl
  have hown := h.kept.own
  refine ⟨left, _, hstep, ⟨⟨⟨List.length_set.trans hown.length, hown.pos, hown.le, hown.our, hown.fill⟩, h.kept.room, h.kept.clean,
    h.kept.pending, h.kept.new, h.kept.tty⟩, hholds, ?_, htext, hline, h.effects⟩, rfl, Or.inl rfl, rfl, rfl⟩
  exact hn

/-! ## Its rule -/

theorem matched_act {mt : Match} {ms : List Match} (h : matched text = mt :: ms) :
    0 < mt.act ∧ mt.act < 6 ∧ (0 ∉ mt.yytext ∨ mt = ⟨5, [0], mt.rest⟩) := by
  cases text with
  | nil => cases h
  | cons b bs =>
    rw [matched_cons] at h
    cases hb : isDigit b with
    | true =>
      rw [hb, if_pos rfl] at h
      cases h
      refine ⟨by simp, by simp, Or.inl ?_⟩
      intro h0
      rcases List.mem_cons.mp h0 with h0 | h0
      · rw [← h0] at hb
        cases hb
      · exact absurd (List.all_eq_true.mp List.all_takeWhile 0 h0) (by decide)
    | false =>
      rw [hb, if_neg (by decide)] at h
      cases h
      refine ⟨Nat.pos_of_ne_zero (ruleOf_pos b), ?_, ?_⟩
      · show ruleOf b < 6
        unfold ruleOf
        split_ifs <;> decide
      · by_cases h0 : b = 0
        · subst h0
          exact Or.inr rfl
        · exact Or.inl fun hm => h0 (List.mem_singleton.mp hm).symm

/-- The string that the rule sees ends where the match does. -/
theorem cstring_eq {ch ys : List UInt8} {q : Nat} (h : Holds ch q (ys ++ [0])) (h0 : 0 ∉ ys) : cstring ch q = ys := by
  obtain ⟨l, hl⟩ := h
  rw [cstring, ← hl, List.append_assoc, List.takeWhile_append_of_pos]
  · simp
  · intro b hb
    exact decide_eq_true fun he => h0 (he ▸ hb)

theorem Acting.rule {mt : Match} {ms : List Match} (h : Acting m N e mt c) (hmt : matched text = mt :: ms) :
    yylexStep m c = match doAction mt.act mt.yytext with
      | .token t => .inr (.returned (some t) c.s)
      | .ignored => .inl { c with pc := .scan }
      | .yyerror e => .inl { c with pc := .scan, s := { c.s with stderr := c.s.stderr ++ [e] } } := by
  obtain ⟨hpos, hlt, htext⟩ := matched_act hmt
  have hsees : doAction mt.act (cstring c.s.buffer.yy_ch_buf c.s.yytext_ptr) = doAction mt.act mt.yytext := by
    rcases htext with h0 | h5
    · rw [cstring_eq h.yytext h0]
    · rw [h5]
      cases cstring c.s.buffer.yy_ch_buf c.s.yytext_ptr <;> rfl
  have hact : yylexTurn m c = .ok (ruleStep c) := by
    rw [yylexTurn, h.pc]
    show doActionStep m c = _
    have hc := h.act
    match ha : mt.act, hpos, hlt with
    | 1, _, _ | 2, _, _ | 3, _, _ | 4, _, _ | 5, _, _ =>
      rw [ha] at hc
      rw [doActionStep, hc]
      rfl
  rw [yylexStep, hact, ruleStep, h.act, hsees]
  cases doAction mt.act mt.yytext <;> rfl

end

/-! ## Calls -/

/-- What a call finds in the matches of a text: the errors on the way, the token, and what is
    left. -/
def nextOf : List Match → List String × Option Token × List UInt8
  | [] => ([], none, [])
  | mt :: ms =>
    match doAction mt.act mt.yytext with
    | .token t => ([], some t, mt.rest)
    | .ignored => nextOf ms
    | .yyerror e => (e :: (nextOf ms).1, (nextOf ms).2)

def next (text : List UInt8) : List String × Option Token × List UInt8 := nextOf (matched text)

/-- Calls of `yylex`, one after the other. -/
inductive Calls (m : Platform) : Lexer → List (Option Token) → Lexer → Prop
  | nil (s : Lexer) : Calls m s [] s
  | cons {s s1 s' : Lexer} {t : Option Token} {ts : List (Option Token)} :
      Ends (yylexStep m) (yylexEntry s) (.returned t s1) → Calls m s1 ts s' → Calls m s (t :: ts) s'

section
variable {m : Platform} {N : Nat} {e : Effects} {text : List UInt8} {s : Lexer}

theorem Ready.wrote (h : Ready m N e text s) (msg : String) :
    Ready m N (e.wrote [msg]) text { s with stderr := s.stderr ++ [msg] } := by
  refine ⟨⟨h.kept.own, h.kept.room, h.kept.clean, h.kept.pending, h.kept.new, h.kept.tty⟩, h.rest, ?_⟩
  rw [← h.effects]
  rfl

/-- The end of the line is the last thing a newline token was found in. -/
theorem doAction_newline {act : Nat} {ys : List UInt8} (h : doAction act ys = .token .newline) : nl ∈ ys := by
  cases hact : calcRule act ys with
  | ret yychar yylval =>
    rw [doAction, hact] at h
    have hof : Token.of yychar yylval = some .newline := by
      revert h
      simp only
      cases Token.of yychar yylval <;> simp
    cases yylval with
    | some n =>
      rw [Token.of] at hof
      split at hof
      · cases hof
      · split at hof <;> cases hof
    | none =>
      have hc : 10 = yychar := (charToken_some hof).1
      unfold calcRule at hact
      split at hact <;> cases hact
      next b ys => exact List.mem_cons.mpr (Or.inl (UInt8.toNat_inj.mp hc))
  | nothing | yyerror =>
    rw [doAction, hact] at h
    cases h

theorem yylex_ends (hm : m.Serves N) {ms : List Match} (hms : matched text = ms) (hN : ∀ mt ∈ matched text, mt.yytext.length ≤ N)
    (h : Ready m N e text s) {c : Yylex} (hpc : c.pc = .scan) (hs : c.s = s) :
    ∃ s', Ends (yylexStep m) c (.returned (nextOf ms).2.1 s') ∧ Ready m N (e.wrote (nextOf ms).1) (nextOf ms).2.2 s' ∧
      (e.isatty = true → (nextOf ms).2.1 = some .newline → s'.yyin.text = (nextOf ms).2.2) := by
  induction ms generalizing text s e c with
  | nil =>
    obtain ⟨left, c1, hst, h1⟩ := h.matching hpc hs
    obtain ⟨c2, hgo, ⟨-, hpc2, hact, hr⟩ | ⟨mt, hmt, -⟩⟩ := h1.goes hm hN
    · have hret : yylexTurn m c2 = .ok (.inr (none, c2.s)) := by
        rw [yylexTurn, hpc2]
        show doActionStep m c2 = _
        rw [doActionStep, hact]
        rfl
      refine ⟨c2.s, ⟨c2, .next hst hgo, by rw [yylexStep, hret]; rfl⟩, ?_, fun _ h => by cases h⟩
      rw [nextOf, Effects.wrote_nil]
      exact hr
    · rw [hms] at hmt
      cases hmt
  | cons mt ms ih =>
    obtain ⟨left, c1, hst, h1⟩ := h.matching hpc hs
    obtain ⟨c2, hgo, ⟨ht, -, -, -⟩ | ⟨mt', hmt, ha⟩⟩ := h1.goes hm hN
    · rw [ht] at hms
      cases hms
    · obtain ⟨rfl, hrest⟩ : mt' = mt ∧ matched mt'.rest = ms := List.cons.inj (hmt.symm.trans hms)
      have hrule := ha.rule hmt
      have hN' : ∀ mt ∈ matched mt'.rest, mt.yytext.length ≤ N := fun mt hmem => hN mt (hmt ▸ List.mem_cons_of_mem _ hmem)
      rw [nextOf]
      cases hdo : doAction mt'.act mt'.yytext with
      | token t =>
        rw [hdo] at hrule
        refine ⟨c2.s, ⟨c2, .next hst hgo, hrule⟩, ?_, fun hatty ht => ?_⟩
        · rw [Effects.wrote_nil]
          exact ha.ready
        · cases ht
          exact (ha.behind hatty (doAction_newline hdo)).symm
      | ignored =>
        rw [hdo] at hrule
        obtain ⟨s', he, hr, hl⟩ := @ih e mt'.rest c2.s hrest hN' ha.ready { c2 with pc := .scan } rfl rfl
        exact ⟨s', ((Goes.next hst hgo).trans (.one hrule)).ends_iff _ |>.mpr he, hr, hl⟩
      | yyerror msg =>
        rw [hdo] at hrule
        obtain ⟨s', he, hr, hl⟩ := @ih (e.wrote [msg]) mt'.rest _ hrest hN' (ha.ready.wrote msg)
          { c2 with pc := .scan, s := { c2.s with stderr := c2.s.stderr ++ [msg] } } rfl rfl
        refine ⟨s', ((Goes.next hst hgo).trans (.one hrule)).ends_iff _ |>.mpr he, ?_, hl⟩
        rw [Effects.wrote_wrote] at hr
        exact hr

/-- A call returns what is found in the text still to be scanned, and leaves the rest of it. From
    a terminal nothing is read past the newline that is returned. -/
theorem yylex_returns (hm : m.Serves N) (hN : ∀ mt ∈ matched text, mt.yytext.length ≤ N) (h : Ready m N e text s) :
    ∃ s', Ends (yylexStep m) (yylexEntry s) (.returned (next text).2.1 s') ∧ Ready m N (e.wrote (next text).1) (next text).2.2 s' ∧
      (e.isatty = true → (next text).2.1 = some .newline → s'.yyin.text = (next text).2.2) :=
  yylex_ends hm rfl hN h rfl rfl

/-! ## From the first call on -/

def Round.error? : Round → Option String
  | .yyerror e => some e
  | _ => none

/-- What is written about a text. -/
def errors (text : List UInt8) : List String := (lexed text).filterMap Round.error?

theorem nextOf_spec {ms : List Match} (h : matched text = ms) :
    tokens text = (nextOf ms).2.1.toList ++ tokens (nextOf ms).2.2 ∧ errors text = (nextOf ms).1 ++ errors (nextOf ms).2.2 ∧
      ((nextOf ms).2.1 = none → (nextOf ms).2.2 = []) ∧ ∀ mt ∈ matched (nextOf ms).2.2, mt ∈ ms := by
  induction ms generalizing text with
  | nil =>
    have ht : lexed text = [] := by rw [lexed_eq_map, h]; rfl
    refine ⟨?_, ?_, fun _ => rfl, fun mt hmt => by cases hmt⟩
    · rw [tokens, ht]
      rfl
    · rw [errors, ht]
      rfl
  | cons mt ms ih =>
    have hrest : matched mt.rest = ms := by
      cases text with
      | nil => cases h
      | cons b bs =>
        rw [matched_cons] at h
        split at h <;> (cases h; rfl)
    have hlex : lexed text = doAction mt.act mt.yytext :: lexed mt.rest := by
      rw [lexed_eq_map, h, List.map_cons, lexed_eq_map, hrest]
    obtain ⟨iht, ihe, ihn, ihm⟩ := ih hrest
    rw [nextOf, tokens, errors, hlex]
    cases hdo : doAction mt.act mt.yytext with
    | token t =>
      refine ⟨rfl, rfl, ?_, fun mt' hmt' => List.mem_cons_of_mem mt (hrest ▸ hmt')⟩
      intro hnone
      cases hnone
    | ignored => exact ⟨iht, ihe, ihn, fun mt' hmt' => List.mem_cons_of_mem mt (ihm mt' hmt')⟩
    | yyerror e => exact ⟨iht, congrArg (e :: ·) ihe, ihn, fun mt' hmt' => List.mem_cons_of_mem mt (ihm mt' hmt')⟩

theorem next_spec (text : List UInt8) :
    tokens text = (next text).2.1.toList ++ tokens (next text).2.2 ∧ errors text = (next text).1 ++ errors (next text).2.2 ∧
      ((next text).2.1 = none → (next text).2.2 = []) ∧ ∀ mt ∈ matched (next text).2.2, mt ∈ matched text := nextOf_spec rfl

/-- The first buffer, empty, and nothing read. -/
theorem yylexInit_ready (hm : m.Serves N) (text : List UInt8) (isatty : Bool) :
    ∃ s, yylexInit m ⟨text.map .char, false, isatty⟩ = .ok s ∧ Ready m N ⟨[], [], isatty⟩ text s ∧ s.yyin.text = text := by
  obtain ⟨ch, hch, hlen⟩ := hm.yyalloc
  obtain ⟨ch', hs, hl, hh⟩ := store_eob (holds_nil ch 0) (by rw [List.length_nil]; omega)
  obtain ⟨ch1, h1, h2⟩ := Option.bind_eq_some_iff.mp hs
  have hsize := hm.YY_BUF_SIZE
  have hbytes : size_t ((m.YY_BUF_SIZE : Int) + 2) = m.YY_BUF_SIZE + 2 := by
    unfold size_t
    omega
  have h0 := (holds_cons.mp hh).1
  have htext : Stream.text ⟨text.map .char, false, isatty⟩ = text := filterMap_chars text
  have hcreate : yy_create_buffer m ⟨text.map .char, false, isatty⟩ m.YY_BUF_SIZE =
      .ok ⟨ch', 0, m.YY_BUF_SIZE, 0, true, isatty, true, .NEW⟩ := by
    unfold yy_create_buffer
    rw [hbytes, hch]
    show ((access (store ch _ _)).bind _).bind _ = _
    rw [show store ch 0 YY_END_OF_BUFFER_CHAR = some ch1 from h1]
    show ((access (store ch1 _ _)).bind _).bind _ = _
    rw [show store ch1 1 YY_END_OF_BUFFER_CHAR = some ch' from h2]
    rfl
  have hinit : yylexInit m ⟨text.map .char, false, isatty⟩ =
      .ok ⟨⟨ch', 0, m.YY_BUF_SIZE, 0, true, isatty, true, .NEW⟩, 0, 0, 0, 0, 0, 0, 0, ⟨text.map .char, false, isatty⟩, [], []⟩ := by
    unfold yylexInit
    rw [hcreate]
    show (access ch'[0]?).bind _ = _
    rw [h0]
    rfl
  have hself : ch'.set 0 0 = ch' := by
    obtain ⟨hlt, hget⟩ := List.getElem?_eq_some_iff.mp h0
    conv => lhs; rw [← hget]
    exact List.set_getElem_self hlt
  refine ⟨_, hinit, ⟨⟨⟨hl.trans hlen, hsize.1, Nat.le_max_left _ _, rfl, rfl⟩, hsize.1, ⟨?_, rfl⟩, ?_, fun _ => rfl, rfl⟩,
    ⟨[], ?_, rfl, htext.symm, fun _ => List.not_mem_nil⟩, rfl⟩, htext⟩
  · exact congrArg (List.map Getc.char) htext.symm
  · intro hpend
    cases hpend
  · show Holds (ch'.set 0 0) 0 [0, 0]
    rw [hself]
    exact hh

theorem Ready.calls (hm : m.Serves N) (n : Nat) (hN : ∀ mt ∈ matched text, mt.yytext.length ≤ N) (h : Ready m N e text s) :
    ∃ s' errs rest, Calls m s ((List.range n).map fun i => (tokens text)[i]?) s' ∧ Ready m N (e.wrote errs) rest s' ∧
      errors text = errs ++ errors rest ∧ (text = [] ∨ (tokens text).length < n → rest = []) := by
  induction n generalizing text e s with
  | zero =>
    refine ⟨s, [], text, .nil s, ?_, rfl, ?_⟩
    · rw [Effects.wrote_nil]
      exact h
    · intro hend
      exact hend.resolve_right (Nat.not_lt_zero _)
  | succ n ih =>
    obtain ⟨htok, herr, hnone, hmem⟩ := next_spec text
    obtain ⟨s1, he, h1, -⟩ := yylex_returns hm hN h
    obtain ⟨s', errs, rest, hcalls, hr, hes, hall⟩ := ih (fun mt hmt => hN mt (hmem mt hmt)) h1
    refine ⟨s', (next text).1 ++ errs, rest, ?_, ?_, ?_, ?_⟩
    · have hlist : ((List.range (n + 1)).map fun i => (tokens text)[i]?) =
          (next text).2.1 :: (List.range n).map fun i => (tokens (next text).2.2)[i]? := by
        rw [List.range_succ_eq_map, List.map_cons, List.map_map]
        cases ht : (next text).2.1 with
        | none =>
          rw [ht] at htok
          have hnil := hnone ht
          rw [hnil] at htok ⊢
          rw [htok]
          rfl
        | some t =>
          rw [ht] at htok
          rw [htok]
          rfl
      rw [hlist]
      exact .cons he hcalls
    · rw [← Effects.wrote_wrote]
      exact hr
    · rw [herr, hes, List.append_assoc]
    · intro hend
      apply hall
      cases ht : (next text).2.1 with
      | none => exact Or.inl (hnone ht)
      | some t =>
        rcases hend with hnil | hlt
        · subst hnil
          cases ht
        · rw [htok, ht] at hlt
          exact Or.inr (Nat.lt_of_succ_lt_succ hlt)

/-- However the input comes and wherever the buffer ends, the calls return the tokens of the text,
    and then `YY_NULL`, again and again; what is no token is reported. The buffer stays as
    small as the longest match allows. -/
theorem yylex_tokens (hm : m.Serves N) (text : List UInt8) (hN : ∀ mt ∈ matched text, mt.yytext.length ≤ N) (isatty : Bool) :
    ∃ s, yylexInit m ⟨text.map .char, false, isatty⟩ = .ok s ∧ ∀ n,
      ∃ s', Calls m s ((List.range n).map fun i => (tokens text)[i]?) s' ∧ s'.yyout = [] ∧ s'.stderr <+: errors text ∧
        ((tokens text).length < n → s'.stderr = errors text) ∧ s'.buffer.yy_buf_size ≤ max m.YY_BUF_SIZE (2 * N + 2) := by
  obtain ⟨s, hs, h, -⟩ := yylexInit_ready hm text isatty
  refine ⟨s, hs, fun n => ?_⟩
  obtain ⟨s', errs, rest, hcalls, hr, herr, hall⟩ := h.calls hm n hN
  have hstderr : s'.stderr = errs := congrArg Effects.stderr hr.effects
  refine ⟨s', hcalls, congrArg Effects.yyout hr.effects, ?_, ?_, hr.kept.own.le⟩
  · rw [hstderr, herr]
    exact List.prefix_append errs _
  · intro hlt
    rw [hstderr, herr, hall (Or.inr hlt)]
    exact (List.append_nil errs).symm

end

/-- The macros as lex.yy.c has them, and memory that is there and zero. -/
def hosted : Platform :=
  ⟨16384, 8192, fun n => some (List.replicate n 0), fun ch n => some (ch.take n ++ List.replicate (n - ch.length) 0)⟩

theorem hosted_serves {N : Nat} (hN : N < 2147483647) : hosted.Serves N := by
  refine ⟨⟨by decide, by decide⟩, by decide, hN, ⟨_, rfl, List.length_replicate⟩, fun ch n _ => ⟨_, rfl, ?_, List.prefix_append _ _⟩⟩
  rw [List.length_append, List.length_take, List.length_replicate]
  omega

/-- A NUL byte between two digits, from a terminal. -/
theorem yylex_tokens_nul : ∃ s, yylexInit hosted ⟨[49, 0, 50, 10].map .char, false, true⟩ = .ok s ∧ ∀ n,
    ∃ s', Calls hosted s ((List.range n).map fun i => [.INTEGER 1, .INTEGER 2, .newline][i]?) s' ∧
      (3 < n → s'.stderr = ["invalid input"]) := by
  obtain ⟨s, hs, h⟩ := yylex_tokens (hosted_serves (by decide : 1 < 2147483647)) [49, 0, 50, 10] (by decide) true
  refine ⟨s, hs, fun n => ?_⟩
  obtain ⟨s', hc, -, -, he, -⟩ := h n
  exact ⟨s', hc, he⟩

end NetworkCourse.Calc
