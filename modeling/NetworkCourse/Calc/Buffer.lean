/-
  NetworkCourse.Calc.Buffer — the input buffer of packetdrill/lex.yy.c.

  A buffer holds the characters read so far and two NUL bytes behind them. When the scanner
  gets there, `yy_get_next_buffer` moves what is matched so far to the front, doubles the
  buffer if that fills it, reads more behind it with `YY_INPUT`, and says how to go on. Pointers
  are offsets into `yy_ch_buf`; any access outside of it is an abort. The two sizes and the
  allocator are parameters (`Platform`): both macros can be set from outside, and memory comes
  with any content.

  `yy_get_next_buffer_spec`: with what is matched so far `p`, the buffer holds `p` and what was
  read behind it, nothing of the input is lost, and the scanner is told to go on, to take the
  last match, or that the input is at its end, as something was read or not and `p` is empty or
  not. The buffer has room, and is no larger than `p` needs.
-/

import NetworkCourse.Lib.Window
import NetworkCourse.Lib.CInt
import NetworkCourse.Lib.Ascii

namespace NetworkCourse.Calc

open Lib.Window Lib.Ascii Lib.CInt

/-- Why the scanner does not return. -/
inductive Abort where
  | fatal (msg : String)
  | outOfBounds
  | loops
  deriving DecidableEq

/-- A load or a store through a pointer. -/
def access {β : Type} (x : Option β) : Except Abort β := x.elim (.error .outOfBounds) .ok

@[simp] theorem access_some {β : Type} (b : β) : access (some b) = .ok b := rfl

def size_t (n : Int) : Nat := (n % 18446744073709551616).toNat

/-! ## The input -/

/-- What one `getc` comes to. Filled the last one it is `EOF`, from then on. -/
inductive Getc where
  | char (b : UInt8)
  | error (eintr : Bool)
  deriving DecidableEq

structure Stream where
  coming : List Getc
  ferror : Bool
  isatty : Bool
  deriving DecidableEq

/-- Why a loop of `getc` ended. -/
inductive Ended where
  | stopped
  | eof
  | error (eintr : Bool)
  deriving DecidableEq

/-- Up to `n` characters, the last of them one that ends the loop. -/
def getcs (last : UInt8 → Bool) : Nat → List Getc → List UInt8 × Ended × List Getc
  | 0, cs => ([], .stopped, cs)
  | _ + 1, [] => ([], .eof, [])
  | _ + 1, .error e :: cs => ([], .error e, cs)
  | n + 1, .char b :: cs =>
    if last b then ([b], .stopped, cs)
    else
      let (bs, e, cs) := getcs last n cs
      (b :: bs, e, cs)

def Ended.failed : Ended → Bool
  | .error _ => true
  | _ => false

/-- The `fread` loop: again after an interrupted call that brought nothing. -/
def freadLoop (max_size : Nat) : Nat → Stream → Except Abort (List UInt8 × Stream)
  | 0, _ => .error .loops
  | k + 1, f =>
    let (bs, e, coming) := getcs (fun _ => false) max_size f.coming
    let ferror := f.ferror || e.failed
    if bs = [] ∧ ferror = true then
      if e = .error true then freadLoop max_size k { f with coming := coming, ferror := false }
      else .error (.fatal "input in flex scanner failed")
    else .ok (bs, { f with coming := coming, ferror := ferror })

/-- From a terminal line by line, else as much as there is. -/
def YY_INPUT (yy_is_interactive : Bool) (max_size : Nat) (f : Stream) : Except Abort (List UInt8 × Stream) :=
  if yy_is_interactive then
    let (bs, e, coming) := getcs (· == nl) max_size f.coming
    let ferror := f.ferror || e.failed
    if e ≠ .stopped ∧ ferror = true then .error (.fatal "input in flex scanner failed")
    else .ok (bs, { f with coming := coming, ferror := ferror })
  else freadLoop max_size (f.coming.length + 1) f

/-! ## Buffers -/

structure Platform where
  YY_BUF_SIZE : Nat
  YY_READ_BUF_SIZE : Nat
  yyalloc : Nat → Option (List UInt8)
  yyrealloc : List UInt8 → Nat → Option (List UInt8)

inductive Status where
  | NEW
  | NORMAL
  | EOF_PENDING
  deriving DecidableEq

structure BufferState where
  yy_ch_buf : List UInt8
  yy_buf_pos : Nat
  yy_buf_size : Nat
  yy_n_chars : Nat
  yy_is_our_buffer : Bool
  yy_is_interactive : Bool
  yy_fill_buffer : Bool
  yy_buffer_status : Status
  deriving DecidableEq

/-- The scanner's globals, with `YY_CURRENT_BUFFER` in `buffer`, and what was written. -/
structure Lexer where
  buffer : BufferState
  yy_hold_char : UInt8
  yy_n_chars : Nat
  yy_c_buf_p : Nat
  yytext_ptr : Nat
  yyleng : Nat
  yy_last_accepting_state : Nat
  yy_last_accepting_cpos : Nat
  yyin : Stream
  stderr : List String
  yyout : List UInt8
  deriving DecidableEq

def YY_END_OF_BUFFER_CHAR : UInt8 := 0

def yy_load_buffer_state (s : Lexer) : Except Abort Lexer := do
  let c ← access s.buffer.yy_ch_buf[s.buffer.yy_buf_pos]?
  .ok { s with
    yy_n_chars := s.buffer.yy_n_chars
    yytext_ptr := s.buffer.yy_buf_pos
    yy_c_buf_p := s.buffer.yy_buf_pos
    yy_hold_char := c }

/-- The current buffer's state is loaded by the caller once more. -/
def yy_flush_buffer (b : BufferState) : Except Abort BufferState := do
  let ch ← access (store b.yy_ch_buf 0 YY_END_OF_BUFFER_CHAR)
  let ch ← access (store ch 1 YY_END_OF_BUFFER_CHAR)
  .ok { b with yy_ch_buf := ch, yy_n_chars := 0, yy_buf_pos := 0, yy_buffer_status := .NEW }

def yy_init_buffer (b : BufferState) (file : Stream) : Except Abort BufferState := do
  let b ← yy_flush_buffer b
  .ok { b with yy_fill_buffer := true, yy_is_interactive := file.isatty }

def yyrestart (s : Lexer) (input_file : Stream) : Except Abort Lexer := do
  let b ← yy_init_buffer s.buffer input_file
  yy_load_buffer_state { s with buffer := b, yyin := input_file }

def yy_create_buffer (m : Platform) (file : Stream) (size : Nat) : Except Abort BufferState :=
  match m.yyalloc (size_t (size + 2)) with
  | none => .error (.fatal "out of dynamic memory in yy_create_buffer()")
  | some ch => yy_init_buffer ⟨ch, 0, size, 0, true, false, true, .NEW⟩ file

/-- `while ( num_to_read <= 0 )`, on an unsigned number. `yy_c_buf_p` keeps its offset. -/
def growLoop (m : Platform) (number_to_move : Int) : Nat → BufferState → Except Abort (BufferState × Nat)
  | fuel, b =>
    let num_to_read := size_t (b.yy_buf_size - number_to_move - 1)
    if num_to_read = 0 then
      match fuel with
      | 0 => .error .loops
      | fuel + 1 =>
        let new_size := size_t (b.yy_buf_size * 2)
        let yy_buf_size := if new_size = 0 then size_t (b.yy_buf_size + b.yy_buf_size / 8) else new_size
        match if b.yy_is_our_buffer then m.yyrealloc b.yy_ch_buf (size_t (yy_buf_size + 2)) else none with
        | none => .error (.fatal "fatal error - scanner input buffer overflow")
        | some ch => growLoop m number_to_move fuel { b with yy_ch_buf := ch, yy_buf_size := yy_buf_size }
    else .ok (b, num_to_read)

inductive EobAct where
  | CONTINUE_SCAN
  | END_OF_FILE
  | LAST_MATCH
  deriving DecidableEq

/-- Try to read more data. A loop that doubles a `size_t` takes at most 64 turns. -/
def readMore (m : Platform) (number_to_move : Int) (s : Lexer) : Except Abort Lexer :=
  if s.buffer.yy_buffer_status = .EOF_PENDING then .ok { s with buffer := { s.buffer with yy_n_chars := 0 }, yy_n_chars := 0 }
  else do
    let (b, num_to_read) ← growLoop m number_to_move 64 s.buffer
    let (bs, yyin) ← YY_INPUT b.yy_is_interactive (min num_to_read m.YY_READ_BUF_SIZE) s.yyin
    let ch ← access (storeAll b.yy_ch_buf number_to_move.toNat bs)
    .ok { s with
      buffer := { b with yy_ch_buf := ch, yy_n_chars := bs.length }
      yy_n_chars := bs.length
      yyin := yyin }

def eobAct (number_to_move : Int) (s : Lexer) : Except Abort (EobAct × Lexer) :=
  if s.yy_n_chars = 0 then
    if number_to_move = 0 then do
      let s ← yyrestart s s.yyin
      .ok (.END_OF_FILE, s)
    else .ok (.LAST_MATCH, { s with buffer := { s.buffer with yy_buffer_status := .EOF_PENDING } })
  else .ok (.CONTINUE_SCAN, s)

/-- Room for what was read, the end-of-buffer characters, and `yytext_ptr`. -/
def closeBuffer (m : Platform) (number_to_move : Int) (s : Lexer) : Except Abort Lexer := do
  let ch ←
    if s.buffer.yy_buf_size < size_t (s.yy_n_chars + number_to_move) then
      match m.yyrealloc s.buffer.yy_ch_buf (size_t (s.yy_n_chars + number_to_move + s.yy_n_chars / 2)) with
      | none => .error (.fatal "out of dynamic memory in yy_get_next_buffer()")
      | some ch => .ok ch
    else .ok s.buffer.yy_ch_buf
  let yy_n_chars := size_t (s.yy_n_chars + number_to_move)
  let ch ← access (store ch yy_n_chars YY_END_OF_BUFFER_CHAR)
  let ch ← access (store ch (yy_n_chars + 1) YY_END_OF_BUFFER_CHAR)
  .ok { s with buffer := { s.buffer with yy_ch_buf := ch }, yy_n_chars := yy_n_chars, yytext_ptr := 0 }

def yy_get_next_buffer (m : Platform) (s : Lexer) : Except Abort (EobAct × Lexer) :=
  if s.yy_n_chars + 1 < s.yy_c_buf_p then .error (.fatal "fatal flex scanner internal error--end of buffer missed")
  else if s.buffer.yy_fill_buffer = false then
    if (s.yy_c_buf_p : Int) - s.yytext_ptr = 1 then .ok (.END_OF_FILE, s) else .ok (.LAST_MATCH, s)
  else do
    let number_to_move := toInt (toInt (s.yy_c_buf_p - s.yytext_ptr) - 1)
    let ch ← access (moveDown number_to_move.toNat s.buffer.yy_ch_buf 0 s.yytext_ptr)
    let s ← readMore m number_to_move { s with buffer := { s.buffer with yy_ch_buf := ch } }
    let (act, s) ← eobAct number_to_move s
    let s ← closeBuffer m number_to_move s
    .ok (act, s)

/-! ## What is read -/

def Getc.char? : Getc → Option UInt8
  | .char b => some b
  | .error _ => none

/-- What is still to be read. -/
def Stream.text (f : Stream) : List UInt8 := f.coming.filterMap Getc.char?

/-- No call fails. -/
def Stream.Clean (f : Stream) : Prop := f.coming = f.text.map .char ∧ f.ferror = false

theorem filterMap_chars (t : List UInt8) : (t.map Getc.char).filterMap Getc.char? = t := by
  rw [List.filterMap_map]
  exact List.filterMap_some

theorem getcs_chars (last : UInt8 → Bool) (n : Nat) (t : List UInt8) :
    ∃ bs e t', getcs last n (t.map .char) = (bs, e, t'.map .char) ∧ t = bs ++ t' ∧ bs.length ≤ n ∧ e.failed = false ∧
      (0 < n → bs = [] → t = []) := by
  induction n generalizing t with
  | zero => exact ⟨[], .stopped, t, rfl, rfl, Nat.le_refl 0, rfl, fun h => absurd h (Nat.lt_irrefl 0)⟩
  | succ n ih =>
    cases t with
    | nil => exact ⟨[], .eof, [], rfl, rfl, Nat.zero_le _, rfl, fun _ _ => rfl⟩
    | cons b t =>
      rw [List.map_cons, getcs]
      split
      · exact ⟨[b], .stopped, t, rfl, rfl, Nat.succ_le_succ (Nat.zero_le n), rfl, fun _ h => absurd h (List.cons_ne_nil _ _)⟩
      · obtain ⟨bs, e, t', h, rfl, hle, he, -⟩ := ih t
        simp only [h]
        exact ⟨b :: bs, e, t', rfl, rfl, Nat.succ_le_succ hle, he, fun _ h => absurd h (List.cons_ne_nil _ _)⟩

/-- A line is not read past its end. -/
theorem getcs_line (n : Nat) (cs : List Getc) : nl ∉ (getcs (· == nl) n cs).1.dropLast := by
  induction n generalizing cs with
  | zero => exact List.not_mem_nil
  | succ n ih =>
    match cs with
    | [] => exact List.not_mem_nil
    | .error e :: cs => exact List.not_mem_nil
    | .char b :: cs =>
      rw [getcs]
      split
      · exact List.not_mem_nil
      · next hb =>
        intro hmem
        have hmem' : nl ∈ (b :: (getcs (· == nl) n cs).1).dropLast := hmem
        cases hg : (getcs (· == nl) n cs).1 with
        | nil =>
          rw [hg] at hmem'
          cases hmem'
        | cons b' bs =>
          rw [hg, List.dropLast_cons_of_ne_nil (List.cons_ne_nil _ _)] at hmem'
          rcases List.mem_cons.mp hmem' with he | hin
          · exact hb (beq_iff_eq.mpr he.symm)
          · exact ih cs (hg ▸ hin)

/-- From a stream that does not fail, something is read unless it is at its end. -/
theorem getcs_clean {f : Stream} (hf : f.Clean) (last : UInt8 → Bool) {max_size : Nat} (hmax : 0 < max_size) :
    ∃ bs e coming, getcs last max_size f.coming = (bs, e, coming) ∧ (f.ferror || e.failed) = false ∧
      Stream.Clean { f with coming := coming, ferror := false } ∧
      f.text = bs ++ Stream.text { f with coming := coming, ferror := false } ∧ bs.length ≤ max_size ∧
      (bs = [] → f.text = []) := by
  obtain ⟨hc, hferr⟩ := hf
  obtain ⟨bs, e, t', h, ht, hle, he, hne⟩ := getcs_chars last max_size f.text
  have htext : Stream.text { f with coming := t'.map .char, ferror := false } = t' := filterMap_chars t'
  refine ⟨bs, e, t'.map .char, ?_, ?_, ⟨?_, rfl⟩, ?_, hle, hne hmax⟩
  · rw [hc]
    exact h
  · rw [hferr, he]
    rfl
  · rw [htext]
  · rw [htext]
    exact ht

theorem YY_INPUT_spec {f : Stream} (hf : f.Clean) (yy_is_interactive : Bool) {max_size : Nat} (hmax : 0 < max_size) :
    ∃ bs f', YY_INPUT yy_is_interactive max_size f = .ok (bs, f') ∧ f'.Clean ∧ f.text = bs ++ f'.text ∧
      bs.length ≤ max_size ∧ (bs = [] → f.text = []) ∧ f'.isatty = f.isatty ∧
      (yy_is_interactive = true → nl ∉ bs.dropLast) := by
  cases yy_is_interactive with
  | true =>
    obtain ⟨bs, e, coming, h, hno, hclean, ht, hle, hne⟩ := getcs_clean hf (· == nl) hmax
    have hline := getcs_line max_size f.coming
    rw [h] at hline
    refine ⟨bs, _, ?_, hclean, ht, hle, hne, rfl, fun _ => hline⟩
    simp [YY_INPUT, h, hno]
  | false =>
    obtain ⟨bs, e, coming, h, hno, hclean, ht, hle, hne⟩ := getcs_clean hf (fun _ => false) hmax
    refine ⟨bs, _, ?_, hclean, ht, hle, hne, rfl, fun h => by cases h⟩
    simp [YY_INPUT, freadLoop, h, hno]

/-! ## What is kept -/

/-- The largest buffer that matches of at most `N` characters ask for. -/
def Platform.limit (m : Platform) (N : Nat) : Nat := max m.YY_BUF_SIZE (2 * N + 2)

/-- Matches of `N` characters fit `int`, and there is memory for them, with any content. -/
structure Platform.Serves (m : Platform) (N : Nat) : Prop where
  YY_BUF_SIZE : 0 < m.YY_BUF_SIZE ∧ m.YY_BUF_SIZE < 9223372036854775808
  YY_READ_BUF_SIZE : 0 < m.YY_READ_BUF_SIZE
  int : N < 2147483647
  yyalloc : ∃ ch, m.yyalloc (m.YY_BUF_SIZE + 2) = some ch ∧ ch.length = m.YY_BUF_SIZE + 2
  yyrealloc : ∀ ch n, n ≤ 2 * N + 4 → ∃ ch', m.yyrealloc ch n = some ch' ∧ ch'.length = n ∧ ch.take n <+: ch'

/-- A buffer of our own: it has its size, and can be filled. -/
structure Own (m : Platform) (N : Nat) (b : BufferState) : Prop where
  length : b.yy_ch_buf.length = b.yy_buf_size + 2
  pos : 0 < b.yy_buf_size
  le : b.yy_buf_size ≤ m.limit N
  our : b.yy_is_our_buffer = true
  fill : b.yy_fill_buffer = true

/-- What the scanner has written, and whether it reads from a terminal. -/
structure Effects where
  stderr : List String
  yyout : List UInt8
  isatty : Bool

def Effects.wrote (e : Effects) (msgs : List String) : Effects := { e with stderr := e.stderr ++ msgs }

@[simp] theorem Effects.wrote_nil (e : Effects) : e.wrote [] = e := by
  rw [wrote, List.append_nil]

@[simp] theorem Effects.wrote_wrote (e : Effects) (ms ms' : List String) : (e.wrote ms).wrote ms' = e.wrote (ms ++ ms') := by
  rw [wrote, wrote, wrote, List.append_assoc]

def Lexer.effects (s : Lexer) : Effects := ⟨s.stderr, s.yyout, s.yyin.isatty⟩

/-- Between what the scanner does with a buffer that it fills. -/
structure Kept (m : Platform) (N : Nat) (s : Lexer) : Prop where
  own : Own m N s.buffer
  room : s.yy_n_chars + 1 ≤ s.buffer.yy_buf_size
  clean : s.yyin.Clean
  pending : s.buffer.yy_buffer_status = .EOF_PENDING → s.yyin.text = []
  new : s.buffer.yy_buffer_status = .NEW → s.buffer.yy_n_chars = s.yy_n_chars
  tty : s.buffer.yy_is_interactive = s.yyin.isatty

section
variable {m : Platform} {N : Nat}

theorem Platform.Serves.limit_lt (h : m.Serves N) : m.limit N + 2 < 18446744073709551616 := by
  have h1 := h.YY_BUF_SIZE.2
  have h2 := h.int
  unfold Platform.limit
  omega

/-- With room there is nothing to do. -/
theorem growLoop_room (hm : m.Serves N) {b : BufferState} (hb : Own m N b) {k : Nat} (hroom : k + 1 < b.yy_buf_size) (fuel : Nat) :
    growLoop m k fuel b = .ok (b, b.yy_buf_size - k - 1) := by
  have hlim := hm.limit_lt
  have hle := hb.le
  have hn : size_t (b.yy_buf_size - (k : Int) - 1) = b.yy_buf_size - k - 1 := by
    unfold size_t
    omega
  unfold growLoop
  rw [hn, if_neg (by omega)]

/-- A full buffer is doubled once. -/
theorem growLoop_full (hm : m.Serves N) {b : BufferState} (hb : Own m N b) {k : Nat} (hk : k ≤ N) (hfull : b.yy_buf_size = k + 1)
    (fuel : Nat) :
    ∃ b', growLoop m k (fuel + 1) b = growLoop m k fuel b' ∧ Own m N b' ∧ k + 1 < b'.yy_buf_size ∧
      b'.yy_ch_buf.take k = b.yy_ch_buf.take k ∧ b'.yy_buffer_status = b.yy_buffer_status ∧
      b'.yy_is_interactive = b.yy_is_interactive := by
  have hint := hm.int
  have h0 : size_t (b.yy_buf_size - (k : Int) - 1) = 0 := by
    unfold size_t
    omega
  have hnew : size_t ((b.yy_buf_size : Int) * 2) = 2 * b.yy_buf_size := by
    unfold size_t
    omega
  have hbytes : size_t (((2 * b.yy_buf_size : Nat) : Int) + 2) = 2 * b.yy_buf_size + 2 := by
    unfold size_t
    omega
  obtain ⟨ch, hch, hlen, hinit⟩ := hm.yyrealloc b.yy_ch_buf (2 * b.yy_buf_size + 2) (by omega)
  have hlen' := hb.length
  rw [List.take_of_length_le (by omega)] at hinit
  refine ⟨{ b with yy_ch_buf := ch, yy_buf_size := 2 * b.yy_buf_size }, ?_, ?_, ?_, ?_, rfl, rfl⟩
  · conv => lhs; unfold growLoop
    simp only [h0, if_true, hnew, hb.our]
    rw [if_neg (by omega), hbytes, hch]
  · refine ⟨hlen, ?_, ?_, hb.our, hb.fill⟩
    · show 0 < 2 * b.yy_buf_size
      omega
    · show 2 * b.yy_buf_size ≤ max m.YY_BUF_SIZE (2 * N + 2)
      omega
  · show k + 1 < 2 * b.yy_buf_size
    have := hb.pos
    omega
  · obtain ⟨junk, rfl⟩ := hinit
    exact List.take_append_of_le_length (by omega)

/-- One turn is enough. -/
theorem growLoop_spec (hm : m.Serves N) {b : BufferState} (hb : Own m N b) {k : Nat} (hk : k ≤ N)
    (hroom : k + 1 ≤ b.yy_buf_size) (fuel : Nat) :
    ∃ b' n, growLoop m k (fuel + 1) b = .ok (b', n) ∧ Own m N b' ∧ 0 < n ∧ k + n + 1 ≤ b'.yy_buf_size ∧
      b'.yy_ch_buf.take k = b.yy_ch_buf.take k ∧ b'.yy_buffer_status = b.yy_buffer_status ∧
      b'.yy_is_interactive = b.yy_is_interactive := by
  by_cases hfull : b.yy_buf_size = k + 1
  · obtain ⟨b', hgrow, hb', hlt, htake, hst, hia⟩ := growLoop_full hm hb hk hfull fuel
    rw [growLoop_room hm hb' hlt] at hgrow
    exact ⟨b', _, hgrow, hb', by omega, by omega, htake, hst, hia⟩
  · exact ⟨b, _, growLoop_room hm hb (by omega) (fuel + 1), hb, by omega, by omega, rfl, rfl, rfl⟩

theorem toInt_move {k d : Nat} (hk : k ≤ N) (hN : N < 2147483647) : toInt (toInt ((d + k + 1 : Nat) - d) - 1) = k := by
  have hd : (((d + k + 1 : Nat) : Int) - d) = k + 1 := by omega
  have hsum : toInt ((k : Int) + 1) = k + 1 := toInt_eq (by omega) (by omega)
  rw [hd, hsum, Int.add_sub_cancel]
  exact toInt_eq (by omega) (by omega)

/-- The buffer holds the match so far `p` and, behind it, `bs` off the input. -/
structure Filled (m : Platform) (N : Nat) (p bs : List UInt8) (s s' : Lexer) : Prop where
  own : Own m N s'.buffer
  holds : Holds s'.buffer.yy_ch_buf 0 (p ++ bs)
  fit : p.length + bs.length + 1 ≤ s'.buffer.yy_buf_size
  n_chars : s'.yy_n_chars = bs.length
  clean : s'.yyin.Clean
  pending : s'.buffer.yy_buffer_status = .EOF_PENDING → s'.yyin.text = []
  new : s'.buffer.yy_buffer_status = .NEW → p = [] ∧ s'.buffer.yy_n_chars = bs.length
  text : s.yyin.text = bs ++ s'.yyin.text
  all : bs = [] → s.yyin.text = []
  tty : s'.buffer.yy_is_interactive = s'.yyin.isatty
  line : s'.yyin.isatty = true → nl ∉ bs.dropLast
  effects : s'.effects = s.effects

theorem readMore_spec (hm : m.Serves N) {s : Lexer} (ho : Own m N s.buffer) (hc : s.yyin.Clean)
    (htty : s.buffer.yy_is_interactive = s.yyin.isatty) {p : List UInt8}
    (hpend : s.buffer.yy_buffer_status = .EOF_PENDING → s.yyin.text = []) (hnew : s.buffer.yy_buffer_status = .NEW → p = [])
    (hp : p.length ≤ N) (hroom : p.length + 1 ≤ s.buffer.yy_buf_size) (hh : Holds s.buffer.yy_ch_buf 0 p) :
    ∃ bs s', readMore m p.length s = .ok s' ∧ Filled m N p bs s s' := by
  by_cases he : s.buffer.yy_buffer_status = .EOF_PENDING
  · refine ⟨[], _, if_pos he, ⟨ho.length, ho.pos, ho.le, ho.our, ho.fill⟩, ?_, hroom, rfl, hc, hpend, fun h => ⟨hnew h, rfl⟩, rfl,
      fun _ => hpend he, htty, fun _ => List.not_mem_nil, rfl⟩
    rw [List.append_nil]
    exact hh
  · obtain ⟨b', n, hgrow, hb', hn, hroom', htake, hst, hia⟩ := growLoop_spec hm ho hp hroom 63
    have hmax : 0 < min n m.YY_READ_BUF_SIZE := Nat.lt_min.mpr ⟨hn, hm.YY_READ_BUF_SIZE⟩
    obtain ⟨bs, f', hin, hc', htext, hle, hnil, hatty, hline⟩ := YY_INPUT_spec hc b'.yy_is_interactive hmax
    have hlen := hb'.length
    have hbs : bs.length ≤ n := Nat.le_trans hle (Nat.min_le_left _ _)
    obtain ⟨ch, hall, hchlen, hchtake, hstored⟩ := storeAll_spec (by omega : p.length + bs.length ≤ b'.yy_ch_buf.length)
    have hread : readMore m p.length s = .ok { s with
        buffer := { b' with yy_ch_buf := ch, yy_n_chars := bs.length }, yy_n_chars := bs.length, yyin := f' } := by
      unfold readMore
      rw [if_neg he, hgrow]
      show (YY_INPUT b'.yy_is_interactive (min n m.YY_READ_BUF_SIZE) s.yyin).bind _ = _
      rw [hin]
      show (access (storeAll b'.yy_ch_buf (p.length : Int).toNat bs)).bind _ = _
      rw [Int.toNat_natCast, hall]
      rfl
    have htty' : b'.yy_is_interactive = f'.isatty := hia.trans (htty.trans hatty.symm)
    refine ⟨bs, _, hread, ⟨hchlen.trans hlen, hb'.pos, hb'.le, hb'.our, hb'.fill⟩, ?_, ?_, rfl, hc', fun h => absurd (hst ▸ h) he,
      fun h => ⟨hnew (hst ▸ h), rfl⟩, htext, hnil, htty', fun h => hline (htty'.trans h), by rw [Lexer.effects, hatty]; rfl⟩
    · rw [holds_append, Nat.zero_add]
      exact ⟨(hh.of_take (by omega : 0 + p.length ≤ p.length) htake).of_take (Nat.le_of_eq (Nat.zero_add _)) hchtake, hstored⟩
    · show p.length + bs.length + 1 ≤ b'.yy_buf_size
      omega

/-- Two bytes behind what the buffer holds. -/
theorem store_eob {ch t : List UInt8} (hh : Holds ch 0 t) (hlen : t.length + 1 < ch.length) :
    ∃ ch', ((store ch t.length YY_END_OF_BUFFER_CHAR).bind fun ch => store ch (t.length + 1) YY_END_OF_BUFFER_CHAR) = some ch' ∧
      ch'.length = ch.length ∧ Holds ch' 0 (t ++ [0, 0]) := by
  obtain ⟨ch', hs, hl, htake, hst⟩ := @storeAll_spec _ ch t.length [0, 0] (by simp only [List.length_cons, List.length_nil]; omega)
  refine ⟨ch', ?_, hl, ?_⟩
  · rw [← hs]
    simp [storeAll, YY_END_OF_BUFFER_CHAR]
  · rw [holds_append, Nat.zero_add]
    exact ⟨hh.of_take (Nat.le_of_eq (Nat.zero_add _)) htake, hst⟩

/-- An empty buffer, in front of what is still to be read. -/
theorem yyrestart_spec {s : Lexer} (ho : Own m N s.buffer) (f : Stream) :
    ∃ ch, yyrestart s f = .ok { s with
        buffer := { s.buffer with
          yy_ch_buf := ch, yy_n_chars := 0, yy_buf_pos := 0, yy_buffer_status := .NEW, yy_fill_buffer := true,
          yy_is_interactive := f.isatty }
        yyin := f, yy_n_chars := 0, yytext_ptr := 0, yy_c_buf_p := 0, yy_hold_char := 0 } ∧
      ch.length = s.buffer.yy_ch_buf.length ∧ Holds ch 0 [0, 0] := by
  have hlen := ho.length
  obtain ⟨ch, hs, hl, hh⟩ := store_eob (holds_nil s.buffer.yy_ch_buf 0) (by rw [List.length_nil]; omega)
  refine ⟨ch, ?_, hl, hh⟩
  have h0 : ch[0]? = some 0 := (holds_cons.mp hh).1
  obtain ⟨ch1, h1, h2⟩ := Option.bind_eq_some_iff.mp hs
  rw [List.length_nil] at h1 h2
  rw [Nat.zero_add] at h2
  simp [yyrestart, yy_init_buffer, yy_flush_buffer, yy_load_buffer_state, bind, Except.bind, h1, h2, h0]

/-- How the scanner goes on. -/
def actFor (p bs : List UInt8) : EobAct :=
  if bs ≠ [] then .CONTINUE_SCAN else if p = [] then .END_OF_FILE else .LAST_MATCH

theorem eobAct_spec {p bs : List UInt8} {s s' : Lexer} (h : Filled m N p bs s s') :
    ∃ t, eobAct p.length s' = .ok (actFor p bs, t) ∧ Filled m N p bs s t ∧ (actFor p bs = .END_OF_FILE → t.yy_hold_char = 0) := by
  by_cases hbs : bs = []
  · have hn : s'.yy_n_chars = 0 := by rw [h.n_chars, hbs, List.length_nil]
    unfold eobAct actFor
    rw [if_pos hn, if_neg (not_not_intro hbs)]
    by_cases hp : p = []
    · obtain ⟨ch, hre, hl, -⟩ := yyrestart_spec h.own s'.yyin
      rw [if_pos (by rw [hp]; rfl), if_pos hp, hre]
      refine ⟨_, rfl, ⟨⟨hl.trans h.own.length, h.own.pos, h.own.le, h.own.our, rfl⟩, ?_, h.fit, ?_, h.clean, fun he => ?_,
        fun _ => ⟨hp, ?_⟩, h.text, h.all, rfl, h.line, h.effects⟩, fun _ => rfl⟩
      · rw [hp, hbs]
        exact holds_nil _ _
      · rw [hbs]
        rfl
      · cases he
      · rw [hbs]
        rfl
    · have hpos := List.length_pos_iff.mpr hp
      rw [if_neg (by omega), if_neg hp]
      refine ⟨_, rfl, ⟨⟨h.own.length, h.own.pos, h.own.le, h.own.our, h.own.fill⟩, h.holds, h.fit, h.n_chars, h.clean, fun _ => ?_,
        fun he => ?_, h.text, h.all, h.tty, h.line, h.effects⟩, fun he => ?_⟩
      · have hall := h.text.symm.trans (h.all hbs)
        exact (List.append_eq_nil_iff.mp hall).2
      · cases he
      · cases he
  · have hn : s'.yy_n_chars ≠ 0 := by
      rw [h.n_chars]
      exact fun h0 => hbs (List.eq_nil_of_length_eq_zero h0)
    unfold eobAct actFor
    rw [if_neg hn, if_pos hbs]
    refine ⟨s', rfl, h, fun he => ?_⟩
    cases he

/-- The same with the end-of-buffer characters behind them. -/
structure Refilled (m : Platform) (N : Nat) (p bs : List UInt8) (s s' : Lexer) : Prop where
  kept : Kept m N s'
  holds : Holds s'.buffer.yy_ch_buf 0 (p ++ bs ++ [0, 0])
  n_chars : s'.yy_n_chars = p.length + bs.length
  yytext_ptr : s'.yytext_ptr = 0
  text : s.yyin.text = bs ++ s'.yyin.text
  all : bs = [] → s.yyin.text = []
  line : s'.yyin.isatty = true → nl ∉ bs.dropLast
  effects : s'.effects = s.effects

theorem closeBuffer_spec (hm : m.Serves N) {p bs : List UInt8} {s s' : Lexer} (h : Filled m N p bs s s') :
    ∃ t, closeBuffer m p.length s' = .ok t ∧ Refilled m N p bs s t ∧ t.yy_hold_char = s'.yy_hold_char := by
  have hlim := hm.limit_lt
  have hle := h.own.le
  have hlen := h.own.length
  have hfit := h.fit
  have hlen' : (p ++ bs).length = p.length + bs.length := List.length_append
  have hn : size_t ((s'.yy_n_chars : Int) + p.length) = (p ++ bs).length := by
    rw [h.n_chars, hlen']
    unfold size_t
    omega
  obtain ⟨ch, hs, hl, hh⟩ := store_eob h.holds (by omega)
  obtain ⟨ch1, h1, h2⟩ := Option.bind_eq_some_iff.mp hs
  have hclose : closeBuffer m p.length s' = .ok { s' with
      buffer := { s'.buffer with yy_ch_buf := ch }, yy_n_chars := (p ++ bs).length, yytext_ptr := 0 } := by
    unfold closeBuffer
    simp only [hn]
    rw [if_neg (by omega)]
    show (access (store s'.buffer.yy_ch_buf _ _)).bind _ = _
    rw [h1]
    show (access (store ch1 _ _)).bind _ = _
    rw [h2]
    rfl
  refine ⟨_, hclose, ⟨⟨⟨hl.trans hlen, h.own.pos, h.own.le, h.own.our, h.own.fill⟩, ?_, h.clean, h.pending, fun he => ?_, h.tty⟩, hh,
    hlen', rfl, h.text, h.all, h.line, h.effects⟩, rfl⟩
  · show (p ++ bs).length + 1 ≤ s'.buffer.yy_buf_size
    omega
  · obtain ⟨hp, hb⟩ := h.new he
    rw [hp]
    exact hb

/-- Nothing of the match or of the input is lost. -/
theorem yy_get_next_buffer_spec (hm : m.Serves N) {s : Lexer} (hk : Kept m N s) {p : List UInt8} (hp : p.length ≤ N)
    (hh : Holds s.buffer.yy_ch_buf s.yytext_ptr p) (hc : s.yy_c_buf_p = s.yytext_ptr + p.length + 1)
    (hn : s.yy_n_chars = s.yytext_ptr + p.length) (hnew : s.buffer.yy_buffer_status = .NEW → p = []) :
    ∃ bs s', yy_get_next_buffer m s = .ok (actFor p bs, s') ∧ Refilled m N p bs s s' ∧
      (actFor p bs = .END_OF_FILE → s'.yy_hold_char = 0) := by
  have hroom := hk.room
  have ho := hk.own
  obtain ⟨ch, hmove, hlen, -, hch⟩ := moveDown_spec (Nat.zero_le s.yytext_ptr) hh
  have ho' : Own m N { s.buffer with yy_ch_buf := ch } := ⟨hlen.trans ho.length, ho.pos, ho.le, ho.our, ho.fill⟩
  obtain ⟨bs, s1, hread, h1⟩ := @readMore_spec m N hm { s with buffer := { s.buffer with yy_ch_buf := ch } } ho' hk.clean hk.tty p
    hk.pending hnew hp (show p.length + 1 ≤ s.buffer.yy_buf_size by omega) hch
  obtain ⟨s2, hact, h2, hheld⟩ := eobAct_spec h1
  obtain ⟨s3, hclose, h3, hhold⟩ := closeBuffer_spec hm h2
  refine ⟨bs, s3, ?_, ⟨h3.kept, h3.holds, h3.n_chars, h3.yytext_ptr, h3.text, h3.all, h3.line, h3.effects⟩,
    fun he => hhold.trans (hheld he)⟩
  have hmv : toInt (toInt (s.yy_c_buf_p - s.yytext_ptr) - 1) = p.length := by
    rw [hc]
    exact toInt_move hp hm.int
  unfold yy_get_next_buffer
  rw [if_neg (by omega), if_neg (by rw [ho.fill]; decide), hmv]
  show (access (moveDown (p.length : Int).toNat _ _ _)).bind _ = _
  rw [Int.toNat_natCast, hmove]
  show (readMore _ _ _).bind _ = _
  rw [hread]
  show (eobAct _ _).bind _ = _
  rw [hact]
  show (closeBuffer _ _ _).bind _ = _
  rw [hclose]
  rfl

end

end NetworkCourse.Calc
