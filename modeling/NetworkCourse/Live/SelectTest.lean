/-
  NetworkCourse.Live.SelectTest — the loop of live/epoll/select_test.c.

  Each turn waits in `select`; what is ready of the socket and the standard input is read, a
  line of the input is sent. The program's own accesses to `recv_line` and `send_line` are
  kept (`log`): at the number of bytes read, and in front of the end of the line. They are in
  bounds just when no `read` fills `recv_line` and no line begins with a NUL
  (`select_test_in_bounds`).
-/

import NetworkCourse.Intro.Session
import NetworkCourse.Lib.Trace

namespace NetworkCourse.Live.Select

open Lib.Ascii Lib.Cut Lib.Feed Lib.Trace
open Intro.Server (cstr)
open Intro.Session (fgets fgets_some)

def MAXLINE : Nat := 1024

inductive Line where
  | recvLine
  | sendLine
  deriving DecidableEq

/-- An element the program reads or writes itself. -/
structure Access where
  line : Line
  index : Int
  deriving DecidableEq

def InBounds (x : Access) : Prop := 0 ≤ x.index ∧ x.index ≤ MAXLINE - 1

/-- `sending` has what is passed to `write`, `reporting` its result as a `size_t`. -/
inductive Pc where
  | select
  | recv (stdinReady : Bool)
  | input
  | sending (text : List UInt8)
  | reporting (rt : UInt64)
  | exited

structure Sys where
  stdin : List UInt8
  pc : Pc
  sent : Sent UInt8
  log : List Access

def start (stdin : List UInt8) : Sys := ⟨stdin, .select, ⟨[], []⟩, []⟩

/-- `select` with what is ready or a failure, `read` and `write` with their results, `fgets` with
    the byte that stands in front of `send_line`. -/
inductive Act where
  | select (ready : Option (Bool × Bool))
  | read (r : Rd UInt8 MAXLINE)
  | fgets (below : UInt8)
  | write (n : Int)
  | report

/-- `send_line[i - 1]` -/
def lastByte (text : List UInt8) (below : UInt8) : UInt8 := text.getLast?.getD below

/-- What is sent of a line: it ends at a NUL, and a newline in front of that is taken off. -/
def toSend (text : List UInt8) (below : UInt8) : List UInt8 :=
  if lastByte text below = nl then text.dropLast else text

def step (s : Sys) (a : Act) : Option Sys :=
  match s.pc, a with
  | .select, .select none => some { s with pc := .exited }
  | .select, .select (some (socketReady, stdinReady)) =>
    some { s with pc := if socketReady then .recv stdinReady else if stdinReady then .input else .select }
  | .recv stdinReady, .read (.data c) => some { s with
      pc := if stdinReady then .input else .select
      log := s.log ++ [⟨.recvLine, c.data.length⟩] }
  | .recv _, .read _ => some { s with pc := .exited }
  | .input, .fgets below =>
    match fgets MAXLINE s.stdin with
    | none => some { s with pc := .select }
    | some (line, stdin) =>
      let text := cstr line
      let last : Access := ⟨.sendLine, text.length - 1⟩
      some { s with
        stdin := stdin
        pc := .sending (toSend text below)
        log := s.log ++ if lastByte text below = nl then [last, last] else [last] }
  | .sending text, .write n =>
    if Returns text n then
      let rt := UInt64.ofInt n
      some { s with pc := if rt < 0 then .exited else .reporting rt, sent := s.sent.write text n }
    else none
  | .reporting _, .report => some { s with pc := .select }
  | _, _ => none

/-! ## Accesses -/

/-- A `read` that leaves room for the NUL, a line that does not begin with one. -/
def Fits (s : Sys) (a : Act) : Prop :=
  match s.pc, a with
  | .recv _, .read (.data c) => c.data.length < MAXLINE
  | .input, .fgets _ => ∀ line stdin, fgets MAXLINE s.stdin = some (line, stdin) → line.head? ≠ some 0
  | _, _ => True

theorem cstr_eq_nil {line : List UInt8} (h : line ≠ []) : cstr line = [] ↔ line.head? = some 0 := by
  match line, h with
  | b :: bs, _ =>
    by_cases hb : b = 0
    · simp [cstr, hb]
    · simp [cstr, hb]

/-- A line is shorter than the buffer, and so is its text. -/
theorem cstr_length {stdin line stdin' : List UInt8} (h : fgets MAXLINE stdin = some (line, stdin')) :
    line ≠ [] ∧ (cstr line).length < MAXLINE := by
  obtain ⟨hne, rfl, -⟩ := fgets_some h
  have hlen := cut_length_le nl (MAXLINE - 1) stdin
  have htext : (cstr (cut nl (MAXLINE - 1) stdin)).length ≤ (cut nl (MAXLINE - 1) stdin).length :=
    (List.takeWhile_sublist _).length_le
  have hsize : MAXLINE = 1024 := rfl
  exact ⟨cut_ne_nil nl (by decide) hne, by omega⟩

/-- The end of the line's text is in the buffer when there is text. -/
theorem last_inBounds {stdin line stdin' : List UInt8} (h : fgets MAXLINE stdin = some (line, stdin')) :
    InBounds ⟨.sendLine, (cstr line).length - 1⟩ ↔ line.head? ≠ some 0 := by
  obtain ⟨hne, hlen⟩ := cstr_length h
  rw [Ne, ← cstr_eq_nil hne, ← List.length_eq_zero_iff]
  unfold InBounds
  simp only
  omega

/-- What is read fits when it leaves room for the NUL behind it. -/
theorem fits_read {s : Sys} {stdinReady : Bool} (hpc : s.pc = .recv stdinReady) (r : Rd UInt8 MAXLINE) :
    Fits s (.read r) ↔ ∀ c, r = .data c → InBounds ⟨.recvLine, c.data.length⟩ := by
  unfold Fits
  rw [hpc]
  cases r with
  | data c =>
    have hbound : c.data.length < MAXLINE ↔ InBounds ⟨.recvLine, c.data.length⟩ := by
      simp only [InBounds]
      omega
    simp [hbound]
  | eintr => simp
  | error => simp
  | eof => simp

/-- A line fits when its text has an end. -/
theorem fits_input {s : Sys} (hpc : s.pc = .input) (below : UInt8) :
    Fits s (.fgets below) ↔ ∀ line stdin, fgets MAXLINE s.stdin = some (line, stdin) →
      InBounds ⟨.sendLine, (cstr line).length - 1⟩ := by
  unfold Fits
  rw [hpc]
  exact forall₂_congr fun line stdin => imp_congr_right fun hg => (last_inBounds hg).symm

/-- What a step accesses is in bounds just when it fits. -/
theorem step_log {s s' : Sys} {a : Act} (h : step s a = some s') :
    (∀ x ∈ s'.log, InBounds x) ↔ (∀ x ∈ s.log, InBounds x) ∧ Fits s a := by
  unfold step at h
  split at h
  · cases h
    simp [Fits, *]
  · cases h
    simp [Fits, *]
  · rename_i inp c hpc
    cases h
    rw [fits_read hpc, List.forall_mem_append]
    simp
  · rename_i inp r hdata hpc
    cases h
    rw [fits_read hpc]
    refine (and_iff_left ?_).symm
    intro c hc
    exact (hdata c hc).elim
  · rename_i below hpc
    rw [fits_input hpc]
    cases hg : fgets MAXLINE s.stdin with
    | none =>
      rw [hg] at h
      cases h
      simp
    | some got =>
      obtain ⟨line, stdin⟩ := got
      rw [hg] at h
      cases h
      rw [List.forall_mem_append]
      refine and_congr_right fun _ => ?_
      have hnew : (∀ x ∈ if lastByte (cstr line) below = nl then
          [(⟨.sendLine, (cstr line).length - 1⟩ : Access), ⟨.sendLine, (cstr line).length - 1⟩]
          else [⟨.sendLine, (cstr line).length - 1⟩], InBounds x) ↔ InBounds ⟨.sendLine, (cstr line).length - 1⟩ := by
        split <;> simp
      rw [hnew]
      refine ⟨?_, fun h => h line stdin rfl⟩
      intro h line' stdin' he
      cases he
      exact h
  · split at h
    · cases h
      simp [Fits, *]
    · cases h
  · cases h
    simp [Fits, *]
  · cases h

/-- Over a whole session the accesses are in bounds just when no `read` fills `recv_line` and no
    line of the input begins with a NUL. -/
theorem select_test_in_bounds {stdin : List UInt8} {tr : List (Sys × Act)} {s : Sys} (h : Run step (start stdin) tr s) :
    (∀ x ∈ s.log, InBounds x) ↔ Each Fits tr := by
  induction h with
  | nil => exact ⟨fun _ => each_nil _, fun _ x hx => absurd hx List.not_mem_nil⟩
  | snoc a _ hst ih => rw [step_log hst, ih, each_snoc]

/-- One byte is read, and the line `hi` has its newline taken off. -/
theorem select_test_one_line :
    ∃ tr s, Run step (start [104, 105, 10]) tr s ∧ s.log = [⟨.recvLine, 1⟩, ⟨.sendLine, 2⟩, ⟨.sendLine, 2⟩] ∧
      ∀ x ∈ s.log, InBounds x := by
  have hrun : Run step (start [104, 105, 10]) _ _ :=
    run_of_follow [.select (some (true, true)), .read (.data ⟨[120], by decide, by decide⟩), .fgets 0] rfl
  have hread : ([120] : List UInt8).length < MAXLINE := by decide
  have hline : ∀ line stdin, fgets MAXLINE [104, 105, 10] = some (line, stdin) → line.head? ≠ some 0 := by
    intro line stdin h
    cases h
    decide
  refine ⟨_, _, hrun, rfl, (select_test_in_bounds hrun).mpr ?_⟩
  exact each_cons.mpr ⟨trivial, each_cons.mpr ⟨hread, each_cons.mpr ⟨hline, each_nil _⟩⟩⟩

/-- As much as is asked for. -/
def full : Chunk UInt8 MAXLINE :=
  ⟨List.replicate 1024 65, fun h => absurd (congrArg List.length h) (by rw [List.length_replicate]; decide),
    List.length_replicate.le⟩

/-- With all of 1024 bytes read the NUL goes to index 1024; with a line that begins with a NUL
    index -1 is read. -/
theorem select_test_out_of_bounds :
    (¬ ∀ tr s, Run step (start []) tr s → ∀ x ∈ s.log, InBounds x) ∧
      ¬ ∀ tr s, Run step (start [0, 10]) tr s → ∀ x ∈ s.log, InBounds x := by
  refine ⟨fun h => ?_, fun h => ?_⟩
  · have hrun : Run step (start []) _ _ := run_of_follow [.select (some (true, false)), .read (.data full)] rfl
    have hlast : (full.data.length : Int) ≤ MAXLINE - 1 := (h _ _ hrun _ (List.mem_singleton_self _)).2
    rw [show full.data.length = 1024 from List.length_replicate] at hlast
    exact absurd hlast (by decide)
  · have hrun : Run step (start [0, 10]) _ _ := run_of_follow [.select (some (false, true)), .fgets 0] rfl
    have hfirst := h _ _ hrun ⟨.sendLine, -1⟩ (List.mem_singleton_self _)
    exact absurd hfirst.1 (by decide)

end NetworkCourse.Live.Select
