/-
  NetworkCourse.Live.WholeLines — what the interactive clients do when a line is not taken whole.

  `main` of live/epoll/select_test.c compares a `size_t` with 0, so that no result of `write`
  ends it. `main` of intro/reliable_test_client.c ends on `-1` only; after a shorter count it
  waits for the answer. What was passed to the socket has been taken whenever they report
  or go on just when each `write` takes all of its text, and each `send` takes all of its text or
  fails, or the `recv`s behind it bring no line (`lines_sent_whole`).
-/

import NetworkCourse.Live.SelectTest

namespace NetworkCourse.Live

open Lib.Ascii Lib.Cut Lib.Feed Lib.Trace
open Intro.Client (pend Ok ok_init readline_line readline_pos)
open Intro.LineReader (stored stored_length)
open Intro.Session (CBUFSIZE)

/-! ## select_test.c -/

namespace Select

/-- When it reports a count, or goes on to `fgets`, all has been taken. -/
def Kept (s : Sys) : Prop := (∃ rt, s.pc = .reporting rt) ∨ s.pc = .input → s.sent.Whole

/-- A `write` takes all of its text. -/
def TakesAll (s : Sys) (a : Act) : Prop :=
  match s.pc, a with
  | .sending text, .write n => n = text.length ∨ text = []
  | _, _ => True

/-- Outside of `write` and the report. -/
def Between (s : Sys) : Prop := (∀ rt, s.pc ≠ .reporting rt) → s.pc ≠ .exited → s.sent.Whole

section
variable {s s' : Sys} {a : Act}

/-- A `write`, whose result is always reported, or a step that sends nothing. -/
theorem step_sent (h : step s a = some s') :
    (∃ text n, s.pc = .sending text ∧ a = .write n ∧ Returns text n ∧ s'.sent = s.sent.write text n ∧
      ∃ rt, s'.pc = .reporting rt) ∨
    s'.sent = s.sent ∧ s.pc ≠ .exited ∧ (∀ rt, s'.pc ≠ .reporting rt) ∧ TakesAll s a := by
  unfold step at h
  split at h
  · cases h
    exact Or.inr (by simp [TakesAll, *])
  · cases h
    refine Or.inr ⟨rfl, by simp [*], fun rt => ?_, by simp [TakesAll, *]⟩
    simp only
    split
    · simp
    · split <;> simp
  · cases h
    refine Or.inr ⟨rfl, by simp [*], fun rt => ?_, by simp [TakesAll, *]⟩
    simp only
    split <;> simp
  · cases h
    exact Or.inr (by simp [TakesAll, *])
  · split at h
    · cases h
      exact Or.inr (by simp [TakesAll, *])
    · cases h
      exact Or.inr (by simp [TakesAll, *])
  · rename_i text n hpc
    split at h
    · rename_i hn
      cases h
      refine Or.inl ⟨text, n, hpc, rfl, hn, rfl, UInt64.ofInt n, ?_⟩
      simp only [UInt64.not_lt_zero, if_false]
    · cases h
  · cases h
    exact Or.inr (by simp [TakesAll, *])
  · cases h

/-- Where nothing is sent all has been taken so far. -/
theorem whole_before (hi : Between s) (hk : Kept s) (hne : s.pc ≠ .exited) : s.sent.Whole := by
  by_cases hr : ∃ rt, s.pc = .reporting rt
  · exact hk (Or.inl hr)
  · exact hi (fun rt he => hr ⟨rt, he⟩) hne

theorem step_between (hi : Between s) (hk : Kept s) (h : step s a = some s') : Between s' := by
  rcases step_sent h with ⟨_, _, -, -, -, -, rt, hrt⟩ | ⟨hsent, hne, -, -⟩
  · exact fun hno _ => absurd hrt (hno rt)
  · intro _ _
    rw [hsent]
    exact whole_before hi hk hne

theorem step_kept (hi : Between s) (hk : Kept s) (h : step s a = some s') : Kept s' ↔ TakesAll s a := by
  rcases step_sent h with ⟨text, n, hpc, rfl, hn, hsent, hrt⟩ | ⟨hsent, hne, -, htakes⟩
  · have hw : s.sent.Whole := hi (by simp [hpc]) (by simp [hpc])
    have htakes : TakesAll s (.write n) ↔ n = text.length ∨ text = [] := by
      unfold TakesAll
      rw [hpc]
    have hkept : Kept s' ↔ s'.sent.Whole := ⟨fun hk => hk (Or.inl hrt), fun hw _ => hw⟩
    rw [htakes, hkept, hsent, Sent.write_whole hw hn]
  · refine ⟨fun _ => htakes, fun _ _ => ?_⟩
    rw [hsent]
    exact whole_before hi hk hne

end

end Select

/-! ## reliable_test_client.c -/

namespace TestClient

open Intro.Server (cstr)
open Intro.Session (fgets fgets_some CBUFSIZE)
open Intro.LineReader (stored)
open Intro.Client (RECVSIZE RecvBuf readline)

/-- `sending` has the text of the line in `buf`, `receiving` the result of `send` and `len`. -/
inductive Pc where
  | top
  | sending (text : List UInt8)
  | receiving (rc : Int) (len : Nat)
  | exited (status : Int)

structure Sys where
  stdin : List UInt8
  pc : Pc
  buf : List UInt8
  st : RecvBuf
  sent : Sent UInt8

def start (stdin buf : List UInt8) : Sys := ⟨stdin, .top, buf, .init, ⟨[], []⟩⟩

/-- `send` and the `recv` calls of `readline` with their results. -/
inductive Act where
  | fgets
  | send (rc : Int)
  | readline (rs : List (Rd UInt8 RECVSIZE))

def step (s : Sys) (a : Act) : Option Sys :=
  match s.pc, a with
  | .top, .fgets =>
    match fgets CBUFSIZE s.stdin with
    | none => some { s with pc := .exited 0 }
    | some (line, stdin) =>
      let buf := stored line s.buf
      some { s with stdin := stdin, buf := buf, pc := .sending (cstr buf) }
  | .sending text, .send rc =>
    if Returns text rc then
      some { s with pc := if rc < 0 then .exited 1 else .receiving rc text.length, sent := s.sent.write text rc }
    else none
  | .receiving _ _, .readline rs =>
    match readline CBUFSIZE s.buf s.st rs with
    | .done c => some { s with pc := if 0 < c.rc then .top else .exited 1, buf := c.buf, st := c.st }
    | _ => none
  | _, _ => none

/-- When it goes on to `fgets`, or returns 0, all has been taken. -/
def Kept (s : Sys) : Prop := s.pc = .top ∨ s.pc = .exited 0 → s.sent.Whole

/-- A `send` takes all of its text, or returns -1. -/
def SendsAll (s : Sys) (a : Act) : Prop :=
  match s.pc, a with
  | .sending text, .send rc => rc = text.length ∨ rc = -1
  | _, _ => True

/-- What `recv` brings, now or with an earlier line, holds the end of a line among its first 119 bytes. -/
def BringsLine (s : Sys) (rs : List (Rd UInt8 RECVSIZE)) : Prop := nl ∈ (pend s.st rs).take (CBUFSIZE - 1)

/-- The `send` took all of its text, or the `recv`s behind it bring no line. -/
def TakesAll (s : Sys) (a : Act) : Prop :=
  match s.pc, a with
  | .receiving rc len, .readline rs => rc = len ∨ ¬ BringsLine s rs
  | _, _ => True

/-- `buf` has its size, and the static buffer of `readline` is counted. -/
structure Ready (s : Sys) : Prop where
  size : s.buf.length = CBUFSIZE
  ok : Ok s.st

/-- While a line is sent and answered. -/
def Underway (s : Sys) : Prop :=
  match s.pc with
  | .top => Ready s
  | .sending _ => Ready s ∧ s.sent.Whole
  | .receiving rc len => Ready s ∧ (s.sent.Whole ↔ rc = len)
  | .exited _ => True

section
variable {s s' : Sys} {a : Act}

/-- `fgets`, `send`, or `readline` with what its result leads to. -/
theorem step_cases (h : step s a = some s') :
    (s.pc = .top ∧ s'.sent = s.sent ∧ a = .fgets ∧
      (s'.pc = .exited 0 ∨ ∃ line stdin, fgets CBUFSIZE s.stdin = some (line, stdin) ∧
        s'.pc = .sending (cstr (stored line s.buf)) ∧ s'.buf = stored line s.buf ∧ s'.st = s.st)) ∨
    (∃ text rc, s.pc = .sending text ∧ a = .send rc ∧ Returns text rc ∧ s'.sent = s.sent.write text rc ∧
      s'.pc = (if rc < 0 then .exited 1 else .receiving rc text.length) ∧ s'.buf = s.buf ∧ s'.st = s.st) ∨
    (∃ rc len rs c, s.pc = .receiving rc len ∧ s'.sent = s.sent ∧ a = .readline rs ∧
      readline CBUFSIZE s.buf s.st rs = .done c ∧ s'.pc = (if 0 < c.rc then .top else .exited 1) ∧
      s'.buf = c.buf ∧ s'.st = c.st) := by
  unfold step at h
  split at h
  · rename_i hpc
    split at h
    · cases h
      exact Or.inl ⟨hpc, rfl, rfl, Or.inl rfl⟩
    · rename_i line stdin hg
      cases h
      exact Or.inl ⟨hpc, rfl, rfl, Or.inr ⟨line, stdin, hg, rfl, rfl, rfl⟩⟩
  · rename_i text rc hpc
    split at h
    · rename_i hrc
      cases h
      exact Or.inr (Or.inl ⟨text, rc, hpc, rfl, hrc, rfl, rfl, rfl, rfl⟩)
    · cases h
  · rename_i rc len rs hpc
    split at h
    · rename_i c hc
      cases h
      exact Or.inr (Or.inr ⟨rc, len, rs, c, hpc, rfl, rfl, hc, rfl, rfl, rfl⟩)
    · cases h
  · cases h

/-- The client goes on once a line was read. -/
theorem step_answered {rc : Int} {len : Nat} {rs : List (Rd UInt8 RECVSIZE)} {c : Intro.LineReader.Call RecvBuf RECVSIZE}
    (hpc : s.pc = .receiving rc len) (hc : readline CBUFSIZE s.buf s.st rs = .done c) (hpos : 0 < c.rc) :
    ∃ t, step s (.readline rs) = some t ∧ t.pc = .top ∧ t.sent = s.sent := by
  refine ⟨{ s with pc := if 0 < c.rc then .top else .exited 1, buf := c.buf, st := c.st }, ?_, if_pos hpos, rfl⟩
  unfold step
  rw [hpc]
  simp only [hc]

/-- A line that `fgets` read fits `buf`. -/
theorem ready_stored (h : Ready s) {line stdin : List UInt8} (hg : fgets CBUFSIZE s.stdin = some (line, stdin))
    (hbuf : s'.buf = stored line s.buf) (hst : s'.st = s.st) : Ready s' := by
  obtain ⟨-, rfl, -⟩ := fgets_some hg
  have hle := cut_length_le nl (CBUFSIZE - 1) s.stdin
  refine ⟨?_, hst ▸ h.ok⟩
  rw [hbuf]
  exact (stored_length (by rw [h.size]; exact Nat.lt_succ_of_le hle)).trans h.size

/-- So does one that `readline` read. -/
theorem ready_line (h : Ready s) {rs : List (Rd UInt8 RECVSIZE)} {c : Intro.LineReader.Call RecvBuf RECVSIZE}
    (hc : readline CBUFSIZE s.buf s.st rs = .done c) (hpos : 0 < c.rc) (hbuf : s'.buf = c.buf) (hst : s'.st = c.st) :
    Ready s' := by
  have hmem := (readline_pos (Nat.le_of_eq h.size.symm) h.ok hc).mp hpos
  have hle := cut_length_le nl (CBUFSIZE - 1) (pend s.st rs)
  obtain ⟨st, rs', hok, -, -, -, hline⟩ := readline_line (Nat.le_of_eq h.size.symm) h.ok ((mem_cut_iff nl _ _).mpr hmem)
  rw [hline] at hc
  cases hc
  refine ⟨?_, by rw [hst]; exact hok⟩
  rw [hbuf]
  exact (stored_length (by rw [h.size]; exact Nat.lt_succ_of_le hle)).trans h.size

theorem step_underway (hi : Underway s) (hk : Kept s) (h : step s a = some s') : Underway s' := by
  unfold Underway at hi ⊢
  rcases step_cases h with ⟨hpc, hsent, -, hpc' | ⟨line, stdin, hg, hpc', hbuf, hst⟩⟩ |
    ⟨text, rc, hpc, -, hrc, hsent, hpc', hbuf, hst⟩ | ⟨rc, len, rs, c, hpc, -, -, hc, hpc', hbuf, hst⟩
  · rw [hpc']
    trivial
  · rw [hpc] at hi
    rw [hpc', hsent]
    exact ⟨ready_stored hi hg hbuf hst, hk (Or.inl hpc)⟩
  · rw [hpc] at hi
    obtain ⟨hready, hw⟩ := hi
    rw [hpc']
    by_cases hneg : rc < 0
    · rw [if_pos hneg]
      trivial
    · rw [if_neg hneg]
      have htext : rc = text.length ∨ text = [] ↔ rc = text.length := by
        refine ⟨fun h => h.elim id fun he => ?_, Or.inl⟩
        subst he
        have := hrc.resolve_left (by omega)
        simp only [List.length_nil] at this ⊢
        omega
      refine ⟨⟨hbuf ▸ hready.size, hst ▸ hready.ok⟩, ?_⟩
      rw [hsent, Sent.write_whole hw hrc, htext]
  · rw [hpc] at hi
    rw [hpc']
    by_cases hpos : 0 < c.rc
    · rw [if_pos hpos]
      exact ready_line hi.1 hc hpos hbuf hst
    · rw [if_neg hpos]
      trivial

theorem step_kept (hi : Underway s) (hk : Kept s) (h : step s a = some s') : Kept s' ↔ TakesAll s a := by
  rcases step_cases h with
    ⟨hpc, hsent, rfl, -⟩ | ⟨text, rc, hpc, rfl, -, -, hpc', -⟩ | ⟨rc, len, rs, c, hpc, hsent, rfl, hc, hpc', -⟩
  · refine ⟨fun _ => by simp [TakesAll, hpc], fun _ _ => ?_⟩
    rw [hsent]
    exact hk (Or.inl hpc)
  · refine ⟨fun _ => by simp [TakesAll, hpc], fun _ hgo => ?_⟩
    rw [hpc'] at hgo
    split at hgo <;> simp at hgo
  · unfold Underway at hi
    rw [hpc] at hi
    obtain ⟨hready, hwhole⟩ := hi
    have htakes : TakesAll s (.readline rs) ↔ rc = len ∨ ¬ BringsLine s rs := by
      unfold TakesAll
      rw [hpc]
    have hpos : 0 < c.rc ↔ BringsLine s rs := readline_pos (Nat.le_of_eq hready.size.symm) hready.ok hc
    rw [htakes, ← hwhole, ← hpos, Kept, hpc', hsent]
    by_cases h0 : 0 < c.rc
    · simp [h0]
    · simp [h0]

/-- What a `send` took is known while its answer is read. -/
theorem step_sendsAll (ha : SendsAll s a) (h : step s a = some s') :
    ∀ (rc : Int) (len : Nat), s'.pc = .receiving rc len → rc = len := by
  intro rc' len' hpc'
  rcases step_cases h with
    ⟨-, -, -, hexit | ⟨_, _, -, hnew, -⟩⟩ | ⟨text, rc, hpc, rfl, -, -, hnew, -⟩ | ⟨_, _, _, c, -, -, -, -, hnew, -⟩
  · rw [hexit] at hpc'
    cases hpc'
  · rw [hnew] at hpc'
    cases hpc'
  · unfold SendsAll at ha
    rw [hpc] at ha
    rw [hnew] at hpc'
    split at hpc'
    · cases hpc'
    · next hneg =>
      cases hpc'
      exact ha.resolve_right (by omega)
  · rw [hnew] at hpc'
    split at hpc' <;> cases hpc'

theorem takesAll_of_sendsAll {stdin buf : List UInt8} {tr : List (Sys × Act)} (h : Run step (start stdin buf) tr s)
    (hs : Each SendsAll tr) : Each TakesAll tr := by
  have hknown := h.before (P := fun s => ∀ (rc : Int) (len : Nat), s.pc = .receiving rc len → rc = len)
    (fun rc len hpc => by cases hpc) (fun _ _ _ _ => step_sendsAll) hs
  intro x hx
  unfold TakesAll
  split
  · next rc len rs hpc hact => exact Or.inl (hknown x hx rc len hpc)
  · trivial

end

end TestClient

/-! ## Both clients -/

/-- An empty line. -/
def answered : List (Rd UInt8 Intro.Client.RECVSIZE) := [.data ⟨[10], by decide, by decide⟩]

theorem answered_mem : nl ∈ cut nl (CBUFSIZE - 1) (pend .init answered) := by decide

/-- Behind the first `send` of a line `hi`. -/
def greeted (rc : Int) (taken : List UInt8) : TestClient.Sys :=
  ⟨[], .receiving rc 3, stored [104, 105, 10] (List.replicate 120 0), .init, ⟨[104, 105, 10], taken⟩⟩

theorem greeted_answered (rc : Int) (taken : List UInt8) :
    ∃ s, TestClient.step (greeted rc taken) (.readline answered) = some s ∧ s.pc = .top ∧
      s.sent = ⟨[104, 105, 10], taken⟩ := by
  have hroom : CBUFSIZE ≤ (stored [104, 105, 10] (List.replicate 120 0)).length := by
    rw [stored_length (by rw [List.length_replicate]; decide), List.length_replicate]
    exact Nat.le_refl 120
  obtain ⟨st, rs, -, -, -, -, hread⟩ := readline_line hroom ok_init answered_mem
  have hpos : (0 : Int) < ((cut nl (CBUFSIZE - 1) (pend .init answered)).length : Nat) := by decide
  exact TestClient.step_answered (s := greeted rc taken) rfl hread hpos

/-- Whenever a client reports or goes on all it passed has been taken: just when every `write` of
    the one takes its text; and for the other when every `send` takes its text or returns -1, and besides only
    when the `recv`s behind one that took less bring no line. -/
theorem lines_sent_whole (stdin : List UInt8) {buf : List UInt8} (hb : buf.length = CBUFSIZE) :
    (∀ tr s, Run Select.step (Select.start stdin) tr s →
      (Each (fun s _ => Select.Kept s) tr ∧ Select.Kept s ↔ Each Select.TakesAll tr)) ∧
    ∀ tr s, Run TestClient.step (TestClient.start stdin buf) tr s →
      (Each TestClient.SendsAll tr → Each (fun s _ => TestClient.Kept s) tr ∧ TestClient.Kept s) ∧
      (Each (fun s _ => TestClient.Kept s) tr ∧ TestClient.Kept s ↔ Each TestClient.TakesAll tr) := by
  refine ⟨?_, ?_⟩
  · intro tr s h
    have hI : Select.Between (Select.start stdin) := fun _ _ => rfl
    have hK : Select.Kept (Select.start stdin) := fun _ => rfl
    exact (h.always_iff hI hK (fun _ _ _ => Select.step_between) fun _ _ _ => Select.step_kept).1
  · intro tr s h
    have hI : TestClient.Underway (TestClient.start stdin buf) := ⟨hb, ok_init⟩
    have hK : TestClient.Kept (TestClient.start stdin buf) := fun _ => rfl
    have hiff := (h.always_iff hI hK (fun _ _ _ => TestClient.step_underway) fun _ _ _ => TestClient.step_kept).1
    exact ⟨fun hs => hiff.mpr (TestClient.takesAll_of_sendsAll h hs), hiff⟩

/-- `hi` is taken, and reported; with its newline by the other client, which reads the answer and goes on. -/
theorem lines_sent_whole_hi :
    (∃ tr s, Run Select.step (Select.start [104, 105, 10]) tr s ∧ s.sent = ⟨[104, 105], [104, 105]⟩ ∧
      Each (fun s _ => Select.Kept s) tr ∧ Select.Kept s) ∧
    ∃ tr s, Run TestClient.step (TestClient.start [104, 105, 10] (List.replicate 120 0)) tr s ∧ s.pc = .top ∧
      Each (fun s _ => TestClient.Kept s) tr ∧ TestClient.Kept s := by
  obtain ⟨hselect, hclient⟩ := @lines_sent_whole [104, 105, 10] (List.replicate 120 0) rfl
  refine ⟨?_, ?_⟩
  · have hrun : Run Select.step (Select.start [104, 105, 10]) _ _ :=
      run_of_follow [.select (some (false, true)), .fgets 0, .write 2] rfl
    refine ⟨_, _, hrun, rfl, (hselect _ _ hrun).mpr ?_⟩
    exact each_cons.mpr ⟨trivial, each_cons.mpr ⟨trivial, each_cons.mpr ⟨Or.inl rfl, each_nil _⟩⟩⟩
  · have hrun : Run TestClient.step (TestClient.start [104, 105, 10] (List.replicate 120 0)) _
        (greeted 3 [104, 105, 10]) := run_of_follow [.fgets, .send 3] rfl
    obtain ⟨s, hst, hpc, -⟩ := greeted_answered 3 [104, 105, 10]
    refine ⟨_, s, .snoc _ hrun hst, hpc, (hclient _ _ (.snoc _ hrun hst)).1 ?_⟩
    exact each_snoc.mpr ⟨each_cons.mpr ⟨trivial, each_cons.mpr ⟨Or.inl rfl, each_nil _⟩⟩, trivial⟩

/-- `hi` and a newline, and a result of 1 for each: the one reports it, the other reads on after
    the answer. -/
theorem lines_not_sent_whole :
    (¬ ∀ tr s, Run Select.step (Select.start [104, 105, 10]) tr s → Select.Kept s) ∧
      ¬ ∀ tr s, Run TestClient.step (TestClient.start [104, 105, 10] (List.replicate 120 0)) tr s →
        TestClient.Kept s := by
  refine ⟨fun h => ?_, fun h => ?_⟩
  · have hrun : Run Select.step (Select.start [104, 105, 10]) _ _ :=
      run_of_follow [.select (some (false, true)), .fgets 0, .write 1] rfl
    have hw : ([104] : List UInt8) = [104, 105] := h _ _ hrun (Or.inl ⟨1, rfl⟩)
    exact absurd hw (by decide)
  · have hrun : Run TestClient.step (TestClient.start [104, 105, 10] (List.replicate 120 0)) _ (greeted 1 [104]) :=
      run_of_follow [.fgets, .send 1] rfl
    obtain ⟨s, hst, hpc, hsent⟩ := greeted_answered 1 [104]
    have hw := h _ _ (.snoc _ hrun hst) (Or.inl hpc)
    rw [hsent] at hw
    exact absurd (show ([104] : List UInt8) = [104, 105, 10] from hw) (by decide)

end NetworkCourse.Live
