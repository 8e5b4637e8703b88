/-
  NetworkCourse.PollDev.Device — the device of live/epoll/my_poll_dev/my_poll_dev.c.

  The thread writes `hello, k` into `readbuf` and its length into `readbuflen`, a read hands
  out all of it and sets `readbuflen` to 0, `poll` looks at `readbuflen`. Here each turn of
  the thread, each read and each poll is one step.

  In every state that can be reached a non-zero `readbuflen` counts the message of the current
  counter (`Inv`, `reach_inv`). With reads that ask for the message and can store it, the
  messages go out in order (`device_delivers`). A read does not look at `len`, and forgets the
  message when the copy fails: reads of other sizes are served as asked just when the first
  one takes everything (`read_by_pieces`).
-/

import NetworkCourse.Lib.Ascii
import NetworkCourse.Lib.Trace
import Mathlib.Data.List.Infix

namespace NetworkCourse.PollDev

open Lib.Ascii Lib.Trace

/-! ## The device -/

/-- `sizeof(readbuf)` -/
def READBUFSIZE : Nat := 1024
def EFAULT : Int := 14
def POLLIN : Nat := 1

/-- `readbuf` -/
structure Readbuf where
  bytes : List UInt8
  size : bytes.length = READBUFSIZE

/-- `readbuf`, `readbuflen` and the thread's `counter`. -/
structure Dev where
  readbuf : Readbuf
  readbuflen : Nat
  counter : Int

def Dev.init : Dev := ⟨⟨List.replicate READBUFSIZE 0, List.length_replicate⟩, 0, 0⟩

/-- `"hello, %i"` -/
def message (k : Int) : List UInt8 := ascii "hello, " ++ decimal k

/-- `snprintf` over all of `readbuf`: the length of the text, and as much of it as fits in
    front of a NUL. -/
def snprintf (b : Readbuf) (text : List UInt8) : Nat × Readbuf :=
  let t := text.take (READBUFSIZE - 1)
  (text.length, ⟨t ++ 0 :: b.bytes.drop (t.length + 1), by
    have ht : t.length ≤ READBUFSIZE - 1 := List.length_take_le _ _
    have hs : READBUFSIZE = 1024 := rfl
    simp only [List.length_append, List.length_cons, List.length_drop, b.size]
    omega⟩)

/-- `++counter` on an `int`. -/
def incr (counter : Int) : Int := (counter + 1).bmod 4294967296

/-- The thread's `++counter` and what `snprintf` writes and returns. -/
def fill (s : Dev) : Nat × Dev :=
  let counter := incr s.counter
  let (n, b) := snprintf s.readbuf (message counter)
  (n, { s with readbuf := b, counter := counter })

/-- One turn of the thread's loop. -/
def kthreadFunc (s : Dev) : Dev :=
  let (n, s) := fill s
  { s with readbuflen := n }

/-- The caller of a read: the length it asks for, and how many bytes from its buffer on can
    be written. -/
structure User where
  len : Nat
  room : Nat

/-- How many bytes are not copied, and those that are. -/
def copyToUser (u : User) (src : List UInt8) : Nat × List UInt8 := (src.length - u.room, src.take u.room)

/-- What a read returns, and what it has put into the caller's memory. -/
structure Got where
  ret : Int
  copied : List UInt8

def read (s : Dev) (u : User) : Got × Dev :=
  let (missed, copied) := copyToUser u (s.readbuf.bytes.take s.readbuflen)
  let ret : Int := if missed ≠ 0 then -EFAULT else s.readbuflen
  (⟨ret, copied⟩, { s with readbuflen := 0 })

def myDevPoll (s : Dev) : Nat := if s.readbuflen ≠ 0 then POLLIN else 0

inductive Act where
  | turn
  | read (u : User)
  | poll

def step (s : Dev) : Act → Option Dev
  | .turn => some (kthreadFunc s)
  | .read u => some (read s u).2
  | .poll => some s

/-- What a read takes from the device. -/
def unread (s : Dev) : List UInt8 := s.readbuf.bytes.take s.readbuflen

/-! ## Messages -/

/-- The values of an `int`. -/
def IsInt (x : Int) : Prop := -2147483648 ≤ x ∧ x ≤ 2147483647

theorem isInt_incr (k : Int) : IsInt (incr k) := by
  have h1 := Int.le_bmod (x := k + 1) (m := 4294967296) (by decide)
  have h2 := Int.bmod_lt (x := k + 1) (m := 4294967296) (by decide)
  unfold IsInt incr
  omega

/-- Short of the largest `int`, counting is counting. -/
theorem incr_eq {k : Int} (h0 : 0 ≤ k) (h : k < 2147483647) : incr k = k + 1 := Int.bmod_eq_of_le (by omega) (by omega)

theorem message_ne_nil (k : Int) : message k ≠ [] := by simp [message, ascii]

/-- A message fits the buffer with its NUL. -/
theorem message_length {k : Int} (h : IsInt k) : (message k).length < READBUFSIZE := by
  have hd := decimal_length_le (x := k) (by simpa using h.1) (by have := h.2; omega)
  have h7 : (ascii "hello, ").length = 7 := by decide
  have hs : READBUFSIZE = 1024 := rfl
  rw [message, List.length_append, h7]
  omega

theorem snprintf_spec (b : Readbuf) {text : List UInt8} (h : text.length < READBUFSIZE) :
    (snprintf b text).1 = text.length ∧ (snprintf b text).2.bytes.take text.length = text := by
  have ht : text.take (READBUFSIZE - 1) = text := List.take_of_length_le (by omega)
  refine ⟨rfl, ?_⟩
  simp only [snprintf, ht, List.take_left']

/-- What a turn leaves: the next message, counted. -/
theorem fill_spec (s : Dev) :
    (fill s).2.counter = incr s.counter ∧ (fill s).1 = (message (incr s.counter)).length ∧
      (fill s).2.readbuf.bytes.take (fill s).1 = message (incr s.counter) ∧ (fill s).2.readbuflen = s.readbuflen := by
  obtain ⟨h1, h2⟩ := snprintf_spec s.readbuf (message_length (isInt_incr s.counter))
  refine ⟨rfl, h1, ?_, rfl⟩
  have hf : (fill s).1 = (message (incr s.counter)).length := h1
  rw [hf]
  exact h2

@[simp] theorem read_readbuflen (s : Dev) (u : User) : (read s u).2.readbuflen = 0 := rfl

theorem unread_kthreadFunc (s : Dev) : unread (kthreadFunc s) = message (incr s.counter) := (fill_spec s).2.2.1

/-! ## What every state keeps -/

/-- A non-zero `readbuflen` counts the message of the current counter. -/
structure Inv (s : Dev) : Prop where
  counted : s.readbuflen ≠ 0 → s.readbuflen = (message s.counter).length
  message : s.readbuflen ≠ 0 → unread s = message s.counter

theorem inv_init : Inv .init := by
  refine ⟨?_, ?_⟩
  · intro h
    exact absurd rfl h
  · intro h
    exact absurd rfl h

/-- After a read nothing is counted. -/
theorem inv_drained {s : Dev} (h : s.readbuflen = 0) : Inv s := by
  refine ⟨?_, ?_⟩
  · intro hn
    exact absurd h hn
  · intro hn
    exact absurd h hn

theorem step_inv {s s' : Dev} {a : Act} (h : Inv s) (hst : step s a = some s') : Inv s' := by
  cases a with
  | turn =>
    cases hst
    exact ⟨fun _ => rfl, fun _ => unread_kthreadFunc s⟩
  | read u =>
    cases hst
    exact inv_drained rfl
  | poll =>
    cases hst
    exact h

/-- The states the device gets to, whatever is read. -/
def Reach (s : Dev) : Prop := ∃ tr, Run step .init tr s

theorem reach_inv {s : Dev} (h : Reach s) : Inv s := by
  obtain ⟨tr, h⟩ := h
  exact h.keeps (C := fun _ _ => True) inv_init (fun _ _ _ hi _ hst => step_inv hi hst) (fun _ _ => trivial)

theorem unread_length {s : Dev} (h : Inv s) : (unread s).length = s.readbuflen := by
  by_cases h0 : s.readbuflen = 0
  · simp [unread, h0]
  · rw [h.message h0, h.counted h0]

/-- What a read does. -/
theorem read_eq {s : Dev} (h : Inv s) (u : User) :
    (read s u).1 = if s.readbuflen ≤ u.room then ⟨s.readbuflen, unread s⟩ else ⟨-EFAULT, (unread s).take u.room⟩ := by
  have hl := unread_length h
  unfold unread at hl ⊢
  by_cases hr : s.readbuflen ≤ u.room
  · have ht : (s.readbuf.bytes.take s.readbuflen).take u.room = s.readbuf.bytes.take s.readbuflen :=
      List.take_of_length_le (by omega)
    rw [if_pos hr, read, copyToUser, hl, Nat.sub_eq_zero_of_le hr, ht]
    rfl
  · rw [if_neg hr, read, copyToUser, hl]
    simp only [ne_eq, Nat.sub_eq_zero_iff_le, hr, not_false_eq_true, if_true]

theorem poll_iff (s : Dev) : myDevPoll s = POLLIN ↔ s.readbuflen ≠ 0 := by
  unfold myDevPoll
  split
  · next h => exact ⟨fun _ => h, fun _ => rfl⟩
  · next h => exact ⟨fun h0 => absurd h0 (by decide), fun hn => absurd hn h⟩

/-! ## In order -/

/-- A read asks for the message and can store it; the counter does not pass the largest
    `int`. -/
def Fine (s : Dev) : Act → Prop
  | .turn => s.counter < 2147483647
  | .read u => s.readbuflen ≤ u.len ∧ s.readbuflen ≤ u.room
  | .poll => True

/-- What the reads of a run have copied that returned more than 0. -/
def received (tr : List (Dev × Act)) : List (List UInt8) :=
  tr.filterMap fun x =>
    match x.2 with
    | .read u => if 0 < (read x.1 u).1.ret then some (read x.1 u).1.copied else none
    | _ => none

/-- The messages received so far have the counters `ks`, all behind the one in the buffer. -/
structure Past (ks : List Int) (s : Dev) : Prop where
  inv : Inv s
  counter : 0 ≤ s.counter
  sorted : ks.Pairwise (· < ·)
  behind : ∀ k ∈ ks, k ≤ s.counter
  ahead : s.readbuflen ≠ 0 → ∀ k ∈ ks, k < s.counter

theorem past_turn {ks : List Int} {s : Dev} (h : Past ks s) (hf : Fine s .turn) : Past ks (kthreadFunc s) := by
  have hi : incr s.counter = s.counter + 1 := incr_eq h.counter hf
  have hc : (kthreadFunc s).counter = s.counter + 1 := hi
  have hlt : ∀ k ∈ ks, k < (kthreadFunc s).counter := by
    intro k hk
    have := h.behind k hk
    omega
  refine ⟨step_inv (a := .turn) h.inv rfl, ?_, h.sorted, ?_, fun _ => hlt⟩
  · have := h.counter
    omega
  · intro k hk
    exact Int.le_of_lt (hlt k hk)

/-- A read of a message puts its counter behind the others. -/
theorem past_read {ks : List Int} {s : Dev} (h : Past ks s) (hn : s.readbuflen ≠ 0) (u : User) :
    Past (ks ++ [s.counter]) (read s u).2 := by
  refine ⟨inv_drained rfl, h.counter, ?_, ?_, fun hz => absurd rfl hz⟩
  · apply List.pairwise_append.mpr
    refine ⟨h.sorted, List.pairwise_singleton _ _, ?_⟩
    intro k hk c hc
    rw [List.mem_singleton] at hc
    subst hc
    exact h.ahead hn k hk
  · intro k hk
    rcases List.mem_append.mp hk with hk | hk
    · exact h.behind k hk
    · rw [List.mem_singleton] at hk
      subst hk
      exact Int.le_refl _

theorem past_run {tr : List (Dev × Act)} {s : Dev} (h : Run step .init tr s) (hf : Each Fine tr) :
    ∃ ks, received tr = ks.map message ∧ Past ks s := by
  induction h with
  | nil => exact ⟨[], rfl, inv_init, Int.le_refl 0, List.Pairwise.nil, by simp, by simp⟩
  | @snoc tr s s' a _ hst ih =>
    obtain ⟨htr, ha⟩ := each_snoc.mp hf
    obtain ⟨ks, hr, hp⟩ := ih htr
    cases a with
    | turn =>
      cases hst
      exact ⟨ks, by rw [received, List.filterMap_append, ← received, hr]; simp, past_turn hp ha⟩
    | poll =>
      cases hst
      exact ⟨ks, by rw [received, List.filterMap_append, ← received, hr]; simp, hp⟩
    | read u =>
      cases hst
      have hread := read_eq hp.inv u
      rw [if_pos ha.2] at hread
      by_cases hn : s.readbuflen = 0
      · -- an empty read
        refine ⟨ks, ?_, inv_drained rfl, hp.counter, hp.sorted, hp.behind, fun hz => absurd rfl hz⟩
        rw [received, List.filterMap_append, ← received, hr]
        simp [hread, hn]
      · refine ⟨ks ++ [s.counter], ?_, past_read hp hn u⟩
        rw [received, List.filterMap_append, ← received, hr]
        simp [hread, Nat.pos_of_ne_zero hn, hp.inv.message hn]

/-- In every run with reads that ask for the message and can store it, the buffer holds
    nothing or the current message, `poll` says whether a read would return more than 0, and
    the messages received have ever larger counters. -/
theorem device_delivers {tr : List (Dev × Act)} {s : Dev} (h : Run step .init tr s) (hf : Each Fine tr) :
    (s.readbuflen = 0 ∨ s.readbuf.bytes.take s.readbuflen = message s.counter) ∧
      (∀ u, Fine s (.read u) → (myDevPoll s = POLLIN ↔ 0 < (read s u).1.ret)) ∧
      ∃ ks : List Int, received tr = ks.map message ∧ ks.Pairwise (· < ·) := by
  obtain ⟨ks, hr, hp⟩ := past_run h hf
  refine ⟨?_, ?_, ks, hr, hp.sorted⟩
  · by_cases hn : s.readbuflen = 0
    · exact Or.inl hn
    · exact Or.inr (hp.inv.message hn)
  · intro u ⟨_, hu⟩
    rw [poll_iff, read_eq hp.inv, if_pos hu, Int.natCast_pos]
    exact Nat.pos_iff_ne_zero.symm

/-- After a turn and a read of its message. -/
def readOnce : Dev := (read (kthreadFunc .init) ⟨1024, 1024⟩).2

/-- A turn, a read and another turn. -/
theorem device_delivers_two :
    ((kthreadFunc readOnce).readbuflen = 0 ∨
        (kthreadFunc readOnce).readbuf.bytes.take (kthreadFunc readOnce).readbuflen = message (kthreadFunc readOnce).counter) ∧
      (∀ u, Fine (kthreadFunc readOnce) (.read u) →
        (myDevPoll (kthreadFunc readOnce) = POLLIN ↔ 0 < (read (kthreadFunc readOnce) u).1.ret)) ∧
      ∃ ks : List Int,
        received [(.init, Act.turn), (kthreadFunc .init, .read ⟨1024, 1024⟩), (readOnce, .turn)] = ks.map message ∧
          ks.Pairwise (· < ·) := by
  apply device_delivers (run_of_follow [.turn, .read ⟨1024, 1024⟩, .turn] rfl)
  intro x hx
  simp only [List.mem_cons, List.not_mem_nil, or_false] at hx
  rcases hx with rfl | rfl | rfl
  · exact show (0 : Int) < 2147483647 by decide
  · exact show (message 1).length ≤ 1024 ∧ (message 1).length ≤ 1024 by decide
  · exact show (1 : Int) < 2147483647 by decide

/-! ## Reads of any size -/

def reads : Dev → List User → List Got × Dev
  | s, [] => ([], s)
  | s, u :: us =>
    let (g, s) := read s u
    let (gs, s) := reads s us
    (g :: gs, s)

/-- What the reads that did not fail have copied. -/
def delivered (gs : List Got) : List UInt8 := (gs.filter fun g => 0 ≤ g.ret).flatMap Got.copied

/-- Reads that take the message in pieces of the size they ask for: none copies or returns
    more than that, what they deliver is the message's beginning, and `poll` says `POLLIN`
    until that is all of it. -/
structure ByPieces (s : Dev) (us : List User) : Prop where
  asked : ∀ x ∈ us.zip (reads s us).1, x.2.copied.length ≤ x.1.len ∧ x.2.ret ≤ x.1.len
  initial : delivered (reads s us).1 <+: unread s
  ready : ∀ k ≤ us.length, delivered (reads s (us.take k)).1 ≠ unread s → myDevPoll (reads s (us.take k)).2 = POLLIN

/-- Once nothing is counted, reads return 0. -/
theorem reads_drained {s : Dev} (h : s.readbuflen = 0) (us : List User) :
    (reads s us).1 = us.map fun _ => ⟨0, []⟩ := by
  induction us generalizing s with
  | nil => rfl
  | cons u us ih =>
    have h0 : unread s = [] := by simp [unread, h]
    have hr : (read s u).1 = ⟨0, []⟩ := by
      rw [read_eq (inv_drained h), if_pos (by omega), h, h0]
      rfl
    simp only [reads, hr, ih (read_readbuflen s u), List.map_cons]

theorem delivered_drained {s : Dev} (h : s.readbuflen = 0) (us : List User) : delivered (reads s us).1 = [] := by
  rw [reads_drained h, delivered, List.flatMap_eq_nil_iff]
  intro g hg
  obtain ⟨u, -, rfl⟩ := List.mem_map.mp (List.mem_filter.mp hg).1
  rfl

/-- Reads deliver what the first one does. -/
theorem delivered_cons {s : Dev} (h : Inv s) (u : User) (us : List User) :
    delivered (reads s (u :: us)).1 = if s.readbuflen ≤ u.room then unread s else [] := by
  have hrest := delivered_drained (read_readbuflen s u) us
  rw [delivered] at hrest ⊢
  simp only [reads, List.filter_cons]
  by_cases hr : s.readbuflen ≤ u.room
  · rw [read_eq h, if_pos hr, if_pos hr]
    simp [hrest]
  · rw [read_eq h, if_neg hr, if_neg hr]
    simp [hrest, EFAULT]

section
variable {s : Dev} {u : User} {us : List User}

/-- A read that asks for less than the message gets more than it asked for, or nothing. -/
theorem short_read (h : Inv s) (hu : u.len < s.readbuflen) : ¬ ByPieces s (u :: us) := by
  intro hp
  by_cases hr : s.readbuflen ≤ u.room
  · have hret := (hp.asked (u, (read s u).1) (by simp [reads])).2
    rw [read_eq h, if_pos hr] at hret
    exact absurd hu (Nat.not_lt.mpr (Int.ofNat_le.mp hret))
  · have hready := hp.ready 1 (by simp)
    rw [List.take_succ_cons, List.take_zero, delivered_cons h, if_neg hr, poll_iff] at hready
    exact hready (Ne.symm (by rw [← List.length_pos_iff, unread_length h]; omega)) rfl

/-- A read whose copy fails loses the message. -/
theorem failed_read (h : Inv s) (hu : u.room < s.readbuflen) : ¬ ByPieces s (u :: us) := by
  intro hp
  have hready := hp.ready 1 (by simp)
  rw [List.take_succ_cons, List.take_zero, delivered_cons h, if_neg (by omega), poll_iff] at hready
  exact hready (Ne.symm (by rw [← List.length_pos_iff, unread_length h]; omega)) rfl

theorem ready_first (hne : delivered (reads s []).1 ≠ unread s) : myDevPoll (reads s []).2 = POLLIN := by
  rw [poll_iff]
  intro h0
  have h0 : s.readbuflen = 0 := h0
  exact hne (by simp [reads, delivered, unread, h0])

/-- A read that takes everything leaves nothing to the others. -/
theorem whole_read (h : Inv s) (hl : s.readbuflen ≤ u.len) (hr : s.readbuflen ≤ u.room) : ByPieces s (u :: us) := by
  refine ⟨?_, ?_, ?_⟩
  · intro x hx
    simp only [reads, reads_drained (read_readbuflen s u) us, List.zip_cons_cons, List.mem_cons] at hx
    rcases hx with rfl | hx
    · rw [read_eq h, if_pos hr]
      exact ⟨by simpa [unread_length h] using hl, Int.ofNat_le.mpr hl⟩
    · obtain ⟨v, -, hv⟩ := List.mem_map.mp (List.of_mem_zip hx).2
      rw [← hv]
      exact ⟨Nat.zero_le _, Int.natCast_nonneg _⟩
  · rw [delivered_cons h, if_pos hr]
  · intro k _ hne
    cases k with
    | zero => exact ready_first hne
    | succ k =>
      rw [List.take_succ_cons, delivered_cons h, if_pos hr] at hne
      exact absurd rfl hne

theorem no_reads (s : Dev) : ByPieces s [] := by
  refine ⟨?_, ?_, ?_⟩
  · intro x hx
    cases hx
  · exact List.nil_prefix
  · intro k _ hne
    rw [List.take_nil] at hne ⊢
    exact ready_first hne

end

/-- Whatever is in the buffer, reads take it in pieces of the size they ask for exactly when
    the first of them asks for all of it and can store it. -/
theorem read_by_pieces {s : Dev} (h : Reach s) (us : List User) :
    ByPieces s us ↔ ∀ u, us.head? = some u → s.readbuflen ≤ u.len ∧ s.readbuflen ≤ u.room := by
  have hi := reach_inv h
  cases us with
  | nil =>
    refine ⟨?_, ?_⟩
    · intro _ u hu
      cases hu
    · intro _
      exact no_reads s
  | cons u us =>
    refine ⟨?_, ?_⟩
    · intro hp v hv
      cases hv
      refine ⟨?_, ?_⟩
      · exact Nat.not_lt.mp fun hlt => short_read hi hlt hp
      · exact Nat.not_lt.mp fun hlt => failed_read hi hlt hp
    · intro hu
      obtain ⟨hl, hr⟩ := hu u rfl
      exact whole_read hi hl hr

theorem reach_turn : Reach (kthreadFunc .init) := ⟨_, .snoc Act.turn .nil rfl⟩

/-- The first message, read with 1024 bytes and then with 3. -/
theorem read_by_pieces_first :
    ByPieces (kthreadFunc .init) [⟨1024, 1024⟩, ⟨3, 3⟩] ↔
      ∀ u, [(⟨1024, 1024⟩ : User), ⟨3, 3⟩].head? = some u → 8 ≤ u.len ∧ 8 ≤ u.room :=
  read_by_pieces reach_turn _

/-- Three bytes asked for, eight copied. -/
theorem short_read_overruns : ¬ ∀ s, Reach s → s.readbuflen ≠ 0 → ∀ us, ByPieces s us := by
  intro h
  have h8 : (3 : Nat) < (kthreadFunc .init).readbuflen := by decide
  exact short_read (reach_inv reach_turn) h8 (h _ reach_turn (by omega) [⟨3, 1024⟩])

end NetworkCourse.PollDev
