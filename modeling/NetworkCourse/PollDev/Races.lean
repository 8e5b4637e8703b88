/-
  NetworkCourse.PollDev.Races — the thread and one reader of mypolldev, step by step.

  The thread fills `readbuf` and then stores `readbuflen`; the reader copies `readbuflen`
  bytes, which its read returns, and then sets `readbuflen` to 0. (`ret = readbuflen` loads it a
  second time; that is no step of its own here.) Nothing orders the thread's steps against the
  reader's. A turn of the thread without a step of the reader in it, and a read without a step
  of the thread, are those of `Device` (`run_split`).

  A read takes the whole message in the buffer, and forgets no other, in every run in which
  the two keep clear of each other (`Clear`): what the thread does inside a read leaves a
  non-zero `readbuflen` alone, and a copy between the two steps of a turn finds no shorter
  message counted. And in no other run that ends with the reads done: a step that is not
  clear leaves a read that must forget a message it has not copied (`Doomed`).
-/

import NetworkCourse.PollDev.Device

namespace NetworkCourse.PollDev

open Lib.Ascii Lib.Trace

/-- Between its steps the thread holds what `snprintf` returned. -/
inductive Kthread where
  | idle
  | filled (n : Nat)

/-- Between its steps a read holds what it has copied. -/
inductive Reader where
  | idle
  | copied (bytes : List UInt8)

structure Sys where
  dev : Dev
  kthread : Kthread
  reader : Reader

def Sys.init : Sys := ⟨.init, .idle, .idle⟩

inductive Part where
  | fill
  | store
  | copy
  | reset

def part (s : Sys) : Part → Option Sys
  | .fill =>
    match s.kthread with
    | .idle => some { s with dev := (fill s.dev).2, kthread := .filled (fill s.dev).1 }
    | .filled _ => none
  | .store =>
    match s.kthread with
    | .idle => none
    | .filled n => some { s with dev := { s.dev with readbuflen := n }, kthread := .idle }
  | .copy =>
    match s.reader with
    | .idle => some { s with reader := .copied (unread s.dev) }
    | .copied _ => none
  | .reset =>
    match s.reader with
    | .idle => none
    | .copied _ => some { s with dev := { s.dev with readbuflen := 0 }, reader := .idle }

/-- What a part does. -/
inductive Parts (s : Sys) : Part → Sys → Prop
  | fill : s.kthread = .idle → Parts s .fill { s with dev := (fill s.dev).2, kthread := .filled (fill s.dev).1 }
  | store (n : Nat) : s.kthread = .filled n →
      Parts s .store { s with dev := { s.dev with readbuflen := n }, kthread := .idle }
  | copy : s.reader = .idle → Parts s .copy { s with reader := .copied (unread s.dev) }
  | reset (bytes : List UInt8) : s.reader = .copied bytes →
      Parts s .reset { s with dev := { s.dev with readbuflen := 0 }, reader := .idle }

theorem part_parts {s s' : Sys} {a : Part} (h : part s a = some s') : Parts s a s' := by
  cases a with
  | fill =>
    unfold part at h
    cases hk : s.kthread with
    | idle =>
      rw [hk] at h
      cases h
      exact .fill hk
    | filled n =>
      rw [hk] at h
      cases h
  | store =>
    unfold part at h
    cases hk : s.kthread with
    | idle =>
      rw [hk] at h
      cases h
    | filled n =>
      rw [hk] at h
      cases h
      exact .store n hk
  | copy =>
    unfold part at h
    cases hr : s.reader with
    | idle =>
      rw [hr] at h
      cases h
      exact .copy hr
    | copied bytes =>
      rw [hr] at h
      cases h
  | reset =>
    unfold part at h
    cases hr : s.reader with
    | idle =>
      rw [hr] at h
      cases h
    | copied bytes =>
      rw [hr] at h
      cases h
      exact .reset bytes hr

/-! ## Turns and reads in one piece -/

/-- The parts of a step of the device. -/
def Act.parts : Act → List Part
  | .turn => [.fill, .store]
  | .read _ => [.copy, .reset]
  | .poll => []

/-- What a step of the device does, its parts do one after the other. -/
theorem step_split {d d' : Dev} {a : Act} (h : step d a = some d') :
    ∃ tr, Run part ⟨d, .idle, .idle⟩ tr ⟨d', .idle, .idle⟩ ∧ tr.map Prod.snd = a.parts := by
  cases a with
  | turn =>
    cases h
    exact ⟨_, run_of_follow [.fill, .store] rfl, rfl⟩
  | read u =>
    cases h
    exact ⟨_, run_of_follow [.copy, .reset] rfl, rfl⟩
  | poll =>
    cases h
    exact ⟨[], .nil, rfl⟩

/-- So every run of the device is a run of its parts. -/
theorem run_split {tr : List (Dev × Act)} {d : Dev} (h : Run step .init tr d) :
    ∃ tr', Run part .init tr' ⟨d, .idle, .idle⟩ ∧ tr'.map Prod.snd = tr.flatMap fun x => x.2.parts := by
  induction h with
  | nil => exact ⟨[], .nil, rfl⟩
  | snoc a _ hst ih =>
    obtain ⟨tr1, h1, e1⟩ := ih
    obtain ⟨tr2, h2, e2⟩ := step_split hst
    refine ⟨tr1 ++ tr2, h1.append h2, ?_⟩
    rw [List.map_append, e1, e2, List.flatMap_append, List.flatMap_singleton]

/-! ## What should hold -/

/-- The text in `readbuf`, up to its NUL. -/
def text (d : Dev) : List UInt8 := d.readbuf.bytes.takeWhile (· ≠ 0)

/-- A copy that takes anything takes the whole message in the buffer. -/
def TakesWhole (s : Sys) : Part → Prop
  | .copy => s.dev.readbuflen ≠ 0 → ∃ k, text s.dev = message k ∧ unread s.dev = message k
  | _ => True

/-- A reset that forgets anything forgets the message its read has copied. -/
def ForgetsOwn (s : Sys) : Part → Prop
  | .reset => ∀ bytes, s.reader = .copied bytes → s.dev.readbuflen ≠ 0 → bytes = text s.dev
  | _ => True

/-- The thread and the reader keep clear of each other. -/
def Clear (s : Sys) : Part → Prop
  | .fill => s.reader = .idle ∨ s.dev.readbuflen = 0
  | .store => s.reader = .idle ∨ s.kthread = .filled s.dev.readbuflen
  | .copy => s.kthread = .idle ∨ s.dev.readbuflen = 0 ∨ s.kthread = .filled s.dev.readbuflen
  | .reset => True

/-- The counter does not pass the largest `int`. -/
def Counts (s : Sys) : Part → Prop
  | .fill => s.dev.counter < 2147483647
  | _ => True

/-! ## The buffer -/

/-- The buffer begins with the current message and its NUL. -/
def Wrote (d : Dev) : Prop := ∃ t, d.readbuf.bytes = message d.counter ++ 0 :: t

theorem message_no_nul (k : Int) : (0 : UInt8) ∉ message k := by
  rw [message, List.mem_append, not_or]
  exact ⟨by decide, not_mem_decimal (by decide) (by decide) k⟩

theorem Wrote.text {d : Dev} (h : Wrote d) : text d = message d.counter := by
  obtain ⟨t, ht⟩ := h
  have hp : ∀ b ∈ message d.counter, (b ≠ 0) = true := by
    intro b hb
    simp only [ne_eq, eq_iff_iff, iff_true]
    intro h0
    exact message_no_nul d.counter (h0 ▸ hb)
  rw [PollDev.text, ht, List.takeWhile_append_of_pos (by simpa using hp)]
  simp

/-- As many bytes as the message has, or fewer, are its own. -/
theorem Wrote.take {d : Dev} (h : Wrote d) {n : Nat} (hn : n ≤ (message d.counter).length) :
    d.readbuf.bytes.take n = (message d.counter).take n := by
  obtain ⟨t, ht⟩ := h
  rw [ht, List.take_append_of_le_length hn]

theorem Wrote.unread {d : Dev} (h : Wrote d) (hn : d.readbuflen = (message d.counter).length) :
    unread d = message d.counter := by
  rw [PollDev.unread, hn, h.take (Nat.le_refl _), List.take_length]

theorem wrote_fill (d : Dev) : Wrote (fill d).2 := by
  have ht : (message (incr d.counter)).take (READBUFSIZE - 1) = message (incr d.counter) := by
    apply List.take_of_length_le
    have := message_length (isInt_incr d.counter)
    omega
  refine ⟨d.readbuf.bytes.drop ((message (incr d.counter)).length + 1), ?_⟩
  simp only [fill, snprintf, ht]

/-- `readbuflen` and what the thread holds count the message in the buffer. -/
structure Buffered (s : Sys) : Prop where
  filled : ∀ n, s.kthread = .filled n → Wrote s.dev ∧ n = (message s.dev.counter).length
  stored : s.kthread = .idle → s.dev.readbuflen ≠ 0 → Wrote s.dev ∧ s.dev.readbuflen = (message s.dev.counter).length

theorem buffered_init : Buffered .init := by
  refine ⟨?_, ?_⟩
  · intro n h
    cases h
  · intro _ h
    exact absurd rfl h

theorem buffered_step {s s' : Sys} {a : Part} (h : Buffered s) (hst : part s a = some s') : Buffered s' := by
  cases part_parts hst with
  | fill hk =>
    refine ⟨?_, ?_⟩
    · intro n hn
      cases hn
      exact ⟨wrote_fill s.dev, rfl⟩
    · intro hi
      cases hi
  | store n hk =>
    refine ⟨?_, ?_⟩
    · intro m hm
      cases hm
    · intro _ _
      exact h.filled n hk
  | copy hr => exact ⟨h.filled, h.stored⟩
  | reset bytes hr =>
    refine ⟨?_, ?_⟩
    · intro n hn
      exact h.filled n hn
    · intro _ h0
      exact absurd rfl h0

/-- Whatever is counted, the buffer has the message. -/
theorem Buffered.wrote {s : Sys} (h : Buffered s) (hn : s.dev.readbuflen ≠ 0) : Wrote s.dev := by
  cases hk : s.kthread with
  | idle => exact (h.stored hk hn).1
  | filled n => exact (h.filled n hk).1

/-- A clear copy takes the whole message. -/
theorem unread_clear {s : Sys} (h : Buffered s) (hc : Clear s .copy) (hn : s.dev.readbuflen ≠ 0) :
    unread s.dev = message s.dev.counter := by
  rcases hc with hk | h0 | hk
  · obtain ⟨hw, hl⟩ := h.stored hk hn
    exact hw.unread hl
  · exact absurd h0 hn
  · obtain ⟨hw, hl⟩ := h.filled _ hk
    exact hw.unread hl

/-! ## Clear runs -/

/-- What a read has copied is what is counted. -/
structure Calm (s : Sys) : Prop where
  buffered : Buffered s
  own : ∀ bytes, s.reader = .copied bytes → s.dev.readbuflen ≠ 0 → bytes = message s.dev.counter

theorem calm_step {s s' : Sys} {a : Part} (h : Calm s) (hc : Clear s a) (hst : part s a = some s') : Calm s' := by
  refine ⟨buffered_step h.buffered hst, ?_⟩
  intro bytes hb hn
  cases part_parts hst with
  | fill hk =>
    rcases hc with hr | h0
    · rw [hr] at hb
      cases hb
    · exact absurd h0 hn
  | store n hk =>
    rcases hc with hr | hsame
    · rw [hr] at hb
      cases hb
    · rw [hk] at hsame
      cases hsame
      exact h.own bytes hb hn
  | copy hr =>
    cases hb
    exact unread_clear h.buffered hc hn
  | reset bytes' hr => cases hb

theorem calm_init : Calm .init := by
  refine ⟨buffered_init, ?_⟩
  intro bytes h
  cases h

/-- In a clear run every read takes the whole message, and forgets no other. -/
theorem clear_run {tr : List (Sys × Part)} {s : Sys} (h : Run part .init tr s) (hc : Each Clear tr) :
    Each TakesWhole tr ∧ Each ForgetsOwn tr := by
  have hcalm := h.before calm_init (fun _ _ _ => calm_step) hc
  refine ⟨?_, ?_⟩
  · intro ⟨s, a⟩ hx
    cases a with
    | copy =>
      intro hn
      have hb := (hcalm _ hx).buffered
      exact ⟨_, (hb.wrote hn).text, unread_clear hb (hc _ hx) hn⟩
    | _ => trivial
  · intro ⟨s, a⟩ hx
    cases a with
    | reset =>
      intro bytes hb hn
      rw [((hcalm _ hx).buffered.wrote hn).text]
      exact (hcalm _ hx).own bytes hb hn
    | _ => trivial

/-! ## Other runs -/

theorem message_mono {j k : Int} (h0 : 0 ≤ j) (h : j ≤ k) : (message j).length ≤ (message k).length := by
  rw [message, message, decimal_nat h0, decimal_nat (by omega), List.length_append, List.length_append]
  exact Nat.add_le_add_left (decimalNat_mono (by omega)) _

theorem message_inj {j k : Int} (hj : 0 ≤ j) (hk : 0 ≤ k) (h : message j = message k) : j = k := by
  rw [message, message, decimal_nat hj, decimal_nat hk] at h
  have := decimalNat_inj (List.append_cancel_left h)
  omega

/-- Not the message of this counter or a later one. -/
def Stale (bytes : List UInt8) (counter : Int) : Prop := ∀ k, counter ≤ k → bytes ≠ message k

/-- The beginning of an older message is stale. -/
theorem stale_of_initial {bytes : List UInt8} {j counter : Int} (h0 : 0 ≤ j) (hlt : j < counter) (hp : bytes <+: message j) :
    Stale bytes counter := by
  intro k hk hb
  subst hb
  have hlen : (message j).length = (message k).length := by
    apply Nat.le_antisymm
    · exact message_mono h0 (by omega)
    · exact hp.length_le
  have hjk := message_inj (by omega) h0 (hp.eq_of_length hlen.symm)
  omega

/-- And so is what is shorter than the message. -/
theorem stale_of_short {bytes : List UInt8} {counter : Int} (h0 : 0 ≤ counter) (h : bytes.length < (message counter).length) :
    Stale bytes counter := by
  intro k hk hb
  have := message_mono h0 hk
  rw [hb] at h
  omega

theorem Stale.later {bytes : List UInt8} {j k : Int} (h : Stale bytes j) (hjk : j ≤ k) : Stale bytes k := by
  intro i hi
  exact h i (by omega)

/-- What a read has copied is the beginning of a message; all of the one in the buffer only if
    that is counted. -/
structure Tracked (s : Sys) : Prop where
  buffered : Buffered s
  counter : 0 ≤ s.dev.counter
  counted : s.dev.readbuflen ≤ (message s.dev.counter).length
  older : ∀ bytes, s.reader = .copied bytes → ∃ j, 0 ≤ j ∧ j ≤ s.dev.counter ∧ bytes <+: message j
  same : ∀ bytes n, s.reader = .copied bytes → s.kthread = .filled n → bytes = message s.dev.counter → s.dev.readbuflen = n

theorem tracked_init : Tracked .init := by
  refine ⟨buffered_init, Int.le_refl 0, Nat.zero_le _, ?_, ?_⟩
  · intro bytes h
    cases h
  · intro bytes n h
    cases h

theorem unread_prefix {s : Sys} (h : Tracked s) : unread s.dev <+: message s.dev.counter := by
  by_cases h0 : s.dev.readbuflen = 0
  · rw [unread, h0, List.take_zero]
    exact List.nil_prefix
  · rw [unread, (h.buffered.wrote h0).take h.counted]
    exact List.take_prefix _ _

theorem unread_count {s : Sys} (h : Tracked s) : (unread s.dev).length = s.dev.readbuflen := by
  by_cases h0 : s.dev.readbuflen = 0
  · rw [unread, h0, List.take_zero, List.length_nil]
  · rw [unread, (h.buffered.wrote h0).take h.counted, List.length_take, Nat.min_eq_left h.counted]

theorem tracked_step {s s' : Sys} {a : Part} (h : Tracked s) (hc : Counts s a) (hst : part s a = some s') : Tracked s' := by
  have hb := buffered_step h.buffered hst
  have h0 := h.counter
  cases part_parts hst with
  | fill hk =>
    have hi : (fill s.dev).2.counter = s.dev.counter + 1 := incr_eq h0 hc
    refine ⟨hb, ?_, ?_, ?_, ?_⟩
    · rw [hi]
      omega
    · rw [hi]
      exact Nat.le_trans h.counted (message_mono h0 (by omega))
    · intro bytes hr
      obtain ⟨j, hj0, hj, hp⟩ := h.older bytes hr
      exact ⟨j, hj0, by rw [hi]; omega, hp⟩
    · intro bytes n hr _ he
      obtain ⟨j, hj0, hj, hp⟩ := h.older bytes hr
      rw [hi] at he
      exact absurd he (stale_of_initial hj0 (show j < s.dev.counter + 1 by omega) hp _ (Int.le_refl _))
  | store n hk =>
    refine ⟨hb, h0, ?_, h.older, ?_⟩
    · exact Nat.le_of_eq (h.buffered.filled n hk).2
    · intro bytes m _ hm
      cases hm
  | copy hr =>
    refine ⟨hb, h0, h.counted, ?_, ?_⟩
    · intro bytes hbytes
      cases hbytes
      exact ⟨s.dev.counter, h0, Int.le_refl _, unread_prefix h⟩
    · intro bytes n hbytes hn he
      cases hbytes
      rw [(h.buffered.filled n hn).2, ← he]
      exact (unread_count h).symm
  | reset bytes hr =>
    refine ⟨hb, h0, Nat.zero_le _, ?_, ?_⟩
    · intro bytes' hbytes
      cases hbytes
    · intro bytes' n hbytes
      cases hbytes

/-- A read is under way that has not copied the message in the buffer, and will forget it. -/
def Doomed (s : Sys) : Prop := ∃ bytes, s.reader = .copied bytes ∧ s.dev.readbuflen ≠ 0 ∧ Stale bytes s.dev.counter

theorem length_message_ne (k : Int) : (message k).length ≠ 0 := by
  intro h
  exact message_ne_nil k (List.eq_nil_of_length_eq_zero h)

/-- A part that is not clear dooms the read. -/
theorem unclear_dooms {s s' : Sys} {a : Part} (h : Tracked s) (hc : Counts s a) (hst : part s a = some s') (hu : ¬ Clear s a) :
    Doomed s' := by
  have h0 := h.counter
  cases part_parts hst with
  | fill hk =>
    have hi : (fill s.dev).2.counter = s.dev.counter + 1 := incr_eq h0 hc
    simp only [Clear, not_or] at hu
    cases hr : s.reader with
    | idle => exact absurd hr hu.1
    | copied bytes =>
      obtain ⟨j, hj0, hj, hp⟩ := h.older bytes hr
      refine ⟨bytes, rfl, hu.2, ?_⟩
      show Stale bytes (fill s.dev).2.counter
      rw [hi]
      exact stale_of_initial hj0 (by omega) hp
  | store n hk =>
    simp only [Clear, not_or] at hu
    cases hr : s.reader with
    | idle => exact absurd hr hu.1
    | copied bytes =>
      have hn := (h.buffered.filled n hk).2
      refine ⟨bytes, rfl, ?_, ?_⟩
      · show n ≠ 0
        rw [hn]
        exact length_message_ne _
      · intro k hle he
        rcases Int.lt_or_eq_of_le hle with hlt | rfl
        · obtain ⟨j, hj0, hj, hp⟩ := h.older bytes hr
          have hlt' : j < k := Int.lt_of_le_of_lt hj hlt
          exact stale_of_initial hj0 hlt' hp k (Int.le_refl _) he
        · exact hu.2 (by rw [hk, h.same bytes n hr hk he])
  | copy hr =>
    simp only [Clear, not_or] at hu
    obtain ⟨hk, hn, hne⟩ := hu
    cases hf : s.kthread with
    | idle => exact absurd hf hk
    | filled n =>
      refine ⟨_, rfl, hn, stale_of_short h0 ?_⟩
      rw [unread_count h]
      apply Nat.lt_of_le_of_ne h.counted
      intro he
      exact hne (by rw [hf, (h.buffered.filled n hf).2, he])
  | reset bytes hr => exact absurd trivial hu

/-- A doomed read stays so until it forgets a message that is not its own. -/
theorem doomed_step {s s' : Sys} {a : Part} (h : Tracked s) (hc : Counts s a) (hown : ForgetsOwn s a)
    (hst : part s a = some s') (hd : Doomed s) : Doomed s' := by
  obtain ⟨bytes, hr, hn, hs⟩ := hd
  cases part_parts hst with
  | fill hk =>
    have hi : (fill s.dev).2.counter = s.dev.counter + 1 := incr_eq h.counter hc
    refine ⟨bytes, hr, hn, hs.later ?_⟩
    show s.dev.counter ≤ (fill s.dev).2.counter
    omega
  | store n hk =>
    refine ⟨bytes, hr, ?_, hs⟩
    show n ≠ 0
    rw [(h.buffered.filled n hk).2]
    exact length_message_ne _
  | copy hr' =>
    rw [hr] at hr'
    cases hr'
  | reset bytes' hr' =>
    have he := hown bytes hr hn
    rw [(h.buffered.wrote hn).text] at he
    exact absurd he (hs _ (Int.le_refl _))

/-- A run that ends with no read under way, each of which forgot its own message only, was
    clear. -/
theorem clear_of_own {tr : List (Sys × Part)} {s : Sys} (h : Run part .init tr s) (hend : s.reader = .idle)
    (hc : Each Counts tr) (hown : Each ForgetsOwn tr) : Each Clear tr := by
  have hboth : Each (fun s a => Counts s a ∧ ForgetsOwn s a) tr := fun x hx => ⟨hc x hx, hown x hx⟩
  rcases h.fit_or_doomed (D := Doomed) (Q := Clear) tracked_init (fun _ _ _ ht hca hst => tracked_step ht hca.1 hst)
    (fun _ _ _ ht hca hst hd => hd.elim (doomed_step ht hca.1 hca.2 hst) (unclear_dooms ht hca.1 hst)) hboth with hq | hd
  · exact hq
  · obtain ⟨bytes, hr, -⟩ := hd
    rw [hend] at hr
    cases hr

/-- In a run whose parts keep clear of each other, every read takes the whole message in the
    buffer and forgets no other. A run that ends with no read under way and in which no read
    forgets another message was such a run. -/
theorem reads_own {tr : List (Sys × Part)} {s : Sys} (h : Run part .init tr s) :
    (Each Clear tr → Each TakesWhole tr ∧ Each ForgetsOwn tr) ∧
      (s.reader = .idle → Each Counts tr → Each ForgetsOwn tr → Each Clear tr) :=
  ⟨clear_run h, clear_of_own h⟩

/-- A turn and a read of its message, one after the other. -/
def apart : List (Sys × Part) :=
  [(.init, .fill), (⟨(fill .init).2, .filled (fill .init).1, .idle⟩, .store), (⟨kthreadFunc .init, .idle, .idle⟩, .copy),
    (⟨kthreadFunc .init, .idle, .copied (unread (kthreadFunc .init))⟩, .reset)]

theorem reads_own_apart : Each TakesWhole apart ∧ Each ForgetsOwn apart ∧ Each Clear apart := by
  have hrun : Run part .init apart ⟨{ kthreadFunc .init with readbuflen := 0 }, .idle, .idle⟩ :=
    run_of_follow [.fill, .store, .copy, .reset] rfl
  have hclear : Each Clear apart := each_cons.mpr ⟨Or.inl rfl, each_cons.mpr ⟨Or.inl rfl, each_cons.mpr ⟨Or.inl rfl,
    each_cons.mpr ⟨trivial, each_nil _⟩⟩⟩⟩
  have hcounts : Each Counts apart := each_cons.mpr ⟨show (0 : Int) < 2147483647 by decide, each_cons.mpr ⟨trivial,
    each_cons.mpr ⟨trivial, each_cons.mpr ⟨trivial, each_nil _⟩⟩⟩⟩
  obtain ⟨htakes, hforgets⟩ := (reads_own hrun).1 hclear
  exact ⟨htakes, hforgets, (reads_own hrun).2 rfl hcounts hforgets⟩

theorem text_kthreadFunc (d : Dev) : text (kthreadFunc d) = message (incr d.counter) := by
  have hw : Wrote (kthreadFunc d) := wrote_fill d
  exact hw.text

/-- A second turn inside the read of the first message: the read forgets the second. -/
theorem turn_in_read_lost : ¬ ∀ tr s, Run part .init tr s → Each TakesWhole tr ∧ Each ForgetsOwn tr := by
  intro hall
  have hrun : Run part .init _ ⟨kthreadFunc (kthreadFunc .init), .idle, .copied (unread (kthreadFunc .init))⟩ :=
    run_of_follow [.fill, .store, .copy, .fill, .store] rfl
  obtain ⟨-, hown⟩ := hall _ _ (.snoc .reset hrun rfl)
  have hlost := (each_snoc.mp hown).2 _ rfl (by decide)
  rw [unread_kthreadFunc, text_kthreadFunc] at hlost
  exact absurd hlost (show message 1 ≠ message 2 by decide)

end NetworkCourse.PollDev
