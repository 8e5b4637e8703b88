/-
  NetworkCourse.PollDev.Wakeups — the thread of mypolldev and programs that sleep in `poll`.

  Any number of processes run live/epoll/my_poll_dev_test.c: `poll` puts the process on the
  wait queue (`poll_wait`), looks at `readbuflen`, and without a message sleeps until a
  `wake_up` has triggered it, then looks again. The thread fills `readbuf`, stores
  `readbuflen` and calls `wake_up`. Every step of any of them can come next, also a `wake_up`
  between a process's two steps in `poll`.

  A process is on the queue before it looks, and the thread stores before it wakes. So none
  sleeps on a message unless a `wake_up` is still to come (`Heard`), and it is triggered before
  the thread's next turn (`no_lost_wakeup`). One process alone is never called for nothing
  (`no_false_alarm`). It prints the messages that the thread does not write over unread, which is what
  happens to the first when the next turn follows `wake_up` at once; it misses none if it sleeps,
  not yet woken, whenever a turn begins (`all_printed`).

  `read` loads `readbuflen` for the copy and again for its result; here both are in the step `copy`.
-/

import NetworkCourse.PollDev.Device

namespace NetworkCourse.PollDev.Wakeups

open Lib.Ascii Lib.Trace

inductive Kthread where
  | idle
  | filled (n : Nat)
  | stored

/-- Where a process is: in front of `poll`, in it on the queue, in it behind a look at no message, behind
    it, or in `read` with what is copied. -/
inductive Pc where
  | idle
  | queued
  | waiting
  | ready
  | copied (bytes : List UInt8)

/-- `out` are the texts of its `printf`. -/
structure Process where
  pc : Pc
  triggered : Bool
  out : List (List UInt8)

structure Sys (ι : Type) where
  dev : Dev
  kthread : Kthread
  process : ι → Process

inductive Act (ι : Type) where
  | fill
  | store
  | wakeUp
  | pollWait (i : ι)
  | look (i : ι)
  | resume (i : ι)
  | copy (i : ι)
  | reset (i : ι)

def Sys.init {ι : Type} : Sys ι := ⟨.init, .idle, fun _ => ⟨.idle, false, []⟩⟩

/-- `wake_up` triggers who is on the queue. -/
def Process.woken (p : Process) : Process :=
  match p.pc with
  | .queued | .waiting => { p with triggered := true }
  | _ => p

variable {ι : Type} [DecidableEq ι]

def Sys.put (s : Sys ι) (i : ι) (p : Process) : Sys ι := { s with process := Function.update s.process i p }

def step (s : Sys ι) : Act ι → Option (Sys ι)
  | .fill =>
    match s.kthread with
    | .idle => some { s with dev := (fill s.dev).2, kthread := .filled (fill s.dev).1 }
    | _ => none
  | .store =>
    match s.kthread with
    | .filled n => some { s with dev := { s.dev with readbuflen := n }, kthread := .stored }
    | _ => none
  | .wakeUp =>
    match s.kthread with
    | .stored => some { s with kthread := .idle, process := fun i => (s.process i).woken }
    | _ => none
  | .pollWait i =>
    match s.process i with
    | ⟨.idle, _, out⟩ => some (s.put i ⟨.queued, false, out⟩)
    | _ => none
  | .look i =>
    match s.process i with
    | ⟨.queued, triggered, out⟩ =>
      some (s.put i (if myDevPoll s.dev = POLLIN then ⟨.ready, triggered, out⟩ else ⟨.waiting, triggered, out⟩))
    | _ => none
  | .resume i =>
    match s.process i with
    | ⟨.waiting, true, out⟩ => some (s.put i ⟨.queued, false, out⟩)
    | _ => none
  | .copy i =>
    match s.process i with
    | ⟨.ready, triggered, out⟩ => some (s.put i ⟨.copied (unread s.dev), triggered, out⟩)
    | _ => none
  | .reset i =>
    match s.process i with
    | ⟨.copied bytes, triggered, out⟩ =>
      some { s.put i ⟨.idle, triggered, out ++ [bytes]⟩ with dev := { s.dev with readbuflen := 0 } }
    | _ => none

/-- What a step does. -/
inductive Steps (s : Sys ι) : Act ι → Sys ι → Prop
  | fill : s.kthread = .idle → Steps s .fill { s with dev := (fill s.dev).2, kthread := .filled (fill s.dev).1 }
  | store (n : Nat) : s.kthread = .filled n → Steps s .store { s with dev := { s.dev with readbuflen := n }, kthread := .stored }
  | wakeUp : s.kthread = .stored → Steps s .wakeUp { s with kthread := .idle, process := fun i => (s.process i).woken }
  | pollWait (i : ι) (b : Bool) (out : List (List UInt8)) : s.process i = ⟨.idle, b, out⟩ →
      Steps s (.pollWait i) (s.put i ⟨.queued, false, out⟩)
  | called (i : ι) (b : Bool) (out : List (List UInt8)) : s.process i = ⟨.queued, b, out⟩ → s.dev.readbuflen ≠ 0 →
      Steps s (.look i) (s.put i ⟨.ready, b, out⟩)
  | sleeps (i : ι) (b : Bool) (out : List (List UInt8)) : s.process i = ⟨.queued, b, out⟩ → s.dev.readbuflen = 0 →
      Steps s (.look i) (s.put i ⟨.waiting, b, out⟩)
  | resume (i : ι) (out : List (List UInt8)) : s.process i = ⟨.waiting, true, out⟩ →
      Steps s (.resume i) (s.put i ⟨.queued, false, out⟩)
  | copy (i : ι) (b : Bool) (out : List (List UInt8)) : s.process i = ⟨.ready, b, out⟩ →
      Steps s (.copy i) (s.put i ⟨.copied (unread s.dev), b, out⟩)
  | reset (i : ι) (b : Bool) (out : List (List UInt8)) (bytes : List UInt8) : s.process i = ⟨.copied bytes, b, out⟩ →
      Steps s (.reset i) { s.put i ⟨.idle, b, out ++ [bytes]⟩ with dev := { s.dev with readbuflen := 0 } }

theorem step_steps {s s' : Sys ι} {a : Act ι} (h : step s a = some s') : Steps s a s' := by
  cases a with
  | fill =>
    simp only [step] at h
    split at h
    · next hk =>
      cases h
      exact .fill hk
    · cases h
  | store =>
    simp only [step] at h
    split at h
    · next n hk =>
      cases h
      exact .store n hk
    · cases h
  | wakeUp =>
    simp only [step] at h
    split at h
    · next hk =>
      cases h
      exact .wakeUp hk
    · cases h
  | pollWait i =>
    simp only [step] at h
    split at h
    · next b out hp =>
      cases h
      exact .pollWait i b out hp
    · cases h
  | look i =>
    simp only [step] at h
    split at h
    · next b out hp =>
      cases h
      by_cases h0 : s.dev.readbuflen = 0
      · rw [if_neg (mt (poll_iff s.dev).mp (not_not.mpr h0))]
        exact .sleeps i b out hp h0
      · rw [if_pos ((poll_iff s.dev).mpr h0)]
        exact .called i b out hp h0
    · cases h
  | resume i =>
    simp only [step] at h
    split at h
    · next out hp =>
      cases h
      exact .resume i out hp
    · cases h
  | copy i =>
    simp only [step] at h
    split at h
    · next b out hp =>
      cases h
      exact .copy i b out hp
    · cases h
  | reset i =>
    simp only [step] at h
    split at h
    · next bytes b out hp =>
      cases h
      exact .reset i b out bytes hp
    · cases h

@[simp] theorem Process.woken_pc (p : Process) : p.woken.pc = p.pc := by
  unfold woken
  split <;> rfl

theorem Process.woken_waiting {p : Process} (h : p.pc = .waiting) : p.woken.triggered = true := by
  unfold woken
  rw [h]

@[simp] theorem put_self (s : Sys ι) (i : ι) (p : Process) : (s.put i p).process i = p := Function.update_self ..

theorem put_other (s : Sys ι) {i j : ι} (h : j ≠ i) (p : Process) : (s.put i p).process j = s.process j :=
  Function.update_of_ne h ..

/-! ## No wake-up is lost -/

/-- Who sleeps on a message is about to be woken. -/
def Heard (s : Sys ι) : Prop :=
  ∀ i, (s.process i).pc = .waiting → (s.process i).triggered = false → s.dev.readbuflen ≠ 0 → s.kthread = .stored

/-- A process that does not begin to sleep on a message. -/
theorem heard_put {s : Sys ι} (h : Heard s) (i : ι) {p : Process} (hp : p.pc = .waiting → s.dev.readbuflen = 0) : Heard (s.put i p) := by
  intro j hpc ht hn
  by_cases hj : j = i
  · subst hj
    rw [put_self] at hpc
    exact absurd (hp hpc) hn
  · rw [put_other s hj] at hpc ht
    exact h j hpc ht hn

theorem steps_heard {s s' : Sys ι} {a : Act ι} (h : Heard s) (hst : Steps s a s') : Heard s' := by
  cases hst with
  | fill hk =>
    intro i hpc ht hn
    have hs := h i hpc ht hn
    rw [hk] at hs
    cases hs
  | store n hk =>
    intro i _ _ _
    rfl
  | wakeUp hk =>
    intro i hpc ht _
    rw [Process.woken_waiting (by rwa [Process.woken_pc] at hpc)] at ht
    cases ht
  | pollWait i b out hp => exact heard_put h i fun hpc => by cases hpc
  | called i b out hp hn => exact heard_put h i fun hpc => by cases hpc
  | sleeps i b out hp h0 => exact heard_put h i fun _ => h0
  | resume i out hp => exact heard_put h i fun hpc => by cases hpc
  | copy i b out hp => exact heard_put h i fun hpc => by cases hpc
  | reset i b out bytes hp =>
    intro j _ _ hn
    exact absurd rfl hn

theorem run_heard {tr : List (Sys ι × Act ι)} {s : Sys ι} (h : Run step .init tr s) : Heard s := by
  refine h.keeps (C := fun _ _ => True) ?_ (fun _ _ _ hs _ hst => steps_heard hs (step_steps hst)) (fun _ _ => trivial)
  intro i hpc
  cases hpc

/-- Whose step it is, if it is a process's. -/
def Act.process? : Act ι → Option ι
  | .fill | .store | .wakeUp => none
  | .pollWait i | .look i | .resume i | .copy i | .reset i => some i

/-- Steps of the others leave a process where it is, and do not take its trigger away. -/
theorem steps_other {s s' : Sys ι} {a : Act ι} (hst : Steps s a s') {i : ι} (ha : a.process? ≠ some i) :
    (s'.process i).pc = (s.process i).pc ∧ ((s.process i).triggered = true → (s'.process i).triggered = true) := by
  have hput : ∀ j p, (Act.look j).process? ≠ some i → (s.put j p).process i = s.process i := by
    intro j p hj
    exact put_other s (fun he => hj (congrArg some he.symm)) p
  cases hst with
  | fill | store => exact ⟨rfl, id⟩
  | wakeUp =>
    refine ⟨Process.woken_pc _, fun ht => ?_⟩
    show (s.process i).woken.triggered = true
    unfold Process.woken
    split <;> first | rfl | exact ht
  | pollWait j _ _ _ =>
    rw [hput j _ ha]
    exact ⟨rfl, id⟩
  | called j _ _ _ _ =>
    rw [hput j _ ha]
    exact ⟨rfl, id⟩
  | sleeps j _ _ _ _ =>
    rw [hput j _ ha]
    exact ⟨rfl, id⟩
  | resume j _ _ =>
    rw [hput j _ ha]
    exact ⟨rfl, id⟩
  | copy j _ _ _ =>
    rw [hput j _ ha]
    exact ⟨rfl, id⟩
  | reset j _ _ _ _ =>
    show ((s.put j _).process i).pc = _ ∧ (_ → ((s.put j _).process i).triggered = true)
    rw [hput j _ ha]
    exact ⟨rfl, id⟩

/-- Only `wake_up` follows a store, and it triggers the sleepers. -/
theorem sleeper_triggered {tr : List (Sys ι × Act ι)} {s s' : Sys ι} {i : ι} (hpc : (s.process i).pc = .waiting)
    (hk : s.kthread = .stored) (h : Run step s tr s') (hi : Each (fun _ a => a.process? ≠ some i) tr) :
    (s'.process i).pc = .waiting ∧
      ((s'.process i).triggered = true ∨ s'.kthread = .stored ∧ Each (fun _ a => a ≠ .fill) tr) := by
  induction h with
  | nil => exact ⟨hpc, Or.inr ⟨hk, each_nil _⟩⟩
  | @snoc tr s1 s2 a _ hst ih =>
    obtain ⟨htr, ha⟩ := each_snoc.mp hi
    obtain ⟨hpc1, hor⟩ := ih htr
    have hsteps := step_steps hst
    obtain ⟨hpc2, hmore⟩ := steps_other hsteps ha
    refine ⟨hpc2.trans hpc1, ?_⟩
    rcases hor with ht | ⟨hk1, hno⟩
    · exact Or.inl (hmore ht)
    · have hkeep : s2.kthread = .stored ∧ a ≠ .fill ∨ (s2.process i).triggered = true := by
        cases hsteps with
        | fill hidle =>
          rw [hk1] at hidle
          cases hidle
        | store n hfilled =>
          rw [hk1] at hfilled
          cases hfilled
        | wakeUp _ => exact Or.inr (Process.woken_waiting hpc1)
        | _ => exact Or.inl ⟨hk1, fun he => by cases he⟩
      rcases hkeep with ⟨hk2, hne⟩ | ht
      · exact Or.inr ⟨hk2, each_snoc.mpr ⟨hno, hne⟩⟩
      · exact Or.inl ht

/-- A process that sleeps on a message, in any run of any number of them: the `wake_up` that triggers it
    can happen, and has happened when the thread's next turn begins, whatever the others do. -/
theorem no_lost_wakeup {tr : List (Sys ι × Act ι)} {s : Sys ι} (h : Run step .init tr s) {i : ι} (hpc : (s.process i).pc = .waiting)
    (ht : (s.process i).triggered = false) (hn : s.dev.readbuflen ≠ 0) :
    (∃ s1, step s .wakeUp = some s1 ∧ (s1.process i).triggered = true ∧ s1.dev = s.dev) ∧
      ∀ tr' s', Run step s tr' s' → Each (fun _ a => a.process? ≠ some i) tr' → (∃ t, (t, Act.fill) ∈ tr') →
        (s'.process i).pc = .waiting ∧ (s'.process i).triggered = true := by
  have hk := run_heard h i hpc ht hn
  have hwake : step s .wakeUp = some { s with kthread := .idle, process := fun i => (s.process i).woken } := by simp only [step, hk]
  refine ⟨⟨_, hwake, Process.woken_waiting hpc, rfl⟩, ?_⟩
  intro tr' s' h' hi ⟨t, ht'⟩
  obtain ⟨hpc', hor⟩ := sleeper_triggered hpc hk h' hi
  refine ⟨hpc', hor.resolve_right ?_⟩
  intro ⟨_, hno⟩
  exact hno (t, .fill) ht' rfl

/-- Two processes; the second has looked before the store, the first is in front of `poll`. -/
theorem no_lost_wakeup_two :
    ∃ tr s, @Run (Sys Bool) (Act Bool) step .init tr s ∧ (∃ s1, step s .wakeUp = some s1 ∧ (s1.process true).triggered = true) := by
  have h := @run_of_follow (Sys Bool) (Act Bool) step [.pollWait true, .look true, .fill, .store] .init _ _ rfl
  obtain ⟨⟨s1, h1, h2, -⟩, -⟩ := no_lost_wakeup h (i := true) rfl rfl (by decide)
  exact ⟨_, _, h, s1, h1, h2⟩

/-! ## One process -/

/-- What one process alone is called for, and has read. -/
structure Called (s : Sys Unit) : Prop where
  size : s.dev.readbuflen ≤ READBUFSIZE
  filled : ∀ n, s.kthread = .filled n → n ≠ 0 ∧ n ≤ READBUFSIZE
  ready : (s.process ()).pc = .ready → s.dev.readbuflen ≠ 0
  copied : ∀ bytes, (s.process ()).pc = .copied bytes → bytes ≠ []
  out : [] ∉ (s.process ()).out

theorem unread_ne_nil {s : Dev} (h : s.readbuflen ≠ 0) (hle : s.readbuflen ≤ READBUFSIZE) : unread s ≠ [] := by
  rw [← List.length_pos_iff, unread, List.length_take, s.readbuf.size]
  omega

theorem steps_called {s s' : Sys Unit} {a : Act Unit} (h : Called s) (hst : Steps s a s') : Called s' := by
  cases hst with
  | fill hk =>
    refine ⟨h.size, ?_, h.ready, h.copied, h.out⟩
    intro n hn
    cases hn
    have hlen := message_length (isInt_incr s.dev.counter)
    rw [(fill_spec s.dev).2.1]
    exact ⟨fun h0 => message_ne_nil _ (List.length_eq_zero_iff.mp h0), Nat.le_of_lt hlen⟩
  | store n hk =>
    obtain ⟨hne, hle⟩ := h.filled n hk
    refine ⟨hle, ?_, fun _ => hne, h.copied, h.out⟩
    intro m hm
    cases hm
  | wakeUp hk =>
    have hout : (s.process ()).woken.out = (s.process ()).out := by
      unfold Process.woken
      split <;> rfl
    refine ⟨h.size, ?_, ?_, ?_, ?_⟩
    · intro m hm
      cases hm
    · intro hpc
      exact h.ready (by rwa [Process.woken_pc] at hpc)
    · intro bytes hpc
      exact h.copied bytes (by rwa [Process.woken_pc] at hpc)
    · show [] ∉ (s.process ()).woken.out
      rw [hout]
      exact h.out
  | pollWait i b out hp =>
    have ho : out = (s.process ()).out := by rw [hp]
    exact ⟨h.size, h.filled, fun hpc => (by cases hpc), fun _ hpc => (by cases hpc), ho ▸ h.out⟩
  | called i b out hp hn =>
    have ho : out = (s.process ()).out := by rw [hp]
    exact ⟨h.size, h.filled, fun _ => hn, fun _ hpc => (by cases hpc), ho ▸ h.out⟩
  | sleeps i b out hp h0 =>
    have ho : out = (s.process ()).out := by rw [hp]
    exact ⟨h.size, h.filled, fun hpc => (by cases hpc), fun _ hpc => (by cases hpc), ho ▸ h.out⟩
  | resume i out hp =>
    have ho : out = (s.process ()).out := by rw [hp]
    exact ⟨h.size, h.filled, fun hpc => (by cases hpc), fun _ hpc => (by cases hpc), ho ▸ h.out⟩
  | copy i b out hp =>
    have ho : out = (s.process ()).out := by rw [hp]
    have hpc : (s.process ()).pc = .ready := by rw [hp]
    refine ⟨h.size, h.filled, fun hpc => (by cases hpc), ?_, ho ▸ h.out⟩
    intro bytes hb
    cases hb
    exact unread_ne_nil (h.ready hpc) h.size
  | reset i b out bytes hp =>
    have ho : out = (s.process ()).out := by rw [hp]
    have hpc : (s.process ()).pc = .copied bytes := by rw [hp]
    refine ⟨Nat.zero_le _, h.filled, fun hpc => (by cases hpc), fun _ hpc => (by cases hpc), ?_⟩
    show [] ∉ out ++ [bytes]
    intro hmem
    rcases List.mem_append.mp hmem with hmem | hmem
    · exact h.out (ho ▸ hmem)
    · exact h.copied bytes hpc (List.mem_singleton.mp hmem).symm

theorem run_called {tr : List (Sys Unit × Act Unit)} {s : Sys Unit} (h : Run step .init tr s) : Called s := by
  refine h.keeps (C := fun _ _ => True) ?_ (fun _ _ _ hs _ hst => steps_called hs (step_steps hst)) (fun _ _ => trivial)
  exact ⟨Nat.zero_le _, fun n hn => (by cases hn), fun hpc => (by cases hpc), fun _ hpc => (by cases hpc),
    List.not_mem_nil⟩

/-- Whatever the thread does in between, `poll` calls one process only when there is something to
    read, and it prints no empty text. -/
theorem no_false_alarm {tr : List (Sys Unit × Act Unit)} {s : Sys Unit} (h : Run step .init tr s) :
    ((s.process ()).pc = .ready → s.dev.readbuflen ≠ 0) ∧ [] ∉ (s.process ()).out := by
  have hcalled := run_called h
  exact ⟨hcalled.ready, hcalled.out⟩

/-! ### What it prints -/

/-- The first `k` messages. -/
def messages (k : Nat) : List (List UInt8) := (List.range k).map fun (j : Nat) => message (j + 1)

/-- The number of the message that a turn writes over unread. -/
def lost (s : Sys Unit) : Act Unit → Option Int
  | .fill => if s.dev.readbuflen = 0 then none else some s.dev.counter
  | _ => none

/-- The messages the thread wrote over before they were read. -/
def overwritten (tr : List (Sys Unit × Act Unit)) : List Int := tr.filterMap fun x => lost x.1 x.2

/-- The last message is still to be read. -/
def pending (s : Sys Unit) : Bool :=
  match s.kthread with
  | .filled _ => true
  | _ => s.dev.readbuflen ≠ 0

/-- Of `c` messages those that are not in `l`, and without the last one if it is `pending`. -/
def kept (l : List Int) (pending : Bool) (c : Nat) : List (List UInt8) :=
  ((List.range c).filter fun (j : Nat) => (j + 1 : Int) ∉ l ∧ ¬(pending = true ∧ j + 1 = c)).map
    fun (j : Nat) => message (j + 1)

/-- The thread's counter does not pass the largest `int`. -/
def Bounded (s : Sys Unit) : Act Unit → Prop
  | .fill => s.dev.counter < 2147483647
  | _ => True

/-- No turn begins within a `read`, and none is between its fill and its store when a `read` copies. -/
def Apart (s : Sys Unit) : Act Unit → Prop
  | .fill => ∀ bytes, (s.process ()).pc ≠ .copied bytes
  | .copy _ => ∀ n, s.kthread ≠ .filled n
  | _ => True

/-- The process sleeps when the thread begins a turn, and is not woken yet. -/
def Asleep (s : Sys Unit) : Act Unit → Prop
  | .fill => (s.process ()).pc = .waiting ∧ (s.process ()).triggered = false
  | _ => True

theorem overwritten_snoc (tr : List (Sys Unit × Act Unit)) (s : Sys Unit) (a : Act Unit) :
    overwritten (tr ++ [(s, a)]) = overwritten tr ++ (lost s a).toList := by
  rw [overwritten, List.filterMap_append]
  cases h : lost s a <;> simp [overwritten, h]

theorem overwritten_other (tr : List (Sys Unit × Act Unit)) (s : Sys Unit) {a : Act Unit} (ha : a ≠ .fill) :
    overwritten (tr ++ [(s, a)]) = overwritten tr := by
  have h : lost s a = none := by cases a <;> first | rfl | exact absurd rfl ha
  rw [overwritten_snoc, h]
  exact List.append_nil _

theorem pending_idle {s : Sys Unit} (hk : s.kthread = .idle) : pending s = true ↔ s.dev.readbuflen ≠ 0 := by
  simp [pending, hk]

/-- The next message adds nothing, and the last one is gone if it was not read. -/
theorem kept_fill {l : List Int} {b : Bool} {c : Nat} {o : Option Int}
    (ho : o = if b = true then some (c : Int) else none) : kept (l ++ o.toList) true (c + 1) = kept l b c := by
  unfold kept
  rw [List.range_succ, List.filter_append, List.map_append]
  have hlast : ([c].filter fun (j : Nat) => ((j : Int) + 1 ∉ l ++ o.toList ∧ ¬(true = true ∧ j + 1 = c + 1))) = [] := by
    simp
  rw [hlast, List.map_nil, List.append_nil]
  refine congrArg _ (List.filter_congr fun j hj => ?_)
  have hlt := List.mem_range.mp hj
  subst ho
  cases b with
  | false => simp; omega
  | true =>
    have hiff : (j : Int) + 1 = c ↔ j + 1 = c := by omega
    have hne : j ≠ c := by omega
    simp [hiff, hne]

/-- Its reading adds the last one. -/
theorem kept_read {l : List Int} {c : Nat} (h0 : 0 < c) (hl : (c : Int) ∉ l) :
    kept l false c = kept l true c ++ [message c] := by
  obtain ⟨c, rfl⟩ : ∃ d, c = d + 1 := ⟨c - 1, by omega⟩
  have hl' : (c : Int) + 1 ∉ l := by simpa using hl
  unfold kept
  rw [List.range_succ, List.filter_append, List.filter_append, List.map_append, List.map_append]
  have hsame : (List.range c).filter (fun (j : Nat) => decide ((j : Int) + 1 ∉ l ∧ ¬(false = true ∧ j + 1 = c + 1))) =
      (List.range c).filter fun (j : Nat) => decide ((j : Int) + 1 ∉ l ∧ ¬(true = true ∧ j + 1 = c + 1)) := by
    refine List.filter_congr fun j hj => ?_
    have hne : j ≠ c := Nat.ne_of_lt (List.mem_range.mp hj)
    simp [hne]
  rw [hsame]
  simp [hl']

/-- With none overwritten they are the first messages. -/
theorem kept_nil (b : Bool) (c : Nat) : kept [] b c = messages (if b = true then c - 1 else c) := by
  cases b with
  | false => simp [kept, messages]
  | true =>
    cases c with
    | zero => rfl
    | succ c =>
      have hfill : kept [] true (c + 1) = kept [] false c := kept_fill (l := []) (o := none) rfl
      rw [hfill]
      simp [kept, messages]

/-- What is printed, and which message is where. -/
structure Told (tr : List (Sys Unit × Act Unit)) (s : Sys Unit) : Prop where
  counter : 0 ≤ s.dev.counter
  earlier : ∀ k ∈ overwritten tr, k < s.dev.counter
  began : pending s = true → 0 < s.dev.counter
  filled : ∀ n, s.kthread = .filled n →
    s.dev.readbuf.bytes.take n = message s.dev.counter ∧ ∀ bytes, (s.process ()).pc ≠ .copied bytes
  unread : (∀ n, s.kthread ≠ .filled n) → s.dev.readbuflen ≠ 0 → unread s.dev = message s.dev.counter
  copied : ∀ bytes, (s.process ()).pc = .copied bytes → bytes = message s.dev.counter ∧ s.dev.readbuflen ≠ 0
  out : (s.process ()).out = kept (overwritten tr) (pending s) s.dev.counter.toNat

theorem told_init : Told [] (.init : Sys Unit) where
  counter := Int.le_refl 0
  earlier := by
    intro k hk
    cases hk
  began := by
    intro hp
    cases hp
  filled := by
    intro n hn
    cases hn
  unread := fun _ hn => absurd rfl hn
  copied := by
    intro bytes hpc
    cases hpc
  out := rfl

section
variable {tr : List (Sys Unit × Act Unit)} {s s' : Sys Unit} {a : Act Unit}

/-- A step that leaves the buffer and the thread alone, and what is printed. -/
theorem Told.move (h : Told tr s) (ha : a ≠ .fill) {p : Process} (hout : p.out = (s.process ()).out)
    (hf : ∀ n, s.kthread = .filled n → ∀ bytes, p.pc ≠ .copied bytes)
    (hc : ∀ bytes, p.pc = .copied bytes → bytes = message s.dev.counter ∧ s.dev.readbuflen ≠ 0) :
    Told (tr ++ [(s, a)]) (s.put () p) where
  counter := h.counter
  earlier := by
    rw [overwritten_other tr s ha]
    exact h.earlier
  began := h.began
  filled := fun n hn => ⟨(h.filled n hn).1, hf n hn⟩
  unread := h.unread
  copied := hc
  out := by
    rw [overwritten_other tr s ha]
    exact hout.trans h.out

/-- Nor has the process copied a text. -/
theorem Told.goesOn (h : Told tr s) (ha : a ≠ .fill) {p : Process} (hout : p.out = (s.process ()).out)
    (hno : ∀ bytes, p.pc ≠ .copied bytes) : Told (tr ++ [(s, a)]) (s.put () p) :=
  h.move ha hout (fun _ _ => hno) fun bytes hpc => absurd hpc (hno bytes)

/-- The next message is on its way, and the last one lost unless it was read. -/
theorem told_fill (h : Told tr s) (hb : Bounded s .fill) (ha : Apart s .fill) (hk : s.kthread = .idle) :
    Told (tr ++ [(s, .fill)]) { s with dev := (fill s.dev).2, kthread := .filled (fill s.dev).1 } := by
  have h0 := h.counter
  have hi : incr s.dev.counter = s.dev.counter + 1 := incr_eq h0 hb
  obtain ⟨hcount, hn, htext, hlen⟩ := fill_spec s.dev
  rw [hi] at hcount htext
  have hlost : lost s .fill = if pending s = true then some ((s.dev.counter.toNat : Nat) : Int) else none := by
    rw [Int.toNat_of_nonneg h0, lost]
    by_cases hz : s.dev.readbuflen = 0
    · rw [if_pos hz, if_neg (by rw [pending_idle hk]; exact not_not.mpr hz)]
    · rw [if_neg hz, if_pos ((pending_idle hk).mpr hz)]
  refine ⟨?_, ?_, ?_, ?_, ?_, ?_, ?_⟩
  · show 0 ≤ (fill s.dev).2.counter
    omega
  · intro k hmem
    show k < (fill s.dev).2.counter
    rw [overwritten_snoc, List.mem_append] at hmem
    rcases hmem with hmem | hmem
    · have := h.earlier k hmem
      omega
    · rw [hlost] at hmem
      split at hmem
      · have hkc := List.mem_singleton.mp hmem
        omega
      · cases hmem
  · intro _
    show 0 < (fill s.dev).2.counter
    omega
  · intro n hn'
    cases hn'
    exact ⟨htext.trans (congrArg message hcount.symm), ha⟩
  · intro hno
    exact absurd rfl (hno (fill s.dev).1)
  · intro bytes hpc
    exact absurd hpc (ha bytes)
  · show (s.process ()).out = kept _ true (fill s.dev).2.counter.toNat
    have hnat : (fill s.dev).2.counter.toNat = s.dev.counter.toNat + 1 := by omega
    rw [hnat, overwritten_snoc, kept_fill hlost]
    exact h.out

theorem told_store (h : Told tr s) {n : Nat} (hk : s.kthread = .filled n) (hn0 : n ≠ 0) :
    Told (tr ++ [(s, .store)]) { s with dev := { s.dev with readbuflen := n }, kthread := .stored } := by
  obtain ⟨htext, hpc⟩ := h.filled n hk
  have hpend : pending s = true := by simp [pending, hk]
  refine ⟨h.counter, ?_, fun _ => h.began hpend, fun m hm => (by cases hm), fun _ _ => htext,
    fun bytes hb => absurd hb (hpc bytes), ?_⟩
  · rw [overwritten_other tr s (by simp)]
    exact h.earlier
  · have hpend' : pending { s with dev := { s.dev with readbuflen := n }, kthread := .stored } = true := by
      simp [pending, hn0]
    rw [overwritten_other tr s (by simp), hpend', ← hpend]
    exact h.out

theorem told_wakeUp (h : Told tr s) (hk : s.kthread = .stored) :
    Told (tr ++ [(s, .wakeUp)]) { s with kthread := .idle, process := fun i => (s.process i).woken } := by
  have hpend : pending { s with kthread := .idle, process := fun i => (s.process i).woken } = pending s := by
    simp [pending, hk]
  have hout : (s.process ()).woken.out = (s.process ()).out := by
    unfold Process.woken
    split <;> rfl
  refine ⟨h.counter, ?_, ?_, fun m hm => (by cases hm), fun _ hn => h.unread (by simp [hk]) hn, ?_, ?_⟩
  · rw [overwritten_other tr s (by simp)]
    exact h.earlier
  · rw [hpend]
    exact h.began
  · intro bytes hb
    exact h.copied bytes (by rwa [Process.woken_pc] at hb)
  · rw [overwritten_other tr s (by simp), hpend]
    exact hout.trans h.out

/-- What was copied is the last message, and it is printed. -/
theorem told_reset (h : Told tr s) {b : Bool} {out : List (List UInt8)} {bytes : List UInt8}
    (hp : s.process () = ⟨.copied bytes, b, out⟩) :
    Told (tr ++ [(s, .reset ())]) { s.put () ⟨.idle, b, out ++ [bytes]⟩ with dev := { s.dev with readbuflen := 0 } } := by
  have hpc : (s.process ()).pc = .copied bytes := by rw [hp]
  have hno : ∀ n, s.kthread ≠ .filled n := fun n hk => (h.filled n hk).2 bytes hpc
  obtain ⟨hbytes, hlen⟩ := h.copied bytes hpc
  have hpend : pending s = true := by
    cases hk : s.kthread with
    | filled n => exact absurd hk (hno n)
    | idle | stored => simp [pending, hk, hlen]
  have hpend' : pending { s.put () ⟨.idle, b, out ++ [bytes]⟩ with dev := { s.dev with readbuflen := 0 } } = false := by
    cases hk : s.kthread with
    | filled n => exact absurd hk (hno n)
    | idle | stored => simp [pending, Sys.put, hk]
  have hpos := h.began hpend
  have hc : ((s.dev.counter.toNat : Nat) : Int) = s.dev.counter := Int.toNat_of_nonneg h.counter
  refine ⟨h.counter, ?_, ?_, fun m hm => absurd hm (hno m), fun _ hn => absurd rfl hn, fun _ hb => (by cases hb), ?_⟩
  · rw [overwritten_other tr s (by simp)]
    exact h.earlier
  · rw [hpend']
    intro hf
    cases hf
  · have hread := @kept_read (overwritten tr) s.dev.counter.toNat (by omega)
      (fun hmem => by have := h.earlier _ hmem; omega)
    have hout := h.out
    rw [hp, hpend] at hout
    rw [overwritten_other tr s (by simp), hpend']
    show out ++ [bytes] = kept (overwritten tr) false s.dev.counter.toNat
    rw [hread, ← hout, hbytes, hc]

theorem steps_told (h : Told tr s) (hcalled : Called s) (hb : Bounded s a) (ha : Apart s a) (hst : Steps s a s') :
    Told (tr ++ [(s, a)]) s' := by
  cases hst with
  | fill hk => exact told_fill h hb ha hk
  | store n hk => exact told_store h hk (hcalled.filled n hk).1
  | wakeUp hk => exact told_wakeUp h hk
  | pollWait i b out hp | called i b out hp _ | sleeps i b out hp _ | resume i out hp =>
    exact h.goesOn (by simp) (congrArg Process.out hp).symm (by simp)
  | copy i b out hp =>
    have hn : s.dev.readbuflen ≠ 0 := hcalled.ready (congrArg Process.pc hp)
    refine h.move (by simp) (congrArg Process.out hp).symm (fun n hk => absurd hk (ha n)) ?_
    intro bytes hpc
    cases hpc
    exact ⟨h.unread ha hn, hn⟩
  | reset i b out bytes hp => exact told_reset h hp

theorem run_told (h : Run step .init tr s) (hb : Each Bounded tr) (ha : Each Apart tr) : Told tr s := by
  induction h with
  | nil => exact told_init
  | snoc a h' hst ih =>
    obtain ⟨hbtr, hbs⟩ := each_snoc.mp hb
    obtain ⟨hatr, has⟩ := each_snoc.mp ha
    exact steps_told (ih hbtr hatr) (run_called h') hbs has (step_steps hst)

/-! ### One that keeps up -/

/-- While the thread fills the buffer the process sleeps. -/
def Still (s : Sys Unit) : Prop :=
  ∀ n, s.kthread = .filled n → (s.process ()).pc = .waiting ∧ (s.process ()).triggered = false

theorem steps_still (h : Still s) (ha : Asleep s a) (hst : Steps s a s') : Still s' := by
  intro n hn
  cases hst with
  | fill hk => exact ha
  | store | wakeUp => cases hn
  | resume i out hp =>
    have ht := (h n hn).2
    have hp : s.process () = _ := hp
    rw [hp] at ht
    cases ht
  | pollWait i b out hp | called i b out hp _ | sleeps i b out hp _ | copy i b out hp | reset i b out bytes hp =>
    have hpc := (h n hn).1
    have hp : s.process () = _ := hp
    rw [hp] at hpc
    cases hpc

/-- Nobody sleeping is overtaken, and what it sleeps on is not overwritten. -/
theorem asleep_apart (h : Run step .init tr s) (ha : Each Asleep tr) : Still s ∧ Each Apart tr ∧ overwritten tr = [] := by
  induction h with
  | nil =>
    refine ⟨?_, each_nil _, rfl⟩
    intro n hn
    cases hn
  | @snoc tr s s' a h' hst ih =>
    obtain ⟨hatr, has⟩ := each_snoc.mp ha
    obtain ⟨hstill, hap, hno⟩ := ih hatr
    have hsteps := step_steps hst
    refine ⟨steps_still hstill has hsteps, each_snoc.mpr ⟨hap, ?_⟩, ?_⟩
    · cases hsteps with
      | fill hk =>
        intro bytes hpc
        rw [has.1] at hpc
        cases hpc
      | copy i b out hp =>
        intro n hk
        have hpc := (hstill n hk).1
        have hp : s.process () = _ := hp
        rw [hp] at hpc
        cases hpc
      | _ => trivial
    · rw [overwritten_snoc, hno, List.nil_append]
      cases hsteps with
      | fill hk =>
        have h0 : s.dev.readbuflen = 0 := by
          by_contra hn
          have hstored := run_heard h' () has.1 has.2 hn
          rw [hk] at hstored
          cases hstored
        simp [lost, h0]
      | _ => rfl

/-- One process that is not in the middle of a `read` when the thread fills the buffer: whatever the
    interleaving, it prints the messages up to the counter in order and each once, but for those that
    the thread wrote over unread, and the last one as long as it is to be read; when it sleeps and
    nobody is about to wake it, the last one was read. If it sleeps, not yet woken, whenever the thread
    begins a turn, none is written over. -/
theorem all_printed (h : Run step .init tr s) (hb : Each Bounded tr) :
    (Each Apart tr →
      (s.process ()).out = kept (overwritten tr) (pending s) s.dev.counter.toNat ∧
        (s.kthread = .idle → (s.process ()).pc = .waiting → (s.process ()).triggered = false → pending s = false)) ∧
      (Each Asleep tr → Each Apart tr ∧ overwritten tr = [] ∧
        ∃ k : Nat, (s.process ()).out = messages k ∧ (s.dev.counter = k ∨ s.dev.counter = k + 1) ∧
          (s.kthread = .idle → (s.process ()).pc = .waiting → (s.process ()).triggered = false → s.dev.counter = k)) := by
  have hread : s.kthread = .idle → (s.process ()).pc = .waiting → (s.process ()).triggered = false → pending s = false := by
    intro hk hpc ht
    by_contra hp
    have hstored := run_heard h () hpc ht ((pending_idle hk).mp (by simpa using hp))
    rw [hk] at hstored
    cases hstored
  refine ⟨fun ha => ⟨(run_told h hb ha).out, hread⟩, fun ha => ?_⟩
  obtain ⟨-, hap, hno⟩ := asleep_apart h ha
  have htold := run_told h hb hap
  have hout := htold.out
  have h0 := htold.counter
  rw [hno, kept_nil] at hout
  refine ⟨hap, hno, _, hout, ?_, ?_⟩
  · split
    · next hp =>
      have := htold.began hp
      omega
    · omega
  · intro hk hpc ht
    rw [if_neg (by rw [hread hk hpc ht]; decide)]
    exact (Int.toNat_of_nonneg h0).symm

end

/-- The thread goes on to its next turn right after `wake_up`: the first message is lost, the second printed. -/
theorem all_printed_second :
    ∃ tr s, @Run (Sys Unit) (Act Unit) step .init tr s ∧ overwritten tr = [1] ∧ s.dev.counter = 2 ∧
      (s.process ()).out = [message 2] := by
  have h := @run_of_follow (Sys Unit) (Act Unit) step
    [.pollWait (), .look (), .fill, .store, .wakeUp, .fill, .store, .resume (), .look (), .copy (), .reset ()] .init _ _ rfl
  refine ⟨_, _, h, rfl, rfl, ?_⟩
  refine ((all_printed h ?_).1 ?_).1.trans rfl
  · exact each_cons.mpr ⟨trivial, each_cons.mpr ⟨trivial, each_cons.mpr
      ⟨show (0 : Int) < 2147483647 by decide, each_cons.mpr ⟨trivial, each_cons.mpr ⟨trivial, each_cons.mpr
      ⟨show (1 : Int) < 2147483647 by decide, each_cons.mpr ⟨trivial, each_cons.mpr ⟨trivial, each_cons.mpr ⟨trivial,
      each_cons.mpr ⟨trivial, each_cons.mpr ⟨trivial, each_nil _⟩⟩⟩⟩⟩⟩⟩⟩⟩⟩⟩
  · exact each_cons.mpr ⟨trivial, each_cons.mpr ⟨trivial, each_cons.mpr ⟨fun _ h => (by cases h), each_cons.mpr ⟨trivial,
      each_cons.mpr ⟨trivial, each_cons.mpr ⟨fun _ h => (by cases h), each_cons.mpr ⟨trivial, each_cons.mpr ⟨trivial,
      each_cons.mpr ⟨trivial, each_cons.mpr ⟨fun _ h => (by cases h), each_cons.mpr ⟨trivial, each_nil _⟩⟩⟩⟩⟩⟩⟩⟩⟩⟩⟩

/-- A turn that begins between the copy of a message and its reset. -/
theorem no_false_alarm_overtaken :
    ∃ tr s, @Run (Sys Unit) (Act Unit) step .init tr s ∧ s.dev.counter = 2 ∧
      ((s.process ()).pc = .ready → s.dev.readbuflen ≠ 0) ∧ [] ∉ (s.process ()).out := by
  have h := @run_of_follow (Sys Unit) (Act Unit) step
    [.fill, .store, .wakeUp, .pollWait (), .look (), .copy (), .fill, .reset (), .pollWait ()] .init _ _ rfl
  exact ⟨_, _, h, rfl, no_false_alarm h⟩

end NetworkCourse.PollDev.Wakeups
