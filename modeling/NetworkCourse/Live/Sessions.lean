/-
  NetworkCourse.Live.Sessions — clients of live/epoll/select_test.c at a server of
  live/epoll/epoll_test.c.

  Any number of clients, each with its own standard input, connect when they like, and
  `accept` takes them in that order. A connection is a queue: `write` puts what it takes behind
  it, also in front of the `accept`, and the server's `read` takes any beginning of it; it ends
  when its client is gone and it is empty. A client can be killed at any time. The server sends
  nothing, so that a client's `read` only fails or ends. Any step of any program can come next, and
  `select` and `epoll_wait` can report what they like: a `read` happens when there is something to take.
  The server's `write` to its terminal takes all that was read; its result is not looked at.

  The server knows numbers only, and numbers come back. Even so what it has shown of a client and
  what is on the way are together what the client's socket took (`sessions_deliver`). For an
  input without NULs, and as long as each `write` takes all its text, that is the input in order, but
  for its newlines, which are not sent.
-/

import NetworkCourse.Live.EpollTest
import NetworkCourse.Live.WholeLines

namespace NetworkCourse.Live.Sessions

open Lib.Ascii Lib.Cut Lib.Feed Lib.Trace
open Intro.Server (cstr)
open Intro.Session (fgets fgets_some)

/-- `queue` has what a connection holds, `terminal` what the server wrote, with whom it came from. -/
structure Net where
  server : Sys
  client : Nat → Select.Sys
  connected : Nat
  queue : Nat → List UInt8
  terminal : List (Nat × List UInt8)

inductive Act where
  | connect
  | client (k : Nat) (a : Select.Act)
  | kill (k : Nat)
  | server (a : Live.Act)

/-- In front of the server's loop. -/
def Net.start (server : Sys) (stdin : Nat → List UInt8) : Net :=
  ⟨server, fun k => Select.start (stdin k), 0, fun _ => [], []⟩

/-- What a client's step puts on its connection. -/
def puts (c : Select.Sys) (a : Select.Act) : List UInt8 :=
  match c.pc, a with
  | .sending text, .write n => text.take n.toNat
  | _, _ => []

/-- Nothing comes from the server. -/
def silent : Select.Act → Bool
  | .read (.data _) => false
  | _ => true

/-- The client whose connection the server's `read` is called on. -/
def peer (s : Sys) : Option Nat :=
  match s.pc with
  | .batch (ev :: _) =>
    match s.fds ev.fd with
    | some (.client k) => some k
    | _ => none
  | _ => none

/-- What the connections give the server. -/
def gives (s : Net) : Live.Act → Bool
  | .accept fd _ => fd = -1 ∨ s.server.accepted < s.connected
  | .read r =>
    match peer s.server, r with
    | some k, .data c => c.data.isPrefixOf (s.queue k)
    | some k, .eof =>
      match (s.client k).pc with
      | .exited => s.queue k = []
      | _ => false
    | none, .data _ => false
    | none, .eof => false
    | _, _ => true
  | _ => true

/-- What the server takes off a connection and shows. -/
def takes (s : Net) : Live.Act → Option (Nat × List UInt8)
  | .read (.data c) => (peer s.server).map fun k => (k, c.data)
  | _ => none

def step (s : Net) : Act → Option Net
  | .connect => some { s with connected := s.connected + 1 }
  | .client k a =>
    if k < s.connected ∧ silent a = true then
      (Select.step (s.client k) a).map fun c => { s with
        client := Function.update s.client k c
        queue := Function.update s.queue k (s.queue k ++ puts (s.client k) a) }
    else none
  | .kill k => some { s with client := Function.update s.client k { s.client k with pc := .exited } }
  | .server a =>
    if gives s a = true then
      (Live.step s.server a).map fun server =>
        match takes s a with
        | some (k, bytes) => { s with
          server := server
          queue := Function.update s.queue k ((s.queue k).drop bytes.length)
          terminal := s.terminal ++ [(k, bytes)] }
        | none => { s with server := server }
    else none

/-! ## What a step does -/

inductive Steps (s : Net) : Act → Net → Prop
  | connect : Steps s .connect { s with connected := s.connected + 1 }
  | client (k : Nat) (a : Select.Act) (c : Select.Sys) : Select.step (s.client k) a = some c →
      Steps s (.client k a) { s with
        client := Function.update s.client k c
        queue := Function.update s.queue k (s.queue k ++ puts (s.client k) a) }
  | kill (k : Nat) : Steps s (.kill k) { s with client := Function.update s.client k { s.client k with pc := .exited } }
  | shows (k : Nat) (c : Chunk UInt8 BUFSIZ) (server : Sys) : peer s.server = some k → c.data <+: s.queue k →
      Live.step s.server (.read (.data c)) = some server →
      Steps s (.server (.read (.data c))) { s with
        server := server
        queue := Function.update s.queue k ((s.queue k).drop c.data.length)
        terminal := s.terminal ++ [(k, c.data)] }
  | server (a : Live.Act) (server : Sys) : (∀ c, a ≠ .read (.data c)) → Live.step s.server a = some server →
      Steps s (.server a) { s with server := server }

theorem step_steps {s s' : Net} {a : Act} (h : step s a = some s') : Steps s a s' := by
  cases a with
  | connect =>
    cases h
    exact .connect
  | client k a =>
    simp only [step] at h
    split at h
    · obtain ⟨c, hc, he⟩ := Option.map_eq_some_iff.mp h
      cases he
      exact .client k a c hc
    · cases h
  | kill k =>
    cases h
    exact .kill k
  | server a =>
    simp only [step] at h
    split at h
    · next hg =>
      obtain ⟨server, hserver, he⟩ := Option.map_eq_some_iff.mp h
      by_cases hdata : ∃ c, a = .read (.data c)
      · obtain ⟨c, rfl⟩ := hdata
        cases hp : peer s.server with
        | none => simp [gives, hp] at hg
        | some k =>
          simp only [takes, hp, Option.map_some] at he
          cases he
          simp only [gives, hp, List.isPrefixOf_iff_prefix] at hg
          exact .shows k c server hp hg hserver
      · have hno : takes s a = none := by
          unfold takes
          split
          · exact absurd ⟨_, rfl⟩ hdata
          · rfl
        simp only [hno] at he
        cases he
        exact .server a server (fun c hc => hdata ⟨c, hc⟩) hserver
    · cases h

/-! ## The server's reads -/

/-- What the server read is its peer's. -/
theorem consumed_shows {s t : Sys} {k : Nat} {c : Chunk UInt8 BUFSIZ} (hp : peer s = some k)
    (h : Live.step s (.read (.data c)) = some t) : t.consumed = Function.update s.consumed k (s.consumed k ++ c.data) := by
  rcases step_cases h with ⟨-, ha, -⟩ | ⟨_, -, ha, -⟩ | ⟨-, ha, -⟩ | ⟨_, _, _, _, -, ha, -⟩ | ⟨ev, rest, r, hpc, ha, -, rfl⟩
  · cases ha
  · cases ha
  · cases ha
  · cases ha
  · cases ha
    have hfd : s.fds ev.fd = some (.client k) := by
      unfold peer at hp
      rw [hpc] at hp
      simp only at hp
      split at hp
      · next j hj =>
        cases hp
        exact hj
      · cases hp
    simp only [handleRead, consume, hfd]

theorem consumed_same {s t : Sys} {a : Live.Act} (hno : ∀ c, a ≠ .read (.data c)) (h : Live.step s a = some t) :
    t.consumed = s.consumed := by
  rcases step_cases h with ⟨-, -, rfl⟩ | ⟨_, -, -, -, -, rfl⟩ | ⟨-, -, rfl⟩ | ⟨_, _, fd, added, -, -, -, -, rfl⟩ |
    ⟨ev, rest, r, -, rfl, -, rfl⟩
  · rfl
  · rfl
  · rfl
  · obtain ⟨-, -, -, hadd⟩ := epollCtlAdd_frame (accept s fd) fd added
    obtain ⟨-, -, -, hacc⟩ := accept_frame s fd
    exact hadd.trans hacc
  · cases r with
    | again | error | eof => rfl
    | data c => exact absurd rfl (hno c)

/-- What the server wrote of client `k`. -/
def shown (k : Nat) (terminal : List (Nat × List UInt8)) : List UInt8 := terminal.flatMap fun x => if x.1 = k then x.2 else []

theorem shown_snoc (k j : Nat) (terminal : List (Nat × List UInt8)) (bytes : List UInt8) :
    shown k (terminal ++ [(j, bytes)]) = shown k terminal ++ if j = k then bytes else [] := by
  rw [shown, List.flatMap_append, List.flatMap_singleton]
  rfl

/-! ## The clients' writes -/

theorem taken_puts {c c' : Select.Sys} {a : Select.Act} (h : Select.step c a = some c') :
    c'.sent.taken = c.sent.taken ++ puts c a := by
  unfold Select.step at h
  split at h
  · cases h
    simp [puts, *]
  · cases h
    simp [puts, *]
  · cases h
    simp [puts, *]
  · cases h
    simp [puts, *]
  · split at h
    · cases h
      simp [puts, *]
    · cases h
      simp [puts, *]
  · next text n hpc =>
    split at h
    · cases h
      simp [puts, hpc, Sent.write]
    · cases h
  · cases h
    simp [puts, *]
  · cases h

/-- What the server has shown and what is on the way is what a client's socket took. -/
structure Delivered (s : Net) (k : Nat) : Prop where
  taken : s.server.consumed k ++ s.queue k = (s.client k).sent.taken
  shown : shown k s.terminal = s.server.consumed k

theorem steps_delivered {s s' : Net} {a : Act} {k : Nat} (h : Delivered s k) (hst : Steps s a s') : Delivered s' k := by
  cases hst with
  | connect => exact ⟨h.taken, h.shown⟩
  | client j a c hc =>
    refine ⟨?_, h.shown⟩
    by_cases hjk : k = j
    · subst hjk
      simp only [Function.update_self]
      rw [← List.append_assoc, h.taken, taken_puts hc]
    · simp only [Function.update_of_ne hjk]
      exact h.taken
  | kill j =>
    refine ⟨?_, h.shown⟩
    by_cases hjk : k = j
    · subst hjk
      simp only [Function.update_self]
      exact h.taken
    · simp only [Function.update_of_ne hjk]
      exact h.taken
  | shows j c server hp hpre hserver =>
    have hcons := consumed_shows hp hserver
    by_cases hjk : k = j
    · subst hjk
      refine ⟨?_, ?_⟩
      · simp only [hcons, Function.update_self]
        rw [List.append_assoc, List.prefix_iff_eq_append.mp hpre]
        exact h.taken
      · simp only [hcons, Function.update_self]
        rw [shown_snoc, if_pos rfl, h.shown]
    · refine ⟨?_, ?_⟩
      · simp only [hcons, Function.update_of_ne hjk]
        exact h.taken
      · simp only [hcons, Function.update_of_ne hjk]
        rw [shown_snoc, if_neg (Ne.symm hjk), List.append_nil]
        exact h.shown
  | server a server hno hserver =>
    have hcons := consumed_same hno hserver
    refine ⟨?_, ?_⟩
    · simp only [hcons]
      exact h.taken
    · simp only [hcons]
      exact h.shown

/-! ## The clients' input -/

/-- An input without its newlines. -/
def strip (text : List UInt8) : List UInt8 := text.filter (· ≠ nl)

theorem strip_append (a b : List UInt8) : strip (a ++ b) = strip a ++ strip b := List.filter_append ..

theorem strip_of_not_mem {l : List UInt8} (h : nl ∉ l) : strip l = l := by
  refine List.filter_eq_self.mpr fun b hb => ?_
  have hne : b ≠ nl := fun he => h (he ▸ hb)
  simpa using hne

/-- What is sent of a line is all but its newline. -/
theorem toSend_fgets {stdin line stdin' : List UInt8} (h : fgets Select.MAXLINE stdin = some (line, stdin')) (hnul : 0 ∉ stdin)
    (below : UInt8) : Select.toSend (cstr line) below = strip line ∧ stdin = line ++ stdin' := by
  obtain ⟨hne, rfl, rfl⟩ := fgets_some h
  have hsplit := cut_append_rest nl (Select.MAXLINE - 1) stdin
  have hnul' : 0 ∉ cut nl (Select.MAXLINE - 1) stdin := fun hm => hnul ((cut_initial nl _ stdin).subset hm)
  refine ⟨?_, hsplit.symm⟩
  rw [Intro.Session.cstr_of_no_nul hnul']
  unfold Select.toSend Select.lastByte
  by_cases hm : nl ∈ cut nl (Select.MAXLINE - 1) stdin
  · -- the newline is the line's last byte
    obtain ⟨l, t, hs, hl⟩ := List.eq_append_cons_of_mem ((cut_initial nl _ stdin).subset hm)
    have hlt : l.length < Select.MAXLINE - 1 := by
      by_contra hge
      rw [mem_cut_iff, hs, List.take_append_of_le_length (by omega)] at hm
      exact hl (List.mem_of_mem_take hm)
    rw [hs, cut_line nl hl hlt, List.getLast?_concat, Option.getD_some, if_pos rfl, List.dropLast_concat, strip_append,
      strip_of_not_mem hl]
    exact (List.append_nil l).symm
  · have hlast : (cut nl (Select.MAXLINE - 1) stdin).getLast?.getD below ≠ nl := by
      have hcut := cut_ne_nil nl (show 0 < Select.MAXLINE - 1 by decide) hne
      have hmem := List.getLast_mem hcut
      rw [List.getLast?_eq_some_getLast hcut, Option.getD_some]
      intro he
      rw [he] at hmem
      exact hm hmem
    rw [if_neg hlast, strip_of_not_mem hm]

/-- Where a client is in its input: what it passed, and what it is about to pass, is what it has read
    of it without the newlines. -/
structure Typed (stdin : List UInt8) (c : Select.Sys) : Prop where
  whole : c.sent.Whole
  text : ∃ read, stdin = read ++ c.stdin ∧
    match c.pc with
    | .sending text => c.sent.passed ++ text = strip read
    | .exited => c.sent.passed <+: strip read
    | _ => c.sent.passed = strip read

theorem typed_start (stdin : List UInt8) : Typed stdin (Select.start stdin) := ⟨rfl, [], rfl, rfl⟩

theorem step_typed {stdin : List UInt8} (hnul : 0 ∉ stdin) {c c' : Select.Sys} {a : Select.Act} (h : Typed stdin c)
    (ha : Select.TakesAll c a) (hst : Select.step c a = some c') : Typed stdin c' := by
  obtain ⟨hwhole, read, hread, htext⟩ := h
  unfold Select.step at hst
  split at hst
  · next hpc =>
    cases hst
    rw [hpc] at htext
    exact ⟨hwhole, read, hread, htext ▸ List.prefix_rfl⟩
  · next socketReady stdinReady hpc =>
    cases hst
    rw [hpc] at htext
    refine ⟨hwhole, read, hread, ?_⟩
    cases socketReady <;> cases stdinReady <;> exact htext
  · next stdinReady ch hpc =>
    cases hst
    rw [hpc] at htext
    refine ⟨hwhole, read, hread, ?_⟩
    cases stdinReady <;> exact htext
  · next hpc =>
    cases hst
    rw [hpc] at htext
    exact ⟨hwhole, read, hread, htext ▸ List.prefix_rfl⟩
  · next below hpc =>
    rw [hpc] at htext
    split at hst
    · cases hst
      exact ⟨hwhole, read, hread, htext⟩
    · next line stdin' hg =>
      cases hst
      have hnul' : 0 ∉ c.stdin := fun hm => hnul (hread ▸ List.mem_append_right read hm)
      obtain ⟨hsend, hrest⟩ := toSend_fgets hg hnul' below
      refine ⟨hwhole, read ++ line, by rw [hread, hrest, List.append_assoc], ?_⟩
      show c.sent.passed ++ Select.toSend (cstr line) below = strip (read ++ line)
      rw [hsend, strip_append]
      exact congrArg (· ++ strip line) htext
  · next text n hpc =>
    rw [hpc] at htext
    split at hst
    · next hn =>
      cases hst
      have htakes : n = text.length ∨ text = [] := by
        unfold Select.TakesAll at ha
        rwa [hpc] at ha
      refine ⟨(Sent.write_whole hwhole hn).mpr htakes, read, hread, ?_⟩
      rw [if_neg UInt64.not_lt_zero]
      exact htext
    · cases hst
  · next hpc =>
    cases hst
    rw [hpc] at htext
    exact ⟨hwhole, read, hread, htext⟩
  · cases hst

/-- A client that is killed has passed no more. -/
theorem Typed.killed {stdin : List UInt8} {c : Select.Sys} (h : Typed stdin c) : Typed stdin { c with pc := .exited } := by
  obtain ⟨hwhole, read, hread, htext⟩ := h
  refine ⟨hwhole, read, hread, ?_⟩
  show c.sent.passed <+: strip read
  cases hpc : c.pc with
  | sending text =>
    rw [hpc] at htext
    exact htext ▸ List.prefix_append _ _
  | exited =>
    rw [hpc] at htext
    exact htext
  | select | recv | input | reporting =>
    rw [hpc] at htext
    exact htext ▸ List.prefix_rfl

/-- Each `write` of client `k` takes all of its text. -/
def WritesAll (k : Nat) (s : Net) (a : Act) : Prop := ∀ b, a = .client k b → Select.TakesAll (s.client k) b

theorem steps_typed {stdin : List UInt8} (hnul : 0 ∉ stdin) {s s' : Net} {a : Act} {k : Nat} (h : Typed stdin (s.client k))
    (ha : WritesAll k s a) (hst : Steps s a s') : Typed stdin (s'.client k) := by
  cases hst with
  | connect => exact h
  | client j b c hc =>
    by_cases hjk : k = j
    · subst hjk
      simp only [Function.update_self]
      exact step_typed hnul h (ha b rfl) hc
    · simp only [Function.update_of_ne hjk]
      exact h
  | kill j =>
    by_cases hjk : k = j
    · subst hjk
      simp only [Function.update_self]
      exact h.killed
    · simp only [Function.update_of_ne hjk]
      exact h
  | shows | server => exact h

/-! ## Every run -/

/-- Where the server is told of the end of a connection. -/
def Ends (k : Nat) (s : Net) (a : Act) : Prop := peer s.server = some k ∧ a = .server (.read .eof)

theorem ends_empty {s s' : Net} {a : Act} {k : Nat} (he : Ends k s a) (hst : step s a = some s') : s.queue k = [] := by
  obtain ⟨hp, rfl⟩ := he
  simp only [step] at hst
  split at hst
  · next hg =>
    simp only [gives, hp] at hg
    split at hg
    · simpa using hg
    · cases hg
  · cases hst

/-- The server shows of each client, in order, what the client's socket took, and when it is told of
    the connection's end it has shown it all. Of an input without NULs, while each `write` takes all
    its text, that is the input without its newlines, as far as it was read. -/
theorem sessions_deliver {server : Sys} (h0 : ∀ k, server.consumed k = []) {stdin : Nat → List UInt8} {tr : List (Net × Act)}
    {s : Net} (h : Run step (.start server stdin) tr s) (k : Nat) :
    shown k s.terminal ++ s.queue k = (s.client k).sent.taken ∧
      Each (fun s a => Ends k s a → shown k s.terminal = (s.client k).sent.taken) tr ∧
      (0 ∉ stdin k → Each (WritesAll k) tr →
        shown k s.terminal ++ s.queue k <+: strip (stdin k) ∧
          ((s.client k).pc = .select → shown k s.terminal ++ s.queue k ++ strip (s.client k).stdin = strip (stdin k))) := by
  have hstart : Delivered (.start server stdin) k := ⟨by show server.consumed k ++ [] = []; rw [h0]; rfl, (h0 k).symm⟩
  have hkeep : ∀ s a s', Delivered s k → True → step s a = some s' → Delivered s' k := fun s a s' hd _ hst =>
    steps_delivered hd (step_steps hst)
  have hdel := h.keeps (P := fun s => Delivered s k) (C := fun _ _ => True) hstart hkeep fun _ _ => trivial
  have hbefore := h.before (P := fun s => Delivered s k) (C := fun _ _ => True) hstart hkeep fun _ _ => trivial
  have htaken : shown k s.terminal ++ s.queue k = (s.client k).sent.taken := by rw [hdel.shown, hdel.taken]
  refine ⟨htaken, ?_, ?_⟩
  · intro x hx he
    obtain ⟨s', hst⟩ := h.happens x hx
    have hd : Delivered x.1 k := hbefore x hx
    rw [hd.shown, ← hd.taken, ends_empty he hst, List.append_nil]
  · intro hnul hw
    have htyped : Typed (stdin k) (s.client k) :=
      h.keeps (P := fun s => Typed (stdin k) (s.client k)) (typed_start _)
        (fun s a s' ht ha hst => steps_typed hnul ht ha (step_steps hst)) hw
    obtain ⟨hwhole, read, hread, htext⟩ := htyped
    have hsent : (s.client k).sent.taken = (s.client k).sent.passed := hwhole
    rw [htaken, hsent]
    refine ⟨?_, fun hpc => ?_⟩
    · rw [hread, strip_append]
      refine List.IsPrefix.trans ?_ (List.prefix_append _ _)
      cases hpc : (s.client k).pc with
      | sending text =>
        rw [hpc] at htext
        exact htext ▸ List.prefix_append _ _
      | exited =>
        rw [hpc] at htext
        exact htext
      | select | recv | input | reporting =>
        rw [hpc] at htext
        exact htext ▸ List.prefix_rfl
    · rw [hpc] at htext
      rw [htext, ← strip_append, ← hread]

/-- A client types `hi` and is gone, another one gets its number and types `yo`. -/
theorem sessions_deliver_two :
    ∃ tr s, Run step (.start fresh fun k => if k = 0 then [104, 105, nl] else [121, 111, nl]) tr s ∧
      shown 0 s.terminal = [104, 105] ∧ shown 1 s.terminal ++ s.queue 1 <+: [121, 111] ∧ s.server.fds 5 = some (.client 1) := by
  have h : Run step (.start fresh fun k => if k = 0 then [104, 105, nl] else [121, 111, nl]) _ _ := run_of_follow
    [.connect, .client 0 (.select (some (false, true))), .client 0 (.fgets 0), .server (.epollWait (some [3])),
      .client 0 (.write 2), .server (.accept 5 true), .server .next, .server (.epollWait (some [5])),
      .server (.read (.data ⟨[104, 105], by decide, by decide⟩)), .kill 0, .connect, .server .next,
      .server (.epollWait (some [5, 3])), .client 1 (.select (some (false, true))), .client 1 (.fgets 0), .server (.read .eof),
      .client 1 (.write 2), .server (.accept 5 true), .server .next, .server (.epollWait (some [5])),
      .server (.read (.data ⟨[121], by decide, by decide⟩))] rfl
  have h0 : ∀ k, fresh.consumed k = [] := fun _ => rfl
  obtain ⟨-, -, hone⟩ := sessions_deliver h0 h 1
  refine ⟨_, _, h, rfl, (hone (by decide) ?_).1, rfl⟩
  intro x hx b hb
  simp only [List.mem_cons, List.not_mem_nil, or_false] at hx
  rcases hx with rfl | rfl | rfl | rfl | rfl | rfl | rfl | rfl | rfl | rfl | rfl | rfl | rfl | rfl | rfl | rfl | rfl | rfl | rfl |
    rfl | rfl <;> cases hb
  · trivial
  · trivial
  · exact Or.inl rfl

end NetworkCourse.Live.Sessions
