/-
  NetworkCourse.Live.EpollTest — the event loop of live/epoll/epoll_test.c.

  The program keeps descriptor numbers only. `fds` says what each number stands for at any
  time, `interest` which numbers `epoll_wait` may report; closing a number takes it off the list.
  An event has the connection its number stood for when it was reported, which the program
  does not see. A number closed while a batch is handled can come back from an `accept` later
  in the batch; it does not meet an event of its own there, since the numbers of a batch are
  distinct and those still to come are open (`Inv`). So each event is handled for the
  connection it was reported for (`epoll_test_never_stale`).
-/

import NetworkCourse.Lib.Feed
import NetworkCourse.Lib.Trace
import Mathlib.Data.List.Nodup
import Mathlib.Logic.Function.Basic

namespace NetworkCourse.Live

open Lib.Feed Lib.Trace

def EPOLL_SIZE : Nat := 50
def BUFSIZ : Nat := 8192

/-- What a descriptor stands for; clients in the order of their `accept`. -/
inductive Conn where
  | other
  | listener
  | client (k : Nat)
  deriving DecidableEq

/-- An entry of `ep_events`, with the connection at the time of the report. -/
structure Event where
  fd : Int
  conn : Option Conn
  deriving DecidableEq

inductive ReadResult where
  | data (c : Chunk UInt8 BUFSIZ)
  | eof
  | again
  | error

inductive Pc where
  | wait
  | batch (rest : List Event)
  | exited

structure Sys where
  serverFd : Int
  epollFd : Int
  fds : Int → Option Conn
  interest : Int → Bool
  pc : Pc
  /-- How many clients there were. -/
  accepted : Nat
  /-- What was read from each client. -/
  consumed : Nat → List UInt8

/-- `close`: the number is free, and off the interest list. -/
def close (s : Sys) (fd : Int) : Sys :=
  { s with fds := Function.update s.fds fd none, interest := Function.update s.interest fd false }

/-- `EPOLL_CTL_ADD`, which can fail, and does for a number that is not open. -/
def epollCtlAdd (s : Sys) (fd : Int) (ok : Bool) : Sys :=
  if ok ∧ s.fds fd ≠ none then { s with interest := Function.update s.interest fd true } else s

def epollCtlDel (s : Sys) (fd : Int) : Sys := { s with interest := Function.update s.interest fd false }

/-- `accept` with its result, `-1` or the number of a new connection. -/
def accept (s : Sys) (fd : Int) : Sys :=
  if fd = -1 then s
  else { s with fds := Function.update s.fds fd (some (.client s.accepted)), accepted := s.accepted + 1 }

/-- The bytes go to whom `fd` stands for now. -/
def consume (s : Sys) (fd : Int) (bytes : List UInt8) : Sys :=
  match s.fds fd with
  | some (.client k) => { s with consumed := Function.update s.consumed k (s.consumed k ++ bytes) }
  | _ => s

/-- The other branch of the loop's body: `break` goes back to `epoll_wait`. -/
def handleRead (s : Sys) (socketFd : Int) (rest : List Event) : ReadResult → Sys
  | .again => { s with pc := .wait }
  | .error => { close s socketFd with pc := .wait }
  | .eof => { close (epollCtlDel s socketFd) socketFd with pc := .batch rest }
  | .data c => { consume s socketFd c.data with pc := .batch rest }

inductive Act where
  | epollWait (fds : Option (List Int))
  | next
  | accept (clientSocketFd : Int) (added : Bool)
  | read (r : ReadResult)

def step (s : Sys) (a : Act) : Option Sys :=
  match s.pc, a with
  | .wait, .epollWait none => some { close (close s s.serverFd) s.epollFd with pc := .exited }
  | .wait, .epollWait (some fds) =>
    if fds.Nodup ∧ fds.length ≤ EPOLL_SIZE ∧ ∀ fd ∈ fds, s.interest fd = true then
      some { s with pc := .batch (fds.map fun fd => ⟨fd, s.fds fd⟩) }
    else none
  | .batch [], .next => some { s with pc := .wait }
  | .batch (ev :: rest), .accept clientSocketFd added =>
    if ev.fd = s.serverFd ∧ (clientSocketFd = -1 ∨ 0 ≤ clientSocketFd ∧ s.fds clientSocketFd = none) then
      some { epollCtlAdd (accept s clientSocketFd) clientSocketFd added with pc := .batch rest }
    else none
  | .batch (ev :: rest), .read r => if ev.fd = s.serverFd then none else some (handleRead s ev.fd rest r)
  | _, _ => none

/-- In front of the loop: the listener and the epoll instance are open, no client is, and only the
    listener can be on the list. -/
structure Start (s : Sys) : Prop where
  pc : s.pc = .wait
  server : s.fds s.serverFd = some .listener
  epoll : s.fds s.epollFd = some .other
  nonneg : ∀ fd, s.fds fd ≠ none → 0 ≤ fd
  bounded : ∃ m, ∀ fd, m ≤ fd → s.fds fd = none
  noClient : ∀ fd k, s.fds fd ≠ some (.client k)
  registered : ∀ fd, s.interest fd = true → fd = s.serverFd

/-! ## What a step does -/

theorem step_cases {s s' : Sys} {a : Act} (h : step s a = some s') :
    (s.pc = .wait ∧ a = .epollWait none ∧ s' = { close (close s s.serverFd) s.epollFd with pc := .exited }) ∨
    (∃ fds, s.pc = .wait ∧ a = .epollWait (some fds) ∧ fds.Nodup ∧ (∀ fd ∈ fds, s.interest fd = true) ∧
      s' = { s with pc := .batch (fds.map fun fd => ⟨fd, s.fds fd⟩) }) ∨
    (s.pc = .batch [] ∧ a = .next ∧ s' = { s with pc := .wait }) ∨
    (∃ ev rest fd added, s.pc = .batch (ev :: rest) ∧ a = .accept fd added ∧ ev.fd = s.serverFd ∧
      (fd = -1 ∨ 0 ≤ fd ∧ s.fds fd = none) ∧ s' = { epollCtlAdd (accept s fd) fd added with pc := .batch rest }) ∨
    (∃ ev rest r, s.pc = .batch (ev :: rest) ∧ a = .read r ∧ ev.fd ≠ s.serverFd ∧ s' = handleRead s ev.fd rest r) := by
  unfold step at h
  split at h
  · rename_i hpc
    exact Or.inl ⟨hpc, rfl, (Option.some_inj.mp h).symm⟩
  · rename_i fds hpc
    split at h
    · rename_i hok
      exact Or.inr (Or.inl ⟨fds, hpc, rfl, hok.1, hok.2.2, (Option.some_inj.mp h).symm⟩)
    · cases h
  · rename_i hpc
    exact Or.inr (Or.inr (Or.inl ⟨hpc, rfl, (Option.some_inj.mp h).symm⟩))
  · rename_i ev rest fd added hpc
    split at h
    · rename_i hok
      exact Or.inr (Or.inr (Or.inr (Or.inl ⟨ev, rest, fd, added, hpc, rfl, hok.1, hok.2, (Option.some_inj.mp h).symm⟩)))
    · cases h
  · rename_i ev rest r hpc
    split at h
    · cases h
    · rename_i hne
      exact Or.inr (Or.inr (Or.inr (Or.inr ⟨ev, rest, r, hpc, rfl, hne, (Option.some_inj.mp h).symm⟩)))
  · cases h

/-! ## The invariant -/

/-- The descriptors: numbers are from 0 on and not all taken, what can be reported is the listener
    or a client, a client has one number. -/
structure Core (s : Sys) : Prop where
  nonneg : ∀ fd, s.fds fd ≠ none → 0 ≤ fd
  bounded : ∃ m, ∀ fd, m ≤ fd → s.fds fd = none
  registered : ∀ fd, s.interest fd = true →
    (fd = s.serverFd ∧ s.fds fd = some .listener) ∨ ∃ k, s.fds fd = some (.client k)
  known : ∀ fd k, s.fds fd = some (.client k) → k < s.accepted
  single : ∀ fd fd' k, s.fds fd = some (.client k) → s.fds fd' = some (.client k) → fd = fd'

/-- What an event of the batch was reported for is still there. -/
structure Holds (s : Sys) (ev : Event) : Prop where
  same : s.fds ev.fd = ev.conn
  conn : (ev.fd = s.serverFd ∧ ev.conn = some .listener) ∨ ∃ k, ev.conn = some (.client k)

structure Inv (s : Sys) : Prop where
  core : Core s
  server : s.pc ≠ .exited → s.fds s.serverFd = some .listener
  epoll : s.pc ≠ .exited → s.fds s.epollFd = some .other
  nodup : ∀ rest, s.pc = .batch rest → (rest.map Event.fd).Nodup
  holds : ∀ rest, s.pc = .batch rest → ∀ ev ∈ rest, Holds s ev

section
variable {s : Sys} {fd : Int}

@[simp] theorem close_self : (close s fd).fds fd = none := Function.update_self _ _ _
theorem close_other {x : Int} (h : x ≠ fd) : (close s fd).fds x = s.fds x := Function.update_of_ne h _ _
theorem close_interest_self : (close s fd).interest fd = false := Function.update_self _ _ _
theorem close_interest_other {x : Int} (h : x ≠ fd) : (close s fd).interest x = s.interest x :=
  Function.update_of_ne h _ _

theorem accept_self (h : fd ≠ -1) : (accept s fd).fds fd = some (.client s.accepted) := by
  rw [accept, if_neg h]
  exact Function.update_self _ _ _

theorem accept_other {x : Int} (h : x ≠ fd) : (accept s fd).fds x = s.fds x := by
  unfold accept
  split
  · rfl
  · exact Function.update_of_ne h _ _

/-- What is accepted is not on the list yet. -/
theorem accept_frame (s : Sys) (fd : Int) :
    (accept s fd).interest = s.interest ∧ (accept s fd).serverFd = s.serverFd ∧ (accept s fd).epollFd = s.epollFd ∧
      (accept s fd).consumed = s.consumed := by
  unfold accept
  split <;> exact ⟨rfl, rfl, rfl, rfl⟩

theorem accept_accepted (h : fd ≠ -1) : (accept s fd).accepted = s.accepted + 1 := by rw [accept, if_neg h]

@[simp] theorem epollCtlAdd_fds (ok : Bool) : (epollCtlAdd s fd ok).fds = s.fds := by
  unfold epollCtlAdd
  split <;> rfl

theorem epollCtlAdd_frame (s : Sys) (fd : Int) (ok : Bool) :
    (epollCtlAdd s fd ok).serverFd = s.serverFd ∧ (epollCtlAdd s fd ok).epollFd = s.epollFd ∧
      (epollCtlAdd s fd ok).accepted = s.accepted ∧ (epollCtlAdd s fd ok).consumed = s.consumed := by
  unfold epollCtlAdd
  split <;> exact ⟨rfl, rfl, rfl, rfl⟩

theorem epollCtlAdd_interest {ok : Bool} {x : Int} (h : (epollCtlAdd s fd ok).interest x = true) :
    s.interest x = true ∨ x = fd ∧ s.fds fd ≠ none := by
  unfold epollCtlAdd at h
  split at h
  · rename_i hok
    by_cases hx : x = fd
    · exact Or.inr ⟨hx, hok.2⟩
    · simp only [Function.update_of_ne hx] at h
      exact Or.inl h
  · exact Or.inl h

theorem consume_frame (s : Sys) (fd : Int) (bytes : List UInt8) :
    (consume s fd bytes).fds = s.fds ∧ (consume s fd bytes).interest = s.interest ∧
      (consume s fd bytes).serverFd = s.serverFd ∧ (consume s fd bytes).epollFd = s.epollFd ∧
        (consume s fd bytes).accepted = s.accepted := by
  unfold consume
  split <;> exact ⟨rfl, rfl, rfl, rfl, rfl⟩

theorem Core.close (h : Core s) (fd : Int) : Core (close s fd) := by
  have hold : ∀ x c, (Live.close s fd).fds x = some c → s.fds x = some c := by
    intro x c hx
    by_cases hxe : x = fd
    · rw [hxe, close_self] at hx
      cases hx
    · rwa [close_other hxe] at hx
  refine ⟨?_, ?_, ?_, ?_, ?_⟩
  · intro x hx
    obtain ⟨c, hc⟩ := Option.ne_none_iff_exists'.mp hx
    exact h.nonneg x (by rw [hold x c hc]; exact Option.some_ne_none c)
  · obtain ⟨m, hm⟩ := h.bounded
    refine ⟨m, fun x hx => ?_⟩
    by_cases hxe : x = fd
    · rw [hxe, close_self]
    · rw [close_other hxe]
      exact hm x hx
  · intro x hx
    by_cases hxe : x = fd
    · rw [hxe, close_interest_self] at hx
      cases hx
    · rw [close_interest_other hxe] at hx
      rw [close_other hxe]
      exact h.registered x hx
  · exact fun x k hx => h.known x k (hold x _ hx)
  · exact fun x x' k hx hx' => h.single x x' k (hold x _ hx) (hold x' _ hx')

/-- A new client has one number, and is none of those known before. -/
theorem Core.client (h : Core s) (h0 : 0 ≤ fd) : Core (accept s fd) := by
  have hne : fd ≠ -1 := by omega
  obtain ⟨hint, hsrv, -, -⟩ := accept_frame s fd
  -- what stands for a client does so since before, or it is `fd` and the new client
  have hold : ∀ x k, (Live.accept s fd).fds x = some (.client k) →
      s.fds x = some (.client k) ∨ x = fd ∧ k = s.accepted := by
    intro x k hx
    by_cases hxe : x = fd
    · rw [hxe, accept_self hne] at hx
      cases hx
      exact Or.inr ⟨hxe, rfl⟩
    · rw [accept_other hxe] at hx
      exact Or.inl hx
  refine ⟨?_, ?_, ?_, ?_, ?_⟩
  · intro x hx
    by_cases hxe : x = fd
    · rw [hxe]
      exact h0
    · rw [accept_other hxe] at hx
      exact h.nonneg x hx
  · obtain ⟨m, hm⟩ := h.bounded
    refine ⟨max m (fd + 1), fun x hx => ?_⟩
    rw [accept_other (by omega)]
    exact hm x (by omega)
  · intro x hx
    rw [hint] at hx
    rw [hsrv]
    by_cases hxe : x = fd
    · rw [hxe, accept_self hne]
      exact Or.inr ⟨_, rfl⟩
    · rw [accept_other hxe]
      exact h.registered x hx
  · intro x k hx
    rw [accept_accepted hne]
    rcases hold x k hx with hx | ⟨-, rfl⟩
    · exact Nat.lt_succ_of_lt (h.known x k hx)
    · exact Nat.lt_succ_self _
  · intro x x' k hx hx'
    have hnew : ∀ y, s.fds y ≠ some (.client s.accepted) := fun y hy => absurd (h.known y _ hy) (Nat.lt_irrefl _)
    rcases hold x k hx with h1 | ⟨hxe, hk⟩ <;> rcases hold x' k hx' with h2 | ⟨hxe', hk'⟩
    · exact h.single x x' k h1 h2
    · exact absurd (hk' ▸ h1) (hnew x)
    · exact absurd (hk ▸ h2) (hnew x')
    · exact hxe.trans hxe'.symm

/-- A client can be reported once it is added. -/
theorem Core.add {k : Nat} (h : Core s) (hk : s.fds fd = some (.client k)) (ok : Bool) : Core (epollCtlAdd s fd ok) := by
  obtain ⟨hsrv, -, hacc, -⟩ := epollCtlAdd_frame s fd ok
  refine ⟨?_, ?_, ?_, ?_, ?_⟩
  · rw [epollCtlAdd_fds]
    exact h.nonneg
  · rw [epollCtlAdd_fds]
    exact h.bounded
  · intro x hx
    rw [epollCtlAdd_fds, hsrv]
    rcases epollCtlAdd_interest hx with hx | ⟨rfl, -⟩
    · exact h.registered x hx
    · exact Or.inr ⟨k, hk⟩
  · rw [epollCtlAdd_fds, hacc]
    exact h.known
  · rw [epollCtlAdd_fds]
    exact h.single

theorem Core.accept (h : Core s) (hfd : fd = -1 ∨ 0 ≤ fd ∧ s.fds fd = none) (ok : Bool) :
    Core (epollCtlAdd (accept s fd) fd ok) := by
  rcases hfd with rfl | ⟨h0, -⟩
  · have hone : s.fds (-1) = none := by
      by_contra hn
      exact absurd (h.nonneg (-1) hn) (by decide)
    have he : epollCtlAdd (Live.accept s (-1)) (-1) ok = s := by
      rw [Live.accept, if_pos rfl, epollCtlAdd, if_neg (by simp [hone])]
    rwa [he]
  · exact (h.client h0).add (accept_self (by omega)) ok

/-- Fields that the descriptors' invariant does not read. -/
theorem Core.congr {t : Sys} (h : Core s) (hfds : t.fds = s.fds) (hint : ∀ x, t.interest x = true → s.interest x = true)
    (hsrv : t.serverFd = s.serverFd) (hacc : t.accepted = s.accepted) : Core t := by
  refine ⟨?_, ?_, ?_, ?_, ?_⟩
  · rw [hfds]
    exact h.nonneg
  · rw [hfds]
    exact h.bounded
  · rw [hfds, hsrv]
    exact fun x hx => h.registered x (hint x hx)
  · rw [hfds, hacc]
    exact h.known
  · rw [hfds]
    exact h.single

theorem start_inv (h : Start s) : Inv s := by
  refine ⟨⟨h.nonneg, h.bounded, ?_, ?_, ?_⟩, fun _ => h.server, fun _ => h.epoll, ?_, ?_⟩
  · intro x hx
    obtain rfl := h.registered x hx
    exact Or.inl ⟨rfl, h.server⟩
  · exact fun x k hx => absurd hx (h.noClient x k)
  · exact fun x x' k hx _ => absurd hx (h.noClient x k)
  · intro rest hr
    rw [h.pc] at hr
    cases hr
  · intro rest hr
    rw [h.pc] at hr
    cases hr

theorem Holds.ne_none {ev : Event} (h : Holds s ev) : s.fds ev.fd ≠ none := by
  rw [h.same]
  rcases h.conn with ⟨-, hc⟩ | ⟨k, hc⟩ <;> simp [hc]

/-- Handling an event touches only its own number, and that only when it is a client's. -/
theorem Inv.handled {t : Sys} {ev : Event} {rest : List Event} (hi : Inv s) (hpc : s.pc = .batch (ev :: rest)) (hcore : Core t)
    (hsrv : t.serverFd = s.serverFd) (hep : t.epollFd = s.epollFd)
    (hkeep : ∀ x, s.fds x ≠ none → (x = ev.fd → ev.fd = s.serverFd) → t.fds x = s.fds x)
    (htpc : t.pc = .wait ∨ t.pc = .batch rest) : Inv t := by
  have hrun : s.pc ≠ .exited := by simp [hpc]
  have hev := hi.holds _ hpc ev List.mem_cons_self
  have hnodup := hi.nodup _ hpc
  rw [List.map_cons, List.nodup_cons] at hnodup
  have hrest : ∀ rest', t.pc = .batch rest' → rest' = rest := by
    intro rest' hr
    rcases htpc with h | h
    · rw [h] at hr
      cases hr
    · rw [h] at hr
      cases hr
      rfl
  refine ⟨hcore, fun _ => ?_, fun _ => ?_, ?_, ?_⟩
  · rw [hsrv, hkeep s.serverFd (by rw [hi.server hrun]; exact Option.some_ne_none _) Eq.symm]
    exact hi.server hrun
  · have hne : s.epollFd ≠ ev.fd := by
      intro he
      have hsame := hev.same
      rw [← he, hi.epoll hrun] at hsame
      rcases hev.conn with ⟨-, hc⟩ | ⟨k, hc⟩
      · rw [hc] at hsame
        cases hsame
      · rw [hc] at hsame
        cases hsame
    rw [hep, hkeep s.epollFd (by rw [hi.epoll hrun]; exact Option.some_ne_none _) fun he => absurd he hne]
    exact hi.epoll hrun
  · intro rest' hr
    rw [hrest rest' hr]
    exact hnodup.2
  · intro rest' hr e he
    rw [hrest rest' hr] at he
    have hold := hi.holds _ hpc e (List.mem_cons_of_mem _ he)
    have hne : e.fd ≠ ev.fd := by
      intro hfd
      exact hnodup.1 (hfd ▸ List.mem_map_of_mem he)
    refine ⟨?_, ?_⟩
    · rw [hkeep e.fd hold.ne_none fun hfd => absurd hfd hne]
      exact hold.same
    · rw [hsrv]
      exact hold.conn

/-- The read branch closes the event's number, if any. -/
theorem Inv.after_read {ev : Event} {rest : List Event} (hi : Inv s) (hpc : s.pc = .batch (ev :: rest))
    (hne : ev.fd ≠ s.serverFd) (r : ReadResult) : Inv (handleRead s ev.fd rest r) := by
  have hown : ∀ x, (x = ev.fd → ev.fd = s.serverFd) → x ≠ ev.fd := fun x hx he => hne (hx he)
  cases r with
  | again => exact hi.handled hpc (hi.core.congr rfl (fun _ => id) rfl rfl) rfl rfl (fun _ _ _ => rfl) (Or.inl rfl)
  | error =>
    exact hi.handled hpc ((hi.core.close ev.fd).congr rfl (fun _ => id) rfl rfl) rfl rfl
      (fun x _ hx => close_other (hown x hx)) (Or.inl rfl)
  | eof =>
    have hdel : Core (epollCtlDel s ev.fd) := by
      refine hi.core.congr rfl (fun x hx => ?_) rfl rfl
      by_cases hxe : x = ev.fd
      · simp [epollCtlDel, hxe] at hx
      · simpa only [epollCtlDel, Function.update_of_ne hxe] using hx
    exact hi.handled hpc ((hdel.close ev.fd).congr rfl (fun _ => id) rfl rfl) rfl rfl
      (fun x _ hx => close_other (hown x hx)) (Or.inr rfl)
  | data c =>
    obtain ⟨h1, h2, h3, h4, h5⟩ := consume_frame s ev.fd c.data
    refine hi.handled hpc (hi.core.congr h1 (fun x hx => ?_) h3 h5) h3 h4 (fun x _ _ => congrFun h1 x) (Or.inr rfl)
    rwa [← congrFun h2 x]

theorem step_inv {s' : Sys} {a : Act} (hi : Inv s) (h : step s a = some s') : Inv s' := by
  rcases step_cases h with ⟨-, -, rfl⟩ | ⟨fds, hpc, -, hnd, hreg, rfl⟩ | ⟨hpc, -, rfl⟩ |
    ⟨ev, rest, fd, added, hpc, -, hsrv, hfd, rfl⟩ | ⟨ev, rest, r, hpc, -, hne, rfl⟩
  · refine ⟨((hi.core.close s.serverFd).close s.epollFd).congr rfl (fun _ => id) rfl rfl, fun h => absurd rfl h,
      fun h => absurd rfl h, ?_, ?_⟩
    · intro rest hr
      cases hr
    · intro rest hr
      cases hr
  · have hrun : s.pc ≠ .exited := by simp [hpc]
    refine ⟨hi.core.congr rfl (fun _ => id) rfl rfl, fun _ => hi.server hrun, fun _ => hi.epoll hrun, ?_, ?_⟩
    · intro rest hr
      cases hr
      rw [List.map_map]
      simpa [Function.comp_def] using hnd
    · intro rest hr ev hev
      cases hr
      obtain ⟨fd, hfd, rfl⟩ := List.mem_map.mp hev
      refine ⟨rfl, ?_⟩
      rcases hi.core.registered fd (hreg fd hfd) with hl | hk
      · exact Or.inl hl
      · exact Or.inr hk
  · have hrun : s.pc ≠ .exited := by simp [hpc]
    refine ⟨hi.core.congr rfl (fun _ => id) rfl rfl, fun _ => hi.server hrun, fun _ => hi.epoll hrun, ?_, ?_⟩
    · intro rest hr
      cases hr
    · intro rest hr
      cases hr
  · -- the number that is accepted stood for nothing, the events left stand for something
    obtain ⟨-, hsrv', hep, -⟩ := accept_frame s fd
    obtain ⟨hsrv'', hep', -, -⟩ := epollCtlAdd_frame (Live.accept s fd) fd added
    refine hi.handled hpc ((hi.core.accept hfd added).congr rfl (fun _ => id) rfl rfl) (hsrv''.trans hsrv')
      (hep'.trans hep) ?_ (Or.inr rfl)
    intro x hx _
    have hxe : x ≠ fd := by
      rintro rfl
      rcases hfd with rfl | ⟨-, hfree⟩
      · exact absurd (hi.core.nonneg (-1) hx) (by decide)
      · exact hx hfree
    show (epollCtlAdd (Live.accept s fd) fd added).fds x = s.fds x
    rw [epollCtlAdd_fds, accept_other hxe]
  · exact hi.after_read hpc hne r

end

/-! ## No stale descriptor -/

/-- The number a step reads from. -/
def reads (s : Sys) (a : Act) : List Int :=
  match s.pc, a with
  | .batch (ev :: _), .read _ => [ev.fd]
  | _, _ => []

/-- The numbers a step closes. -/
def closes (s : Sys) (a : Act) : List Int :=
  match s.pc, a with
  | .batch (ev :: _), .read .error => [ev.fd]
  | .batch (ev :: _), .read .eof => [ev.fd]
  | .wait, .epollWait none => [s.serverFd, s.epollFd]
  | _, _ => []

/-- The event handled is of a number that stands for what it was reported for, numbers are read
    and closed while they are open, and bytes read are bytes of the client reported. -/
structure NotStale (s : Sys) (a : Act) : Prop where
  handled : ∀ ev rest, s.pc = .batch (ev :: rest) → s.fds ev.fd = ev.conn ∧ ev.conn ≠ none
  read : ∀ fd ∈ reads s a, s.fds fd ≠ none
  closed : (closes s a).Nodup ∧ ∀ fd ∈ closes s a, s.fds fd ≠ none
  bytes : ∀ ev rest c s', s.pc = .batch (ev :: rest) → a = .read (.data c) → step s a = some s' →
    ∃ k, ev.conn = some (.client k) ∧ s'.consumed = Function.update s.consumed k (s.consumed k ++ c.data)

section
variable {s s' : Sys} {a : Act}

theorem mem_closes {fd : Int} (h : fd ∈ closes s a) :
    (∃ ev rest r, s.pc = .batch (ev :: rest) ∧ a = .read r ∧ fd = ev.fd) ∨
      s.pc = .wait ∧ a = .epollWait none ∧ (fd = s.serverFd ∨ fd = s.epollFd) := by
  unfold closes at h
  split at h
  · exact Or.inl ⟨_, _, _, ‹_›, rfl, List.mem_singleton.mp h⟩
  · exact Or.inl ⟨_, _, _, ‹_›, rfl, List.mem_singleton.mp h⟩
  · exact Or.inr ⟨‹_›, rfl, by simpa using h⟩
  · cases h

theorem mem_reads {fd : Int} (h : fd ∈ reads s a) : ∃ ev rest r, s.pc = .batch (ev :: rest) ∧ a = .read r ∧ fd = ev.fd := by
  unfold reads at h
  split at h
  · exact ⟨_, _, _, ‹_›, rfl, List.mem_singleton.mp h⟩
  · cases h

theorem Inv.notStale (hi : Inv s) (a : Act) : NotStale s a := by
  have hopen : ∀ ev rest, s.pc = .batch (ev :: rest) → Holds s ev := fun ev rest hpc =>
    hi.holds _ hpc ev List.mem_cons_self
  refine ⟨?_, ?_, ⟨?_, ?_⟩, ?_⟩
  · intro ev rest hpc
    have hev := hopen ev rest hpc
    refine ⟨hev.same, ?_⟩
    rw [← hev.same]
    exact hev.ne_none
  · intro fd hfd
    obtain ⟨ev, rest, r, hpc, -, rfl⟩ := mem_reads hfd
    exact (hopen ev rest hpc).ne_none
  · unfold closes
    split
    · exact List.nodup_singleton _
    · exact List.nodup_singleton _
    · have hrun : s.pc ≠ .exited := by simp [*]
      rw [List.nodup_cons, List.mem_singleton]
      refine ⟨fun he => ?_, List.nodup_singleton _⟩
      have hsrv := hi.server hrun
      rw [he, hi.epoll hrun] at hsrv
      cases hsrv
    · exact List.nodup_nil
  · intro fd hfd
    rcases mem_closes hfd with ⟨ev, rest, r, hpc, -, rfl⟩ | ⟨hpc, -, rfl | rfl⟩
    · exact (hopen ev rest hpc).ne_none
    · rw [hi.server (by simp [hpc])]
      exact Option.some_ne_none _
    · rw [hi.epoll (by simp [hpc])]
      exact Option.some_ne_none _
  · rintro ev rest c t hpc rfl ht
    have hev := hopen ev rest hpc
    rcases step_cases ht with ⟨-, ha, -⟩ | ⟨_, -, ha, -⟩ | ⟨-, ha, -⟩ | ⟨_, _, _, _, -, ha, -⟩ |
      ⟨ev', rest', r, hpc', ha, hne, rfl⟩
    · cases ha
    · cases ha
    · cases ha
    · cases ha
    · cases ha
      rw [hpc, Pc.batch.injEq, List.cons.injEq] at hpc'
      obtain ⟨rfl, rfl⟩ := hpc'
      rcases hev.conn with ⟨hsrv, -⟩ | ⟨k, hk⟩
      · exact absurd hsrv hne
      · refine ⟨k, hk, ?_⟩
        simp only [handleRead, consume, hev.same, hk]

/-- A number that stands for nothing does so until it is accepted. -/
theorem step_stays_closed {fd : Int} (hfd : s.fds fd = none) (ha : ∀ ok, a ≠ .accept fd ok) (h : step s a = some s') :
    s'.fds fd = none := by
  have hclose : ∀ t x, t.fds fd = none → (close t x).fds fd = none := by
    intro t x ht
    by_cases hx : fd = x
    · rw [hx, close_self]
    · rw [close_other hx, ht]
  rcases step_cases h with ⟨-, -, rfl⟩ | ⟨_, -, -, -, -, rfl⟩ | ⟨-, -, rfl⟩ | ⟨ev, rest, x, ok, -, rfl, -, -, rfl⟩ |
    ⟨ev, rest, r, -, -, -, rfl⟩
  · exact hclose _ _ (hclose _ _ hfd)
  · exact hfd
  · exact hfd
  · have hx : fd ≠ x := by
      rintro rfl
      exact ha ok rfl
    show (epollCtlAdd (Live.accept s x) x ok).fds fd = none
    rw [epollCtlAdd_fds, accept_other hx, hfd]
  · cases r with
    | again => exact hfd
    | error => exact hclose _ _ hfd
    | eof => exact hclose _ _ hfd
    | data c => exact (congrFun (consume_frame s ev.fd c.data).1 fd).trans hfd

/-- What is closed stands for nothing then. -/
theorem closes_closed {fd : Int} (hfd : fd ∈ closes s a) (h : step s a = some s') : s'.fds fd = none := by
  rcases step_cases h with ⟨hpc, rfl, rfl⟩ | ⟨_, hpc, rfl, -⟩ | ⟨hpc, rfl, -⟩ | ⟨ev, rest, x, ok, hpc, rfl, -⟩ |
    ⟨ev, rest, r, hpc, rfl, -, rfl⟩
  · simp only [closes, hpc, List.mem_cons, List.not_mem_nil, or_false] at hfd
    show (close (close s s.serverFd) s.epollFd).fds fd = none
    rcases hfd with rfl | rfl
    · by_cases he : s.serverFd = s.epollFd
      · rw [he, close_self]
      · rw [close_other he, close_self]
    · exact close_self
  · simp [closes, hpc] at hfd
  · simp [closes, hpc] at hfd
  · simp [closes, hpc] at hfd
  · cases r with
    | again => simp [closes, hpc] at hfd
    | error =>
      simp only [closes, hpc, List.mem_singleton] at hfd
      rw [hfd]
      exact close_self
    | eof =>
      simp only [closes, hpc, List.mem_singleton] at hfd
      rw [hfd]
      exact close_self
    | data c => simp [closes, hpc] at hfd

theorem run_inv {s0 : Sys} {tr : List (Sys × Act)} (h0 : Start s0) (h : Run step s0 tr s) : Inv s :=
  h.keeps (C := fun _ _ => True) (start_inv h0) (fun _ _ _ hi _ => step_inv hi) fun _ _ => trivial

theorem run_stays_closed {tr : List (Sys × Act)} {fd : Int} (hfd : s.fds fd = none) (h : Run step s tr s')
    (ha : ∀ x ∈ tr, ∀ ok, x.2 ≠ .accept fd ok) : s'.fds fd = none :=
  h.keeps (P := fun s => s.fds fd = none) (C := fun _ a => ∀ ok, a ≠ Act.accept fd ok) hfd
    (fun _ _ _ hi hc hst => step_stays_closed hi hc hst) ha

end

/-- In every run each event is handled for what it was reported for; and a number that was closed
    is read or closed again only after an `accept` returned it. -/
theorem epoll_test_never_stale {s0 : Sys} (h0 : Start s0) :
    (∀ tr s, Run step s0 tr s → Each NotStale tr) ∧
      ∀ tr s a s1 tr' t b, Run step s0 tr s → step s a = some s1 → Run step s1 tr' t →
        ∀ fd ∈ closes s a, fd ∈ reads t b ∨ fd ∈ closes t b → ∃ x ∈ tr', ∃ ok, x.2 = .accept fd ok := by
  refine ⟨?_, ?_⟩
  · intro tr s h x hx
    have hinv := h.before (P := Inv) (C := fun _ _ => True) (start_inv h0) (fun _ _ _ hi _ => step_inv hi) fun _ _ => trivial
    exact (hinv x hx).notStale x.2
  · intro tr s a s1 tr' t b h hst h' fd hfd huse
    have ht : Inv t := run_inv h0 ((h.snoc a hst).append h')
    by_contra hno
    have hclosed : t.fds fd = none :=
      run_stays_closed (closes_closed hfd hst) h' fun x hx ok he => hno ⟨x, hx, ok, he⟩
    rcases huse with hr | hc
    · exact (ht.notStale b).read fd hr hclosed
    · exact (ht.notStale b).closed.2 fd hc hclosed

/-- Standard streams on 0 to 2, the listener on 3, the epoll instance on 4. -/
def fresh : Sys where
  serverFd := 3
  epollFd := 4
  fds fd := if fd = 3 then some .listener else if 0 ≤ fd ∧ fd ≤ 4 then some .other else none
  interest fd := fd == 3
  pc := .wait
  accepted := 0
  consumed _ := []

theorem fresh_free {fd : Int} (h : fd < 0 ∨ 4 < fd) : fresh.fds fd = none := by
  show (if fd = 3 then some Conn.listener else if 0 ≤ fd ∧ fd ≤ 4 then some .other else none) = none
  rw [if_neg (by omega), if_neg (by omega)]

theorem fresh_start : Start fresh := by
  refine ⟨rfl, rfl, rfl, ?_, ⟨5, ?_⟩, ?_, ?_⟩
  · intro fd hfd
    by_contra hn
    exact hfd (fresh_free (Or.inl (by omega)))
  · exact fun fd hfd => fresh_free (Or.inr (by omega))
  · intro fd k
    simp only [fresh]
    split
    · simp
    · split <;> simp
  · intro fd hfd
    simpa [fresh] using hfd

/-- A client on 5 ends, in the same batch another one is accepted and gets 5. -/
theorem epoll_test_reused :
    ∃ tr s, Run step fresh tr s ∧ s.fds 5 = some (.client 1) ∧ Each NotStale tr := by
  have hrun : Run step fresh _ _ := run_of_follow
    [.epollWait (some [3]), .accept 5 true, .next, .epollWait (some [5, 3]), .read .eof, .accept 5 true, .next] rfl
  exact ⟨_, _, hrun, rfl, (epoll_test_never_stale fresh_start).1 _ _ hrun⟩

end NetworkCourse.Live
