/-
  NetworkCourse.Live.Permuted — the batches of live/epoll/epoll_test.c in any order.

  What `read` returns for each client, and whether the listener has a connection, is fixed
  (`Answers`); `epoll_wait` may list the descriptors in any order. A client with an error or
  nothing to read ends the batch with it (`breaks`), and the events behind it are not
  handled (`handled`). What a batch leaves is what the events it handled do (`batch_outcome`). So
  the order does not matter just when no client ends the batch, or the others do nothing
  (`epoll_test_order`).
-/

import NetworkCourse.Live.EpollTest

namespace NetworkCourse.Live

open Lib.Feed Lib.Trace

/-- What each client's `read` returns, and whether `accept` has a connection. -/
structure Answers where
  read : Nat → ReadResult
  accepts : Bool

/-- A step inside of the batch that gets these answers. -/
def Answered (w : Answers) (s : Sys) (a : Act) : Prop :=
  match s.pc, a with
  | .batch [], .next => True
  | .batch (_ :: _), .accept fd _ => fd = -1 ↔ w.accepts = false
  | .batch (ev :: _), .read r => ∃ k, s.fds ev.fd = some (.client k) ∧ r = w.read k
  | _, _ => False

/-- `epoll_wait` returns `fds`, and `t` is the state in front of the next `epoll_wait`. -/
def Handles (w : Answers) (s : Sys) (fds : List Int) (t : Sys) : Prop :=
  ∃ s1 tr, step s (.epollWait (some fds)) = some s1 ∧ Run step s1 tr t ∧ Each (Answered w) tr ∧ t.pc = .wait

/-- Some descriptor stands for the connection. -/
def Open (s : Sys) (c : Conn) : Prop := ∃ fd, s.fds fd = some c

/-- In every order the batch leaves the same connections open and has read the same bytes, and
    each client's data has been read. -/
structure Undisturbed (w : Answers) (s : Sys) (fds : List Int) : Prop where
  same : ∀ fds1 fds2 t1 t2, fds1.Perm fds → fds2.Perm fds → Handles w s fds1 t1 → Handles w s fds2 t2 →
    (∀ c, Open t1 c ↔ Open t2 c) ∧ t1.consumed = t2.consumed
  data : ∀ fds1 t, fds1.Perm fds → Handles w s fds1 t → ∀ fd ∈ fds, ∀ k c, s.fds fd = some (.client k) →
    w.read k = .data c → t.consumed k = s.consumed k ++ c.data

/-! ## What an event does -/

/-- `break` -/
def stops : ReadResult → Bool
  | .again => true
  | .error => true
  | _ => false

def breaks (w : Answers) : Option Conn → Bool
  | some (.client k) => stops (w.read k)
  | _ => false

/-- All but `EAGAIN` leaves something behind. -/
def leaves : ReadResult → Bool
  | .again => false
  | _ => true

/-- The event opens, closes or reads something. -/
def acts (w : Answers) : Option Conn → Bool
  | some .listener => w.accepts
  | some (.client k) => leaves (w.read k)
  | _ => false

/-- The events up to the first that ends the batch. -/
def handled (w : Answers) (s : Sys) : List Int → List Int
  | [] => []
  | fd :: fds => if breaks w (s.fds fd) then [fd] else fd :: handled w s fds

def ends : ReadResult → Bool
  | .eof => true
  | .error => true
  | _ => false

def dataOf : ReadResult → List UInt8
  | .data c => c.data
  | _ => []

/-- `l` has an event of the connection. -/
def Has (s : Sys) (l : List Int) (c : Conn) : Prop := ∃ fd ∈ l, s.fds fd = some c

/-- What is left when the events of `l` were handled. -/
structure Outcome (w : Answers) (s : Sys) (l : List Int) (t : Sys) : Prop where
  opened : ∀ c, Open t c ↔ (Open s c ∧ ∀ k, c = .client k → Has s l c → ends (w.read k) = false) ∨
    c = .client s.accepted ∧ w.accepts = true ∧ Has s l .listener
  read : ∀ k, Has s l (.client k) → t.consumed k = s.consumed k ++ dataOf (w.read k)
  unread : ∀ k, ¬ Has s l (.client k) → t.consumed k = s.consumed k

section
variable {w : Answers} {s t u : Sys} {l rest fds : List Int}

theorem has_append {fd : Int} {c : Conn} : Has s (l ++ [fd]) c ↔ Has s l c ∨ s.fds fd = some c := by
  simp only [Has, List.mem_append, List.mem_singleton]
  refine ⟨?_, ?_⟩
  · intro ⟨x, hx, hc⟩
    rcases hx with hx | hx
    · exact Or.inl ⟨x, hx, hc⟩
    · subst hx
      exact Or.inr hc
  · intro h
    rcases h with ⟨x, hx, hc⟩ | hc
    · exact ⟨x, Or.inl hx, hc⟩
    · exact ⟨fd, Or.inr rfl, hc⟩

theorem open_close {fd : Int} {k : Nat} (h : Core t) (hfd : t.fds fd = some (.client k)) (c : Conn) :
    Open (close t fd) c ↔ Open t c ∧ c ≠ .client k := by
  refine ⟨?_, ?_⟩
  · intro ⟨x, hx⟩
    have hne : x ≠ fd := by
      intro he
      rw [he, close_self] at hx
      cases hx
    rw [close_other hne] at hx
    refine ⟨⟨x, hx⟩, fun hc => ?_⟩
    rw [hc] at hx
    exact hne (h.single x fd k hx hfd)
  · intro ⟨⟨x, hx⟩, hc⟩
    have hne : x ≠ fd := by
      intro he
      rw [he, hfd] at hx
      exact hc (Option.some_inj.mp hx).symm
    exact ⟨x, by rw [close_other hne, hx]⟩

theorem open_accept {fd : Int} (hne : fd ≠ -1) (hfree : t.fds fd = none) (ok : Bool) (c : Conn) :
    Open (epollCtlAdd (accept t fd) fd ok) c ↔ Open t c ∨ c = .client t.accepted := by
  simp only [Open, epollCtlAdd_fds]
  refine ⟨?_, ?_⟩
  · intro ⟨x, hx⟩
    by_cases hxe : x = fd
    · rw [hxe, accept_self hne] at hx
      exact Or.inr (Option.some_inj.mp hx).symm
    · rw [accept_other hxe] at hx
      exact Or.inl ⟨x, hx⟩
  · intro h
    rcases h with ⟨x, hx⟩ | hc
    · have hxe : x ≠ fd := by
        intro he
        rw [he, hfree] at hx
        cases hx
      exact ⟨x, by rw [accept_other hxe, hx]⟩
    · exact ⟨fd, by rw [accept_self hne, hc]⟩

/-- Nothing is handled yet. -/
theorem outcome_nil (h1 : t.fds = s.fds) (h2 : t.consumed = s.consumed) : Outcome w s [] t := by
  refine ⟨?_, ?_, ?_⟩
  · intro c
    simp [Open, Has, h1]
  · intro k ⟨_, hm, _⟩
    cases hm
  · intro k _
    rw [h2]

theorem Outcome.snoc_read {fd k : _} (h : Outcome w s l t) (hs : Core s) (hfd : s.fds fd = some (.client k))
    (hnot : ¬ Has s l (.client k)) (hopen : ∀ c, Open u c ↔ Open t c ∧ (c = .client k → ends (w.read k) = false))
    (hread : u.consumed k = t.consumed k ++ dataOf (w.read k)) (hother : ∀ j, j ≠ k → u.consumed j = t.consumed j) :
    Outcome w s (l ++ [fd]) u := by
  refine ⟨?_, ?_, ?_⟩
  · intro c
    rw [hopen, h.opened]
    simp only [has_append, hfd, Option.some_inj, reduceCtorEq, or_false]
    by_cases hc : c = .client k
    · subst hc
      have hlt := hs.known fd k hfd
      have hne : k ≠ s.accepted := Nat.ne_of_lt hlt
      simp [hnot, hne]
    · have hc' : Conn.client k ≠ c := fun he => hc he.symm
      simp [hc, hc']
  · intro j hj
    by_cases hjk : j = k
    · rw [hjk, hread, h.unread k hnot]
    · rw [hother j hjk]
      rcases has_append.mp hj with hj | hj
      · exact h.read j hj
      · rw [hfd] at hj
        cases hj
        exact absurd rfl hjk
  · intro j hj
    have hjk : j ≠ k := by
      intro he
      exact hj (has_append.mpr (Or.inr (by rw [hfd, he])))
    rw [hother j hjk]
    exact h.unread j fun hm => hj (has_append.mpr (Or.inl hm))

theorem Outcome.snoc_accept {fd : Int} (h : Outcome w s l t) (hfd : s.fds fd = some .listener)
    (hnot : ¬ Has s l .listener) (hopen : ∀ c, Open u c ↔ Open t c ∨ c = .client s.accepted ∧ w.accepts = true)
    (hcons : u.consumed = t.consumed) : Outcome w s (l ++ [fd]) u := by
  have hclient : ∀ k, Has s (l ++ [fd]) (.client k) ↔ Has s l (.client k) := by
    intro k
    simp [has_append, hfd]
  refine ⟨?_, ?_, ?_⟩
  · intro c
    rw [hopen, h.opened]
    have hl : Has s (l ++ [fd]) .listener := has_append.mpr (Or.inr hfd)
    simp only [hnot, hl, and_false, or_false, and_true]
    refine or_congr_left (and_congr_right fun _ => forall_congr' fun k => imp_congr_right fun hc => ?_)
    rw [hc, hclient]
  · intro k hk
    rw [hcons, h.read k ((hclient k).mp hk)]
  · intro k hk
    rw [hcons, h.unread k fun hm => hk ((hclient k).mpr hm)]

/-- What the read branch does to the connections and to what was read. -/
theorem handleRead_outcome {fd : Int} {k : Nat} (h : Core t) (hfd : t.fds fd = some (.client k)) (rest : List Event)
    (r : ReadResult) :
    (∀ c, Open (handleRead t fd rest r) c ↔ Open t c ∧ (c = .client k → ends r = false)) ∧
      (handleRead t fd rest r).consumed k = t.consumed k ++ dataOf r ∧
      (∀ j, j ≠ k → (handleRead t fd rest r).consumed j = t.consumed j) ∧
      (handleRead t fd rest r).accepted = t.accepted := by
  have hclosed : ∀ c, Open (close t fd) c ↔ Open t c ∧ (c = .client k → ends .eof = false) := by
    intro c
    rw [open_close h hfd]
    simp [ends]
  cases r with
  | again => exact ⟨fun c => by simp [handleRead, Open, ends], by simp [handleRead, dataOf], fun _ _ => rfl, rfl⟩
  | error => exact ⟨hclosed, by simp [handleRead, close, dataOf], fun _ _ => rfl, rfl⟩
  | eof => exact ⟨hclosed, by simp [handleRead, close, epollCtlDel, dataOf], fun _ _ => rfl, rfl⟩
  | data c =>
    have hcons : consume t fd c.data = { t with consumed := Function.update t.consumed k (t.consumed k ++ c.data) } := by
      simp only [consume, hfd]
    refine ⟨?_, ?_, ?_, ?_⟩
    · intro x
      simp [handleRead, hcons, Open, ends]
    · simp [handleRead, hcons, dataOf]
    · intro j hj
      simp [handleRead, hcons, hj]
    · simp [handleRead, hcons]

theorem handleRead_pc (fd : Int) (rest : List Event) (r : ReadResult) :
    (handleRead t fd rest r).pc = if stops r then .wait else .batch rest := by
  cases r <;> rfl

theorem accept_outcome {fd : Int} (hfd : fd = -1 ∨ 0 ≤ fd ∧ t.fds fd = none) (ok : Bool)
    (hw : fd = -1 ↔ w.accepts = false) :
    (∀ c, Open (epollCtlAdd (accept t fd) fd ok) c ↔ Open t c ∨ c = .client t.accepted ∧ w.accepts = true) ∧
      (epollCtlAdd (accept t fd) fd ok).consumed = t.consumed := by
  refine ⟨?_, ?_⟩
  · intro c
    rcases hfd with rfl | ⟨h0, hfree⟩
    · simp [Open, accept, hw.mp rfl]
    · have hne : fd ≠ -1 := by omega
      have hacc : w.accepts = true := by
        rw [← Bool.not_eq_false]
        exact fun hf => hne (hw.mpr hf)
      simp [open_accept hne hfree, hacc]
  · exact (epollCtlAdd_frame (accept t fd) fd ok).2.2.2.trans (accept_frame t fd).2.2.2

/-! ## What a batch does -/

theorem handled_append (h : ∀ fd ∈ l, breaks w (s.fds fd) = false) (r : List Int) :
    handled w s (l ++ r) = l ++ handled w s r := by
  induction l with
  | nil => rfl
  | cons fd fds ih =>
    rw [List.forall_mem_cons] at h
    rw [List.cons_append, handled, h.1, ih h.2]
    rfl

/-- Part of a batch: the events of `l` were handled, `rest` is left. -/
structure Midway (w : Answers) (s : Sys) (l rest : List Int) (t : Sys) : Prop where
  inv : Inv t
  outcome : Outcome w s l t
  accepted : ¬ Has s l .listener → t.accepted = s.accepted
  pc : (t.pc = .batch (rest.map fun fd => ⟨fd, s.fds fd⟩) ∧ ∀ fd ∈ l, breaks w (s.fds fd) = false) ∨
    t.pc = .wait ∧ l = handled w s (l ++ rest)

/-- A batch that `epoll_wait` can return. -/
structure IsBatch (s : Sys) (fds : List Int) : Prop where
  pc : s.pc = .wait
  nodup : fds.Nodup
  short : fds.length ≤ EPOLL_SIZE
  registered : ∀ fd ∈ fds, s.interest fd = true

theorem IsBatch.perm (h : IsBatch s fds) {fds' : List Int} (hp : fds'.Perm fds) : IsBatch s fds' :=
  ⟨h.pc, hp.nodup_iff.mpr h.nodup, hp.length_eq ▸ h.short, fun fd hfd => h.registered fd (hp.mem_iff.mp hfd)⟩

/-- Each connection has one event. -/
theorem IsBatch.single (hb : IsBatch s fds) (hs : Core s) {c : Conn} {x y : Int} (hx : x ∈ fds) (hy : y ∈ fds)
    (hxc : s.fds x = some c) (hyc : s.fds y = some c) : x = y := by
  rcases hs.registered x (hb.registered x hx) with ⟨hxs, hl⟩ | ⟨k, hk⟩
  · rcases hs.registered y (hb.registered y hy) with ⟨hys, -⟩ | ⟨k, hk⟩
    · rw [hxs, hys]
    · rw [hyc, ← hxc, hl] at hk
      cases hk
  · rw [hxc, Option.some_inj] at hk
    subst hk
    exact hs.single x y k hxc hyc

theorem IsBatch.not_has {fd : Int} (hb : IsBatch s (l ++ fd :: rest)) (hs : Core s) {c : Conn} (hc : s.fds fd = some c) :
    ¬ Has s l c := by
  intro ⟨x, hx, hxc⟩
  have he := hb.single hs (List.mem_append_left _ hx) (List.mem_append_right _ List.mem_cons_self) hxc hc
  subst he
  exact (List.nodup_append.mp hb.nodup).2.2 x hx x List.mem_cons_self rfl

/-- What stands for the next event does so since the batch was reported. -/
theorem Midway.front (h : Midway w s l rest t) {ev : Event} {evs : List Event} (hpc : t.pc = .batch (ev :: evs)) :
    ∃ x xs, rest = x :: xs ∧ ev = ⟨x, s.fds x⟩ ∧ evs = xs.map (fun fd => ⟨fd, s.fds fd⟩) ∧ t.fds x = s.fds x ∧
      ∀ fd ∈ l, breaks w (s.fds fd) = false := by
  rcases h.pc with ⟨hrest, hgo⟩ | ⟨hw, -⟩
  · rw [hpc, Pc.batch.injEq, eq_comm, List.map_eq_cons_iff] at hrest
    obtain ⟨x, xs, rfl, rfl, rfl⟩ := hrest
    exact ⟨x, xs, rfl, rfl, rfl, (h.inv.holds _ hpc _ List.mem_cons_self).same, hgo⟩
  · rw [hpc] at hw
    cases hw

/-- After the next event the batch goes on, or it ended with that event. -/
theorem pc_after {x : Int} (hgo : ∀ fd ∈ l, breaks w (s.fds fd) = false)
    (hpc : u.pc = if breaks w (s.fds x) then .wait else .batch (rest.map fun fd => ⟨fd, s.fds fd⟩)) :
    (u.pc = .batch (rest.map fun fd => ⟨fd, s.fds fd⟩) ∧ ∀ fd ∈ l ++ [x], breaks w (s.fds fd) = false) ∨
      u.pc = .wait ∧ l ++ [x] = handled w s (l ++ [x] ++ rest) := by
  cases hx : breaks w (s.fds x) with
  | true =>
    rw [hx] at hpc
    refine Or.inr ⟨hpc, ?_⟩
    rw [List.append_assoc, handled_append hgo, List.singleton_append, handled, if_pos hx]
  | false =>
    rw [hx] at hpc
    refine Or.inl ⟨hpc, fun fd hfd => ?_⟩
    rcases List.mem_append.mp hfd with hfd | hfd
    · exact hgo fd hfd
    · rw [List.mem_singleton.mp hfd, hx]

/-- The listener's event. -/
theorem Midway.accept {x fd : Int} {ok : Bool} (hs : Inv s) (hb : IsBatch s (l ++ x :: rest))
    (h : Midway w s l (x :: rest) t) (hgo : ∀ fd ∈ l, breaks w (s.fds fd) = false) (hx : s.fds x = some .listener)
    (hfd : fd = -1 ∨ 0 ≤ fd ∧ t.fds fd = none) (hw : fd = -1 ↔ w.accepts = false)
    (hu : u = { epollCtlAdd (Live.accept t fd) fd ok with pc := .batch (rest.map fun fd => ⟨fd, s.fds fd⟩) })
    (hinv : Inv u) : Midway w s (l ++ [x]) rest u := by
  subst hu
  have hnot := hb.not_has hs.core hx
  obtain ⟨hopen, hcons⟩ := accept_outcome hfd ok hw
  rw [h.accepted hnot] at hopen
  refine ⟨hinv, h.outcome.snoc_accept hx hnot hopen hcons, ?_, pc_after hgo ?_⟩
  · exact fun hl => absurd (has_append.mpr (Or.inr hx)) hl
  · rw [hx]
    rfl

/-- A client's event. -/
theorem Midway.read {x : Int} {k : Nat} (hs : Inv s) (hb : IsBatch s (l ++ x :: rest)) (h : Midway w s l (x :: rest) t)
    (hgo : ∀ fd ∈ l, breaks w (s.fds fd) = false) (hx : s.fds x = some (.client k)) (hk : t.fds x = some (.client k))
    (hu : u = handleRead t x (rest.map fun fd => ⟨fd, s.fds fd⟩) (w.read k)) (hinv : Inv u) :
    Midway w s (l ++ [x]) rest u := by
  subst hu
  have hnot := hb.not_has hs.core hx
  obtain ⟨hopen, hread, hother, hacc⟩ :=
    handleRead_outcome h.inv.core hk (rest.map fun fd => ⟨fd, s.fds fd⟩) (w.read k)
  refine ⟨hinv, h.outcome.snoc_read hs.core hx hnot hopen hread hother, ?_, pc_after hgo ?_⟩
  · intro hl
    rw [hacc]
    exact h.accepted fun hm => hl (has_append.mpr (Or.inl hm))
  · rw [handleRead_pc, hx]
    rfl

/-- One more event is handled. -/
theorem Midway.step (hs : Inv s) (hb : IsBatch s (l ++ rest)) (h : Midway w s l rest t) {a : Act} (ha : Answered w t a)
    (hst : step t a = some u) : ∃ l' rest', l' ++ rest' = l ++ rest ∧ Midway w s l' rest' u := by
  have hinv := step_inv h.inv hst
  rcases step_cases hst with ⟨hpc, rfl, -⟩ | ⟨_, hpc, rfl, -⟩ | ⟨hpc, -, rfl⟩ | ⟨ev, evs, fd, ok, hpc, rfl, hsrv, hfd, hu⟩ |
    ⟨ev, evs, r, hpc, rfl, hne, hu⟩
  · unfold Answered at ha
    rw [hpc] at ha
    exact ha.elim
  · unfold Answered at ha
    rw [hpc] at ha
    exact ha.elim
  · -- the end of the batch
    rcases h.pc with ⟨hrest, hgo⟩ | ⟨hw, -⟩
    · rw [hpc, Pc.batch.injEq, eq_comm, List.map_eq_nil_iff] at hrest
      subst hrest
      have hout : Outcome w s l { t with pc := .wait } := ⟨h.outcome.opened, h.outcome.read, h.outcome.unread⟩
      refine ⟨l, [], rfl, hinv, hout, h.accepted, Or.inr ⟨rfl, ?_⟩⟩
      rw [handled_append hgo, handled, List.append_nil]
    · rw [hpc] at hw
      cases hw
  · obtain ⟨x, xs, rfl, rfl, rfl, hsame, hgo⟩ := h.front hpc
    have hx : s.fds x = some .listener := by
      rw [← hsame]
      exact (congrArg t.fds hsrv).trans (h.inv.server (by simp [hpc]))
    unfold Answered at ha
    rw [hpc] at ha
    exact ⟨l ++ [x], xs, by simp, h.accept hs hb hgo hx hfd ha hu hinv⟩
  · obtain ⟨x, xs, rfl, rfl, rfl, hsame, hgo⟩ := h.front hpc
    unfold Answered at ha
    rw [hpc] at ha
    obtain ⟨k, hk, rfl⟩ := ha
    exact ⟨l ++ [x], xs, by simp, h.read hs hb hgo (hsame.symm.trans hk) hk hu hinv⟩

theorem step_epollWait (hb : IsBatch s fds) :
    Live.step s (.epollWait (some fds)) = some { s with pc := .batch (fds.map fun fd => ⟨fd, s.fds fd⟩) } := by
  unfold Live.step
  rw [hb.pc]
  exact if_pos ⟨hb.nodup, hb.short, hb.registered⟩

/-- A batch leaves what the events it handled do. -/
theorem batch_outcome (hs : Inv s) (hb : IsBatch s fds) (h : Handles w s fds t) :
    Outcome w s (handled w s fds) t := by
  obtain ⟨s1, tr, hst, hrun, hw, hpc⟩ := h
  have hinv := step_inv hs hst
  rw [step_epollWait hb, Option.some_inj] at hst
  subst hst
  have hstart : Midway w s [] fds { s with pc := .batch (fds.map fun fd => ⟨fd, s.fds fd⟩) } :=
    ⟨hinv, outcome_nil rfl rfl, fun _ => rfl, Or.inl ⟨rfl, fun fd hfd => absurd hfd List.not_mem_nil⟩⟩
  obtain ⟨l, rest, hl, hmid⟩ := hrun.keeps (P := fun u => ∃ l rest, l ++ rest = fds ∧ Midway w s l rest u)
    (C := Answered w) ⟨[], fds, rfl, hstart⟩
    (fun u a u' ⟨l, rest, hl, hmid⟩ ha hst => by
      subst hl
      exact hmid.step hs hb ha hst)
    hw
  rcases hmid.pc with ⟨hwait, -⟩ | ⟨-, hhandled⟩
  · rw [hpc] at hwait
    cases hwait
  · rw [← hl, ← hhandled]
    exact hmid.outcome

/-- Whatever the answers are, the batch comes to its end. -/
theorem exists_run (w : Answers) {evs : List Event} (hu : Inv u) (hpc : u.pc = .batch evs) :
    ∃ tr t, Run Live.step u tr t ∧ Each (Answered w) tr ∧ t.pc = .wait := by
  induction evs generalizing u with
  | nil =>
    have hst : Live.step u .next = some { u with pc := .wait } := by
      unfold Live.step
      rw [hpc]
    refine ⟨_, _, .cons hst .nil, each_cons.mpr ⟨?_, each_nil _⟩, rfl⟩
    unfold Answered
    rw [hpc]
    trivial
  | cons ev evs ih =>
    have hholds := hu.holds _ hpc ev List.mem_cons_self
    by_cases hsrv : ev.fd = u.serverFd
    · obtain ⟨fd, hfd, hw⟩ : ∃ fd, (fd = -1 ∨ 0 ≤ fd ∧ u.fds fd = none) ∧ (fd = -1 ↔ w.accepts = false) := by
        cases hacc : w.accepts with
        | false => exact ⟨-1, Or.inl rfl, by simp⟩
        | true =>
          obtain ⟨m, hm⟩ := hu.core.bounded
          have hne : max m 0 ≠ -1 := by omega
          exact ⟨max m 0, Or.inr ⟨by omega, hm _ (by omega)⟩, by simp [hne]⟩
      have hst : Live.step u (.accept fd true) = some { epollCtlAdd (accept u fd) fd true with pc := .batch evs } := by
        unfold Live.step
        rw [hpc]
        exact if_pos ⟨hsrv, hfd⟩
      obtain ⟨tr, t, hrun, hw', ht⟩ := ih (step_inv hu hst) rfl
      refine ⟨_, t, hrun.cons hst, each_cons.mpr ⟨?_, hw'⟩, ht⟩
      unfold Answered
      rw [hpc]
      exact hw
    · obtain ⟨k, hk⟩ : ∃ k, u.fds ev.fd = some (.client k) := by
        rw [hholds.same]
        exact hholds.conn.resolve_left fun h => hsrv h.1
      have hst : Live.step u (.read (w.read k)) = some (handleRead u ev.fd evs (w.read k)) := by
        unfold Live.step
        rw [hpc]
        exact if_neg hsrv
      have hans : Answered w u (.read (w.read k)) := by
        unfold Answered
        rw [hpc]
        exact ⟨k, hk, rfl⟩
      have hpc' := handleRead_pc (t := u) ev.fd evs (w.read k)
      cases hstop : stops (w.read k) with
      | true =>
        rw [hstop] at hpc'
        exact ⟨_, _, .cons hst .nil, each_cons.mpr ⟨hans, each_nil _⟩, hpc'⟩
      | false =>
        rw [hstop] at hpc'
        obtain ⟨tr, t, hrun, hw, ht⟩ := ih (step_inv hu hst) hpc'
        exact ⟨_, t, hrun.cons hst, each_cons.mpr ⟨hans, hw⟩, ht⟩

theorem exists_handles (w : Answers) (hs : Inv s) (hb : IsBatch s fds) : ∃ t, Handles w s fds t := by
  have hst := step_epollWait hb
  obtain ⟨tr, t, hrun, hw, ht⟩ := exists_run w (step_inv hs hst) rfl
  exact ⟨t, _, tr, hst, hrun, hw, ht⟩

/-! ## Any order -/

/-- Besides a client that ends the batch nothing in it does anything. -/
def Alone (w : Answers) (s : Sys) (fds : List Int) : Prop :=
  ∀ fd ∈ fds, breaks w (s.fds fd) = true → ∀ fd' ∈ fds, fd' ≠ fd → acts w (s.fds fd') = false

theorem handled_subset {fd : Int} (h : fd ∈ handled w s fds) : fd ∈ fds := by
  induction fds with
  | nil => exact h
  | cons x xs ih =>
    rw [handled] at h
    split at h
    · rw [List.mem_singleton] at h
      rw [h]
      exact List.mem_cons_self
    · rcases List.mem_cons.mp h with h | h
      · rw [h]
        exact List.mem_cons_self
      · exact List.mem_cons_of_mem _ (ih h)

/-- An event that is not handled is behind one that ended the batch. -/
theorem mem_handled {fd : Int} (h : fd ∈ fds) :
    fd ∈ handled w s fds ∨ ∃ x ∈ fds, breaks w (s.fds x) = true ∧ x ∈ handled w s fds := by
  induction fds with
  | nil => cases h
  | cons x xs ih =>
    rw [handled]
    cases hx : breaks w (s.fds x) with
    | true => exact Or.inr ⟨x, List.mem_cons_self, hx, List.mem_cons_self⟩
    | false =>
      rcases List.mem_cons.mp h with h | h
      · rw [h]
        exact Or.inl List.mem_cons_self
      · rcases ih h with ih | ⟨y, hy, hby, hyh⟩
        · exact Or.inl (List.mem_cons_of_mem _ ih)
        · exact Or.inr ⟨y, List.mem_cons_of_mem _ hy, hby, List.mem_cons_of_mem _ hyh⟩

theorem Alone.handled (h : Alone w s fds) {p : List Int} (hp : p.Perm fds) {fd : Int} (hfd : fd ∈ fds)
    (hact : acts w (s.fds fd) = true) : fd ∈ handled w s p := by
  rcases mem_handled (w := w) (s := s) (hp.mem_iff.mpr hfd) with hm | ⟨x, hx, hbx, hxm⟩
  · exact hm
  · by_cases he : fd = x
    · rwa [he]
    · rw [h x (hp.mem_iff.mp hx) hbx fd hfd he] at hact
      cases hact

/-- Then it is as if all events were handled. -/
theorem Alone.outcome (h : Alone w s fds) {p : List Int} (hp : p.Perm fds) (ho : Outcome w s (Live.handled w s p) t) :
    Outcome w s fds t := by
  have hsub : ∀ c, Has s (Live.handled w s p) c → Has s fds c := by
    intro c ⟨fd, hfd, hc⟩
    exact ⟨fd, hp.mem_iff.mp (handled_subset hfd), hc⟩
  have hhas : ∀ c, acts w (some c) = true → Has s fds c → Has s (Live.handled w s p) c := by
    intro c hact ⟨fd, hfd, hc⟩
    exact ⟨fd, h.handled hp hfd (by rw [hc, hact]), hc⟩
  refine ⟨?_, ?_, ?_⟩
  · intro c
    rw [ho.opened]
    refine or_congr (and_congr_right fun _ => forall_congr' fun k => imp_congr_right fun hc => ?_)
      (and_congr_right fun _ => and_congr_right fun hacc => ⟨hsub _, hhas .listener hacc⟩)
    refine ⟨fun hh hf => ?_, fun hh hf => hh (hsub c hf)⟩
    cases hr : w.read k with
    | eof => exact hr ▸ hh (hhas c (by simp [hc, acts, hr, leaves]) hf)
    | error => exact hr ▸ hh (hhas c (by simp [hc, acts, hr, leaves]) hf)
    | data c => rfl
    | again => rfl
  · intro k hk
    by_cases hm : Has s (Live.handled w s p) (.client k)
    · exact ho.read k hm
    · cases hr : w.read k with
      | again =>
        rw [ho.unread k hm]
        exact (List.append_nil _).symm
      | eof => exact absurd (hhas _ (by simp [acts, hr, leaves]) hk) hm
      | error => exact absurd (hhas _ (by simp [acts, hr, leaves]) hk) hm
      | data c => exact absurd (hhas _ (by simp [acts, hr, leaves]) hk) hm
  · exact fun k hk => ho.unread k fun hm => hk (hsub _ hm)

theorem Outcome.same {t' : Sys} (h : Outcome w s l t) (h' : Outcome w s l t') :
    (∀ c, Open t c ↔ Open t' c) ∧ t.consumed = t'.consumed := by
  refine ⟨fun c => (h.opened c).trans (h'.opened c).symm, funext fun k => ?_⟩
  by_cases hk : Has s l (.client k)
  · rw [h.read k hk, h'.read k hk]
  · rw [h.unread k hk, h'.unread k hk]

/-- A client that ends the batch in front of an event that does something, and behind it. -/
theorem differ {fd fd' : Int} {l' : List Int} {t' : Sys} (hs : Inv s) (hb : IsBatch s fds) (hfd : fd ∈ fds) (hfd' : fd' ∈ fds)
    (hne : fd' ≠ fd) (hbr : breaks w (s.fds fd) = true) (hact : acts w (s.fds fd') = true) (hl' : fd' ∈ l')
    (h : Outcome w s [fd] t) (h' : Outcome w s l' t') : ¬ ((∀ c, Open t c ↔ Open t' c) ∧ t.consumed = t'.consumed) := by
  intro ⟨hopen, hcons⟩
  have hno : ∀ c, s.fds fd' = some c → ¬ Has s [fd] c := by
    intro c hc ⟨x, hx, hxc⟩
    rw [List.mem_singleton] at hx
    subst hx
    exact hne (hb.single hs.core hfd' hfd hc hxc)
  rcases hs.core.registered fd' (hb.registered fd' hfd') with ⟨-, hl⟩ | ⟨k, hk⟩
  · -- a connection that is accepted only behind
    rw [hl] at hact
    have hnew := (hopen _).mpr ((h'.opened _).mpr (Or.inr ⟨rfl, hact, fd', hl', hl⟩))
    rcases (h.opened _).mp hnew with ⟨⟨x, hx⟩, -⟩ | ⟨-, -, hhas⟩
    · exact absurd (hs.core.known x _ hx) (Nat.lt_irrefl _)
    · exact hno _ hl hhas
  · rw [hk] at hact
    have hold : Open t (.client k) := (h.opened _).mpr (Or.inl ⟨⟨fd', hk⟩, fun _ _ hhas => absurd hhas (hno _ hk)⟩)
    -- a connection that is closed only behind
    have hclosed : ends (w.read k) = true → False := by
      intro hends
      rcases (h'.opened _).mp ((hopen _).mp hold) with ⟨-, hh⟩ | ⟨hc, -⟩
      · rw [hh k rfl ⟨fd', hl', hk⟩] at hends
        cases hends
      · cases hc
        exact absurd (hs.core.known fd' _ hk) (Nat.lt_irrefl _)
    cases hr : w.read k with
    | again => simp [acts, hr, leaves] at hact
    | eof => exact hclosed (by rw [hr]; rfl)
    | error => exact hclosed (by rw [hr]; rfl)
    | data c =>
      have h1 := congrFun hcons k
      rw [h.unread k (hno _ hk), h'.read k ⟨fd', hl', hk⟩, hr] at h1
      exact c.ne (List.self_eq_append_right.mp h1)

end

/-- In every order the same, and every client's data read, just when a client that ends the batch
    is alone in it with events that do nothing. -/
theorem epoll_test_order {s0 s : Sys} {tr : List (Sys × Act)} (h0 : Start s0) (hr : Run step s0 tr s) (w : Answers)
    {fds : List Int} (hb : IsBatch s fds) : Undisturbed w s fds ↔ Alone w s fds := by
  have hs := run_inv h0 hr
  refine ⟨?_, ?_⟩
  · intro h fd hfd hbr fd' hfd' hne
    by_contra hact
    rw [Bool.not_eq_false] at hact
    -- the two orders that begin with these two events
    have hp : fds.Perm (fd :: fd' :: (fds.erase fd).erase fd') := by
      have hm : fd' ∈ fds.erase fd := (List.mem_erase_of_ne hne).mpr hfd'
      exact (List.perm_cons_erase hfd).trans ((List.perm_cons_erase hm).cons fd)
    have hp' : fds.Perm (fd' :: fd :: (fds.erase fd).erase fd') := hp.trans (List.Perm.swap _ _ _)
    obtain ⟨t, ht⟩ := exists_handles w hs (hb.perm hp.symm)
    obtain ⟨t', ht'⟩ := exists_handles w hs (hb.perm hp'.symm)
    have ho := batch_outcome hs (hb.perm hp.symm) ht
    have ho' := batch_outcome hs (hb.perm hp'.symm) ht'
    rw [handled, if_pos hbr] at ho
    have hl' : fd' ∈ handled w s (fd' :: fd :: (fds.erase fd).erase fd') := by
      rw [handled]
      split
      · exact List.mem_singleton_self _
      · exact List.mem_cons_self
    exact differ hs hb hfd hfd' hne hbr hact hl' ho ho' (h.same _ _ _ _ hp.symm hp'.symm ht ht')
  · intro h
    have hout : ∀ p t, p.Perm fds → Handles w s p t → Outcome w s fds t := fun p t hp ht =>
      h.outcome hp (batch_outcome hs (hb.perm hp) ht)
    refine ⟨?_, ?_⟩
    · intro p p' t t' hp hp' ht ht'
      exact (hout p t hp ht).same (hout p' t' hp' ht')
    · intro p t hp ht fd hfd k c hk hread
      rw [(hout p t hp ht).read k ⟨fd, hfd, hk⟩, hread]
      rfl

/-! ## Two clients -/

/-- Clients 0 and 1 are connected, on 5 and 6. -/
def twoClients : Sys :=
  { epollCtlAdd (accept (epollCtlAdd (accept fresh 5) 5 true) 6) 6 true with pc := .wait }

theorem run_twoClients : ∃ tr, Run step fresh tr twoClients :=
  ⟨_, run_of_follow [.epollWait (some [3]), .accept 5 true, .next, .epollWait (some [3]), .accept 6 true, .next] rfl⟩

theorem isBatch_twoClients : IsBatch twoClients [5, 6] := ⟨rfl, by decide, by decide, by decide⟩

/-- Both have sent a byte. -/
def sent : Answers := ⟨fun _ => .data ⟨[120], by decide, by decide⟩, false⟩

theorem epoll_test_order_sent : Undisturbed sent twoClients [5, 6] := by
  obtain ⟨tr, hrun⟩ := run_twoClients
  have hgo : ∀ fd ∈ [5, 6], breaks sent (twoClients.fds fd) = false := by decide
  refine (epoll_test_order fresh_start hrun sent isBatch_twoClients).mpr fun fd hfd hbr => ?_
  rw [hgo fd hfd] at hbr
  cases hbr

/-- The first client's connection is reset, the second has sent a byte. -/
def reset : Answers := ⟨fun k => if k = 0 then .error else .data ⟨[120], by decide, by decide⟩, false⟩

/-- With the first in front the byte of the second is not read. -/
theorem epoll_test_reset_first :
    (∃ tr, Run step fresh tr twoClients) ∧ IsBatch twoClients [5, 6] ∧ ¬ Undisturbed reset twoClients [5, 6] := by
  refine ⟨run_twoClients, isBatch_twoClients, fun h => ?_⟩
  have hrun : Run step { twoClients with pc := .batch [⟨5, some (.client 0)⟩, ⟨6, some (.client 1)⟩] } _ _ :=
    run_of_follow [.read .error] rfl
  have hans : Each (Answered reset) [({ twoClients with pc := .batch [⟨5, some (.client 0)⟩, ⟨6, some (.client 1)⟩] },
      Act.read .error)] := each_cons.mpr ⟨⟨0, rfl, rfl⟩, each_nil _⟩
  have hdata := h.data [5, 6] _ (List.Perm.refl _) ⟨_, _, step_epollWait isBatch_twoClients, hrun, hans, rfl⟩ 6 (by decide)
    1 _ rfl rfl
  exact absurd hdata (by decide)

end NetworkCourse.Live
