/-
  NetworkCourse.WebSocket.Server — `echo` and `ping` of websocket/server.go, any number of
  connections at a time.

  `echo` makes `stdoutDone`, on which `ping` waits to return, and neither closes it nor sends
  on it, however it leaves its loop. So no `ping` ever returns (`pings_stay`): behind the return
  of its handler it can only take ticks and fail to write to the closed connection
  (`returned_only_fails`). The pings are kept releasable all along in the runs in which no
  handler of a connection returns, and in no others (`ping_released_iff`).

  What the library's calls give comes with the step: an upgrade, a message read or written, a
  ping written, or an error. A call on a closed connection fails. A tick can come whenever
  `ping` waits. A call of `log` is a step of its own, and nothing orders those of different
  goroutines.
-/

import NetworkCourse.Lib.Trace

namespace NetworkCourse.WebSocket

open Lib.Trace

/-- A `chan struct{}` without a buffer, with the number of goroutines that wait to send. -/
structure Chan where
  closed : Bool
  senders : Nat
  deriving DecidableEq

def Chan.make : Chan := ⟨false, 0⟩

/-- `<-c` can go on. -/
def Chan.Ready (c : Chan) : Prop := c.closed = true ∨ 0 < c.senders

instance (c : Chan) : Decidable c.Ready := inferInstanceAs (Decidable (_ ∨ _))

/-- `<-c`: takes from a sender first. -/
def Chan.receive (c : Chan) : Option Chan :=
  if 0 < c.senders then some { c with senders := c.senders - 1 }
  else if c.closed then some c
  else none

structure Message where
  mt : Int
  data : List UInt8
  deriving DecidableEq

/-- `websocket.PingMessage`, with no data. -/
def pingMessage : Message := ⟨9, []⟩

/-- Where `echo` is: at `ReadMessage`, at one of its calls of `log`, at `WriteMessage`, behind its loop
    with the deferred `Close` to come, or returned. -/
inductive Echo where
  | reading
  | readFailed (err : String)
  | received (message : Message)
  | writing (message : Message)
  | writeFailed (err : String)
  | leaving
  | returned
  deriving DecidableEq

/-- Where `ping` is: at its `select`, at `WriteControl`, or at its call of `log`. -/
inductive Ping where
  | selecting
  | writing
  | failed (err : String)
  | returned
  deriving DecidableEq

/-- What is logged, with the text of the error. -/
inductive Line where
  | upgrade (err : String)
  | read (err : String)
  | recv (data : List UInt8)
  | write (err : String)
  | ping (err : String)
  deriving DecidableEq

/-- An upgraded connection with its two goroutines, and what their writes have `sent` on it. The frames
    by which `ReadMessage` itself answers a ping or a close are not in it. -/
structure Conn where
  echo : Echo
  ping : Ping
  stdoutDone : Chan
  closed : Bool
  sent : List Message
  deriving DecidableEq

/-- Behind `go ping(c, stdoutDone)`. -/
def Conn.start : Conn := ⟨.reading, .selecting, .make, false, []⟩

inductive Event where
  | readMessage (r : Except String Message)
  | writeMessage (err : Option String)
  /-- The handler's call of `log`. -/
  | log
  /-- The deferred `Close` and the return. -/
  | close
  | tick
  | writeControl (err : Option String)
  | logPing
  | done

/-- The connection behind an event, and the lines it logged. -/
def Conn.act (c : Conn) : Event → Option (Conn × List Line)
  | .readMessage r =>
    match c.echo, r with
    | .reading, .error err => some ({ c with echo := .readFailed err }, [])
    | .reading, .ok message => some ({ c with echo := .received message }, [])
    | _, _ => none
  | .writeMessage err =>
    match c.echo, err with
    | .writing _, some err => some ({ c with echo := .writeFailed err }, [])
    | .writing message, none => some ({ c with echo := .reading, sent := c.sent ++ [message] }, [])
    | _, _ => none
  | .log =>
    match c.echo with
    | .readFailed err => some ({ c with echo := .leaving }, [.read err])
    | .received message => some ({ c with echo := .writing message }, [.recv message.data])
    | .writeFailed err => some ({ c with echo := .leaving }, [.write err])
    | _ => none
  | .close =>
    match c.echo with
    | .leaving => some ({ c with echo := .returned, closed := true }, [])
    | _ => none
  | .tick =>
    match c.ping with
    | .selecting => some ({ c with ping := .writing }, [])
    | _ => none
  | .writeControl err =>
    match c.ping, err with
    | .writing, some err => some ({ c with ping := .failed err }, [])
    | .writing, none =>
      if c.closed then none else some ({ c with ping := .selecting, sent := c.sent ++ [pingMessage] }, [])
    | _, _ => none
  | .logPing =>
    match c.ping with
    | .failed err => some ({ c with ping := .selecting }, [.ping err])
    | _ => none
  | .done =>
    match c.ping with
    | .selecting => c.stdoutDone.receive.map fun stdoutDone => ({ c with ping := .returned, stdoutDone }, [])
    | _ => none

/-- A request to `/echo`: at `Upgrade`, at the call of `log` behind its failure, returned from that, or with
    a connection. -/
inductive Session where
  | upgrading
  | failed (err : String)
  | refused
  | conn (c : Conn)
  deriving DecidableEq

/-- Each line of the log stands with the session that wrote it. -/
structure Server where
  sessions : List Session
  log : List (Nat × Line)
  deriving DecidableEq

def Server.init : Server := ⟨[], []⟩

inductive Act where
  | request
  | upgrade (k : Nat) (err : Option String)
  | logUpgrade (k : Nat)
  | event (k : Nat) (e : Event)

def step (s : Server) : Act → Option Server
  | .request => some { s with sessions := s.sessions ++ [.upgrading] }
  | .upgrade k err =>
    match s.sessions[k]?, err with
    | some .upgrading, some err => some { s with sessions := s.sessions.set k (.failed err) }
    | some .upgrading, none => some { s with sessions := s.sessions.set k (.conn .start) }
    | _, _ => none
  | .logUpgrade k =>
    match s.sessions[k]? with
    | some (.failed err) => some ⟨s.sessions.set k .refused, s.log ++ [(k, .upgrade err)]⟩
    | _ => none
  | .event k e =>
    match s.sessions[k]? with
    | some (.conn c) => (c.act e).map fun (c, lines) => ⟨s.sessions.set k (.conn c), s.log ++ lines.map (k, ·)⟩
    | _ => none

/-! ## What is wanted -/

/-- The handler has not returned, or `ping` has or can. -/
def Conn.Released (c : Conn) : Prop := c.echo = .returned → c.ping = .returned ∨ c.stdoutDone.Ready

instance (c : Conn) : Decidable c.Released := inferInstanceAs (Decidable (_ → _))

/-- So for every connection. -/
def Released (s : Server) : Prop := ∀ c, .conn c ∈ s.sessions → c.Released

/-- No handler of a connection returns. -/
def NoReturn (_ : Server) (a : Act) : Prop := ∀ k, a ≠ .event k .close

/-! ## One step -/

/-- What an event does to a connection, and what it logs. -/
inductive Conn.Acts (c : Conn) : Event → Conn → List Line → Prop
  | readFails (err : String) : c.echo = .reading →
      c.Acts (.readMessage (.error err)) { c with echo := .readFailed err } []
  | reads (message : Message) : c.echo = .reading →
      c.Acts (.readMessage (.ok message)) { c with echo := .received message } []
  | writeFails (message : Message) (err : String) : c.echo = .writing message →
      c.Acts (.writeMessage (some err)) { c with echo := .writeFailed err } []
  | writes (message : Message) : c.echo = .writing message →
      c.Acts (.writeMessage none) { c with echo := .reading, sent := c.sent ++ [message] } []
  | logsRead (err : String) : c.echo = .readFailed err → c.Acts .log { c with echo := .leaving } [.read err]
  | logsRecv (message : Message) : c.echo = .received message →
      c.Acts .log { c with echo := .writing message } [.recv message.data]
  | logsWrite (err : String) : c.echo = .writeFailed err → c.Acts .log { c with echo := .leaving } [.write err]
  | close : c.echo = .leaving → c.Acts .close { c with echo := .returned, closed := true } []
  | tick : c.ping = .selecting → c.Acts .tick { c with ping := .writing } []
  | controlFails (err : String) : c.ping = .writing → c.Acts (.writeControl (some err)) { c with ping := .failed err } []
  | controls : c.ping = .writing → c.closed = false →
      c.Acts (.writeControl none) { c with ping := .selecting, sent := c.sent ++ [pingMessage] } []
  | logsPing (err : String) : c.ping = .failed err → c.Acts .logPing { c with ping := .selecting } [.ping err]
  | done (stdoutDone : Chan) : c.ping = .selecting → c.stdoutDone.receive = some stdoutDone →
      c.Acts .done { c with ping := .returned, stdoutDone } []

theorem receive_isSome (c : Chan) : c.receive.isSome ↔ c.Ready := by
  unfold Chan.receive Chan.Ready
  by_cases h1 : 0 < c.senders
  · simp [h1]
  · by_cases h2 : c.closed = true
    · simp [h1, h2]
    · simp [h1, h2]

/-- `ping` can return from its `select` when `stdoutDone` is ready. -/
theorem done_isSome {c : Conn} (h : c.ping = .selecting) : (c.act .done).isSome ↔ c.stdoutDone.Ready := by
  rw [← receive_isSome]
  simp [Conn.act, h]

theorem act_acts {c c' : Conn} {e : Event} {lines : List Line} (h : c.act e = some (c', lines)) : c.Acts e c' lines := by
  unfold Conn.act at h
  cases e with
  | readMessage r =>
    simp only at h
    split at h
    · cases h
      exact .readFails _ ‹_›
    · cases h
      exact .reads _ ‹_›
    · cases h
  | writeMessage err =>
    simp only at h
    split at h
    · cases h
      exact .writeFails _ _ ‹_›
    · cases h
      exact .writes _ ‹_›
    · cases h
  | log =>
    simp only at h
    split at h
    · cases h
      exact .logsRead _ ‹_›
    · cases h
      exact .logsRecv _ ‹_›
    · cases h
      exact .logsWrite _ ‹_›
    · cases h
  | close =>
    simp only at h
    split at h
    · cases h
      exact .close ‹_›
    · cases h
  | tick =>
    simp only at h
    split at h
    · cases h
      exact .tick ‹_›
    · cases h
  | writeControl err =>
    simp only at h
    split at h
    · cases h
      exact .controlFails _ ‹_›
    · split at h
      · cases h
      · cases h
        exact .controls ‹_› (by simpa using ‹¬c.closed = true›)
    · cases h
  | logPing =>
    simp only at h
    split at h
    · cases h
      exact .logsPing _ ‹_›
    · cases h
  | done =>
    simp only at h
    split at h
    · obtain ⟨d, hd, he⟩ := Option.map_eq_some_iff.mp h
      cases he
      exact .done d ‹_› hd
    · cases h

/-- What a step does. -/
inductive Steps (s : Server) : Act → Server → Prop
  | request : Steps s .request { s with sessions := s.sessions ++ [.upgrading] }
  | upgradeFails (k : Nat) (err : String) : s.sessions[k]? = some .upgrading →
      Steps s (.upgrade k (some err)) { s with sessions := s.sessions.set k (.failed err) }
  | upgrades (k : Nat) : s.sessions[k]? = some .upgrading →
      Steps s (.upgrade k none) { s with sessions := s.sessions.set k (.conn .start) }
  | refuses (k : Nat) (err : String) : s.sessions[k]? = some (.failed err) →
      Steps s (.logUpgrade k) ⟨s.sessions.set k .refused, s.log ++ [(k, .upgrade err)]⟩
  | event (k : Nat) (e : Event) (c c' : Conn) (lines : List Line) : s.sessions[k]? = some (.conn c) → c.Acts e c' lines →
      Steps s (.event k e) ⟨s.sessions.set k (.conn c'), s.log ++ lines.map (k, ·)⟩

theorem step_steps {s s' : Server} {a : Act} (h : step s a = some s') : Steps s a s' := by
  unfold step at h
  cases a with
  | request =>
    cases h
    exact .request
  | upgrade k err =>
    simp only at h
    split at h
    · cases h
      exact .upgradeFails k _ ‹_›
    · cases h
      exact .upgrades k ‹_›
    · cases h
  | logUpgrade k =>
    simp only at h
    split at h
    · cases h
      exact .refuses k _ ‹_›
    · cases h
  | event k e =>
    simp only at h
    split at h
    · rename_i c hk
      obtain ⟨⟨c', lines⟩, hact, he⟩ := Option.map_eq_some_iff.mp h
      cases he
      exact .event k e c c' lines hk (act_acts hact)
    · cases h

/-! ## Every run -/

/-- What the events keep of a connection, the steps keep of all. -/
theorem conns_step {P : Conn → Prop} {C : Event → Prop} {s s' : Server} {a : Act} (hstart : P .start)
    (hP : ∀ c e c' lines, P c → C e → c.Acts e c' lines → P c') (h : ∀ c, .conn c ∈ s.sessions → P c)
    (hC : ∀ k e, a = .event k e → C e) (hst : step s a = some s') : ∀ c, .conn c ∈ s'.sessions → P c := by
  intro c hc
  cases step_steps hst with
  | request =>
    rcases List.mem_append.mp hc with hc | hc
    · exact h c hc
    · cases List.mem_singleton.mp hc
  | upgradeFails k err hk | refuses k err hk =>
    rcases List.mem_or_eq_of_mem_set hc with hc | hc
    · exact h c hc
    · cases hc
  | upgrades k hk =>
    rcases List.mem_or_eq_of_mem_set hc with hc | hc
    · exact h c hc
    · cases hc
      exact hstart
  | event k e c0 c' lines hk hacts =>
    rcases List.mem_or_eq_of_mem_set hc with hc | hc
    · exact h c hc
    · cases hc
      exact hP c0 e c lines (h c0 (List.mem_of_getElem? hk)) (hC k e rfl) hacts

/-- `stdoutDone` is as it was made, and `ping` is in its loop; only a connection whose handler
    has returned is closed. -/
structure Conn.Stays (c : Conn) : Prop where
  stdoutDone : c.stdoutDone = .make
  ping : c.ping ≠ .returned
  closed : c.closed = true ↔ c.echo = .returned

theorem start_stays : Conn.start.Stays := ⟨rfl, by decide, by decide⟩

theorem acts_stays {c c' : Conn} {e : Event} {lines : List Line} (h : c.Stays) (hacts : c.Acts e c' lines) : c'.Stays := by
  obtain ⟨hdone, hping, hclosed⟩ := h
  cases hacts with
  | readFails err he | reads message he | writeFails message err he | writes message he | logsRead err he
  | logsRecv message he | logsWrite err he => exact ⟨hdone, hping, by simpa [he] using hclosed⟩
  | close he => exact ⟨hdone, hping, by simp⟩
  | tick hp | controlFails err hp | controls hp hc | logsPing err hp => exact ⟨hdone, by simp, hclosed⟩
  | done d hp hd =>
    rw [hdone] at hd
    cases hd

theorem stays_step {s s' : Server} {a : Act} (h : ∀ c, .conn c ∈ s.sessions → c.Stays) (hst : step s a = some s') :
    ∀ c, .conn c ∈ s'.sessions → c.Stays :=
  conns_step start_stays (C := fun _ => True) (fun _ _ _ _ hc _ => acts_stays hc) h (fun _ _ _ => trivial) hst

/-- No `ping` ever returns. -/
theorem pings_stay {tr : List (Server × Act)} {s : Server} (h : Run step .init tr s) :
    ∀ c, .conn c ∈ s.sessions → c.Stays := by
  refine h.keeps (P := fun s => ∀ c, .conn c ∈ s.sessions → c.Stays) (C := fun _ _ => True) (fun c hc => nomatch hc) ?_
    fun _ _ => trivial
  intro s a s' hs _ hst
  exact stays_step hs hst

/-- When its handler has returned it goes on with ticks, and with errors for what it writes, which it logs. -/
theorem returned_only_fails {c c' : Conn} {e : Event} {lines : List Line} (h : c.Stays) (he : c.echo = .returned)
    (hacts : c.Acts e c' lines) :
    (e = .tick ∨ (∃ err, e = .writeControl (some err)) ∨ e = .logPing) ∧ c'.echo = .returned := by
  have hclosed := h.closed.mpr he
  cases hacts with
  | readFails _ hr | reads _ hr | writeFails _ _ hr | writes _ hr | logsRead _ hr | logsRecv _ hr | logsWrite _ hr
  | close hr =>
    rw [he] at hr
    cases hr
  | tick hp => exact ⟨Or.inl rfl, he⟩
  | controlFails err hp => exact ⟨Or.inr (Or.inl ⟨err, rfl⟩), he⟩
  | controls hp hc =>
    rw [hclosed] at hc
    cases hc
  | logsPing err hp => exact ⟨Or.inr (Or.inr rfl), he⟩
  | done d hp hd =>
    rw [h.stdoutDone] at hd
    cases hd

theorem stays_released {c : Conn} (h : c.Stays) : c.Released ↔ c.echo ≠ .returned := by
  refine ⟨fun hr he => ?_, fun hne he => absurd he hne⟩
  rcases hr he with hp | hready
  · exact h.ping hp
  · rw [h.stdoutDone] at hready
    revert hready
    decide

/-- A step keeps the pings releasable just when it is not the return of a handler. -/
theorem released_step {s s' : Server} {a : Act} (hs : ∀ c, .conn c ∈ s.sessions → c.Stays) (h : Released s)
    (hst : step s a = some s') : Released s' ↔ NoReturn s a := by
  have hs' := stays_step hs hst
  refine ⟨fun hr k hk => ?_, fun hno => ?_⟩
  · subst hk
    cases step_steps hst with
    | event k e c c' lines hc hacts =>
      have hlt := (List.getElem?_eq_some_iff.mp hc).1
      have hmem : .conn c' ∈ s.sessions.set k (.conn c') := List.mem_set hlt _
      have hne := (stays_released (hs' c' hmem)).mp (hr c' hmem)
      cases hacts with
      | close he => exact hne rfl
  · have hne : ∀ c, .conn c ∈ s'.sessions → c.echo ≠ .returned := by
      refine conns_step (by decide) (C := fun e => e ≠ .close) ?_ (fun c hc => (stays_released (hs c hc)).mp (h c hc))
        (fun k e hk he => hno k (he ▸ hk)) hst
      intro c e c' lines hc he hacts
      cases hacts with
      | close => exact absurd rfl he
      | readFails | reads | writeFails | writes | logsRead | logsRecv | logsWrite => simp
      | tick | controlFails | controls | logsPing | done => exact hc
    exact fun c hc => (stays_released (hs' c hc)).mpr (hne c hc)

/-- The pings are releasable throughout just when no handler of a connection returns. -/
theorem ping_released_iff {tr : List (Server × Act)} {s : Server} (h : Run step .init tr s) :
    Each (fun s _ => Released s) tr ∧ Released s ↔ Each NoReturn tr := by
  refine (h.always_iff (I := fun s => ∀ c, .conn c ∈ s.sessions → c.Stays) (fun c hc => nomatch hc) (fun c hc => nomatch hc)
    ?_ ?_).1
  · intro s a s' hs _ hst
    exact stays_step hs hst
  · intro s a s' hs hr hst
    exact released_step hs hr hst

/-- Two connections, one with its handler behind a failed write but not returned. -/
theorem ping_released_iff_of_two :
    ∃ tr s, Run step .init tr s ∧ (Each (fun s _ => Released s) tr ∧ Released s ↔ Each NoReturn tr) ∧ Released s ∧
      s.log = [(0, .recv [104, 105]), (0, .ping "broken pipe"), (0, .write "broken pipe")] := by
  have hrun : Run step .init _ _ := run_of_follow [.request, .upgrade 0 none, .request, .upgrade 1 none, .event 0 .tick,
    .event 0 (.readMessage (.ok ⟨1, [104, 105]⟩)), .event 0 .log, .event 0 (.writeMessage (some "broken pipe")),
    .event 0 (.writeControl (some "broken pipe")), .event 0 .logPing, .event 0 .log, .event 1 .tick,
    .event 1 (.writeControl none)] rfl
  refine ⟨_, _, hrun, ping_released_iff hrun, ?_, rfl⟩
  exact ((ping_released_iff hrun).mpr (by
    intro x hx k
    simp only [List.mem_cons, List.not_mem_nil, or_false] at hx
    rcases hx with rfl | rfl | rfl | rfl | rfl | rfl | rfl | rfl | rfl | rfl | rfl | rfl | rfl <;> simp)).2

/-- The peer goes away, and the handler returns. -/
theorem returned_leaves_ping :
    ∃ tr s c, Run step .init tr s ∧ s.sessions = [.conn c] ∧ c.echo = .returned ∧ c.ping = .selecting ∧
      c.stdoutDone = ⟨false, 0⟩ ∧ ¬ Released s := by
  have hrun : Run step .init _ _ := run_of_follow
    [.request, .upgrade 0 none, .event 0 (.readMessage (.error "unexpected EOF")), .event 0 .log, .event 0 .close] rfl
  refine ⟨_, _, _, hrun, rfl, rfl, rfl, rfl, fun h => ?_⟩
  exact absurd (h _ (List.mem_singleton_self _)) (by decide)

end NetworkCourse.WebSocket
