/-
  NetworkCourse.WebSocket.Echo — what websocket/server.go sends and logs, over any run of any
  number of connections.

  A connection's handler sends back the messages that `ReadMessage` gave it, each once and in
  order, whatever the other connections do and wherever its own pings fall in between; only the
  one it failed to write is missing. What else is sent are pings. Once the handler has returned
  nothing is sent any more (`echoes`).

  Each goroutine logs what its calls gave, in their order, and is late by the last at most. So the
  `recv` lines of a connection are the messages it received, in order, and each is logged before it
  is sent back (`logged`). Between the lines of two goroutines there is no order to be had: the
  message received first can be logged second.
-/

import NetworkCourse.WebSocket.Server

namespace NetworkCourse.WebSocket

open Lib.Trace

def TextMessage : Int := 1
def BinaryMessage : Int := 2

/-- What `ReadMessage` gave. -/
def Event.heard : Event → List Message
  | .readMessage (.ok message) => [message]
  | _ => []

/-- To connection `k`, and to all. -/
def Act.heard (k : Nat) : Act → List Message
  | .event j e => if j = k then e.heard else []
  | _ => []

def Act.heardByAll : Act → List Message
  | .event _ e => e.heard
  | _ => []

def heard (k : Nat) (tr : List (Server × Act)) : List Message := tr.flatMap fun x => x.2.heard k

/-- `ReadMessage` answers control messages itself. -/
def Data (_ : Server) (a : Act) : Prop := ∀ message ∈ a.heardByAll, message.mt = TextMessage ∨ message.mt = BinaryMessage

instance (s : Server) (a : Act) : Decidable (Data s a) :=
  inferInstanceAs (Decidable (∀ message ∈ a.heardByAll, message.mt = TextMessage ∨ message.mt = BinaryMessage))

/-- What was sent but for the pings. -/
def Conn.echoed (c : Conn) : List Message := c.sent.filter fun message => message.mt ≠ pingMessage.mt

theorem heard_snoc (k : Nat) (tr : List (Server × Act)) (s : Server) (a : Act) :
    heard k (tr ++ [(s, a)]) = heard k tr ++ a.heard k := by
  rw [heard, List.flatMap_append, List.flatMap_singleton]
  rfl

/-! ## One connection -/

/-- What a connection has sent of what it `heard`. -/
structure Conn.Echoes (c : Conn) (heard : List Message) : Prop where
  pings : ∀ message ∈ c.sent, message.mt = pingMessage.mt → message = pingMessage
  reading : c.echo = .reading → c.echoed = heard
  writing : ∀ message, c.echo = .received message ∨ c.echo = .writing message →
    message.mt ≠ pingMessage.mt ∧ c.echoed ++ [message] = heard
  left : c.echoed <+: heard ∧ heard.length ≤ c.echoed.length + 1

theorem start_echoes : Conn.start.Echoes [] := by
  refine ⟨fun _ h => (by cases h), fun _ => rfl, fun _ h => ?_, List.nil_prefix, Nat.zero_le _⟩
  rcases h with h | h <;> cases h

/-- The handler moves on from `ReadMessage` or `WriteMessage` with nothing heard or sent. -/
theorem Conn.Echoes.move {c : Conn} {ms : List Message} (h : c.Echoes ms) {echo : Echo} {closed : Bool}
    (hr : echo ≠ .reading) (hw : ∀ message, echo ≠ .received message ∧ echo ≠ .writing message) :
    ({ c with echo, closed } : Conn).Echoes (ms ++ []) := by
  rw [List.append_nil]
  exact ⟨h.pings, fun he => absurd he hr, fun m he => he.elim (absurd · (hw m).1) (absurd · (hw m).2), h.left⟩

theorem acts_echoes {c c' : Conn} {e : Event} {lines : List Line} {ms : List Message} (h : c.Echoes ms)
    (hd : ∀ message ∈ e.heard, message.mt ≠ pingMessage.mt) (hacts : c.Acts e c' lines) : c'.Echoes (ms ++ e.heard) := by
  cases hacts with
  | readFails | writeFails | logsRead | logsWrite | close => exact h.move (by simp) (by simp)
  | reads message he =>
    have hms : c.echoed = ms := h.reading he
    refine ⟨h.pings, fun he' => (by cases he'), ?_, ?_, ?_⟩
    · intro m hm
      rcases hm with hm | hm
      · cases hm
        exact ⟨hd message (List.mem_singleton_self _), congrArg (· ++ [message]) hms⟩
      · cases hm
    · exact hms ▸ List.prefix_append _ _
    · rw [← hms]
      exact Nat.le_of_eq List.length_append
  | logsRecv message he =>
    show Conn.Echoes _ (ms ++ [])
    rw [List.append_nil]
    refine ⟨h.pings, fun he' => (by cases he'), ?_, h.left⟩
    intro m hm
    rcases hm with hm | hm
    · cases hm
    · cases hm
      exact h.writing message (Or.inl he)
  | writes message he =>
    obtain ⟨hmt, hms⟩ := h.writing message (Or.inr he)
    show Conn.Echoes _ (ms ++ [])
    rw [List.append_nil]
    have hech : ({ c with echo := .reading, sent := c.sent ++ [message] } : Conn).echoed = ms := by
      rw [← hms, Conn.echoed, List.filter_append, Conn.echoed, List.filter_singleton]
      simp [hmt]
    refine ⟨?_, fun _ => hech, fun _ he' => ?_, ?_⟩
    · intro m hm hping
      rcases List.mem_append.mp hm with hm | hm
      · exact h.pings m hm hping
      · cases List.mem_singleton.mp hm
        exact absurd hping hmt
    · rcases he' with he' | he' <;> cases he'
    · rw [hech]
      exact ⟨List.prefix_rfl, Nat.le_succ _⟩
  | tick | controlFails | logsPing | done =>
    show Conn.Echoes _ (ms ++ [])
    rw [List.append_nil]
    exact ⟨h.pings, h.reading, h.writing, h.left⟩
  | controls hp hc =>
    show Conn.Echoes _ (ms ++ [])
    rw [List.append_nil]
    have hech : ({ c with ping := .selecting, sent := c.sent ++ [pingMessage] } : Conn).echoed = c.echoed := by
      rw [Conn.echoed, List.filter_append, Conn.echoed, List.filter_singleton]
      simp
    refine ⟨?_, ?_, ?_, ?_⟩
    · intro m hm hping
      rcases List.mem_append.mp hm with hm | hm
      · exact h.pings m hm hping
      · exact List.mem_singleton.mp hm
    · rw [hech]
      exact h.reading
    · rw [hech]
      exact h.writing
    · rw [hech]
      exact h.left

/-! ## One session among all -/

/-- The line that says what a call gave. -/
def Event.outcome : Event → List Line
  | .readMessage (.error err) => [.read err]
  | .readMessage (.ok message) => [.recv message.data]
  | .writeMessage (some err) => [.write err]
  | .writeControl (some err) => [.ping err]
  | _ => []

/-- To session `k`. -/
def Act.outcome (k : Nat) : Act → List Line
  | .event j e => if j = k then e.outcome else []
  | .upgrade j (some err) => if j = k then [.upgrade err] else []
  | _ => []

/-- What session `k` logged. -/
def Server.lines (s : Server) (k : Nat) : List Line := (s.log.filter fun x => x.1 = k).map Prod.snd

theorem lines_append_self (sessions : List Session) (log : List (Nat × Line)) (k : Nat) (ls : List Line) :
    Server.lines ⟨sessions, log ++ ls.map (k, ·)⟩ k = Server.lines ⟨sessions, log⟩ k ++ ls := by
  rw [Server.lines, Server.lines, List.filter_append, List.map_append]
  congr 1
  induction ls with
  | nil => rfl
  | cons l ls ih => simpa using ih

theorem lines_append_other (sessions : List Session) (log : List (Nat × Line)) {j k : Nat} (h : j ≠ k) (ls : List Line) :
    Server.lines ⟨sessions, log ++ ls.map (j, ·)⟩ k = Server.lines ⟨sessions, log⟩ k := by
  rw [Server.lines, Server.lines, List.filter_append, List.map_append]
  have hno : (ls.map (j, ·)).filter (fun x => decide (x.1 = k)) = [] := by simp [h]
  rw [hno]
  exact List.append_nil _

/-- What a step is to session `k`. -/
inductive Own (k : Nat) (s : Server) : Act → Server → Prop
  | other {a : Act} {s' : Server} : s'.sessions[k]? = s.sessions[k]? → s'.lines k = s.lines k → a.heard k = [] →
      a.outcome k = [] → Own k s a s'
  | request {s' : Server} : s.sessions[k]? = none → s'.sessions[k]? = some .upgrading → s'.lines k = s.lines k →
      Own k s .request s'
  | upgradeFails {s' : Server} (err : String) : s.sessions[k]? = some .upgrading → s'.sessions[k]? = some (.failed err) →
      s'.lines k = s.lines k → Own k s (.upgrade k (some err)) s'
  | upgrades {s' : Server} : s.sessions[k]? = some .upgrading → s'.sessions[k]? = some (.conn .start) →
      s'.lines k = s.lines k → Own k s (.upgrade k none) s'
  | refuses {s' : Server} (err : String) : s.sessions[k]? = some (.failed err) → s'.sessions[k]? = some .refused →
      s'.lines k = s.lines k ++ [.upgrade err] → Own k s (.logUpgrade k) s'
  | event {s' : Server} (e : Event) (c c' : Conn) (ls : List Line) : s.sessions[k]? = some (.conn c) → c.Acts e c' ls →
      s'.sessions[k]? = some (.conn c') → s'.lines k = s.lines k ++ ls → Own k s (.event k e) s'

theorem step_own {s s' : Server} {a : Act} (k : Nat) (hst : step s a = some s') : Own k s a s' := by
  cases step_steps hst with
  | request =>
    rcases Nat.lt_trichotomy k s.sessions.length with hlt | rfl | hgt
    · exact .other (List.getElem?_append_left hlt) rfl rfl rfl
    · exact .request (List.getElem?_eq_none (Nat.le_refl _)) List.getElem?_concat_length rfl
    · have hlen : (s.sessions ++ [Session.upgrading]).length ≤ k := by
        rw [List.length_append, List.length_singleton]
        omega
      exact .other (by rw [List.getElem?_eq_none hlen, List.getElem?_eq_none (Nat.le_of_lt hgt)]) rfl rfl rfl
  | upgradeFails j err hj =>
    by_cases hjk : j = k
    · subst hjk
      exact .upgradeFails err hj (List.getElem?_set_self (List.getElem?_eq_some_iff.mp hj).1) rfl
    · exact .other (List.getElem?_set_ne hjk) rfl rfl (if_neg hjk)
  | upgrades j hj =>
    by_cases hjk : j = k
    · subst hjk
      exact .upgrades hj (List.getElem?_set_self (List.getElem?_eq_some_iff.mp hj).1) rfl
    · exact .other (List.getElem?_set_ne hjk) rfl rfl rfl
  | refuses j err hj =>
    by_cases hjk : j = k
    · subst hjk
      exact .refuses err hj (List.getElem?_set_self (List.getElem?_eq_some_iff.mp hj).1)
        (lines_append_self _ s.log j [.upgrade err])
    · exact .other (List.getElem?_set_ne hjk) (lines_append_other _ s.log hjk [.upgrade err]) rfl rfl
  | event j e c c' ls hj hacts =>
    by_cases hjk : j = k
    · subst hjk
      exact .event e c c' ls hj hacts (List.getElem?_set_self (List.getElem?_eq_some_iff.mp hj).1)
        (lines_append_self _ s.log j ls)
    · exact .other (List.getElem?_set_ne hjk) (lines_append_other _ s.log hjk ls) (if_neg hjk) (if_neg hjk)

/-- What session `k` has heard, if it has a connection. -/
structure Hears (s : Server) (k : Nat) (ms : List Message) : Prop where
  conn : ∀ c, s.sessions[k]? = some (.conn c) → c.Echoes ms
  none : (∀ c, s.sessions[k]? ≠ some (.conn c)) → ms = []

theorem step_hears {s s' : Server} {a : Act} {k : Nat} {ms : List Message} (h : Hears s k ms) (hd : Data s a)
    (hst : step s a = some s') : Hears s' k (ms ++ a.heard k) := by
  have hnew : ∀ x, (∀ c, x ≠ .conn c) → s'.sessions[k]? = some x → (∀ c, s.sessions[k]? ≠ some (.conn c)) →
      Hears s' k (ms ++ []) := by
    intro x hx hs' hs
    rw [List.append_nil, h.none hs]
    refine ⟨fun c hc => ?_, fun _ => rfl⟩
    rw [hs'] at hc
    exact absurd (Option.some.inj hc) (hx c)
  cases step_own k hst with
  | other hsame _ hno _ =>
    rw [hno, List.append_nil]
    exact ⟨hsame ▸ h.conn, hsame ▸ h.none⟩
  | request hs hs' _ => exact hnew _ (by simp) hs' (by simp [hs])
  | upgradeFails err hs hs' _ => exact hnew _ (by simp) hs' (by simp [hs])
  | refuses err hs hs' _ => exact hnew _ (by simp) hs' (by simp [hs])
  | upgrades hs hs' _ =>
    show Hears s' k (ms ++ [])
    rw [List.append_nil, h.none (by simp [hs])]
    refine ⟨fun c hc => ?_, fun _ => rfl⟩
    rw [hs'] at hc
    cases hc
    exact start_echoes
  | event e c c' ls hc hacts hc' _ =>
    have hheard : Act.heard k (.event k e) = e.heard := if_pos rfl
    have hmt : ∀ message ∈ e.heard, message.mt ≠ pingMessage.mt := by
      intro message hm hping
      rcases hd message hm with h1 | h1
      · rw [h1] at hping
        exact absurd hping (by decide)
      · rw [h1] at hping
        exact absurd hping (by decide)
    rw [hheard]
    refine ⟨fun x hx => ?_, fun hnone => absurd hc' (hnone c')⟩
    rw [hc'] at hx
    cases hx
    exact acts_echoes (h.conn c hc) hmt hacts

theorem run_hears {tr : List (Server × Act)} {s : Server} (h : Run step .init tr s) (hd : Each Data tr) (k : Nat) :
    Hears s k (heard k tr) := by
  induction h with
  | nil => exact ⟨fun c hc => (by cases hc), fun _ => rfl⟩
  | snoc a _ hst ih =>
    obtain ⟨htr, ha⟩ := each_snoc.mp hd
    rw [heard_snoc]
    exact step_hears (ih htr) ha hst

/-! ## Behind the return -/

/-- A connection whose handler has returned stays as it is but for its ping's loop. -/
theorem returned_step {c c' : Conn} {e : Event} {lines : List Line} (h : c.Stays) (he : c.echo = .returned)
    (hacts : c.Acts e c' lines) : c'.Stays ∧ c'.echo = .returned ∧ c'.sent = c.sent ∧ e.heard = [] := by
  obtain ⟨hor, he'⟩ := returned_only_fails h he hacts
  refine ⟨acts_stays h hacts, he', ?_⟩
  rcases hor with rfl | ⟨err, rfl⟩ | rfl
  · cases hacts with
    | tick hp => exact ⟨rfl, rfl⟩
  · cases hacts with
    | controlFails _ hp => exact ⟨rfl, rfl⟩
  · cases hacts with
    | logsPing _ hp => exact ⟨rfl, rfl⟩

theorem returned_run {tr : List (Server × Act)} {s s' : Server} (h : Run step s tr s') {k : Nat} {c : Conn}
    (hk : s.sessions[k]? = some (.conn c)) (hs : c.Stays) (he : c.echo = .returned) :
    (∃ c', s'.sessions[k]? = some (.conn c') ∧ c'.Stays ∧ c'.echo = .returned ∧ c'.sent = c.sent) ∧ heard k tr = [] := by
  induction h with
  | nil => exact ⟨⟨c, hk, hs, he, rfl⟩, rfl⟩
  | snoc a _ hst ih =>
    obtain ⟨⟨c1, hk1, hs1, he1, hsent1⟩, hheard⟩ := ih
    rw [heard_snoc, hheard, List.nil_append]
    cases step_own k hst with
    | other hsame _ hno _ => exact ⟨⟨c1, hsame ▸ hk1, hs1, he1, hsent1⟩, hno⟩
    | request hno | upgradeFails _ hno | upgrades hno | refuses _ hno =>
      rw [hk1] at hno
      cases hno
    | event e c2 c' ls hc2 hacts hc' _ =>
      rw [hk1] at hc2
      cases hc2
      obtain ⟨hs', he', hsent', hno⟩ := returned_step hs1 he1 hacts
      exact ⟨⟨c', hc', hs', he', hsent'.trans hsent1⟩, (if_pos rfl).trans hno⟩

/-- Every connection echoes what it hears, and nothing once its handler has returned. -/
theorem echoes {tr : List (Server × Act)} {s : Server} (h : Run step .init tr s) (hd : Each Data tr) {k : Nat} {c : Conn}
    (hk : s.sessions[k]? = some (.conn c)) :
    c.echoed <+: heard k tr ∧ (heard k tr).length ≤ c.echoed.length + 1 ∧ (c.echo = .reading → c.echoed = heard k tr) ∧
      (∀ message ∈ c.sent, message ∈ heard k tr ∨ message = pingMessage) ∧
      (c.echo = .returned → ∀ tr' s', Run step s tr' s' →
        (∃ c', s'.sessions[k]? = some (.conn c') ∧ c'.sent = c.sent) ∧ heard k tr' = []) := by
  have hc := (run_hears h hd k).conn c hk
  refine ⟨hc.left.1, hc.left.2, hc.reading, ?_, ?_⟩
  · intro message hm
    by_cases hping : message.mt = pingMessage.mt
    · exact Or.inr (hc.pings message hm hping)
    · exact Or.inl (hc.left.1.subset (List.mem_filter.mpr ⟨hm, by simpa using hping⟩))
  · intro he tr' s' h'
    obtain ⟨⟨c', hk', -, -, hsent⟩, hno⟩ := returned_run h' hk (pings_stay h c (List.mem_of_getElem? hk)) he
    exact ⟨⟨c', hk', hsent⟩, hno⟩

/-- Two connections: one is in its loop behind a ping, the other failed to write and has returned. -/
theorem echoes_of_two :
    ∃ tr s c, Run step .init tr s ∧ s.sessions[0]? = some (.conn c) ∧ c.sent = [⟨1, [104]⟩, pingMessage, ⟨1, [105]⟩] ∧
      c.echoed = heard 0 tr ∧ ∃ c', s.sessions[1]? = some (.conn c') ∧ c'.echoed <+: heard 1 tr := by
  have hrun : Run step .init _ _ := run_of_follow [.request, .upgrade 0 none, .request, .upgrade 1 none,
    .event 0 (.readMessage (.ok ⟨1, [104]⟩)), .event 0 .tick, .event 1 (.readMessage (.ok ⟨2, [7]⟩)), .event 0 .log,
    .event 0 (.writeMessage none), .event 0 (.writeControl none), .event 1 .log,
    .event 1 (.writeMessage (some "broken pipe")), .event 1 .log, .event 1 .close,
    .event 0 (.readMessage (.ok ⟨1, [105]⟩)), .event 0 .log, .event 0 (.writeMessage none)] rfl
  exact ⟨_, _, _, hrun, rfl, rfl, (echoes hrun (by decide) (k := 0) rfl).2.2.1 rfl, _, rfl,
    (echoes hrun (by decide) (k := 1) rfl).1⟩

/-! ## The log -/

def Line.recv? : Line → Option (List UInt8)
  | .recv data => some data
  | _ => none

def Line.byPing : Line → Bool
  | .ping _ => true
  | _ => false

def Line.byEcho (l : Line) : Bool := !l.byPing

/-- The handler's last line. -/
def Line.leaves : Line → Bool
  | .read _ | .write _ => true
  | _ => false

def Line.refuses : Line → Bool
  | .upgrade _ => true
  | _ => false

/-- Its handler is out of its loop. -/
def Session.left : Session → Bool
  | .conn c => c.echo = .leaving ∨ c.echo = .returned
  | _ => false

/-- The line that a goroutine is about to log. -/
def Echo.due : Echo → List Line
  | .readFailed err => [.read err]
  | .received message => [.recv message.data]
  | .writeFailed err => [.write err]
  | _ => []

def Ping.due : Ping → List Line
  | .failed err => [.ping err]
  | _ => []

/-- That of the handler, and that of its `ping`. -/
def Session.due : Session → List Line
  | .failed err => [.upgrade err]
  | .conn c => c.echo.due
  | _ => []

def Session.pingDue : Session → List Line
  | .conn c => c.ping.due
  | _ => []

def outcomes (k : Nat) (tr : List (Server × Act)) : List Line := tr.flatMap fun x => x.2.outcome k

theorem outcomes_snoc (k : Nat) (tr : List (Server × Act)) (s : Server) (a : Act) :
    outcomes k (tr ++ [(s, a)]) = outcomes k tr ++ a.outcome k := by
  rw [outcomes, List.flatMap_append, List.flatMap_singleton]
  rfl

theorem outcome_recv (k : Nat) (a : Act) : (a.outcome k).filterMap Line.recv? = (a.heard k).map Message.data := by
  have hevent : ∀ e : Event, e.outcome.filterMap Line.recv? = e.heard.map Message.data := by
    rintro ((err | message) | (- | err) | - | - | - | (- | err) | - | -) <;> rfl
  cases a with
  | request | logUpgrade => rfl
  | upgrade j err =>
    cases err with
    | none => rfl
    | some err =>
      simp only [Act.outcome, Act.heard]
      split <;> rfl
  | event j e =>
    simp only [Act.outcome, Act.heard]
    split
    · exact hevent e
    · rfl

theorem outcomes_recv (k : Nat) (tr : List (Server × Act)) :
    (outcomes k tr).filterMap Line.recv? = (heard k tr).map Message.data := by
  induction tr with
  | nil => rfl
  | cons x tr ih =>
    rw [outcomes, heard, List.flatMap_cons, List.flatMap_cons, List.filterMap_append, List.map_append, outcome_recv]
    exact congrArg _ ih

/-- The handler writes the `recv` lines. -/
theorem recv_byEcho (ls : List Line) : (ls.filter Line.byEcho).filterMap Line.recv? = ls.filterMap Line.recv? := by
  rw [List.filterMap_filter]
  refine List.filterMap_congr fun l _ => ?_
  cases l <;> rfl

/-- What is due and what a step's call gave, the step logs, or it is due behind it. -/
structure Session.Moves (x x' : Session) (outcome ls : List Line) : Prop where
  echo : x.due ++ outcome.filter Line.byEcho = ls.filter Line.byEcho ++ x'.due
  ping : x.pingDue ++ outcome.filter Line.byPing = ls.filter Line.byPing ++ x'.pingDue
  leaves : ls.countP Line.leaves + (if x.left then 1 else 0) = if x'.left then 1 else 0
  refuses : ls.countP Line.refuses + (if x = .refused then 1 else 0) = if x' = .refused then 1 else 0

theorem acts_moves {c c' : Conn} {e : Event} {ls : List Line} (hacts : c.Acts e c' ls) :
    (Session.conn c).Moves (.conn c') e.outcome ls := by
  cases hacts with
  | readFails _ he | reads _ he | writeFails _ _ he | writes _ he | logsRead _ he | logsRecv _ he | logsWrite _ he
  | close he =>
    constructor <;>
      simp [Session.due, Session.pingDue, Session.left, Echo.due, Event.outcome, Line.byEcho, Line.byPing, Line.leaves,
        Line.refuses, he]
  | tick hp | controlFails _ hp | controls hp _ | logsPing _ hp | done _ hp _ =>
    constructor <;>
      simp [Session.due, Session.pingDue, Session.left, Ping.due, Event.outcome, Line.byEcho, Line.byPing, Line.leaves,
        Line.refuses, List.filter_cons, hp]

/-- What a session has logged of what its calls gave. -/
structure Session.Logged (x : Session) (ls outcomes : List Line) : Prop where
  echo : ls.filter Line.byEcho ++ x.due = outcomes.filter Line.byEcho
  ping : ls.filter Line.byPing ++ x.pingDue = outcomes.filter Line.byPing
  leaves : ls.countP Line.leaves = if x.left then 1 else 0
  refuses : ls.countP Line.refuses = if x = .refused then 1 else 0

theorem Session.Logged.move {x x' : Session} {ls ls' os os' : List Line} (h : x.Logged ls os) (hm : x.Moves x' os' ls') :
    x'.Logged (ls ++ ls') (os ++ os') where
  echo := by rw [List.filter_append, List.filter_append, ← h.echo, List.append_assoc, List.append_assoc, hm.echo]
  ping := by rw [List.filter_append, List.filter_append, ← h.ping, List.append_assoc, List.append_assoc, hm.ping]
  leaves := by rw [List.countP_append, h.leaves, ← hm.leaves, Nat.add_comm]
  refuses := by rw [List.countP_append, h.refuses, ← hm.refuses, Nat.add_comm]

/-- What is logged of a session, or of a number that no session has. -/
structure Tells (s : Server) (k : Nat) (outcomes : List Line) : Prop where
  session : ∀ x, s.sessions[k]? = some x → x.Logged (s.lines k) outcomes
  none : s.sessions[k]? = none → s.lines k = [] ∧ outcomes = []

theorem step_tells {s s' : Server} {a : Act} {k : Nat} {os : List Line} (h : Tells s k os) (hst : step s a = some s') :
    Tells s' k (os ++ a.outcome k) := by
  have hmove : ∀ x x' ls, s.sessions[k]? = some x → s'.sessions[k]? = some x' → s'.lines k = s.lines k ++ ls →
      x.Moves x' (a.outcome k) ls → Tells s' k (os ++ a.outcome k) := by
    intro x x' ls hx hx' hls hm
    refine ⟨fun y hy => ?_, fun hno => by rw [hx'] at hno; cases hno⟩
    rw [hx'] at hy
    cases hy
    rw [hls]
    exact (h.session x hx).move hm
  cases step_own k hst with
  | other hsame hls _ hno =>
    rw [hno, List.append_nil]
    exact ⟨fun x hx => by rw [hls]; exact h.session x (hsame ▸ hx), fun hx => by rw [hls]; exact h.none (hsame ▸ hx)⟩
  | request hs hs' hls =>
    obtain ⟨hnone, hos⟩ := h.none hs
    refine ⟨fun x hx => ?_, fun hno => by rw [hs'] at hno; cases hno⟩
    rw [hs'] at hx
    cases hx
    rw [hls, hnone, hos]
    exact ⟨rfl, rfl, rfl, rfl⟩
  | upgradeFails err hs hs' hls =>
    refine hmove _ _ [] hs hs' (hls.trans (List.append_nil _).symm) ?_
    rw [show Act.outcome k (.upgrade k (some err)) = [.upgrade err] from if_pos rfl]
    exact ⟨rfl, rfl, rfl, rfl⟩
  | upgrades hs hs' hls => exact hmove _ _ [] hs hs' (hls.trans (List.append_nil _).symm) ⟨rfl, rfl, rfl, rfl⟩
  | refuses err hs hs' hls => exact hmove _ _ _ hs hs' hls ⟨rfl, rfl, rfl, rfl⟩
  | event e c c' ls hs hacts hs' hls =>
    refine hmove _ _ ls hs hs' hls ?_
    rw [show Act.outcome k (.event k e) = e.outcome from if_pos rfl]
    exact acts_moves hacts

theorem run_tells {tr : List (Server × Act)} {s : Server} (h : Run step .init tr s) (k : Nat) :
    Tells s k (outcomes k tr) := by
  induction h with
  | nil => exact ⟨fun x hx => (by cases hx), fun _ => ⟨rfl, rfl⟩⟩
  | snoc a _ hst ih =>
    rw [outcomes_snoc]
    exact step_tells ih hst

/-- What a connection sent back it had logged. -/
theorem sent_logged {c : Conn} {ls : List Line} {ms : List Message} (h : c.Echoes ms)
    (hrecv : ls.filterMap Line.recv? ++ (Session.conn c).due.filterMap Line.recv? = ms.map Message.data) :
    c.echoed.map Message.data <+: ls.filterMap Line.recv? := by
  by_cases hr : ∃ message, c.echo = .received message
  · obtain ⟨message, hr⟩ := hr
    obtain ⟨-, hms⟩ := h.writing message (Or.inl hr)
    rw [← hms, List.map_append] at hrecv
    simp only [Session.due, hr] at hrecv
    exact ⟨[], by rw [List.append_nil, List.append_inj_left' hrecv rfl]⟩
  · have hno : (Session.conn c).due.filterMap Line.recv? = [] := by
      simp only [Session.due]
      cases he : c.echo with
      | received message => exact absurd ⟨message, he⟩ hr
      | _ => rfl
    rw [hno, List.append_nil] at hrecv
    rw [hrecv]
    exact h.left.1.map _

/-- The lines of each session: its handler's are what its calls gave, in their order, but for the one it
    is about to log, and so are its ping's. Among them the `recv` lines are the messages it received,
    but for one whose line is due, and what it sent back is logged; the one line with which a handler leaves
    its loop is there once it has left, and the one of a refused request when that has returned. -/
theorem logged {tr : List (Server × Act)} {s : Server} (h : Run step .init tr s) (k : Nat) :
    (s.sessions[k]? = none → s.lines k = []) ∧
      ∀ x, s.sessions[k]? = some x →
        (s.lines k).filter Line.byEcho ++ x.due = (outcomes k tr).filter Line.byEcho ∧
        (s.lines k).filter Line.byPing ++ x.pingDue = (outcomes k tr).filter Line.byPing ∧
        (s.lines k).filterMap Line.recv? ++ x.due.filterMap Line.recv? = (heard k tr).map Message.data ∧
        (s.lines k).countP Line.leaves = (if x.left then 1 else 0) ∧
        (s.lines k).countP Line.refuses = (if x = .refused then 1 else 0) ∧
        (Each Data tr → ∀ c, x = .conn c → c.echoed.map Message.data <+: (s.lines k).filterMap Line.recv?) := by
  have htells := run_tells h k
  refine ⟨fun hx => (htells.none hx).1, fun x hx => ?_⟩
  have hl := htells.session x hx
  have hrecv : (s.lines k).filterMap Line.recv? ++ x.due.filterMap Line.recv? = (heard k tr).map Message.data := by
    rw [← outcomes_recv, ← recv_byEcho (outcomes k tr), ← hl.echo, List.filterMap_append, recv_byEcho]
  refine ⟨hl.echo, hl.ping, hrecv, hl.leaves, hl.refuses, ?_⟩
  rintro hd c rfl
  exact sent_logged ((run_hears h hd k).conn c hx) hrecv

/-- The second of two messages is logged first, and the other is still to be logged. -/
theorem logged_overtaken :
    ∃ tr s c, Run step .init tr s ∧ s.log = [(1, .recv [7]), (2, .upgrade "bad handshake")] ∧ heard 0 tr = [⟨1, [104]⟩] ∧
      s.sessions[0]? = some (.conn c) ∧ c.echo.due = [.recv [104]] ∧
      (s.lines 0).filterMap Line.recv? ++ [[104]] = [[104]] := by
  have hrun : Run step .init _ _ := run_of_follow [.request, .upgrade 0 none, .request, .upgrade 1 none, .request,
    .event 0 (.readMessage (.ok ⟨1, [104]⟩)), .upgrade 2 (some "bad handshake"), .event 1 (.readMessage (.ok ⟨2, [7]⟩)),
    .event 1 .log, .logUpgrade 2, .event 1 (.writeMessage none)] rfl
  exact ⟨_, _, _, hrun, rfl, rfl, rfl, rfl, ((logged hrun 0).2 _ rfl).2.2.1⟩

end NetworkCourse.WebSocket
