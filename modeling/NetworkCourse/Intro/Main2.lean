/-
  NetworkCourse.Intro.Main2 — `main2` of reliable_test_client.c, in the place of its `main`, and
  `main` of reliable_test_server.c over one connection.

  `main2` reads its input into 20 bytes, as the server does, so that `fgets` cuts a line where the
  server's `readline` will; and it shows what it sends and what `send` returns. The connection, the
  server's steps and the line readers are those of `Session`.

  Proved: with counts that fit `buf`, the two are in lockstep on every input, whatever the length of
  its lines (`Phase`): each message is shown by the server as it was sent, and answered once, before the
  next one is sent (`main2_lockstep`; `main` is so only on lines the server's buffer holds). They come to a
  deadlock just when the input has a NUL, or its last line is neither ended nor of a
  length that fills the buffer (`main2_no_deadlock_iff`); else all of it is answered.
-/

import NetworkCourse.Intro.Lockstep

namespace NetworkCourse.Intro.Main2

open Lib.Cut Lib.Feed Lib.Ascii
open Lib.Machine (reaches_of_nearer)
open LineReader (MAXLINE Call ReadBuf stored stored_length)
open Client (RECVSIZE RecvBuf)
open Server (BUFSIZE reply incr cstr answer answer_served answer_buf_length)
open Session (Sys CliPc SrvPc fgets fgets_some CliExited SrvExited srvDone srv_done srv_blocked srv_runs Waited waited_snoc
  cstr_stored cstr_of_no_nul no_nul_cstr reply_line cstr_reply IsInt not_full_of_short)

/-- `sizeof(buf)` in `main2`. -/
def BUFSIZE2 : Nat := 20

/-- The two programs, and what `main2` wrote to its terminal; `printed` is what `fputs` did. -/
structure State extends Sys where
  stdout : List UInt8

/-- What `main2` shows of a message it sends: `printf(">>>>%s\n", buf)` and `printf("send: %d\n", rc)`. -/
def shown (buf : List UInt8) (rc : Int) : List UInt8 :=
  ascii ">>>>" ++ cstr buf ++ [nl] ++ ascii "send: " ++ decimal rc ++ [nl]

/-- Once a call of `readline` ended: `fputs`, or `err_exit`. -/
def cliDone (s : State) (c : Call RecvBuf RECVSIZE) : State :=
  if 0 < c.rc then
    { s with cpc := .top, cst := c.st, cbuf := c.buf, printed := s.printed ++ [cstr c.buf], stdout := s.stdout ++ cstr c.buf }
  else { s with cpc := .exited 1, cst := c.st, cbuf := c.buf }

inductive Step : State → State → Prop
  /-- `fgets`, `printf`, `strlen`, `send` and `printf` -/
  | send (s : State) (l stdin : List UInt8) : s.cpc = .top → fgets BUFSIZE2 s.stdin = some (l, stdin) →
      Step s { s with
        stdin := stdin
        cpc := .recv []
        cbuf := stored l s.cbuf
        up := s.up ++ cstr (stored l s.cbuf)
        sent := s.sent ++ [cstr (stored l s.cbuf)]
        stdout := s.stdout ++ shown (stored l s.cbuf) (cstr (stored l s.cbuf)).length }
  | sendFails (s : State) (l stdin : List UInt8) : s.cpc = .top → fgets BUFSIZE2 s.stdin = some (l, stdin) →
      SrvExited s.toSys →
      Step s { s with
        stdin := stdin
        cbuf := stored l s.cbuf
        cpc := .exited 1
        stdout := s.stdout ++ shown (stored l s.cbuf) (-1) }
  | noInput (s : State) : s.cpc = .top → fgets BUFSIZE2 s.stdin = none → Step s { s with cpc := .exited 0 }
  | recv (s : State) (rs : List (Rd UInt8 RECVSIZE)) (r : Rd UInt8 RECVSIZE) (q : List UInt8) : s.cpc = .recv rs →
      Client.readline BUFSIZE2 s.cbuf s.cst rs = .blocked → Arrives s.down (SrvExited s.toSys) r q →
      Step s { s with cpc := .recv (rs ++ [r]), down := q }
  | recvDone (s : State) (rs : List (Rd UInt8 RECVSIZE)) (c : Call RecvBuf RECVSIZE) : s.cpc = .recv rs →
      Client.readline BUFSIZE2 s.cbuf s.cst rs = .done c → Step s (cliDone s c)
  | read (s : State) (rs : List (Rd UInt8 MAXLINE)) (r : Rd UInt8 MAXLINE) (q : List UInt8) : s.spc = .read rs →
      LineReader.readline BUFSIZE s.srv.buf s.srv.st rs = .blocked → Arrives s.up (CliExited s.toSys) r q →
      Step s { s with spc := .read (rs ++ [r]), up := q }
  | readDone (s : State) (rs : List (Rd UInt8 MAXLINE)) (c : Call ReadBuf MAXLINE) : s.spc = .read rs →
      LineReader.readline BUFSIZE s.srv.buf s.srv.st rs = .done c → Step s { s with toSys := srvDone s.toSys c }
  /-- `sprintf`, `send` -/
  | answer (s : State) : s.spc = .answer →
      Step s { s with spc := .read [], srv := answer s.srv, down := s.down ++ reply s.srv.count }
  | answerFails (s : State) : s.spc = .answer → CliExited s.toSys → Step s { s with spc := .exited (-1) }

def start (stdin : List UInt8) (count : Int) (cbuf sbuf : List UInt8) : State := ⟨Session.start stdin count cbuf sbuf, []⟩

/-- Every run of the two programs. -/
abbrev Run (stdin : List UInt8) (count : Int) (cbuf sbuf : List UInt8) : State → Prop :=
  Relation.ReflTransGen Step (start stdin count cbuf sbuf)

/-! ## Messages -/

/-- What the client sends for an input, message by message. -/
def messages (stdin : List UInt8) : List (List UInt8) := (pieces nl (BUFSIZE2 - 1) stdin).map cstr

theorem messages_cons {stdin : List UInt8} (h : stdin ≠ []) :
    messages stdin = cstr (cut nl 19 stdin) :: messages (rest nl 19 stdin) := by
  rw [messages, show BUFSIZE2 - 1 = 19 from rfl, pieces_cons nl (by decide) h]
  rfl

/-- A message holds no NUL, and the server does not cut it. -/
structure Message (m : List UInt8) : Prop where
  no_nul : (0 : UInt8) ∉ m
  cut : cut nl 19 m = m

theorem Message.le {m : List UInt8} (h : Message m) : m.length ≤ 19 := h.cut ▸ cut_length_le nl 19 m

theorem message_cstr (stdin : List UInt8) : Message (cstr (cut nl 19 stdin)) :=
  ⟨no_nul_cstr _, cut_of_prefix nl (List.takeWhile_prefix _)⟩

/-- The exchanges on some messages, each with its answer. -/
def exchanges (count : Int) (ms : List (List UInt8)) : List (List UInt8 × List UInt8) :=
  ms.zipIdx.map fun (m, k) => (m, reply (incr^[k] count))

theorem exchanges_snoc (count : Int) (ms : List (List UInt8)) (m : List UInt8) :
    exchanges count (ms ++ [m]) = exchanges count ms ++ [(m, reply (incr^[ms.length] count))] := by
  rw [exchanges, List.zipIdx_append, List.map_append]
  simp [exchanges]

@[simp] theorem exchanges_length (count : Int) (ms : List (List UInt8)) : (exchanges count ms).length = ms.length := by
  rw [exchanges, List.length_map, List.length_zipIdx]

theorem exchanges_getElem? (count : Int) {ms : List (List UInt8)} {k : Nat} {m : List UInt8} (h : ms[k]? = some m) :
    (exchanges count ms)[k]? = some (m, reply (incr^[k] count)) := by
  rw [exchanges, List.getElem?_map, List.getElem?_zipIdx, h]
  simp

/-- What `main2` has written when it sent `ms` and got `xs` back. -/
def dialogue (ms xs : List (List UInt8)) : List UInt8 :=
  ((ms.zip xs).flatMap fun (m, x) => shown m m.length ++ x) ++ (ms.drop xs.length).flatMap fun m => shown m m.length

theorem shown_stored (l buf : List UInt8) (rc : Int) : shown (stored l buf) rc = shown (cstr l) rc := by
  rw [shown, shown, cstr_stored, cstr_of_no_nul (no_nul_cstr l)]

theorem dialogue_send {ms xs : List (List UInt8)} (h : xs.length = ms.length) (m : List UInt8) :
    dialogue (ms ++ [m]) xs = dialogue ms xs ++ shown m m.length := by
  have hzip : (ms ++ [m]).zip xs = ms.zip xs := by
    have hz := @List.zip_append _ _ ms [m] xs [] h.symm
    rwa [List.append_nil, List.zip_nil_right, List.append_nil] at hz
  rw [dialogue, dialogue, hzip, h, List.drop_left, List.drop_length]
  simp

theorem dialogue_answer {ms xs : List (List UInt8)} (h : xs.length = ms.length) (m x : List UInt8) :
    dialogue (ms ++ [m]) (xs ++ [x]) = dialogue (ms ++ [m]) xs ++ x := by
  rw [dialogue_send h, dialogue, dialogue, List.zip_append h.symm, List.drop_of_length_le (by simp [h]), h, List.drop_length]
  simp

/-! ## The server -/

/-- The server with what is left of `m` to come: it is reading, or has read all of it. -/
structure Serving (s : Sys) (m : List UInt8) : Prop where
  buf : s.srv.buf.length = BUFSIZE
  ok : LineReader.Ok s.srv.st
  pc : (∃ rs, s.spc = .read rs ∧ stop rs = [] ∧ Waited (LineReader.left s.srv.st) 19 rs ∧
      LineReader.pend s.srv.st rs ++ s.up = m) ∨
    s.spc = .answer ∧ LineReader.left s.srv.st = [] ∧ s.up = [] ∧ cstr s.srv.buf = m ∧ Full nl 19 m

variable {s : Sys} {m : List UInt8}

theorem Serving.reading (h : Serving s m) {rs : List (Rd UInt8 MAXLINE)} (hpc : s.spc = .read rs) :
    stop rs = [] ∧ Waited (LineReader.left s.srv.st) 19 rs ∧ LineReader.pend s.srv.st rs ++ s.up = m := by
  rcases h.pc with ⟨rs', hpc', h⟩ | ⟨hpc', -⟩
  · rw [hpc] at hpc'
    cases hpc'
    exact h
  · rw [hpc] at hpc'
    cases hpc'

theorem Serving.not_exited (h : Serving s m) : ¬ SrvExited s := by
  intro ⟨st, he⟩
  rcases h.pc with ⟨rs, hpc, -⟩ | ⟨hpc, -⟩
  · rw [he] at hpc
    cases hpc
  · rw [he] at hpc
    cases hpc

theorem not_full_nil : ¬ Full nl 19 ([] : List UInt8) := by decide

/-- With nothing to come it waits. -/
theorem Serving.waits (h : Serving s []) : ∃ rs, s.spc = .read rs ∧ LineReader.left s.srv.st = [] ∧ s.up = [] := by
  rcases h.pc with ⟨rs, hpc, -, -, hp⟩ | ⟨-, -, -, -, hf⟩
  · obtain ⟨hp, hup⟩ := List.append_eq_nil_iff.mp hp
    exact ⟨rs, hpc, (List.append_eq_nil_iff.mp hp).1, hup⟩
  · exact absurd hf not_full_nil

theorem Serving.send (h : Serving s []) : Serving { s with up := s.up ++ m } m := by
  rcases h.pc with ⟨rs, hpc, hs, hw, hp⟩ | ⟨-, -, -, -, hf⟩
  · refine ⟨h.buf, h.ok, Or.inl ⟨rs, hpc, hs, hw, ?_⟩⟩
    show LineReader.pend s.srv.st rs ++ (s.up ++ m) = m
    rw [← List.append_assoc, hp, List.nil_append]
  · exact absurd hf not_full_nil

theorem Serving.read (h : Serving s m) {rs : List (Rd UInt8 MAXLINE)} {r : Rd UInt8 MAXLINE} {q : List UInt8}
    (hpc : s.spc = .read rs) (hb : LineReader.readline BUFSIZE s.srv.buf s.srv.st rs = .blocked)
    (ha : Arrives s.up (CliExited s) r q) (ho : ¬ CliExited s) : Serving { s with spc := .read (rs ++ [r]), up := q } m := by
  obtain ⟨hs, -, hp⟩ := h.reading hpc
  obtain ⟨hstop, hq⟩ := ha.delivers ho
  refine ⟨h.buf, h.ok, Or.inl ⟨_, rfl, by rw [stop_append hs, hstop], waited_snoc (srv_blocked h.buf h.ok hb), ?_⟩⟩
  show LineReader.left s.srv.st ++ bytes (rs ++ [r]) ++ q = m
  rw [← hp, bytes_append hs, hq, LineReader.pend]
  simp

/-- A call that ends has read the message, all of it, and nothing else. -/
theorem Serving.readDone (h : Serving s m) (hm : Message m) {rs : List (Rd UInt8 MAXLINE)} {c : Call ReadBuf MAXLINE}
    (hpc : s.spc = .read rs) (hd : LineReader.readline BUFSIZE s.srv.buf s.srv.st rs = .done c) :
    Serving (srvDone s c) m ∧ (srvDone s c).spc = .answer := by
  obtain ⟨hs, hw, hp⟩ := h.reading hpc
  obtain ⟨p, hcut, hf, hrc, hlen, hcs, hok, hpend⟩ := srv_done h.buf h.ok hs hw hd
  have hpm : p = m := by
    rw [hcut, ← cut_append_full nl (hcut ▸ hf) s.up, hp, hm.cut]
  subst hpm
  have hnil : LineReader.left c.st = [] ∧ s.up = [] := by
    rw [hpend, List.append_assoc] at hp
    exact List.append_eq_nil_iff.mp (List.append_cancel_left (hp.trans (List.append_nil p).symm))
  rw [srvDone, if_pos hrc]
  exact ⟨⟨hlen, hok, Or.inr ⟨rfl, hnil.1, hnil.2, by rw [hcs, cstr_of_no_nul hm.no_nul], hf⟩⟩, rfl⟩

theorem Serving.answer (h : Serving s m) (hpc : s.spc = .answer) (down : List UInt8) :
    Serving { s with spc := .read [], srv := answer s.srv, down := down } [] ∧ cstr s.srv.buf = m ∧ Full nl 19 m := by
  rcases h.pc with ⟨rs, hpc', -⟩ | ⟨-, hleft, hup, hcs, hf⟩
  · rw [hpc] at hpc'
    cases hpc'
  · refine ⟨⟨(answer_buf_length _).trans h.buf, h.ok, Or.inl ⟨[], rfl, rfl, fun rs' r he => by simp at he, ?_⟩⟩, hcs, hf⟩
    show LineReader.left s.srv.st ++ bytes [] ++ s.up = []
    rw [hleft, hup, bytes_nil]
    rfl

/-! ## The client -/

/-- It waits until the whole answer is there. -/
theorem cli_holds {cbuf : List UInt8} {cst : RecvBuf} (hlen : cbuf.length = BUFSIZE2) (hok : Client.Ok cst)
    {rs : List (Rd UInt8 RECVSIZE)} (hs : stop rs = []) {x q : List UInt8} (hx : Line nl x) (h19 : x.length ≤ 19)
    (hp : Client.pend cst rs ++ q = x) :
    q = [] ∧ nl ∈ cut nl 19 (Client.pend cst rs) ∨
      nl ∉ Client.pend cst rs ∧ (Client.pend cst rs).length < 19 ∧ q ≠ [] ∧
        Client.readline BUFSIZE2 cbuf cst rs = .blocked := by
  have he : x ++ [] = Client.pend cst rs ++ q := by rw [List.append_nil, hp]
  rcases hx.split he with ⟨p', hp', hq⟩ | ⟨hn, hl⟩
  · obtain ⟨rfl, rfl⟩ := List.append_eq_nil_iff.mp hq.symm
    refine Or.inl ⟨rfl, ?_⟩
    rw [hp', hx.cut h19]
    exact hx.mem
  · refine Or.inr ⟨hn, by omega, ?_, Client.readline_blocked (Nat.le_of_eq hlen.symm) hok (by rw [BUFSIZE2]; omega) hn hs⟩
    rintro rfl
    rw [List.append_nil] at hp
    rw [hp] at hl
    exact Nat.lt_irrefl _ hl

/-- A call that ends has the answer, all of it, and nothing else. -/
theorem cli_done {cbuf : List UInt8} {cst : RecvBuf} (hlen : cbuf.length = BUFSIZE2) (hok : Client.Ok cst)
    {rs : List (Rd UInt8 RECVSIZE)} (hs : stop rs = []) {x q : List UInt8} (hx : Line nl x) (h19 : x.length ≤ 19)
    (hp : Client.pend cst rs ++ q = x) {c : Call RecvBuf RECVSIZE}
    (hd : Client.readline BUFSIZE2 cbuf cst rs = .done c) :
    q = [] ∧ 0 < c.rc ∧ c.buf.length = BUFSIZE2 ∧ cstr c.buf = cstr x ∧ Client.Ok c.st ∧ Client.left c.st = [] := by
  rcases cli_holds hlen hok hs hx h19 hp with ⟨rfl, hmem⟩ | ⟨-, -, -, hb⟩
  · rw [List.append_nil] at hp
    have hcut : cut nl 19 (Client.pend cst rs) = x := by
      have hx' := hx.cut h19 []
      rw [List.append_nil] at hx'
      rw [hp, hx']
    have hrest : rest nl 19 (Client.pend cst rs) = [] := by rw [rest, hcut, hp, List.drop_length]
    obtain ⟨s', rs', h1, h2, -, -, he⟩ := Client.readline_line (Nat.le_of_eq hlen.symm) hok hmem
    have hleft := (List.append_eq_nil_iff.mp (h2.trans hrest)).1
    have hc : c = ⟨(x.length : Int), stored x cbuf, s', rs'⟩ := by
      rw [← hcut]
      exact (Res.done.inj (hd.symm.trans he))
    have hpos := List.length_pos_iff.mpr hx.ne_nil
    subst hc
    refine ⟨rfl, by simpa using hpos, ?_, cstr_stored _ _, h1, hleft⟩
    exact (stored_length (by rw [hlen, BUFSIZE2]; omega)).trans hlen
  · rw [hd] at hb
    cases hb

/-! ## The invariant -/

/-- Where the two are: the client has nothing to ask, the server has its message, or has answered it, or the
    client has left. -/
inductive Phase (count : Int) (s : State) : Prop
  | idle : s.cpc = .top → s.srv.served = exchanges count s.sent → s.printed = (exchanges count s.sent).map Prod.snd →
      Client.left s.cst = [] → s.down = [] → Serving s.toSys [] → Phase count s
  | asked (ms : List (List UInt8)) (m : List UInt8) (rs : List (Rd UInt8 RECVSIZE)) : s.cpc = .recv rs → s.sent = ms ++ [m] →
      Message m → s.srv.served = exchanges count ms → s.printed = (exchanges count ms).map Prod.snd → stop rs = [] →
      Client.pend s.cst rs = [] → s.down = [] → Serving s.toSys m → Phase count s
  | answered (ms : List (List UInt8)) (m : List UInt8) (rs : List (Rd UInt8 RECVSIZE)) : s.cpc = .recv rs →
      s.sent = ms ++ [m] → Full nl 19 m → s.srv.served = exchanges count s.sent →
      s.printed = (exchanges count ms).map Prod.snd → stop rs = [] →
      Client.pend s.cst rs ++ s.down = reply (incr^[ms.length] count) → Serving s.toSys [] → Phase count s
  | exited : s.cpc = .exited 0 → s.stdin = [] → exchanges count s.sent <+: s.srv.served →
      s.printed = (exchanges count s.sent).map Prod.snd → Phase count s

structure Inv (stdin : List UInt8) (count : Int) (s : State) : Prop where
  msgs : s.sent ++ messages s.stdin = messages stdin
  cnt : s.srv.count = incr^[s.srv.served.length] count
  cbuf : s.cbuf.length = BUFSIZE2
  ok : Client.Ok s.cst
  /-- An answered message was one the server's read could finish. -/
  full : ∀ m ∈ s.sent.take s.printed.length, Full nl 19 m
  out : s.stdout = dialogue s.sent s.printed
  phase : Phase count s

theorem inv_start (stdin : List UInt8) (count : Int) {cbuf sbuf : List UInt8} (hc : cbuf.length = BUFSIZE2)
    (hs : sbuf.length = BUFSIZE) : Inv stdin count (start stdin count cbuf sbuf) :=
  ⟨rfl, rfl, hc, Client.ok_init, fun m hm => (by cases hm), rfl,
    .idle rfl rfl rfl rfl rfl ⟨hs, LineReader.ok_init, Or.inl ⟨[], rfl, rfl, fun rs' r he => by simp at he, rfl⟩⟩⟩

/-- The answers fit the client's buffer. -/
def Fits (stdin : List UInt8) (count : Int) : Prop := ∀ k < (messages stdin).length, (reply (incr^[k] count)).length ≤ 19

/-! ## Each step keeps it -/

section
variable {stdin : List UInt8} {count : Int} {s : State}

theorem not_exited_top (h : s.cpc = .top) : ¬ CliExited s.toSys := by
  intro ⟨st, he⟩
  rw [h] at he
  cases he

theorem not_exited_recv {rs : List (Rd UInt8 RECVSIZE)} (h : s.cpc = .recv rs) : ¬ CliExited s.toSys := by
  intro ⟨st, he⟩
  rw [h] at he
  cases he

/-- With the client at the top of its loop nothing is under way. -/
theorem Phase.at_top (h : Phase count s) (hpc : s.cpc = .top) :
    s.srv.served = exchanges count s.sent ∧ s.printed = (exchanges count s.sent).map Prod.snd ∧
      Client.left s.cst = [] ∧ s.down = [] ∧ Serving s.toSys [] := by
  cases h with
  | idle _ hserved hprinted hleft hdown hsrv => exact ⟨hserved, hprinted, hleft, hdown, hsrv⟩
  | asked _ _ _ hpc' => rw [hpc] at hpc'; cases hpc'
  | answered _ _ _ hpc' => rw [hpc] at hpc'; cases hpc'
  | exited hpc' => rw [hpc] at hpc'; cases hpc'

/-- With the client in `readline` one message is under way: the server has it, or all of its answer is on the way back. -/
theorem Phase.at_recv (h : Phase count s) {rs : List (Rd UInt8 RECVSIZE)} (hpc : s.cpc = .recv rs) :
    ∃ ms m, s.sent = ms ++ [m] ∧ s.printed = (exchanges count ms).map Prod.snd ∧ stop rs = [] ∧
      (Message m ∧ s.srv.served = exchanges count ms ∧ Client.pend s.cst rs = [] ∧ s.down = [] ∧ Serving s.toSys m ∨
        Full nl 19 m ∧ s.srv.served = exchanges count s.sent ∧
          Client.pend s.cst rs ++ s.down = reply (incr^[ms.length] count) ∧ Serving s.toSys []) := by
  cases h with
  | idle hpc' => rw [hpc] at hpc'; cases hpc'
  | exited hpc' => rw [hpc] at hpc'; cases hpc'
  | asked ms m _ hpc' hsent hm hserved hprinted hs hp hdown hsrv =>
    rw [hpc] at hpc'
    cases hpc'
    exact ⟨ms, m, hsent, hprinted, hs, Or.inl ⟨hm, hserved, hp, hdown, hsrv⟩⟩
  | answered ms m _ hpc' hsent hf hserved hprinted hs hp hsrv =>
    rw [hpc] at hpc'
    cases hpc'
    exact ⟨ms, m, hsent, hprinted, hs, Or.inr ⟨hf, hserved, hp, hsrv⟩⟩

theorem message_nil : Message [] := ⟨by simp, cut_nil nl 19⟩

theorem Inv.fits (h : Inv stdin count s) (hf : Fits stdin count) {ms : List (List UInt8)} {m : List UInt8}
    (hs : s.sent = ms ++ [m]) : (reply (incr^[ms.length] count)).length ≤ 19 := by
  apply hf
  rw [← h.msgs, hs]
  simp

theorem fgets2_some {l input : List UInt8} (h : fgets BUFSIZE2 stdin = some (l, input)) :
    stdin ≠ [] ∧ l = cut nl 19 stdin ∧ input = rest nl 19 stdin := fgets_some h

theorem inv_send (h : Inv stdin count s) {l input : List UInt8} (htop : s.cpc = .top)
    (hg : fgets BUFSIZE2 s.stdin = some (l, input)) :
    Inv stdin count { s with
      stdin := input
      cpc := .recv []
      cbuf := stored l s.cbuf
      up := s.up ++ cstr (stored l s.cbuf)
      sent := s.sent ++ [cstr (stored l s.cbuf)]
      stdout := s.stdout ++ shown (stored l s.cbuf) (cstr (stored l s.cbuf)).length } := by
  obtain ⟨hne, rfl, rfl⟩ := fgets2_some hg
  have hcut := cut_length_le nl 19 s.stdin
  obtain ⟨hserved, hprinted, hleft, hdown, hsrv⟩ := h.phase.at_top htop
  have hlen : s.printed.length = s.sent.length := by rw [hprinted, List.length_map, exchanges_length]
  have hsrv' := hsrv.send (m := cstr (cut nl 19 s.stdin))
  rw [cstr_stored, shown_stored]
  refine ⟨?_, h.cnt, ?_, h.ok, ?_, ?_, ?_⟩
  · show s.sent ++ [cstr (cut nl 19 s.stdin)] ++ messages (rest nl 19 s.stdin) = messages stdin
    rw [← h.msgs, messages_cons hne, List.append_assoc]
    rfl
  · exact (stored_length (by rw [h.cbuf, BUFSIZE2]; omega)).trans h.cbuf
  · intro m hm
    apply h.full
    rwa [List.take_append_of_le_length (Nat.le_of_eq hlen)] at hm
  · show s.stdout ++ _ = dialogue (s.sent ++ [_]) s.printed
    rw [dialogue_send hlen, h.out]
  · exact .asked s.sent _ [] rfl rfl (message_cstr s.stdin) hserved hprinted rfl
      (by rw [Client.pend, hleft, bytes_nil]; rfl) hdown ⟨hsrv'.buf, hsrv'.ok, hsrv'.pc⟩

theorem inv_noInput (h : Inv stdin count s) (htop : s.cpc = .top) (hg : fgets BUFSIZE2 s.stdin = none) :
    Inv stdin count { s with cpc := .exited 0 } := by
  have hnil : s.stdin = [] := by
    unfold fgets at hg
    split at hg
    · assumption
    · cases hg
  obtain ⟨hserved, hprinted, -⟩ := h.phase.at_top htop
  exact ⟨h.msgs, h.cnt, h.cbuf, h.ok, h.full, h.out, .exited rfl hnil (by simp only [hserved, List.prefix_refl]) hprinted⟩

/-- While the server is there, what arrives comes off the channel, or the call was interrupted. -/
theorem recv_arrives {rs : List (Rd UInt8 RECVSIZE)} {r : Rd UInt8 RECVSIZE} {q : List UInt8} (hs : stop rs = [])
    (ho : ¬ SrvExited s.toSys) (ha : Arrives s.down (SrvExited s.toSys) r q) :
    stop (rs ++ [r]) = [] ∧ Client.pend s.cst (rs ++ [r]) ++ q = Client.pend s.cst rs ++ s.down := by
  obtain ⟨hstop, hq⟩ := ha.delivers ho
  refine ⟨by rw [stop_append hs, hstop], ?_⟩
  rw [Client.pend, Client.pend, bytes_append hs, hq]
  simp

theorem inv_recv (h : Inv stdin count s) {rs : List (Rd UInt8 RECVSIZE)} {r : Rd UInt8 RECVSIZE} {q : List UInt8}
    (hpc : s.cpc = .recv rs) (ha : Arrives s.down (SrvExited s.toSys) r q) :
    Inv stdin count { s with cpc := .recv (rs ++ [r]), down := q } := by
  refine ⟨h.msgs, h.cnt, h.cbuf, h.ok, h.full, h.out, ?_⟩
  obtain ⟨ms, m, hsent, hprinted, hs, ⟨hm, hserved, hp, hdown, hsrv⟩ | ⟨hm, hserved, hp, hsrv⟩⟩ := h.phase.at_recv hpc
  · obtain ⟨hs', hp'⟩ := recv_arrives hs hsrv.not_exited ha
    rw [hp, hdown] at hp'
    obtain ⟨hp', hq⟩ := List.append_eq_nil_iff.mp hp'
    exact .asked ms m _ rfl hsent hm hserved hprinted hs' hp' hq ⟨hsrv.buf, hsrv.ok, hsrv.pc⟩
  · obtain ⟨hs', hp'⟩ := recv_arrives hs hsrv.not_exited ha
    exact .answered ms m _ rfl hsent hm hserved hprinted hs' (hp'.trans hp) ⟨hsrv.buf, hsrv.ok, hsrv.pc⟩

theorem inv_recvDone (hf : Fits stdin count) (h : Inv stdin count s) {rs : List (Rd UInt8 RECVSIZE)}
    {c : Call RecvBuf RECVSIZE} (hpc : s.cpc = .recv rs) (hd : Client.readline BUFSIZE2 s.cbuf s.cst rs = .done c) :
    Inv stdin count (cliDone s c) := by
  obtain ⟨ms, m, hsent, hprinted, hs, ⟨hm, hserved, hp, hdown, hsrv⟩ | ⟨hm, hserved, hp, hsrv⟩⟩ := h.phase.at_recv hpc
  · have hb := Client.readline_blocked (Nat.le_of_eq h.cbuf.symm) h.ok (by rw [hp]; decide) (by rw [hp]; simp) hs
    rw [hd] at hb
    cases hb
  · obtain ⟨hdown, hrc, hbuf, hcs, hok, hleft⟩ := cli_done h.cbuf h.ok hs (reply_line _) (h.fits hf hsent) hp hd
    rw [cstr_reply] at hcs
    have hlen : s.printed.length = ms.length := by rw [hprinted, List.length_map, exchanges_length]
    have hprinted' : s.printed ++ [reply (incr^[ms.length] count)] = (exchanges count s.sent).map Prod.snd := by
      rw [hprinted, hsent, exchanges_snoc, List.map_append]
      rfl
    rw [cliDone, if_pos hrc, hcs]
    refine ⟨h.msgs, h.cnt, hbuf, hok, ?_, ?_, .idle rfl hserved hprinted' hleft hdown ⟨hsrv.buf, hsrv.ok, hsrv.pc⟩⟩
    · intro m' hm'
      have hfull := h.full
      rw [hlen] at hfull
      change m' ∈ s.sent.take (s.printed ++ [_]).length at hm'
      rw [List.length_append, hlen, hsent] at hm'
      rw [hsent, List.take_left] at hfull
      rcases List.mem_append.mp (List.mem_of_mem_take hm') with hmem | hmem
      · exact hfull m' hmem
      · rw [List.mem_singleton.mp hmem]
        exact hm
    · show s.stdout ++ _ = dialogue s.sent (s.printed ++ [_])
      rw [h.out, hsent, dialogue_answer hlen]

/-- A step of the server's that leaves what it served as it is. -/
theorem Phase.serve {t : State} (h : Phase count s) (h1 : t.cpc = s.cpc) (h2 : t.sent = s.sent) (h3 : t.printed = s.printed)
    (h4 : t.cst = s.cst) (h5 : t.down = s.down) (h6 : t.srv.served = s.srv.served) (h7 : t.stdin = s.stdin)
    (hs : ¬ CliExited s.toSys → ∀ m, Message m → Serving s.toSys m → Serving t.toSys m) : Phase count t := by
  cases h with
  | idle hpc hserved hprinted hleft hdown hsrv =>
    exact .idle (h1.trans hpc) (by rw [h6, hserved, h2]) (by rw [h3, hprinted, h2]) (by rw [h4, hleft]) (h5.trans hdown)
      (hs (not_exited_top hpc) _ message_nil hsrv)
  | asked ms m rs hpc hsent hm hserved hprinted hstop hp hdown hsrv =>
    exact .asked ms m rs (h1.trans hpc) (h2.trans hsent) hm (h6.trans hserved) (h3.trans hprinted) hstop (by rw [h4, hp])
      (h5.trans hdown) (hs (not_exited_recv hpc) _ hm hsrv)
  | answered ms m rs hpc hsent hm hserved hprinted hstop hp hsrv =>
    exact .answered ms m rs (h1.trans hpc) (h2.trans hsent) hm (by rw [h6, hserved, h2]) (h3.trans hprinted) hstop
      (by rw [h4, h5, hp]) (hs (not_exited_recv hpc) _ message_nil hsrv)
  | exited hpc hin hserved hprinted =>
    exact .exited (h1.trans hpc) (h7.trans hin) (by rw [h2, h6]; exact hserved) (by rw [h3, h2]; exact hprinted)

theorem inv_answer (h : Inv stdin count s) (hpc : s.spc = .answer) :
    Inv stdin count { s with spc := .read [], srv := answer s.srv, down := s.down ++ reply s.srv.count } := by
  refine ⟨h.msgs, ?_, h.cbuf, h.ok, h.full, h.out, ?_⟩
  · show incr s.srv.count = incr^[(answer s.srv).served.length] count
    rw [h.cnt, answer_served, List.length_append, List.length_singleton, Function.iterate_succ_apply']
  · cases h.phase with
    | idle _ _ _ _ _ hsrv =>
      obtain ⟨rs, hpc', -⟩ := hsrv.waits
      rw [hpc] at hpc'
      cases hpc'
    | answered _ _ _ _ _ _ _ _ _ _ hsrv =>
      obtain ⟨rs, hpc', -⟩ := hsrv.waits
      rw [hpc] at hpc'
      cases hpc'
    | asked ms m rs hcpc hsent hm hserved hprinted hs hp hdown hsrv =>
      obtain ⟨hsrv', hcs, hfull⟩ := hsrv.answer hpc (s.down ++ reply s.srv.count)
      have hcount : s.srv.count = incr^[ms.length] count := by rw [h.cnt, hserved, exchanges_length]
      refine .answered ms m rs hcpc hsent hfull ?_ hprinted hs ?_ ⟨hsrv'.buf, hsrv'.ok, hsrv'.pc⟩
      · show (answer s.srv).served = exchanges count s.sent
        rw [answer_served, hserved, hcs, hcount, hsent, exchanges_snoc]
      · show Client.pend s.cst rs ++ (s.down ++ reply s.srv.count) = _
        rw [hp, hdown, hcount]
        rfl
    | exited hcpc hin hserved hprinted =>
      refine .exited hcpc hin ?_ hprinted
      show exchanges count s.sent <+: (answer s.srv).served
      rw [answer_served]
      exact hserved.trans (List.prefix_append _ _)

theorem inv_step (hf : Fits stdin count) (h : Inv stdin count s) {s' : State} (st : Step s s') : Inv stdin count s' := by
  cases st with
  | send l input htop hg => exact inv_send h htop hg
  | sendFails l input htop hg he =>
    obtain ⟨-, -, -, -, hsrv⟩ := h.phase.at_top htop
    exact absurd he hsrv.not_exited
  | noInput htop hg => exact inv_noInput h htop hg
  | recv rs r q hpc hb ha => exact inv_recv h hpc ha
  | recvDone rs c hpc hd => exact inv_recvDone hf h hpc hd
  | read rs r q hpc hb ha =>
    exact ⟨h.msgs, h.cnt, h.cbuf, h.ok, h.full, h.out,
      h.phase.serve rfl rfl rfl rfl rfl rfl rfl fun ho m _ hsrv => hsrv.read hpc hb ha ho⟩
  | readDone rs c hpc hd =>
    exact ⟨h.msgs, h.cnt, h.cbuf, h.ok, h.full, h.out,
      h.phase.serve rfl rfl rfl rfl rfl rfl rfl fun _ m hm hsrv => (hsrv.readDone hm hpc hd).1⟩
  | answer hpc => exact inv_answer h hpc
  | answerFails hpc he =>
    exact ⟨h.msgs, h.cnt, h.cbuf, h.ok, h.full, h.out, h.phase.serve rfl rfl rfl rfl rfl rfl rfl fun ho => absurd he ho⟩

theorem inv_run (hf : Fits stdin count) {cbuf sbuf : List UInt8} (hcb : cbuf.length = BUFSIZE2) (hsb : sbuf.length = BUFSIZE)
    (hr : Run stdin count cbuf sbuf s) : Inv stdin count s := by
  induction hr with
  | refl => exact inv_start stdin count hcb hsb
  | tail _ st ih => exact inv_step hf ih st

/-! ## What was printed -/

/-- What was printed answers the first messages sent, all but the last one at least. -/
theorem Phase.answered_messages (h : Phase count s) :
    ∃ ms, ms <+: s.sent ∧ s.sent.length ≤ ms.length + 1 ∧ s.printed = (exchanges count ms).map Prod.snd ∧
      exchanges count ms <+: s.srv.served := by
  cases h with
  | idle _ hserved hprinted _ _ _ =>
    exact ⟨s.sent, List.prefix_refl _, Nat.le_succ _, hprinted, by simp only [hserved, List.prefix_refl]⟩
  | asked ms m _ _ hsent _ hserved hprinted _ _ _ _ =>
    exact ⟨ms, by rw [hsent]; exact List.prefix_append _ _, by rw [hsent, List.length_append]; exact Nat.le_refl _, hprinted,
      by simp only [hserved, List.prefix_refl]⟩
  | answered ms m _ _ hsent _ hserved hprinted _ _ _ =>
    refine ⟨ms, by rw [hsent]; exact List.prefix_append _ _, by rw [hsent, List.length_append]; exact Nat.le_refl _, hprinted, ?_⟩
    rw [hserved, hsent, exchanges_snoc]
    exact List.prefix_append _ _
  | exited _ _ hserved hprinted => exact ⟨s.sent, List.prefix_refl _, Nat.le_succ _, hprinted, hserved⟩

/-- Counts of at most six characters fit. -/
theorem fits_of_counts (hcount : ∀ k < (messages stdin).length, (decimal (count + k)).length ≤ 6) : Fits stdin count := by
  intro k hk
  have h12 : (ascii "receive msg ").length = 12 := by decide
  have hk6 := hcount k hk
  rw [Lockstep.incr_iterate hcount hk]
  simp only [reply, List.length_append, h12, List.length_singleton]
  omega

/-! ## Deadlock -/

/-- Both programs wait, and no byte is in flight. -/
structure Deadlock (s : State) : Prop where
  client : ∃ rs, s.cpc = .recv rs ∧ Client.readline BUFSIZE2 s.cbuf s.cst rs = .blocked
  server : ∃ rs, s.spc = .read rs ∧ LineReader.readline BUFSIZE s.srv.buf s.srv.st rs = .blocked
  up : s.up = []
  down : s.down = []

theorem Inv.sent_mem (h : Inv stdin count s) {ms : List (List UInt8)} {m : List UInt8} (hs : s.sent = ms ++ [m]) :
    m ∈ messages stdin := by
  rw [← h.msgs, hs]
  simp

/-- At a deadlock the server cannot finish the message sent last. -/
theorem deadlock_message (hf : Fits stdin count) (h : Inv stdin count s) (hd : Deadlock s) :
    ∃ m ∈ messages stdin, ¬ Full nl 19 m := by
  obtain ⟨⟨rs, hcpc, hcb⟩, ⟨ts, hspc, hsb⟩, hup, hdown⟩ := hd
  obtain ⟨ms, m, hsent, -, hs, ⟨hm, -, -, -, hsrv⟩ | ⟨-, -, hp, -⟩⟩ := h.phase.at_recv hcpc
  · refine ⟨m, h.sent_mem hsent, ?_⟩
    obtain ⟨-, -, hp⟩ := hsrv.reading hspc
    have hnot := srv_blocked hsrv.buf hsrv.ok hsb
    rw [hup, List.append_nil] at hp
    rwa [hp, hm.cut] at hnot
  · rcases cli_holds h.cbuf h.ok hs (reply_line _) (h.fits hf hsent) hp with ⟨-, hmem⟩ | ⟨-, -, hne, -⟩
    · obtain ⟨s', rs', -, -, -, -, he⟩ := Client.readline_line (Nat.le_of_eq h.cbuf.symm) h.ok hmem
      rw [hcb] at he
      cases he
    · exact absurd hdown hne

/-- Once the client has left, every message was answered. -/
theorem exit_answered (h : Inv stdin count s) (he : CliExited s.toSys) :
    s.cpc = .exited 0 ∧ s.printed.length = (messages stdin).length ∧ ∀ m ∈ messages stdin, Full nl 19 m := by
  obtain ⟨st, hpc⟩ := he
  cases h.phase with
  | idle hpc' => rw [hpc] at hpc'; cases hpc'
  | asked _ _ _ hpc' => rw [hpc] at hpc'; cases hpc'
  | answered _ _ _ hpc' => rw [hpc] at hpc'; cases hpc'
  | exited hpc' hin _ hprinted =>
    have hm : s.sent = messages stdin := by
      have hm := h.msgs
      rwa [hin, show messages [] = [] from rfl, List.append_nil] at hm
    have hlen : s.printed.length = s.sent.length := by rw [hprinted, List.length_map, exchanges_length]
    have hfull := h.full
    rw [hlen, List.take_length, hm] at hfull
    exact ⟨hpc', by rw [hlen, hm], hfull⟩

/-! ### Some step goes on -/

def reading (s : State) : Nat :=
  match s.spc with
  | .read _ => 1
  | _ => 0

def waiting (s : State) : Nat :=
  match s.cpc with
  | .recv _ => 1
  | _ => 0

/-- What is left to do. -/
def work (s : State) : Nat :=
  64 * s.stdin.length + 42 * (s.sent.length - s.srv.served.length) + s.up.length + s.down.length + reading s + waiting s

theorem idle_progress (hpc : s.cpc = .top) :
    ∃ s', Step s s' ∧ (work s' < work s ∨ CliExited s'.toSys) := by
  cases hg : fgets BUFSIZE2 s.stdin with
  | none => exact ⟨_, .noInput s hpc hg, Or.inr ⟨0, rfl⟩⟩
  | some x =>
    obtain ⟨l, input⟩ := x
    refine ⟨_, .send s l input hpc hg, Or.inl ?_⟩
    obtain ⟨hne, rfl, rfl⟩ := fgets2_some hg
    have hrest := rest_length nl 19 s.stdin
    have hpos := List.length_pos_iff.mpr (cut_ne_nil nl (show 0 < 19 by decide) hne)
    have hm := (message_cstr s.stdin).le
    simp only [work, reading, waiting, hpc, cstr_stored, List.length_append, List.length_singleton]
    omega

/-- The server goes on, or it waits for a byte. -/
theorem asked_progress {ms : List (List UInt8)} {m : List UInt8} (h : Inv stdin count s) (hf : Fits stdin count)
    (hsent : s.sent = ms ++ [m]) (hm : Message m) (hserved : s.srv.served = exchanges count ms) (hsrv : Serving s.toSys m) :
    (∃ s', Step s s' ∧ work s' < work s) ∨
      s.up = [] ∧ ∃ rs, s.spc = .read rs ∧ LineReader.readline BUFSIZE s.srv.buf s.srv.st rs = .blocked := by
  have hone : s.sent.length - s.srv.served.length = 1 := by
    rw [hsent, hserved, exchanges_length, List.length_append, Nat.add_sub_cancel_left]
    rfl
  rcases hsrv.pc with ⟨rs, hpc, hs, -⟩ | ⟨hpc, -⟩
  · have hr : reading s = 1 := by rw [reading, hpc]
    rcases srv_runs hsrv.buf hsrv.ok hs with hb | ⟨c, hd⟩
    · cases hup : s.up with
      | nil => exact Or.inr ⟨rfl, rs, hpc, hb⟩
      | cons b q =>
        let chunk : Chunk UInt8 MAXLINE := ⟨[b], List.cons_ne_nil _ _, Nat.succ_le_succ (Nat.zero_le _)⟩
        have ha : Arrives s.up (CliExited s.toSys) (.data chunk) q := .data chunk q hup
        refine Or.inl ⟨_, .read s rs _ q hpc hb ha, ?_⟩
        rw [work, work, hup, hr]
        show 64 * s.stdin.length + 42 * (s.sent.length - s.srv.served.length) + q.length + s.down.length + 1 + waiting s < _
        rw [List.length_cons]
        omega
    · obtain ⟨-, hans⟩ := hsrv.readDone hm hpc hd
      refine Or.inl ⟨_, .readDone s rs c hpc hd, ?_⟩
      have hr' : reading { s with toSys := srvDone s.toSys c } = 0 := by rw [reading, hans]
      have hw : waiting { s with toSys := srvDone s.toSys c } = waiting s := rfl
      rw [work, work, hr, hr', hw]
      exact Nat.add_lt_add_right (Nat.lt_succ_self _) _
  · refine Or.inl ⟨_, .answer s hpc, ?_⟩
    have hr : reading s = 0 := by rw [reading, hpc]
    have hreply := h.fits hf hsent
    have hcount : s.srv.count = incr^[ms.length] count := by rw [h.cnt, hserved, exchanges_length]
    rw [work, work, hr]
    show 64 * s.stdin.length + 42 * (s.sent.length - (answer s.srv).served.length) + s.up.length +
      (s.down ++ reply s.srv.count).length + 1 + waiting s < _
    rw [answer_served, hcount, List.length_append, List.length_append, List.length_singleton]
    omega

theorem answered_progress {x : List UInt8} {rs : List (Rd UInt8 RECVSIZE)} (h : Inv stdin count s) (hpc : s.cpc = .recv rs)
    (hs : stop rs = []) (hx : Line nl x) (h19 : x.length ≤ 19) (hp : Client.pend s.cst rs ++ s.down = x) :
    ∃ s', Step s s' ∧ work s' < work s := by
  have hw : waiting s = 1 := by rw [waiting, hpc]
  rcases cli_holds h.cbuf h.ok hs hx h19 hp with ⟨-, hmem⟩ | ⟨-, -, hne, hb⟩
  · obtain ⟨s', rs', -, -, -, -, hd⟩ := Client.readline_line (Nat.le_of_eq h.cbuf.symm) h.ok hmem
    obtain ⟨-, hrc, -⟩ := cli_done h.cbuf h.ok hs hx h19 hp hd
    refine ⟨_, .recvDone s rs _ hpc hd, ?_⟩
    rw [work, work, hw, cliDone, if_pos hrc]
    exact Nat.lt_succ_self _
  · cases hdown : s.down with
    | nil => exact absurd hdown hne
    | cons b q =>
      let chunk : Chunk UInt8 RECVSIZE := ⟨[b], List.cons_ne_nil _ _, Nat.succ_le_succ (Nat.zero_le _)⟩
      have ha : Arrives s.down (SrvExited s.toSys) (.data chunk) q := .data chunk q hdown
      refine ⟨_, .recv s rs _ q hpc hb ha, ?_⟩
      rw [work, work, hw, hdown]
      show 64 * s.stdin.length + 42 * (s.sent.length - s.srv.served.length) + s.up.length + q.length + reading s + 1 < _
      rw [List.length_cons]
      omega

/-- While the client is in its loop and there is no deadlock, some step lowers `work`. -/
theorem progress (hf : Fits stdin count) (h : Inv stdin count s) (hd : ¬ Deadlock s) (he : ¬ CliExited s.toSys) :
    ∃ s', Step s s' ∧ (work s' < work s ∨ CliExited s'.toSys) := by
  cases h.phase with
  | idle hpc => exact idle_progress hpc
  | exited hpc => exact absurd ⟨0, hpc⟩ he
  | asked ms m rs hpc hsent hm hserved _ hs hp hdown hsrv =>
    rcases asked_progress h hf hsent hm hserved hsrv with ⟨s', hst, hlt⟩ | ⟨hup, hsb⟩
    · exact ⟨s', hst, Or.inl hlt⟩
    · have hcb := Client.readline_blocked (Nat.le_of_eq h.cbuf.symm) h.ok (by rw [hp]; decide)
        (by rw [hp]; simp) hs
      exact absurd ⟨⟨rs, hpc, hcb⟩, hsb, hup, hdown⟩ hd
  | answered ms m rs hpc hsent _ _ _ hs hp _ =>
    obtain ⟨s', hst, hlt⟩ := answered_progress h hpc hs (reply_line _) (h.fits hf hsent) hp
    exact ⟨s', hst, Or.inl hlt⟩

/-- From every state steps lead to a deadlock or to the client's exit. -/
theorem run_ends (hf : Fits stdin count) (h : Inv stdin count s) :
    ∃ s', Relation.ReflTransGen Step s s' ∧ Inv stdin count s' ∧ (Deadlock s' ∨ CliExited s'.toSys) := by
  refine reaches_of_nearer (fun s => Deadlock s ∨ CliExited s.toSys) Nat.lt_wfRel.wf work
    (fun _ _ hs hst => inv_step hf hs hst) ?_ h
  intro s h hno
  obtain ⟨hd, he⟩ := not_or.mp hno
  obtain ⟨s1, hst, hlt | hex⟩ := progress hf h hd he
  · exact ⟨s1, hst, Or.inr hlt⟩
  · exact ⟨s1, hst, Or.inl (Or.inr hex)⟩

/-! ## Lockstep -/

/-- On every input, and in every state a run reaches, at most one message is unanswered; the `k`-th text
    that `fputs` wrote is `receive msg c+k` (counting from 0), the server's answer to the `k`-th
    message, which it showed as it was sent; and the terminal shows the dialogue in that order. -/
theorem main2_lockstep (hcount : ∀ k < (messages stdin).length, (decimal (count + k)).length ≤ 6) {cbuf sbuf : List UInt8}
    (hcb : cbuf.length = BUFSIZE2) (hsb : sbuf.length = BUFSIZE) (hr : Run stdin count cbuf sbuf s) :
    s.sent <+: messages stdin ∧ s.printed.length ≤ s.sent.length ∧ s.sent.length ≤ s.printed.length + 1 ∧
      s.stdout = dialogue s.sent s.printed ∧
      ∀ (k : Nat) (x : List UInt8), s.printed[k]? = some x →
        x = ascii "receive msg " ++ decimal (count + k) ++ [nl] ∧
          ∃ m, (messages stdin)[k]? = some m ∧ s.srv.served[k]? = some (m, x) := by
  have h := inv_run (fits_of_counts hcount) hcb hsb hr
  have hsent : s.sent <+: messages stdin := ⟨_, h.msgs⟩
  obtain ⟨ms, hms, hlen, hprinted, hserved⟩ := h.phase.answered_messages
  have hplen : s.printed.length = ms.length := by rw [hprinted, List.length_map, exchanges_length]
  refine ⟨hsent, by rw [hplen]; exact hms.length_le, by rw [hplen]; exact hlen, h.out, ?_⟩
  intro k x hx
  obtain ⟨hk, -⟩ := List.getElem?_eq_some_iff.mp hx
  rw [hplen] at hk
  have hm : ms[k]? = some ms[k] := List.getElem?_eq_getElem hk
  have hex := exchanges_getElem? count hm
  have hmsg : (messages stdin)[k]? = some ms[k] := Lockstep.getElem?_of_prefix (hms.trans hsent) hm
  obtain ⟨hkm, -⟩ := List.getElem?_eq_some_iff.mp hmsg
  rw [hprinted, List.getElem?_map, hex] at hx
  have hx' : reply (incr^[k] count) = x := Option.some.inj hx
  rw [← hx']
  refine ⟨by rw [Lockstep.incr_iterate hcount hkm]; rfl, ms[k], hmsg, Lockstep.getElem?_of_prefix hserved hex⟩

/-- A line of 31 bytes and one of 2 bytes are three messages. -/
theorem main2_lockstep_long :
    ∃ s, Run (ascii "0123456789012345678901234567890\na\n") 7 (List.replicate 20 0) (List.replicate 20 0) s ∧ s.printed.length = 3 ∧
      (s.sent <+: messages (ascii "0123456789012345678901234567890\na\n") ∧ s.printed.length ≤ s.sent.length ∧
        s.sent.length ≤ s.printed.length + 1 ∧ s.stdout = dialogue s.sent s.printed ∧
        ∀ (k : Nat) (x : List UInt8), s.printed[k]? = some x →
          x = ascii "receive msg " ++ decimal (7 + k) ++ [nl] ∧
            ∃ m, (messages (ascii "0123456789012345678901234567890\na\n"))[k]? = some m ∧ s.srv.served[k]? = some (m, x)) := by
  have hcount : ∀ k < (messages (ascii "0123456789012345678901234567890\na\n")).length, (decimal (7 + k)).length ≤ 6 := by
    decide
  have hf := fits_of_counts hcount
  have hfull : ∀ m ∈ messages (ascii "0123456789012345678901234567890\na\n"), Full nl 19 m := by decide
  have hlen : (List.replicate 20 (0 : UInt8)).length = 20 := rfl
  obtain ⟨s, hrun, h, hd | he⟩ := run_ends hf (inv_start (ascii "0123456789012345678901234567890\na\n") 7 hlen hlen)
  · obtain ⟨m, hm, hnot⟩ := deadlock_message hf h hd
    exact absurd (hfull m hm) hnot
  · exact ⟨s, hrun, (exit_answered h he).2.1.trans (by decide), main2_lockstep hcount hlen hlen hrun⟩

/-! ## Which inputs deadlock -/

/-- What is sent of a piece is finished just when the piece is, and holds no NUL. -/
theorem full_cstr (input : List UInt8) :
    Full nl 19 (cstr (cut nl 19 input)) ↔ (0 : UInt8) ∉ cut nl 19 input ∧ Full nl 19 (cut nl 19 input) := by
  constructor
  · intro hf
    obtain ⟨t, ht⟩ : cstr (cut nl 19 input) <+: cut nl 19 input := List.takeWhile_prefix _
    have hcut := (message_cstr input).cut
    have hsame : cut nl 19 input = cstr (cut nl 19 input) := by
      have happ := cut_append_full nl (by rwa [hcut]) t
      rwa [ht, cut_cut, hcut] at happ
    exact ⟨by rw [hsame]; exact no_nul_cstr _, by rw [hsame]; exact hf⟩
  · intro ⟨h0, hf⟩
    rwa [cstr_of_no_nul h0]

/-- The server can finish all messages of an input without a NUL whose last line is ended, or as
    long as it takes to fill the buffer. -/
theorem messages_full (stdin : List UInt8) :
    (∀ m ∈ messages stdin, Full nl 19 m) ↔ (0 : UInt8) ∉ stdin ∧ ∀ p ∈ pieces nl 19 stdin, Full nl 19 p := by
  induction hn : stdin.length using Nat.strongRecOn generalizing stdin with
  | ind n ih =>
    by_cases hne : stdin = []
    · subst hne
      exact ⟨fun _ => ⟨by simp, fun p hp => (by cases hp)⟩, fun _ m hm => (by cases hm)⟩
    · have hrest := rest_length nl 19 stdin
      have hpos := List.length_pos_iff.mpr (cut_ne_nil nl (show 0 < 19 by decide) hne)
      have h0 : (0 : UInt8) ∉ stdin ↔ (0 : UInt8) ∉ cut nl 19 stdin ∧ (0 : UInt8) ∉ rest nl 19 stdin := by
        conv => lhs; rw [← cut_append_rest nl 19 stdin]
        rw [List.mem_append, not_or]
      rw [messages_cons hne, pieces_cons nl (by decide) hne, List.forall_mem_cons, List.forall_mem_cons, full_cstr,
        ih _ (by omega) _ rfl, h0]
      constructor
      · rintro ⟨⟨h1, h2⟩, h3, h4⟩
        exact ⟨⟨h1, h3⟩, h2, h4⟩
      · rintro ⟨⟨h1, h3⟩, h2, h4⟩
        exact ⟨⟨h1, h2⟩, h3, h4⟩

/-- No run on an input reaches a deadlock exactly when it has no NUL and the server's reads can finish each
    piece of it; then every state of every run is on the way to one in which the client has
    left with status 0 and all its messages are answered. -/
theorem main2_no_deadlock_iff (hcount : ∀ k < (messages stdin).length, (decimal (count + k)).length ≤ 6)
    {cbuf sbuf : List UInt8} (hcb : cbuf.length = BUFSIZE2) (hsb : sbuf.length = BUFSIZE) :
    ((∀ s, Run stdin count cbuf sbuf s → ¬ Deadlock s) ↔ (0 : UInt8) ∉ stdin ∧ ∀ p ∈ pieces nl 19 stdin, Full nl 19 p) ∧
      ∀ s, Run stdin count cbuf sbuf s → ∃ s', Relation.ReflTransGen Step s s' ∧
        (Deadlock s' ∨ s'.cpc = .exited 0 ∧ s'.printed.length = (messages stdin).length) := by
  have hf := fits_of_counts hcount
  rw [← messages_full]
  refine ⟨⟨?_, ?_⟩, ?_⟩
  · intro hno
    obtain ⟨s, hrun, h, hd | he⟩ := run_ends hf (inv_start stdin count hcb hsb)
    · exact absurd hd (hno s hrun)
    · exact (exit_answered h he).2.2
  · intro hfull s hr hd
    obtain ⟨m, hm, hnot⟩ := deadlock_message hf (inv_run hf hcb hsb hr) hd
    exact hnot (hfull m hm)
  · intro s hr
    obtain ⟨s', hgo, h, hd | he⟩ := run_ends hf (inv_run hf hcb hsb hr)
    · exact ⟨s', hgo, Or.inl hd⟩
    · exact ⟨s', hgo, Or.inr ⟨(exit_answered h he).1, (exit_answered h he).2.1⟩⟩

/-- With the newline missing behind `a`. -/
theorem main2_no_deadlock_iff_tail :
    ((∀ s, Run (ascii "0123456789012345678901234567890\na") 7 (List.replicate 20 0) (List.replicate 20 0) s → ¬ Deadlock s) ↔
        (0 : UInt8) ∉ ascii "0123456789012345678901234567890\na" ∧
          ∀ p ∈ pieces nl 19 (ascii "0123456789012345678901234567890\na"), Full nl 19 p) ∧
      ∀ s, Run (ascii "0123456789012345678901234567890\na") 7 (List.replicate 20 0) (List.replicate 20 0) s →
        ∃ s', Relation.ReflTransGen Step s s' ∧ (Deadlock s' ∨ s'.cpc = .exited 0 ∧
          s'.printed.length = (messages (ascii "0123456789012345678901234567890\na")).length) :=
  main2_no_deadlock_iff (by decide) rfl rfl

end

end NetworkCourse.Intro.Main2
