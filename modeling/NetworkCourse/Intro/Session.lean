/-
  NetworkCourse.Intro.Session — `main` of reliable_test_client.c and `main` of
  reliable_test_server.c over one connection.

  The connection is two FIFO byte channels, `up` (client to server) and `down`; a send
  puts its bytes at the end of one, a receive takes any non-empty prefix of it that
  fits, or is interrupted, or, once the other side has closed, finds end of file or a
  reset. A party inside a line reader is its call's feed so far: the call runs from its
  start on it (`Client.readline`, `LineReader.readline`); while it is blocked the next
  result is added, when it ends the party goes on. `send` here takes all bytes, or
  fails once the other side has closed.

  `sent` and `printed` are what the client sent and printed, `srv.served` the lines the
  server showed with its answers. `Inv` accounts for every byte: what was sent is what
  the server took in pieces, what it holds and what is in flight; what it answered is
  what the client printed, what it holds and what is in flight. While the client runs
  the server has not seen its end of file, so each piece it took is finished
  (`SrvInv`).
-/

import NetworkCourse.Intro.ClientReader
import NetworkCourse.Intro.Server
import Mathlib.Data.List.TakeWhile
import Mathlib.Logic.Relation
import Mathlib.Logic.Function.Iterate

namespace NetworkCourse.Intro.Session

open Lib.Cut Lib.Feed Lib.Ascii
open LineReader (MAXLINE Call stored stored_length)
open Client (RECVSIZE RecvBuf)
open Server (BUFSIZE Vars reply incr cstr answer answer_served answer_buf_length)

/-- `sizeof(buf)` in the client. -/
def CBUFSIZE : Nat := 120

/-- `fgets` into `n` bytes: the line it reads, and the input left. -/
def fgets (n : Nat) (stdin : List UInt8) : Option (List UInt8 × List UInt8) :=
  if stdin = [] then none else some (cut nl (n - 1) stdin, rest nl (n - 1) stdin)

inductive CliPc where
  | top
  | recv (rs : List (Rd UInt8 RECVSIZE))
  | exited (status : Int)

inductive SrvPc where
  | read (rs : List (Rd UInt8 MAXLINE))
  | answer
  | exited (status : Int)

structure Sys where
  stdin : List UInt8
  cpc : CliPc
  cst : RecvBuf
  cbuf : List UInt8
  up : List UInt8
  down : List UInt8
  spc : SrvPc
  srv : Vars
  sent : List (List UInt8)
  printed : List (List UInt8)

/-- The connection is up, both programs are in front of their loops. -/
def start (stdin : List UInt8) (count : Int) (cbuf sbuf : List UInt8) : Sys :=
  ⟨stdin, .top, .init, cbuf, [], [], .read [], Server.start count sbuf, [], []⟩

def CliExited (s : Sys) : Prop := ∃ st, s.cpc = .exited st
def SrvExited (s : Sys) : Prop := ∃ st, s.spc = .exited st

/-- The client's variables once a call of `readline` ended: it prints the line, or `error`
    exits with status 1. -/
def cliDone (s : Sys) (c : Call RecvBuf RECVSIZE) : Sys :=
  if 0 < c.rc then { s with cpc := .top, cst := c.st, cbuf := c.buf, printed := s.printed ++ [cstr c.buf] }
  else { s with cpc := .exited 1, cst := c.st, cbuf := c.buf }

/-- The server's variables once a call of `readline` ended: it answers, or returns 0. -/
def srvDone (s : Sys) (c : Call LineReader.ReadBuf MAXLINE) : Sys :=
  { s with spc := if 0 < c.rc then .answer else .exited 0, srv := { s.srv with st := c.st, buf := c.buf } }

inductive Step : Sys → Sys → Prop
  /-- `fgets`, `strlen`, `send` -/
  | send (s : Sys) (l stdin : List UInt8) : s.cpc = .top → fgets CBUFSIZE s.stdin = some (l, stdin) →
      Step s { s with
        stdin := stdin
        cpc := .recv []
        cbuf := stored l s.cbuf
        up := s.up ++ cstr (stored l s.cbuf)
        sent := s.sent ++ [cstr (stored l s.cbuf)] }
  | sendFails (s : Sys) (l stdin : List UInt8) : s.cpc = .top → fgets CBUFSIZE s.stdin = some (l, stdin) → SrvExited s →
      Step s { s with stdin := stdin, cbuf := stored l s.cbuf, cpc := .exited 1 }
  | noInput (s : Sys) : s.cpc = .top → fgets CBUFSIZE s.stdin = none → Step s { s with cpc := .exited 0 }
  | recv (s : Sys) (rs : List (Rd UInt8 RECVSIZE)) (r : Rd UInt8 RECVSIZE) (q : List UInt8) : s.cpc = .recv rs →
      Client.readline CBUFSIZE s.cbuf s.cst rs = .blocked → Arrives s.down (SrvExited s) r q →
      Step s { s with cpc := .recv (rs ++ [r]), down := q }
  | recvDone (s : Sys) (rs : List (Rd UInt8 RECVSIZE)) (c : Call RecvBuf RECVSIZE) : s.cpc = .recv rs →
      Client.readline CBUFSIZE s.cbuf s.cst rs = .done c → Step s (cliDone s c)
  | read (s : Sys) (rs : List (Rd UInt8 MAXLINE)) (r : Rd UInt8 MAXLINE) (q : List UInt8) : s.spc = .read rs →
      LineReader.readline BUFSIZE s.srv.buf s.srv.st rs = .blocked → Arrives s.up (CliExited s) r q →
      Step s { s with spc := .read (rs ++ [r]), up := q }
  | readDone (s : Sys) (rs : List (Rd UInt8 MAXLINE)) (c : Call LineReader.ReadBuf MAXLINE) : s.spc = .read rs →
      LineReader.readline BUFSIZE s.srv.buf s.srv.st rs = .done c → Step s (srvDone s c)
  /-- `sprintf`, `send` -/
  | answer (s : Sys) : s.spc = .answer →
      Step s { s with spc := .read [], srv := answer s.srv, down := s.down ++ reply s.srv.count }
  | answerFails (s : Sys) : s.spc = .answer → CliExited s → Step s { s with spc := .exited (-1) }

/-- Every run of the two programs. -/
abbrev Run (stdin : List UInt8) (count : Int) (cbuf sbuf : List UInt8) : Sys → Prop :=
  Relation.ReflTransGen Step (start stdin count cbuf sbuf)

/-! ## Texts and messages -/

theorem cstr_append_nul (p t : List UInt8) : cstr (p ++ 0 :: t) = cstr p := by
  unfold cstr
  induction p with
  | nil => simp
  | cons b p ih => simp only [List.cons_append, List.takeWhile_cons, ih]

theorem cstr_stored (p buf : List UInt8) : cstr (stored p buf) = cstr p := cstr_append_nul p _

theorem cstr_of_no_nul {p : List UInt8} (h : (0 : UInt8) ∉ p) : cstr p = p := by
  apply List.takeWhile_eq_self_iff.mpr
  intro b hb
  have : b ≠ 0 := by
    intro e
    exact h (e ▸ hb)
  simpa using this

theorem no_nul_cstr (p : List UInt8) : (0 : UInt8) ∉ cstr p := by
  intro h
  have := List.mem_takeWhile_imp h
  simp at this

/-- What the client sends for an input, message by message. -/
def messages (stdin : List UInt8) : List (List UInt8) := (pieces nl (CBUFSIZE - 1) stdin).map cstr

@[simp] theorem messages_nil : messages [] = [] := rfl

theorem messages_cons {stdin : List UInt8} (h : stdin ≠ []) :
    messages stdin = cstr (cut nl (CBUFSIZE - 1) stdin) :: messages (rest nl (CBUFSIZE - 1) stdin) := by
  rw [messages, pieces_cons nl (by decide) h]
  rfl

theorem no_nul_messages {stdin m : List UInt8} (h : m ∈ messages stdin) : (0 : UInt8) ∉ m := by
  obtain ⟨p, -, rfl⟩ := List.mem_map.mp h
  exact no_nul_cstr p

theorem reply_line (count : Int) : Line nl (reply count) := by
  refine ⟨ascii "receive msg " ++ decimal count, ?_, rfl⟩
  rw [List.mem_append, not_or]
  exact ⟨by decide, not_mem_decimal (by decide) (by decide) count⟩

theorem reply_no_nul (count : Int) : (0 : UInt8) ∉ reply count := by
  simp only [reply, List.mem_append, not_or]
  exact ⟨⟨by decide, not_mem_decimal (by decide) (by decide) count⟩, by decide⟩

theorem cstr_reply (count : Int) : cstr (reply count) = reply count := cstr_of_no_nul (reply_no_nul count)

/-- The values `count` takes. -/
def IsInt (x : Int) : Prop := -(2 ^ 31) ≤ x ∧ x < 2 ^ 31

instance (x : Int) : Decidable (IsInt x) := inferInstanceAs (Decidable (_ ∧ _))

theorem isInt_incr (x : Int) : IsInt (incr x) := by
  unfold IsInt incr
  have h1 := Int.le_bmod (x := x + 1) (m := 2 ^ 32) (by decide)
  have h2 := Int.bmod_lt (x := x + 1) (m := 2 ^ 32) (by decide)
  constructor <;> omega

theorem isInt_iterate {c : Int} (hc : IsInt c) (k : Nat) : IsInt (incr^[k] c) := by
  cases k with
  | zero => exact hc
  | succ k => rw [Function.iterate_succ_apply']; exact isInt_incr _

theorem reply_length {count : Int} (h : IsInt count) : (reply count).length ≤ 24 := by
  have := decimal_length_le h.1 h.2
  have h12 : (ascii "receive msg ").length = 12 := by decide
  simp only [reply, List.length_append, h12, List.length_singleton]
  omega

/-! ## The invariant -/

/-- Every byte the client sent is in a piece the server took, still held by it, or in
    flight; the pieces are the stream's finished ones. -/
def UpInv (s : Sys) (taken : List (List UInt8)) (held : List UInt8) : Prop :=
  scan nl 19 [] taken.flatten = (taken, []) ∧ s.sent.flatten = taken.flatten ++ held ++ s.up

/-- Every byte the server answered is printed, held by the client, or in flight. -/
def DownInv (s : Sys) (held : List UInt8) : Prop :=
  (s.srv.served.map Prod.snd).flatten = s.printed.flatten ++ held ++ s.down

/-- A call in progress waited for its last result. -/
def Waited {cap : Nat} (p : List UInt8) (k : Nat) (rs : List (Rd UInt8 cap)) : Prop :=
  ∀ rs' r, rs = rs' ++ [r] → ¬ Full nl k (cut nl k (p ++ bytes rs'))

/-- The server while the client runs. -/
def SrvInv (s : Sys) : Prop :=
  s.srv.buf.length = BUFSIZE ∧ LineReader.Ok s.srv.st ∧
    match s.spc with
    | .read rs => stop rs = [] ∧ Waited (LineReader.left s.srv.st) 19 rs ∧
        UpInv s (s.srv.served.map Prod.fst) (LineReader.pend s.srv.st rs)
    | .answer => UpInv s (s.srv.served.map Prod.fst ++ [cstr s.srv.buf]) (LineReader.left s.srv.st)
    | .exited _ => False

/-- The client at work holds `held`. -/
def Running (s : Sys) (held : List UInt8) : Prop :=
  s.cbuf.length = CBUFSIZE ∧ Client.Ok s.cst ∧ DownInv s held ∧ SrvInv s

def CliInv (s : Sys) : Prop :=
  match s.cpc with
  | .top => s.sent.length = s.printed.length ∧ Running s (Client.left s.cst)
  | .recv rs => s.sent.length = s.printed.length + 1 ∧ stop rs = [] ∧ Waited (Client.left s.cst) 119 rs ∧
      Running s (Client.pend s.cst rs)
  | .exited st => st = 0 ∧ s.sent.length = s.printed.length ∧ s.stdin = []

structure Inv (stdin : List UInt8) (count : Int) (s : Sys) : Prop where
  msgs : s.sent ++ messages s.stdin = messages stdin
  cnt : s.srv.count = incr^[s.srv.served.length] count
  replies : s.srv.served.map Prod.snd = (List.range s.srv.served.length).map fun i => reply (incr^[i] count)
  printedPre : s.printed <+: s.srv.served.map Prod.snd
  /-- What the server took for the answers printed so far are the first pieces of all messages. -/
  heardPre : (s.srv.served.map Prod.fst).take s.printed.length <+: (scan nl 19 [] (messages stdin).flatten).1
  /-- The messages up to each printed answer hold that many finished pieces. -/
  enough : ∀ k ≤ s.printed.length, k ≤ (scan nl 19 [] ((messages stdin).take k).flatten).1.length
  cli : CliInv s

theorem inv_start (stdin : List UInt8) (count : Int) {cbuf sbuf : List UInt8} (hc : cbuf.length = CBUFSIZE)
    (hs : sbuf.length = BUFSIZE) : Inv stdin count (start stdin count cbuf sbuf) := by
  refine ⟨rfl, rfl, rfl, List.prefix_refl _, List.nil_prefix, ?_, ?_⟩
  · intro k hk
    obtain rfl : k = 0 := Nat.le_zero.mp hk
    exact Nat.zero_le _
  · refine ⟨rfl, hc, Client.ok_init, rfl, hs, LineReader.ok_init, rfl, ?_, rfl, rfl⟩
    intro rs' r h
    simp at h

variable {stdin : List UInt8} {count : Int} {s : Sys}

/-! ## One call -/

/-- What the client holds while it waits: the next answer, whole, or only a start of it. -/
theorem cli_holds (hc : IsInt count) (h : Inv stdin count s) {p : List UInt8} (hd : DownInv s p) :
    (∃ x p', (s.srv.served.map Prod.snd)[s.printed.length]? = some x ∧ Line nl x ∧ x.length ≤ 24 ∧ cstr x = x ∧ p = x ++ p') ∨
      nl ∉ p ∧ p.length < 24 := by
  obtain ⟨t, ht⟩ := h.printedPre
  have hflat : t.flatten = p ++ s.down := by
    rw [DownInv, ← ht, List.flatten_append, List.append_assoc] at hd
    exact List.append_cancel_left hd
  cases t with
  | nil =>
    rw [List.flatten_nil] at hflat
    have := (List.append_eq_nil_iff.mp hflat.symm).1
    subst this
    exact Or.inr ⟨by simp, by simp⟩
  | cons x t =>
    have hx : (s.srv.served.map Prod.snd)[s.printed.length]? = some x := by rw [← ht]; simp
    have hr : ∃ i, x = reply (incr^[i] count) := by
      have := List.mem_of_getElem? hx
      rw [h.replies] at this
      obtain ⟨i, -, hi⟩ := List.mem_map.mp this
      exact ⟨i, hi.symm⟩
    obtain ⟨i, rfl⟩ := hr
    have hlen := reply_length (isInt_iterate hc i)
    rw [List.flatten_cons] at hflat
    rcases (reply_line _).split hflat with ⟨p', hp, -⟩ | ⟨hn, hl⟩
    · exact Or.inl ⟨_, p', hx, reply_line _, hlen, cstr_reply _, hp⟩
    · exact Or.inr ⟨hn, by omega⟩

/-- A client that waits holds no newline. -/
theorem cli_blocked (hc : IsInt count) (h : Inv stdin count s) {rs : List (Rd UInt8 RECVSIZE)}
    (hr : Running s (Client.pend s.cst rs)) (hb : Client.readline CBUFSIZE s.cbuf s.cst rs = .blocked) :
    nl ∉ Client.pend s.cst rs ∧ (Client.pend s.cst rs).length < 24 := by
  obtain ⟨hlen, hok, hd, -⟩ := hr
  rcases cli_holds hc h hd with ⟨x, p', -, hx, hx24, -, hp⟩ | hn
  · have hcut : cut nl (CBUFSIZE - 1) (Client.pend s.cst rs) = x := by
      rw [hp]; exact hx.cut (by show x.length ≤ 119; omega) p'
    obtain ⟨s', rs', -, -, -, -, he⟩ := Client.readline_line (Nat.le_of_eq hlen.symm) hok (hcut ▸ hx.mem)
    rw [hb] at he
    cases he
  · exact hn

theorem not_full_of_short {p : List UInt8} (hn : nl ∉ p) {k : Nat} (hl : p.length < k) : ¬ Full nl k (cut nl k p) := by
  have hs := (cut_append_rest nl k p)
  rintro (h | h)
  · exact hn (hs ▸ List.mem_append_left _ h)
  · have := congrArg List.length hs
    rw [List.length_append] at this
    omega

/-- A call of the client's that ends holds the next answer, used every result, and keeps
    what came behind it. -/
theorem cli_done (hc : IsInt count) (h : Inv stdin count s) {rs : List (Rd UInt8 RECVSIZE)} (hs : stop rs = [])
    (hw : Waited (Client.left s.cst) 119 rs) (hr : Running s (Client.pend s.cst rs)) {c : Call RecvBuf RECVSIZE}
    (hd : Client.readline CBUFSIZE s.cbuf s.cst rs = .done c) :
    ∃ x, (s.srv.served.map Prod.snd)[s.printed.length]? = some x ∧ 0 < c.rc ∧ c.buf.length = CBUFSIZE ∧
      cstr c.buf = x ∧ Client.Ok c.st ∧ Client.pend s.cst rs = x ++ Client.left c.st := by
  obtain ⟨hlen, hok, hdown, -⟩ := hr
  rcases cli_holds hc h hdown with ⟨x, p', hx, hline, hx24, hcs, hp⟩ | ⟨hn, hl⟩
  · have h119 : x.length ≤ CBUFSIZE - 1 := by show x.length ≤ 119; omega
    have hcut : cut nl (CBUFSIZE - 1) (Client.pend s.cst rs) = x := by rw [hp, hline.cut h119]
    have hrest : rest nl (CBUFSIZE - 1) (Client.pend s.cst rs) = p' := by rw [hp, hline.rest h119]
    obtain ⟨s', rs', h1, h2, -, h4, he⟩ := Client.readline_line (Nat.le_of_eq hlen.symm) hok (hcut ▸ hline.mem)
    rw [hd, hcut] at he
    cases he
    have hrs : rs' = [] := by
      rcases List.eq_nil_or_concat rs with rfl | ⟨rs0, r, rfl⟩
      · exact List.suffix_nil.mp h4
      · rw [List.concat_eq_append] at hs h4 h2 hcut hw
        exact LineReader.results_used hs h4 (hw rs0 r rfl)
          (Or.inl (by
            show nl ∈ cut nl (CBUFSIZE - 1) (Client.pend s.cst (rs0 ++ [r]))
            rw [hcut]; exact hline.mem)) h2
    subst hrs
    have hpos := List.length_pos_iff.mpr hline.ne_nil
    refine ⟨x, hx, by simpa using hpos, ?_, ?_, h1, ?_⟩
    · rw [stored_length (by rw [hlen]; show x.length < 120; omega), hlen]
    · rw [cstr_stored, hcs]
    · rw [hrest, Client.pend, bytes_nil, List.append_nil] at h2
      rw [hp, h2]
  · rw [Client.readline_blocked (Nat.le_of_eq hlen.symm) hok (by show _ + 1 < 120; omega) hn hs] at hd
    cases hd

/-- A server that waits holds an unfinished piece. -/
theorem srv_blocked {rs : List (Rd UInt8 MAXLINE)} (hlen : s.srv.buf.length = BUFSIZE) (hok : LineReader.Ok s.srv.st)
    (hb : LineReader.readline BUFSIZE s.srv.buf s.srv.st rs = .blocked) :
    ¬ Full nl 19 (cut nl 19 (LineReader.pend s.srv.st rs)) := by
  intro hf
  obtain ⟨s', rs', -, -, -, -, he⟩ :=
    LineReader.readline_full (show 1 ≤ BUFSIZE by decide) (Nat.le_of_eq hlen.symm) hok hf
  rw [hb] at he
  cases he _ rfl

/-- A call of the server's that ends while the client runs took a finished piece, used
    every result, and keeps what came behind it. -/
theorem srv_done {rs : List (Rd UInt8 MAXLINE)} (hlen : s.srv.buf.length = BUFSIZE) (hok : LineReader.Ok s.srv.st)
    (hs : stop rs = []) (hw : Waited (LineReader.left s.srv.st) 19 rs) {c : Call LineReader.ReadBuf MAXLINE}
    (hd : LineReader.readline BUFSIZE s.srv.buf s.srv.st rs = .done c) :
    ∃ p, p = cut nl 19 (LineReader.pend s.srv.st rs) ∧ Full nl 19 p ∧ 0 < c.rc ∧ c.buf.length = BUFSIZE ∧
      cstr c.buf = cstr p ∧ LineReader.Ok c.st ∧ LineReader.pend s.srv.st rs = p ++ LineReader.left c.st := by
  by_cases hf : Full nl 19 (cut nl 19 (LineReader.pend s.srv.st rs))
  · obtain ⟨s', rs', h1, h2, -, h4, he⟩ :=
      LineReader.readline_full (show 1 ≤ BUFSIZE by decide) (Nat.le_of_eq hlen.symm) hok hf
    have he := he _ rfl
    rw [hd] at he
    cases he
    have hrs : rs' = [] := by
      rcases List.eq_nil_or_concat rs with rfl | ⟨rs0, r, rfl⟩
      · exact List.suffix_nil.mp h4
      · rw [List.concat_eq_append] at hs h4 h2 hf hw
        exact LineReader.results_used hs h4 (hw rs0 r rfl) hf h2
    subst hrs
    have hpos := List.length_pos_iff.mpr (hf.ne_nil (by decide))
    have h19 := cut_length_le nl 19 (LineReader.pend s.srv.st rs)
    refine ⟨_, rfl, hf, ?_, ?_, cstr_stored _ _, h1, ?_⟩
    · have : (0 : Int) < if nl ∈ cut nl 19 (LineReader.pend s.srv.st rs) then
          ((cut nl 19 (LineReader.pend s.srv.st rs)).length : Int)
          else (cut nl 19 (LineReader.pend s.srv.st rs)).length + 1 := by split <;> omega
      exact this
    · exact (stored_length (by rw [hlen]; exact Nat.lt_succ_of_le h19)).trans hlen
    · rw [LineReader.pend, bytes_nil, List.append_nil] at h2
      rw [h2]
      exact (cut_append_rest nl 19 _).symm
  · rw [LineReader.readline_blocked (show 1 ≤ BUFSIZE by decide) (Nat.le_of_eq hlen.symm) hok hf hs] at hd
    cases hd

/-! ## Each step keeps the invariant -/

/-- What the client sent begins its messages. -/
theorem Inv.sent_prefix (h : Inv stdin count s) : s.sent <+: messages stdin := ⟨_, h.msgs⟩

/-- What the server took is cut off the messages as their first pieces. -/
theorem UpInv.heard (h : Inv stdin count s) {taken : List (List UInt8)} {held : List UInt8} (hu : UpInv s taken held) :
    taken <+: (scan nl 19 [] s.sent.flatten).1 ∧ taken <+: (scan nl 19 [] (messages stdin).flatten).1 := by
  obtain ⟨hs, hf⟩ := hu
  have hsent : taken <+: (scan nl 19 [] s.sent.flatten).1 := by
    have := scan_prefix nl 19 taken.flatten (held ++ s.up)
    rwa [hs, ← List.append_assoc, ← hf] at this
  refine ⟨hsent, hsent.trans ?_⟩
  rw [← h.msgs, List.flatten_append]
  exact scan_prefix nl 19 _ _

theorem SrvInv.heard (h : Inv stdin count s) (hs : SrvInv s) :
    s.srv.served.map Prod.fst <+: (scan nl 19 [] s.sent.flatten).1 ∧
      s.srv.served.map Prod.fst <+: (scan nl 19 [] (messages stdin).flatten).1 := by
  obtain ⟨-, -, hpc⟩ := hs
  cases hspc : s.spc with
  | read rs => rw [hspc] at hpc; exact UpInv.heard h hpc.2.2
  | answer =>
    rw [hspc] at hpc
    have := UpInv.heard h hpc
    exact ⟨(List.prefix_append _ _).trans this.1, (List.prefix_append _ _).trans this.2⟩
  | exited st => rw [hspc] at hpc; exact hpc.elim

theorem UpInv.send {taken : List (List UInt8)} {held : List UInt8} (h : UpInv s taken held) (m : List UInt8) :
    UpInv { s with up := s.up ++ m, sent := s.sent ++ [m] } taken held := by
  refine ⟨h.1, ?_⟩
  show (s.sent ++ [m]).flatten = taken.flatten ++ held ++ (s.up ++ m)
  rw [List.flatten_append, h.2]
  simp

theorem SrvInv.send (h : SrvInv s) (m : List UInt8) :
    SrvInv { s with up := s.up ++ m, sent := s.sent ++ [m] } := by
  obtain ⟨h1, h2, h3⟩ := h
  refine ⟨h1, h2, ?_⟩
  cases hs : s.spc with
  | read rs => rw [hs] at h3; exact ⟨h3.1, h3.2.1, h3.2.2.send m⟩
  | answer => rw [hs] at h3; exact h3.send m
  | exited st => rw [hs] at h3; exact h3

theorem SrvInv.not_exited (h : SrvInv s) : ¬ SrvExited s := by
  intro ⟨st, he⟩
  have := h.2.2
  rw [he] at this
  exact this

theorem fgets_some {n : Nat} {stdin l stdin' : List UInt8} (h : fgets n stdin = some (l, stdin')) :
    stdin ≠ [] ∧ l = cut nl (n - 1) stdin ∧ stdin' = rest nl (n - 1) stdin := by
  unfold fgets at h
  split at h
  · cases h
  · cases h
    exact ⟨‹_›, rfl, rfl⟩

theorem inv_send (h : Inv stdin count s) {l stdin' : List UInt8} (htop : s.cpc = .top)
    (hg : fgets CBUFSIZE s.stdin = some (l, stdin')) :
    Inv stdin count { s with
      stdin := stdin'
      cpc := .recv []
      cbuf := stored l s.cbuf
      up := s.up ++ cstr (stored l s.cbuf)
      sent := s.sent ++ [cstr (stored l s.cbuf)] } := by
  obtain ⟨hne, rfl, rfl⟩ := fgets_some hg
  have hcli := h.cli
  rw [CliInv, htop] at hcli
  obtain ⟨hlen, hbuf, hok, hd, hsrv⟩ := hcli
  have hcut := cut_length_le nl (CBUFSIZE - 1) s.stdin
  refine ⟨?_, h.cnt, h.replies, h.printedPre, h.heardPre, h.enough, ?_, rfl, ?_, ?_, hok, ?_, hsrv.send _⟩
  · rw [← h.msgs, messages_cons hne, cstr_stored]
    simp
  · simp [hlen]
  · intro rs' r he
    simp at he
  · rw [stored_length (by rw [hbuf]; exact Nat.lt_of_le_of_lt hcut (by decide)), hbuf]
  · show DownInv s _
    rw [Client.pend, bytes_nil, List.append_nil]
    exact hd

theorem inv_noInput (h : Inv stdin count s) (htop : s.cpc = .top) (hg : fgets CBUFSIZE s.stdin = none) :
    Inv stdin count { s with cpc := .exited 0 } := by
  have hcli := h.cli
  rw [CliInv, htop] at hcli
  have hnil : s.stdin = [] := by
    unfold fgets at hg
    split at hg
    · assumption
    · cases hg
  exact ⟨h.msgs, h.cnt, h.replies, h.printedPre, h.heardPre, h.enough, rfl, hcli.1, hnil⟩

theorem waited_snoc {cap : Nat} {p : List UInt8} {k : Nat} {rs : List (Rd UInt8 cap)} {r : Rd UInt8 cap}
    (h : ¬ Full nl k (cut nl k (p ++ bytes rs))) : Waited p k (rs ++ [r]) := by
  intro rs' r' he
  obtain ⟨rfl, -⟩ := List.append_inj' he rfl
  exact h

theorem inv_recv (hc : IsInt count) (h : Inv stdin count s) {rs : List (Rd UInt8 RECVSIZE)} {r : Rd UInt8 RECVSIZE}
    {q : List UInt8} (hpc : s.cpc = .recv rs) (hb : Client.readline CBUFSIZE s.cbuf s.cst rs = .blocked)
    (ha : Arrives s.down (SrvExited s) r q) : Inv stdin count { s with cpc := .recv (rs ++ [r]), down := q } := by
  have hcli := h.cli
  rw [CliInv, hpc] at hcli
  obtain ⟨hlen, hs, -, hr⟩ := hcli
  obtain ⟨hn, hl⟩ := cli_blocked hc h hr hb
  obtain ⟨hbuf, hok, hd, hsrv⟩ := hr
  obtain ⟨hstop, hq⟩ := ha.delivers hsrv.not_exited
  refine ⟨h.msgs, h.cnt, h.replies, h.printedPre, h.heardPre, h.enough, hlen, ?_, ?_, hbuf, hok, ?_, hsrv⟩
  · rw [stop_append hs, hstop]
  · exact waited_snoc (not_full_of_short hn (by omega))
  · show (s.srv.served.map Prod.snd).flatten = s.printed.flatten ++ (Client.left s.cst ++ bytes (rs ++ [r])) ++ q
    rw [hd, bytes_append hs, hq, Client.pend]
    simp

theorem inv_recvDone (hc : IsInt count) (h : Inv stdin count s) {rs : List (Rd UInt8 RECVSIZE)}
    {c : Call RecvBuf RECVSIZE} (hpc : s.cpc = .recv rs) (hd : Client.readline CBUFSIZE s.cbuf s.cst rs = .done c) :
    Inv stdin count (cliDone s c) := by
  have hcli := h.cli
  rw [CliInv, hpc] at hcli
  obtain ⟨hlen, hs, hw, hr⟩ := hcli
  obtain ⟨x, hx, hrc, hbuf, hcs, hok, hp⟩ := cli_done hc h hs hw hr hd
  obtain ⟨-, -, hdown, hsrv⟩ := hr
  obtain ⟨hheard, hheard'⟩ := hsrv.heard h
  obtain ⟨hlt, -⟩ := List.getElem?_eq_some_iff.mp hx
  rw [List.length_map] at hlt
  have hpre : s.printed ++ [x] <+: s.srv.served.map Prod.snd := by
    obtain ⟨t, ht⟩ := h.printedPre
    rw [← ht, List.getElem?_append_right (Nat.le_refl _), Nat.sub_self] at hx
    cases t with
    | nil => cases hx
    | cons y t =>
      cases hx
      exact ⟨t, by rw [← ht]; simp⟩
  rw [cliDone, if_pos hrc, hcs]
  refine ⟨h.msgs, h.cnt, h.replies, hpre, (List.take_prefix _ _).trans hheard', ?_, ?_, hbuf, hok, ?_, hsrv⟩
  · intro k hk
    rw [List.length_append, List.length_singleton] at hk
    rcases Nat.lt_or_eq_of_le hk with hk | rfl
    · exact h.enough k (Nat.le_of_lt_succ hk)
    · have htake : (messages stdin).take (s.printed.length + 1) = s.sent := by
        rw [← h.msgs, ← hlen, List.take_left]
      have := hheard.length_le
      rw [List.length_map] at this
      rw [htake]
      omega
  · simp [hlen]
  · show (s.srv.served.map Prod.snd).flatten = (s.printed ++ [x]).flatten ++ Client.left c.st ++ s.down
    rw [hdown, hp]
    simp

/-- What a step of the server's has to keep while the client runs. -/
theorem CliInv.serve {s' : Sys} (h : CliInv s) (h1 : s'.stdin = s.stdin) (h2 : s'.cpc = s.cpc) (h3 : s'.cst = s.cst)
    (h4 : s'.cbuf = s.cbuf) (h5 : s'.sent = s.sent) (h6 : s'.printed = s.printed)
    (hs : ¬ CliExited s → SrvInv s → SrvInv s' ∧ ∀ held, DownInv s held → DownInv s' held) : CliInv s' := by
  unfold CliInv Running at *
  rw [h1, h2, h3, h4, h5, h6]
  cases hpc : s.cpc with
  | top =>
    rw [hpc] at h
    obtain ⟨hlen, hbuf, hok, hd, hsrv⟩ := h
    obtain ⟨hsrv', hd'⟩ := hs (fun ⟨st, he⟩ => by rw [hpc] at he; cases he) hsrv
    exact ⟨hlen, hbuf, hok, hd' _ hd, hsrv'⟩
  | recv rs =>
    rw [hpc] at h
    obtain ⟨hlen, hst, hw, hbuf, hok, hd, hsrv⟩ := h
    obtain ⟨hsrv', hd'⟩ := hs (fun ⟨st, he⟩ => by rw [hpc] at he; cases he) hsrv
    exact ⟨hlen, hst, hw, hbuf, hok, hd' _ hd, hsrv'⟩
  | exited st =>
    rw [hpc] at h
    exact h

theorem inv_read (h : Inv stdin count s) {rs : List (Rd UInt8 MAXLINE)} {r : Rd UInt8 MAXLINE} {q : List UInt8}
    (hpc : s.spc = .read rs) (hb : LineReader.readline BUFSIZE s.srv.buf s.srv.st rs = .blocked)
    (ha : Arrives s.up (CliExited s) r q) : Inv stdin count { s with spc := .read (rs ++ [r]), up := q } := by
  refine ⟨h.msgs, h.cnt, h.replies, h.printedPre, h.heardPre, h.enough, ?_⟩
  refine h.cli.serve rfl rfl rfl rfl rfl rfl fun ho hsrv => ⟨?_, fun _ hd => hd⟩
  obtain ⟨hbuf, hok, hw⟩ := hsrv
  rw [hpc] at hw
  obtain ⟨hs, -, hu1, hu2⟩ := hw
  obtain ⟨hstop, hq⟩ := ha.delivers ho
  refine ⟨hbuf, hok, by rw [stop_append hs, hstop], waited_snoc (srv_blocked hbuf hok hb), hu1, ?_⟩
  show s.sent.flatten = (s.srv.served.map Prod.fst).flatten ++ (LineReader.left s.srv.st ++ bytes (rs ++ [r])) ++ q
  rw [hu2, bytes_append hs, hq, LineReader.pend]
  simp

theorem inv_readDone (h : Inv stdin count s) {rs : List (Rd UInt8 MAXLINE)} {c : Call LineReader.ReadBuf MAXLINE}
    (hpc : s.spc = .read rs) (hd : LineReader.readline BUFSIZE s.srv.buf s.srv.st rs = .done c) :
    Inv stdin count (srvDone s c) := by
  refine ⟨h.msgs, h.cnt, h.replies, h.printedPre, h.heardPre, h.enough, ?_⟩
  refine h.cli.serve rfl rfl rfl rfl rfl rfl fun _ hsrv => ⟨?_, fun _ hd => hd⟩
  obtain ⟨hbuf, hok, hw⟩ := hsrv
  rw [hpc] at hw
  obtain ⟨hs, hwait, hu1, hu2⟩ := hw
  obtain ⟨p, hp, hf, hrc, hlen, hcs, hok', hpend⟩ := srv_done hbuf hok hs hwait hd
  have hnul : (0 : UInt8) ∉ p := by
    intro hm
    have hin : (0 : UInt8) ∈ s.sent.flatten := by rw [hu2, hpend]; simp [hm]
    obtain ⟨m, hm1, hm2⟩ := List.mem_flatten.mp hin
    exact no_nul_messages (h.sent_prefix.subset hm1) hm2
  rw [srvDone, if_pos hrc]
  refine ⟨hlen, hok', ?_, ?_⟩
  · show scan nl 19 [] (s.srv.served.map Prod.fst ++ [cstr c.buf]).flatten = (s.srv.served.map Prod.fst ++ [cstr c.buf], [])
    have hpiece : scan nl 19 [] p = ([p], []) := by rw [hp]; exact scan_piece nl (by decide) (hp ▸ hf)
    rw [hcs, cstr_of_no_nul hnul, List.flatten_append, scan_append, hu1]
    simp [hpiece]
  · show s.sent.flatten = (s.srv.served.map Prod.fst ++ [cstr c.buf]).flatten ++ LineReader.left c.st ++ s.up
    rw [hu2, hpend, hcs, cstr_of_no_nul hnul]
    simp

theorem inv_answer (h : Inv stdin count s) (hpc : s.spc = .answer) :
    Inv stdin count { s with spc := .read [], srv := answer s.srv, down := s.down ++ reply s.srv.count } := by
  have hle : s.printed.length ≤ (s.srv.served.map Prod.fst).length := by
    have := h.printedPre.length_le
    rwa [List.length_map] at this ⊢
  have hsnd : (answer s.srv).served.map Prod.snd = s.srv.served.map Prod.snd ++ [reply s.srv.count] := by simp
  have hfst : (answer s.srv).served.map Prod.fst = s.srv.served.map Prod.fst ++ [cstr s.srv.buf] := by simp
  refine ⟨h.msgs, ?_, ?_, ?_, ?_, h.enough, ?_⟩
  · show incr s.srv.count = incr^[(answer s.srv).served.length] count
    rw [h.cnt, answer_served, List.length_append, List.length_singleton, Function.iterate_succ_apply']
  · show (answer s.srv).served.map Prod.snd = _
    rw [hsnd, h.replies, h.cnt]
    simp [List.range_succ]
  · show _ <+: (answer s.srv).served.map Prod.snd
    rw [hsnd]
    exact h.printedPre.trans (List.prefix_append _ _)
  · show ((answer s.srv).served.map Prod.fst).take _ <+: _
    rw [hfst, List.take_append_of_le_length hle]
    exact h.heardPre
  · refine h.cli.serve rfl rfl rfl rfl rfl rfl ?_
    intro _ hsrv
    constructor
    · obtain ⟨hbuf, hok, hu⟩ := hsrv
      rw [hpc] at hu
      refine ⟨(answer_buf_length _).trans hbuf, hok, rfl, fun rs' r he => by simp at he, ?_⟩
      show UpInv { s with srv := answer s.srv } ((answer s.srv).served.map Prod.fst) (LineReader.left s.srv.st ++ [])
      rw [hfst, List.append_nil]
      exact hu
    · intro held hd
      show ((answer s.srv).served.map Prod.snd).flatten = s.printed.flatten ++ held ++ (s.down ++ reply s.srv.count)
      rw [hsnd, List.flatten_append, hd]
      simp

/-- Each step keeps the invariant. -/
theorem inv_step (hc : IsInt count) (h : Inv stdin count s) {s' : Sys} (st : Step s s') : Inv stdin count s' := by
  cases st with
  | send l stdin' htop hg => exact inv_send h htop hg
  | sendFails l stdin' htop hg he =>
    have hcli := h.cli
    rw [CliInv, htop] at hcli
    exact absurd he hcli.2.2.2.2.not_exited
  | noInput htop hg => exact inv_noInput h htop hg
  | recv rs r q hpc hb ha => exact inv_recv hc h hpc hb ha
  | recvDone rs c hpc hd => exact inv_recvDone hc h hpc hd
  | read rs r q hpc hb ha => exact inv_read h hpc hb ha
  | readDone rs c hpc hd => exact inv_readDone h hpc hd
  | answer hpc => exact inv_answer h hpc
  | answerFails hpc he =>
    refine ⟨h.msgs, h.cnt, h.replies, h.printedPre, h.heardPre, h.enough, ?_⟩
    exact h.cli.serve rfl rfl rfl rfl rfl rfl fun ho => absurd he ho

/-- The invariant holds in every state of every run. -/
theorem inv_run (hc : IsInt count) {cbuf sbuf : List UInt8} (hcb : cbuf.length = CBUFSIZE)
    (hsb : sbuf.length = BUFSIZE) (hr : Run stdin count cbuf sbuf s) : Inv stdin count s := by
  induction hr with
  | refl => exact inv_start stdin count hcb hsb
  | tail _ st ih => exact inv_step hc ih st

end NetworkCourse.Intro.Session
