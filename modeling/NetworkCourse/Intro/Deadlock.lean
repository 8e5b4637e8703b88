/-
  NetworkCourse.Intro.Deadlock — when the two programs wait for each other.

  `Deadlock`: the client blocked in `recv`, the server in `read`, nothing in flight. A
  reader blocks only once its own buffer is used up, so these hold nothing either; what
  the server read of an unfinished piece is in its `buf`.

  Proved: from every state a run reaches, steps lead to a deadlock or to the client's
  exit (`run_ends`: `work` counts what is left to do and some step lowers it,
  `progress`). The client waits for one answer a message; the server sends one a piece.
  So no run reaches a deadlock just when the input is `Answered`: its first `k`
  messages hold `k` finished pieces, for every `k` (`no_deadlock_iff`). Inputs without
  NUL whose last line is terminated are (`answered_of_lines`); an unterminated last line
  (`unterminated_deadlock`) and a NUL in front of a newline are not.
-/

import NetworkCourse.Intro.Session
import NetworkCourse.Lib.Machine

namespace NetworkCourse.Intro.Session

open Lib.Cut Lib.Feed Lib.Ascii
open Lib.Machine (reaches_of_nearer)
open LineReader (MAXLINE Call stored)
open Client (RECVSIZE)
open Server (BUFSIZE reply cstr answer)

/-- Both programs wait, and no byte is in flight. -/
structure Deadlock (s : Sys) : Prop where
  client : ∃ rs, s.cpc = .recv rs ∧ Client.readline CBUFSIZE s.cbuf s.cst rs = .blocked
  server : ∃ rs, s.spc = .read rs ∧ LineReader.readline BUFSIZE s.srv.buf s.srv.st rs = .blocked
  up : s.up = []
  down : s.down = []

/-- The server can finish `k` reads on the first `k` messages, for every `k`. -/
def Answered (stdin : List UInt8) : Prop :=
  ∀ k ≤ (messages stdin).length, k ≤ (scan nl 19 [] ((messages stdin).take k).flatten).1.length

instance (stdin : List UInt8) : Decidable (Answered stdin) :=
  decidable_of_iff (∀ k < (messages stdin).length + 1, k ≤ (scan nl 19 [] ((messages stdin).take k).flatten).1.length)
    ⟨fun h k hk => h k (Nat.lt_succ_of_le hk), fun h k hk => h k (Nat.le_of_lt_succ hk)⟩

variable {stdin : List UInt8} {count : Int} {s : Sys}

/-! ## No deadlock -/

/-- At a deadlock the messages sent hold one piece too few. -/
theorem deadlock_short (hc : IsInt count) (h : Inv stdin count s) (hd : Deadlock s) :
    ∃ k ≤ (messages stdin).length, (scan nl 19 [] ((messages stdin).take k).flatten).1.length < k := by
  obtain ⟨⟨rs, hcpc, hcb⟩, ⟨ts, hspc, hsb⟩, hup, hdown⟩ := hd
  have hcli := h.cli
  rw [CliInv, hcpc] at hcli
  obtain ⟨hlen, -, -, hr⟩ := hcli
  obtain ⟨hn, -⟩ := cli_blocked hc h hr hcb
  obtain ⟨-, -, hdi, hbuf, hok, hw⟩ := hr
  rw [hspc] at hw
  obtain ⟨-, -, hu1, hu2⟩ := hw
  have hserved : s.srv.served.length = s.printed.length := by
    obtain ⟨t, ht⟩ := h.printedPre
    have hpend : t.flatten = Client.pend s.cst rs := by
      rw [DownInv, ← ht, hdown, List.flatten_append, List.append_nil] at hdi
      exact List.append_cancel_left hdi
    have hnil : t = [] := by
      rcases List.eq_nil_or_concat t with e | ⟨t', x, e⟩
      · exact e
      · have hx : x ∈ s.srv.served.map Prod.snd := by rw [← ht, e]; simp
        rw [h.replies] at hx
        obtain ⟨i, -, rfl⟩ := List.mem_map.mp hx
        exact absurd (by rw [← hpend, e]; simp [(reply_line _).mem]) hn
    have := congrArg List.length ht
    rw [hnil, List.append_nil, List.length_map] at this
    exact this.symm
  have hsent : (messages stdin).take s.sent.length = s.sent := by rw [← h.msgs, List.take_left]
  refine ⟨s.sent.length, h.sent_prefix.length_le, ?_⟩
  rw [hsent, hu2, hup, List.append_nil, scan_append, hu1,
    scan_not_full nl (by decide) (srv_blocked hbuf hok hsb), List.append_nil, List.length_map]
  omega

/-- Once the client left the loop, every message was answered. -/
theorem exit_answered (h : Inv stdin count s) (he : CliExited s) :
    Answered stdin ∧ s.printed.length = (messages stdin).length := by
  obtain ⟨st, hpc⟩ := he
  have hcli := h.cli
  rw [CliInv, hpc] at hcli
  obtain ⟨-, hlen, hnil⟩ := hcli
  have hm := h.msgs
  rw [hnil, messages_nil, List.append_nil] at hm
  rw [hm] at hlen
  exact ⟨fun k hk => h.enough k (by omega), hlen.symm⟩

/-! ## Some step goes on -/

/-- The work in the server's hands. -/
def held (s : Sys) : Nat :=
  match s.spc with
  | .read rs => 26 * (LineReader.pend s.srv.st rs).length
  | .answer => 26 * (LineReader.left s.srv.st).length + 25
  | .exited _ => 0

def waiting (s : Sys) : Nat :=
  match s.cpc with
  | .recv _ => 1
  | _ => 0

/-- What is left to do: a byte costs less the further it got, and an answer of at most
    24 bytes costs less than the piece it is for. -/
def work (s : Sys) : Nat := 29 * s.stdin.length + 27 * s.up.length + held s + s.down.length + waiting s

/-- A call in progress does not fault. -/
theorem cli_runs (hc : IsInt count) (h : Inv stdin count s) {rs : List (Rd UInt8 RECVSIZE)} (hs : stop rs = [])
    (hr : Running s (Client.pend s.cst rs)) :
    Client.readline CBUFSIZE s.cbuf s.cst rs = .blocked ∨ ∃ c, Client.readline CBUFSIZE s.cbuf s.cst rs = .done c := by
  obtain ⟨hbuf, hok, hd, -⟩ := hr
  rcases cli_holds hc h hd with ⟨x, p, -, hx, hx24, -, hp⟩ | ⟨hn, hl⟩
  · have hmem : nl ∈ cut nl (CBUFSIZE - 1) (Client.pend s.cst rs) := by
      rw [hp, hx.cut (by show x.length ≤ 119; omega)]
      exact hx.mem
    obtain ⟨s', rs', -, -, -, -, he⟩ := Client.readline_line (Nat.le_of_eq hbuf.symm) hok hmem
    exact Or.inr ⟨_, he⟩
  · exact Or.inl (Client.readline_blocked (Nat.le_of_eq hbuf.symm) hok (by show _ + 1 < 120; omega) hn hs)

theorem srv_runs {rs : List (Rd UInt8 MAXLINE)} (hbuf : s.srv.buf.length = BUFSIZE) (hok : LineReader.Ok s.srv.st)
    (hs : stop rs = []) :
    LineReader.readline BUFSIZE s.srv.buf s.srv.st rs = .blocked ∨
      ∃ c, LineReader.readline BUFSIZE s.srv.buf s.srv.st rs = .done c := by
  by_cases hf : Full nl 19 (cut nl 19 (LineReader.pend s.srv.st rs))
  · obtain ⟨s', rs', -, -, -, -, he⟩ :=
      LineReader.readline_full (show 1 ≤ BUFSIZE by decide) (Nat.le_of_eq hbuf.symm) hok hf
    exact Or.inr ⟨_, he _ rfl⟩
  · exact Or.inl (LineReader.readline_blocked (show 1 ≤ BUFSIZE by decide) (Nat.le_of_eq hbuf.symm) hok hf hs)

/-! ### What a step leaves to do -/

/-- An answer costs less than the piece it is for. -/
theorem answer_work (hpc : s.spc = .answer) (hlen : (reply s.srv.count).length ≤ 24) :
    work { s with spc := .read [], srv := answer s.srv, down := s.down ++ reply s.srv.count } < work s := by
  have hheld : held s = 26 * (LineReader.left s.srv.st).length + 25 := by rw [held, hpc]
  have hheld' : held { s with spc := .read [], srv := answer s.srv, down := s.down ++ reply s.srv.count } =
      26 * (LineReader.left s.srv.st).length := by
    show 26 * (LineReader.left s.srv.st ++ bytes []).length = _
    rw [bytes_nil, List.append_nil]
  rw [work, work, hheld, hheld']
  show 29 * s.stdin.length + 27 * s.up.length + _ + (s.down ++ reply s.srv.count).length + waiting s < _
  rw [List.length_append]
  omega

/-- A byte costs less in the server's hands. -/
theorem read_work {rs : List (Rd UInt8 MAXLINE)} (hpc : s.spc = .read rs) (hs : stop rs = []) {c : Chunk UInt8 MAXLINE}
    {b : UInt8} {q : List UInt8} (hc : c.data = [b]) (hup : s.up = b :: q) :
    work { s with spc := .read (rs ++ [.data c]), up := q } < work s := by
  have hheld : held s = 26 * (LineReader.pend s.srv.st rs).length := by rw [held, hpc]
  have hheld' : held { s with spc := .read (rs ++ [.data c]), up := q } = 26 * ((LineReader.pend s.srv.st rs).length + 1) := by
    show 26 * (LineReader.left s.srv.st ++ bytes (rs ++ [Rd.data c])).length = _
    rw [bytes_append hs, LineReader.pend]
    simp [hc, Nat.add_assoc]
  rw [work, work, hheld, hheld', hup]
  show 29 * s.stdin.length + 27 * q.length + _ + s.down.length + waiting s < _
  rw [List.length_cons]
  omega

/-- And a finished piece less than its bytes. -/
theorem readDone_work {rs : List (Rd UInt8 MAXLINE)} (hpc : s.spc = .read rs) {c : Call LineReader.ReadBuf MAXLINE} {p : List UInt8}
    (hp : p ≠ []) (hrc : 0 < c.rc) (hpend : LineReader.pend s.srv.st rs = p ++ LineReader.left c.st) :
    work (srvDone s c) < work s := by
  have hheld : held s = 26 * (LineReader.pend s.srv.st rs).length := by rw [held, hpc]
  have hheld' : held (srvDone s c) = 26 * (LineReader.left c.st).length + 25 := by rw [srvDone, if_pos hrc]; rfl
  have hlen := List.length_pos_iff.mpr hp
  rw [work, work, hheld, hheld', hpend, List.length_append, srvDone, if_pos hrc]
  show 29 * s.stdin.length + 27 * s.up.length + _ + s.down.length + waiting s < _
  omega

/-- A piece of the input costs less when it is sent, even with an answer to wait for. -/
theorem send_work (hpc : s.cpc = .top) {l input : List UInt8} (hg : fgets CBUFSIZE s.stdin = some (l, input)) :
    work { s with
      stdin := input
      cpc := .recv []
      cbuf := stored l s.cbuf
      up := s.up ++ cstr (stored l s.cbuf)
      sent := s.sent ++ [cstr (stored l s.cbuf)] } < work s := by
  obtain ⟨hne, rfl, rfl⟩ := fgets_some hg
  have hlen := rest_length nl (CBUFSIZE - 1) s.stdin
  have hpos := List.length_pos_iff.mpr (cut_ne_nil nl (show 0 < CBUFSIZE - 1 by decide) hne)
  have hcs : (cstr (cut nl (CBUFSIZE - 1) s.stdin)).length ≤ (cut nl (CBUFSIZE - 1) s.stdin).length :=
    (List.takeWhile_prefix _).length_le
  have hw : waiting s = 0 := by rw [waiting, hpc]
  rw [work, work, hw]
  show 29 * (rest nl (CBUFSIZE - 1) s.stdin).length +
    27 * (s.up ++ cstr (stored (cut nl (CBUFSIZE - 1) s.stdin) s.cbuf)).length + held s + s.down.length + 1 < _
  rw [cstr_stored, List.length_append]
  omega

/-- A byte of an answer costs nothing when it is received. -/
theorem recv_work {rs rs' : List (Rd UInt8 RECVSIZE)} (hpc : s.cpc = .recv rs) {b : UInt8} {q : List UInt8}
    (hdown : s.down = b :: q) : work { s with cpc := .recv rs', down := q } < work s := by
  have hw : waiting s = 1 := by rw [waiting, hpc]
  rw [work, work, hw, hdown]
  show 29 * s.stdin.length + 27 * s.up.length + held s + q.length + 1 < _
  rw [List.length_cons]
  omega

/-! ### Some step -/

/-- The server goes on, or it waits for a byte. -/
theorem srv_progress (hc : IsInt count) (h : Inv stdin count s) (hsrv : SrvInv s) :
    (∃ s', Step s s' ∧ work s' < work s) ∨
      s.up = [] ∧ ∃ rs, s.spc = .read rs ∧ LineReader.readline BUFSIZE s.srv.buf s.srv.st rs = .blocked := by
  obtain ⟨hbuf, hok, hw⟩ := hsrv
  cases hpc : s.spc with
  | exited st => rw [hpc] at hw; exact hw.elim
  | answer =>
    have hlen := reply_length (isInt_iterate hc s.srv.served.length)
    rw [← h.cnt] at hlen
    exact Or.inl ⟨_, .answer s hpc, answer_work hpc hlen⟩
  | read rs =>
    rw [hpc] at hw
    obtain ⟨hs, hwait, -⟩ := hw
    rcases srv_runs hbuf hok hs with hb | ⟨c, hd⟩
    · cases hup : s.up with
      | nil => exact Or.inr ⟨rfl, rs, rfl, hb⟩
      | cons b q =>
        let chunk : Chunk UInt8 MAXLINE := ⟨[b], List.cons_ne_nil _ _, Nat.succ_le_succ (Nat.zero_le _)⟩
        have ha : Arrives s.up (CliExited s) (.data chunk) q := .data chunk q hup
        exact Or.inl ⟨_, .read s rs _ q hpc hb ha, read_work hpc hs rfl hup⟩
    · obtain ⟨p, -, hf, hrc, -, -, -, hpend⟩ := srv_done hbuf hok hs hwait hd
      exact Or.inl ⟨_, .readDone s rs c hpc hd, readDone_work hpc (hf.ne_nil (by decide)) hrc hpend⟩

/-- While the client is in its loop and there is no deadlock, some step lowers `work`. -/
theorem progress (hc : IsInt count) (h : Inv stdin count s) (hd : ¬ Deadlock s) (he : ¬ CliExited s) :
    ∃ s', Step s s' ∧ (work s' < work s ∨ CliExited s') := by
  have hcli := h.cli
  cases hpc : s.cpc with
  | exited st => exact absurd ⟨st, hpc⟩ he
  | top =>
    cases hg : fgets CBUFSIZE s.stdin with
    | none => exact ⟨_, .noInput s hpc hg, Or.inr ⟨0, rfl⟩⟩
    | some x =>
      obtain ⟨l, stdin'⟩ := x
      exact ⟨_, .send s l stdin' hpc hg, Or.inl (send_work hpc hg)⟩
  | recv rs =>
    rw [CliInv, hpc] at hcli
    obtain ⟨-, hs, hwait, hr⟩ := hcli
    rcases cli_runs hc h hs hr with hb | ⟨c, hdone⟩
    · cases hdown : s.down with
      | cons b q =>
        let chunk : Chunk UInt8 RECVSIZE := ⟨[b], List.cons_ne_nil _ _, Nat.succ_le_succ (Nat.zero_le _)⟩
        have ha : Arrives s.down (SrvExited s) (.data chunk) q := .data chunk q hdown
        exact ⟨_, .recv s rs _ q hpc hb ha, Or.inl (recv_work hpc hdown)⟩
      | nil =>
        rcases srv_progress hc h hr.2.2.2 with ⟨s', hst, hlt⟩ | ⟨hup, hsb⟩
        · exact ⟨s', hst, Or.inl hlt⟩
        · exact absurd ⟨⟨rs, hpc, hb⟩, hsb, hup, hdown⟩ hd
    · refine ⟨_, .recvDone s rs c hpc hdone, ?_⟩
      have hw : waiting s = 1 := by rw [waiting, hpc]
      obtain ⟨x, -, hrc, -⟩ := cli_done hc h hs hwait hr hdone
      rw [cliDone, if_pos hrc, work, work, hw]
      exact Or.inl (Nat.lt_succ_self _)

/-- From every state steps lead to a deadlock or to the client's exit. -/
theorem run_ends (hc : IsInt count) (h : Inv stdin count s) :
    ∃ s', Relation.ReflTransGen Step s s' ∧ (Deadlock s' ∨ CliExited s') := by
  have hnearer : ∀ s, Inv stdin count s → ¬(Deadlock s ∨ CliExited s) →
      ∃ s', Step s s' ∧ ((Deadlock s' ∨ CliExited s') ∨ work s' < work s) := by
    intro s h hno
    obtain ⟨hd, he⟩ := not_or.mp hno
    obtain ⟨s1, hst, hlt | hex⟩ := progress hc h hd he
    · exact ⟨s1, hst, Or.inr hlt⟩
    · exact ⟨s1, hst, Or.inl (Or.inr hex)⟩
  obtain ⟨s', hrun, -, hend⟩ :=
    @reaches_of_nearer _ _ Step (Inv stdin count) _ _ Nat.lt_wfRel.wf work (fun _ _ hs hst => inv_step hc hs hst)
      hnearer s h
  exact ⟨s', hrun, hend⟩

/-- An answered input is served to its end by some run. -/
theorem answered_run (hc : IsInt count) {cbuf sbuf : List UInt8} (hcb : cbuf.length = CBUFSIZE)
    (hsb : sbuf.length = BUFSIZE) (ha : Answered stdin) :
    ∃ s, Run stdin count cbuf sbuf s ∧ s.printed.length = (messages stdin).length := by
  obtain ⟨s, hrun, hd | he⟩ := run_ends hc (inv_start stdin count hcb hsb)
  · obtain ⟨k, hk, hlt⟩ := deadlock_short hc (inv_run hc hcb hsb hrun) hd
    exact absurd (ha k hk) (Nat.not_le_of_lt hlt)
  · exact ⟨s, hrun, (exit_answered (inv_run hc hcb hsb hrun) he).2⟩

/-! ## Which inputs deadlock -/

/-- An input that is not answered leads some run to a deadlock. -/
theorem deadlock_of_not_answered (hc : IsInt count) {cbuf sbuf : List UInt8} (hcb : cbuf.length = CBUFSIZE)
    (hsb : sbuf.length = BUFSIZE) (hn : ¬ Answered stdin) : ∃ s, Run stdin count cbuf sbuf s ∧ Deadlock s := by
  obtain ⟨s, hrun, hd | he⟩ := run_ends hc (inv_start stdin count hcb hsb)
  · exact ⟨s, hrun, hd⟩
  · exact absurd (exit_answered (inv_run hc hcb hsb hrun) he).1 hn

/-- An input without NUL whose last line is terminated is answered, whatever its lines'
    lengths: each of its messages ends in a newline or is longer than the server's buffer. -/
theorem answered_of_lines (h0 : (0 : UInt8) ∉ stdin) (hend : stdin = [] ∨ ∃ b, stdin = b ++ [nl]) : Answered stdin := by
  have hrest : (scan nl 119 [] stdin).2 = [] := by
    rcases hend with rfl | ⟨b, rfl⟩
    · rfl
    · exact scan_ended nl 119 b
  have hmsgs : messages stdin = (scan nl 119 [] stdin).1.map cstr := by
    show (pieces nl 119 stdin).map cstr = _
    rw [pieces, hrest, if_pos rfl, List.append_nil]
  have hflat := scan_flatten nl 119 [] stdin
  have hfull : ∀ m ∈ messages stdin, nl ∈ m ∨ 19 ≤ m.length := by
    intro m hm
    rw [hmsgs] at hm
    obtain ⟨p, hp, rfl⟩ := List.mem_map.mp hm
    have hnul : (0 : UInt8) ∉ p := fun h => h0 (by
      rw [List.nil_append] at hflat
      rw [← hflat]
      exact List.mem_append_left _ (List.mem_flatten_of_mem hp h))
    rw [cstr_of_no_nul hnul]
    rcases (scan_spec nl [] (show ([] : List UInt8).length < 119 by decide) stdin).1 p hp with h | h
    · exact Or.inl h
    · exact Or.inr (by omega)
  intro k hk
  have htake : ∀ m ∈ (messages stdin).take k, nl ∈ m ∨ 19 ≤ m.length := by
    intro m hm
    exact hfull m (List.mem_of_mem_take hm)
  have := scan_length_ge nl (show ([] : List UInt8).length < 19 by decide) htake
  rwa [List.length_take, Nat.min_eq_left hk] at this

/-- No run on an input reaches a deadlock exactly when, for every `k`, its first `k`
    messages hold `k` pieces the server's reads can finish. -/
theorem no_deadlock_iff (hc : IsInt count) {cbuf sbuf : List UInt8} (hcb : cbuf.length = CBUFSIZE)
    (hsb : sbuf.length = BUFSIZE) (stdin : List UInt8) :
    (∀ s, Run stdin count cbuf sbuf s → ¬ Deadlock s) ↔ Answered stdin := by
  constructor
  · intro hno
    by_contra hn
    obtain ⟨s, hrun, hd⟩ := deadlock_of_not_answered hc hcb hsb hn
    exact hno s hrun hd
  · intro ha s hrun hd
    obtain ⟨k, hk, hlt⟩ := deadlock_short hc (inv_run hc hcb hsb hrun) hd
    exact absurd (ha k hk) (Nat.not_le_of_lt hlt)

/-- Two lines, one of them longer than the server's buffer. -/
theorem no_deadlock_two_lines :
    (∀ s, Run (ascii "hi\n0123456789012345678901234567890\n") 0 (List.replicate 120 0) (List.replicate 20 0) s →
        ¬ Deadlock s) ↔ Answered (ascii "hi\n0123456789012345678901234567890\n") :=
  no_deadlock_iff (by decide) rfl rfl _

/-- `a`, without a newline: the server waits for the rest of the line, the client for
    the answer. -/
theorem unterminated_deadlock :
    ∃ s, Run (ascii "a") 0 (List.replicate 120 0) (List.replicate 20 0) s ∧ Deadlock s :=
  deadlock_of_not_answered (by decide) rfl rfl (by decide)

/-- A NUL hides the newline behind it from `strlen`. -/
example : ¬ Answered [97, 0, nl] := by decide

end NetworkCourse.Intro.Session
