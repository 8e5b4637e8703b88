/-
  NetworkCourse.DelayAck.Rounds — `DelayAckClient.main` and `DelayAckServer.main` over
  one connection, for any number `n` of rounds (the source has 10).

  The client writes a request in two writes and waits for the answer's line, with one
  reader for all rounds; then it closes. The server makes a reader for each line. The
  connection is two FIFO byte channels as in the other sessions; a party inside a
  `readLine` is its call's fills so far. An `IOException` ends a program; a write fails
  only once the other side is gone.

  Since the client writes nothing while it waits, a request is alone in `up`, the reader
  and the answer on its way: `Inv` says where it is, phase by phase. So each reader the
  server drops is empty (`rounds`), and request and answer `k` carry the number `k`. What the
  client wrote is what the server echoed, holds, or has still to read, and so on the way back; and from
  every state the rounds can be brought to their end.
-/

import NetworkCourse.DelayAck.BufferedReader
import NetworkCourse.Lib.Machine
import Mathlib.Logic.Relation
import Mathlib.Order.RelClasses

namespace NetworkCourse.DelayAck

open Lib.Cut Lib.Feed Lib.Ascii
open Lib.Machine (reaches_of_nearer)

/-- `"#" + i + " " + head` -/
def head (i : Nat) : List UInt8 := ascii "#" ++ decimal i ++ ascii " " ++ ascii "hello, "

def body : List UInt8 := ascii "world\n"

/-- The line of the `i`-th request. -/
def request (i : Nat) : List UInt8 := ascii "#" ++ decimal i ++ ascii " hello, world"

inductive CliPc where
  | head
  | body
  | read (rs : List (Rd UInt8 CBSIZE))
  | closed
  | died

inductive SrvPc where
  | read (rs : List (Rd UInt8 CBSIZE))
  | write (line : List UInt8) (reader : BufferedReader)
  | accept
  | died

/-- `i` and `reader` are the client's, `got` what its `readLine`s returned; `echoed` are
    the lines the server wrote back, `dropped` what the readers it replaced held. -/
structure Sys where
  i : Nat
  cpc : CliPc
  reader : BufferedReader
  got : List (Option (List UInt8))
  up : List UInt8
  down : List UInt8
  spc : SrvPc
  echoed : List (List UInt8)
  dropped : List (List UInt8)

def start : Sys := ⟨0, .head, .new, [], [], [], .read [], [], []⟩

def CliGone (s : Sys) : Prop := s.cpc = .closed ∨ s.cpc = .died
def SrvGone (s : Sys) : Prop := s.spc = .died

inductive Step (n : Nat) : Sys → Sys → Prop
  | writeHead (s : Sys) : s.cpc = .head → s.i < n → Step n s { s with cpc := .body, up := s.up ++ head s.i }
  | writeBody (s : Sys) : s.cpc = .body → Step n s { s with cpc := .read [], up := s.up ++ body }
  | close (s : Sys) : s.cpc = .head → ¬ s.i < n → Step n s { s with cpc := .closed }
  | fill (s : Sys) (rs : List (Rd UInt8 CBSIZE)) (r : Rd UInt8 CBSIZE) (q : List UInt8) : s.cpc = .read rs →
      readLine s.reader rs = .blocked → Arrives s.down (SrvGone s) r q →
      Step n s { s with cpc := .read (rs ++ [r]), down := q }
  | line (s : Sys) (rs : List (Rd UInt8 CBSIZE)) (g : Got) : s.cpc = .read rs → readLine s.reader rs = .done g →
      Step n s { s with i := s.i + 1, cpc := .head, reader := g.reader, got := s.got ++ [g.line] }
  | fails (s : Sys) : (s.cpc = .head ∨ s.cpc = .body) ∧ SrvGone s ∨
      (∃ rs, s.cpc = .read rs ∧ readLine s.reader rs = .fault) → Step n s { s with cpc := .died }
  | srvFill (s : Sys) (rs : List (Rd UInt8 CBSIZE)) (r : Rd UInt8 CBSIZE) (q : List UInt8) : s.spc = .read rs →
      readLine .new rs = .blocked → Arrives s.up (CliGone s) r q →
      Step n s { s with spc := .read (rs ++ [r]), up := q }
  | srvLine (s : Sys) (rs : List (Rd UInt8 CBSIZE)) (g : Got) (line : List UInt8) : s.spc = .read rs →
      readLine .new rs = .done g → g.line = some line → Step n s { s with spc := .write line g.reader }
  | srvNull (s : Sys) (rs : List (Rd UInt8 CBSIZE)) (g : Got) : s.spc = .read rs → readLine .new rs = .done g →
      g.line = none → Step n s { s with spc := .accept }
  /-- The write, and the next turn's new reader. -/
  | srvWrite (s : Sys) (line : List UInt8) (reader : BufferedReader) : s.spc = .write line reader →
      Step n s { s with
        spc := .read []
        down := s.down ++ (line ++ [nl])
        echoed := s.echoed ++ [line]
        dropped := s.dropped ++ [reader.cb] }
  | srvFails (s : Sys) : (∃ line reader, s.spc = .write line reader) ∧ CliGone s ∨
      (∃ rs, s.spc = .read rs ∧ readLine .new rs = .fault) → Step n s { s with spc := .died }

/-- Every run of `n` rounds. -/
abbrev Run (n : Nat) : Sys → Prop := Relation.ReflTransGen (Step n) start

/-- Requests the client wrote in full. -/
def asked (s : Sys) : Nat :=
  match s.cpc with
  | .read _ => s.i + 1
  | _ => s.i

/-- What the client has written: the requests of the rounds behind it, and its part of this one's. -/
def written (s : Sys) : List UInt8 :=
  ((List.range s.i).flatMap fun k => request k ++ [nl]) ++
    match s.cpc with
    | .body => head s.i
    | .read _ => request s.i ++ [nl]
    | _ => []

/-- What the server has read and not written back. -/
def SrvPc.held : SrvPc → List UInt8
  | .read rs => bytes rs
  | .write line reader => line ++ [nl] ++ reader.cb
  | .accept | .died => []

/-- What the client's call has read so far. -/
def CliPc.held : CliPc → List UInt8
  | .read rs => bytes rs
  | _ => []

/-- The line behind a result of `readLine`. -/
def lineOf (line : Option (List UInt8)) : List UInt8 := line.elim [] fun line => line ++ [nl]

/-- Every byte the client wrote is echoed, with the server, or on its way to it; every byte the server
    wrote is in a line the client has, with its reader, or on its way. -/
structure Conserved (s : Sys) : Prop where
  up : (s.echoed.flatMap fun line => line ++ [nl]) ++ s.spc.held ++ s.up = written s
  down : s.got.flatMap lineOf ++ s.reader.cb ++ s.cpc.held ++ s.down = s.echoed.flatMap fun line => line ++ [nl]

/-! ## Requests -/

theorem head_body (i : Nat) : head i ++ body = request i ++ [nl] := by
  have h1 : ascii " " ++ ascii "hello, " ++ body = ascii " hello, world" ++ [nl] := by decide
  simp only [head, request, List.append_assoc] at h1 ⊢
  rw [h1]

theorem not_mem_request {b : UInt8} (hd : isDigit b = false) (hs : b ≠ 45) (h1 : b ∉ ascii "#")
    (h2 : b ∉ ascii " hello, world") (i : Nat) : b ∉ request i := by
  simp only [request, List.mem_append, not_or]
  exact ⟨⟨h1, not_mem_decimal hd hs i⟩, h2⟩

theorem nl_not_mem_request (i : Nat) : nl ∉ request i := not_mem_request (by decide) (by decide) (by decide) (by decide) i
theorem cr_not_mem_request (i : Nat) : cr ∉ request i := not_mem_request (by decide) (by decide) (by decide) (by decide) i

theorem request_line (i : Nat) : Line nl (request i ++ [nl]) := ⟨_, nl_not_mem_request i, rfl⟩

/-- The first write holds no newline. -/
theorem nl_not_mem_head (i : Nat) : nl ∉ head i := by
  simp only [head, List.mem_append, not_or]
  exact ⟨⟨⟨by decide, not_mem_decimal (by decide) (by decide) i⟩, by decide⟩, by decide⟩

/-! ## The invariant -/

/-- The server waits for a line, with `held` in its reader's fills and in flight. -/
def Waits (s : Sys) (held : List UInt8) : Prop := ∃ ts, s.spc = .read ts ∧ stop ts = [] ∧ bytes ts ++ s.up = held

/-- The client waits, with `fills` so far: its request is on its way, or with the server,
    or the answer is on its way. -/
inductive Round (s : Sys) (fills : List UInt8) : Prop
  | asking : Waits s (request s.i ++ [nl]) → s.echoed.length = s.i → fills ++ s.down = [] → Round s fills
  | echoing : s.spc = .write (request s.i) .new → s.up = [] → s.echoed.length = s.i → fills ++ s.down = [] → Round s fills
  | answered : Waits s [] → s.echoed.length = s.i + 1 → fills ++ s.down = request s.i ++ [nl] → Round s fills

def PcInv (n : Nat) (s : Sys) : Prop :=
  match s.cpc with
  | .head => s.i ≤ n ∧ s.reader = .new ∧ s.down = [] ∧ s.echoed.length = s.i ∧ Waits s []
  | .body => s.i < n ∧ s.reader = .new ∧ s.down = [] ∧ s.echoed.length = s.i ∧ Waits s (head s.i)
  | .read rs => s.i < n ∧ s.reader = .new ∧ stop rs = [] ∧ Round s (bytes rs)
  | .closed => s.i = n ∧ s.reader = .new ∧ s.down = [] ∧ s.echoed.length = n ∧ s.up = [] ∧
      match s.spc with
      | .read ts => bytes ts = []
      | .write _ _ => False
      | _ => True
  | .died => False

structure Inv (n : Nat) (s : Sys) : Prop where
  got : s.got = (List.range s.i).map fun k => some (request k)
  echoed : s.echoed = (List.range s.echoed.length).map request
  dropped : ∀ t ∈ s.dropped, t = []
  pc : PcInv n s

variable {n : Nat} {s s' : Sys}

theorem inv_start (n : Nat) : Inv n start :=
  ⟨rfl, rfl, fun _ h => absurd h List.not_mem_nil, Nat.zero_le n, rfl, rfl, rfl, [], rfl, rfl, rfl⟩

/-- A call that returned took the request's line, and neither its reader nor the channel
    holds more. -/
theorem call_line {held : List UInt8} {i : Nat} {rs : List (Rd UInt8 CBSIZE)} (hs : stop rs = [])
    (hh : bytes rs ++ held = request i ++ [nl]) :
    readLine .new rs = .blocked ∨
      ∃ g, readLine .new rs = .done g ∧ g.line = some (request i) ∧ g.reader = .new ∧ held = [] := by
  have hcr : cr ∉ bytes rs := by
    intro h
    have : cr ∈ request i ++ [nl] := hh ▸ List.mem_append_left _ h
    rcases List.mem_append.mp this with h | h
    · exact cr_not_mem_request i h
    · exact absurd (List.mem_singleton.mp h) (by decide)
  rcases @bufferLoop_spec [] rs [] hs hcr with ⟨-, hb⟩ | ⟨l, g, hd, hl, hn, he, hsk, -⟩
  · exact Or.inl hb
  · right
    rw [List.nil_append] at he
    have hsplit : (request i ++ [nl]) ++ [] = (l ++ [nl]) ++ (g.reader.cb ++ bytes g.rs ++ held) := by
      rw [List.append_nil, ← hh, he]
      simp
    rcases (request_line i).split hsplit with ⟨p, h1, h2⟩ | ⟨h, -⟩
    · obtain ⟨rfl, h3⟩ := List.append_eq_nil_iff.mp h2.symm
      rw [List.append_nil] at h1
      obtain ⟨h4, hheld⟩ := List.append_eq_nil_iff.mp h3
      obtain ⟨hcb, -⟩ := List.append_eq_nil_iff.mp h4
      obtain ⟨hreq, -⟩ := List.append_inj' h1 rfl
      refine ⟨g, hd, by rw [hl, hreq]; rfl, ?_, hheld⟩
      cases hr : g.reader with
      | mk cb sk => rw [hr] at hcb hsk; cases hcb; cases hsk; rfl
    · exact absurd (List.mem_append_right _ (List.mem_singleton_self nl)) h

/-- A call on fills without a newline waits. -/
theorem call_blocked {rs : List (Rd UInt8 CBSIZE)} (hs : stop rs = []) (hn : nl ∉ bytes rs) (hc : cr ∉ bytes rs) :
    readLine .new rs = .blocked := by
  rcases @bufferLoop_spec [] rs [] hs hc with ⟨-, hb⟩ | ⟨l, g, -, -, -, he, -⟩
  · exact hb
  · rw [List.nil_append] at he
    exact absurd (by rw [he]; simp) hn

/-! ## The client's steps -/

theorem inv_writeHead (h : Inv n s) (hpc : s.cpc = .head) (hi : s.i < n) :
    Inv n { s with cpc := .body, up := s.up ++ head s.i } := by
  have hp := h.pc
  unfold PcInv at hp
  rw [hpc] at hp
  obtain ⟨-, hr, hd, he, ts, hspc, hs, hb⟩ := hp
  refine ⟨h.got, h.echoed, h.dropped, hi, hr, hd, he, ts, hspc, hs, ?_⟩
  show bytes ts ++ (s.up ++ head s.i) = head s.i
  rw [← List.append_assoc, hb, List.nil_append]

theorem inv_writeBody (h : Inv n s) (hpc : s.cpc = .body) : Inv n { s with cpc := .read [], up := s.up ++ body } := by
  have hp := h.pc
  unfold PcInv at hp
  rw [hpc] at hp
  obtain ⟨hi, hr, hd, he, ts, hspc, hs, hb⟩ := hp
  refine ⟨h.got, h.echoed, h.dropped, hi, hr, rfl, .asking ⟨ts, hspc, hs, ?_⟩ he hd⟩
  show bytes ts ++ (s.up ++ body) = request s.i ++ [nl]
  rw [← List.append_assoc, hb, head_body]

theorem inv_close (h : Inv n s) (hpc : s.cpc = .head) (hi : ¬ s.i < n) : Inv n { s with cpc := .closed } := by
  have hp := h.pc
  unfold PcInv at hp
  rw [hpc] at hp
  obtain ⟨hle, hr, hd, he, ts, hspc, -, hb⟩ := hp
  obtain ⟨hts, hup⟩ := List.append_eq_nil_iff.mp hb
  have hin : s.i = n := Nat.le_antisymm hle (Nat.le_of_not_lt hi)
  refine ⟨h.got, h.echoed, h.dropped, hin, hr, hd, he.trans hin, hup, ?_⟩
  show match s.spc with
    | .read ts => bytes ts = []
    | .write _ _ => False
    | _ => True
  rw [hspc]
  exact hts

theorem Waits.not_gone {held : List UInt8} (h : Waits s held) : ¬ SrvGone s := by
  obtain ⟨ts, hspc, -⟩ := h
  intro hg
  rw [SrvGone, hspc] at hg
  cases hg

theorem Round.not_gone {fills : List UInt8} (h : Round s fills) : ¬ SrvGone s := by
  cases h with
  | asking hw => exact hw.not_gone
  | echoing hspc => intro hg; rw [SrvGone, hspc] at hg; cases hg
  | answered hw => exact hw.not_gone

/-- What the client got and what is still in flight to it is one text for a round. -/
theorem Round.fill {fills more q : List UInt8} (h : Round s fills) (hq : s.down = more ++ q) (cpc : CliPc) :
    Round { s with cpc := cpc, down := q } (fills ++ more) := by
  have he : fills ++ more ++ q = fills ++ s.down := by rw [hq, List.append_assoc]
  cases h with
  | asking hw hlen hd => exact .asking hw hlen (he.trans hd)
  | echoing hspc hup hlen hd => exact .echoing hspc hup hlen (he.trans hd)
  | answered hw hlen hd => exact .answered hw hlen (he.trans hd)

theorem inv_fill (h : Inv n s) {rs : List (Rd UInt8 CBSIZE)} {r : Rd UInt8 CBSIZE} {q : List UInt8}
    (hpc : s.cpc = .read rs) (ha : Arrives s.down (SrvGone s) r q) :
    Inv n { s with cpc := .read (rs ++ [r]), down := q } := by
  have hp := h.pc
  unfold PcInv at hp
  rw [hpc] at hp
  obtain ⟨hi, hr, hs, hround⟩ := hp
  obtain ⟨hstop, hq⟩ := ha.delivers hround.not_gone
  refine ⟨h.got, h.echoed, h.dropped, hi, hr, by rw [stop_append hs, hstop], ?_⟩
  rw [bytes_append hs]
  exact hround.fill hq _

/-- While it waits for an answer the client's call gets it whole, or waits on. -/
theorem Round.call {rs : List (Rd UInt8 CBSIZE)} (hs : stop rs = []) (h : Round s (bytes rs)) :
    readLine .new rs = .blocked ∨
      ∃ g, readLine .new rs = .done g ∧ g.line = some (request s.i) ∧ g.reader = .new ∧ s.down = [] ∧ Waits s [] ∧
        s.echoed.length = s.i + 1 := by
  cases h with
  | asking _ _ hd =>
    have hnil := (List.append_eq_nil_iff.mp hd).1
    exact Or.inl (call_blocked hs (by rw [hnil]; exact List.not_mem_nil) (by rw [hnil]; exact List.not_mem_nil))
  | echoing _ _ _ hd =>
    have hnil := (List.append_eq_nil_iff.mp hd).1
    exact Or.inl (call_blocked hs (by rw [hnil]; exact List.not_mem_nil) (by rw [hnil]; exact List.not_mem_nil))
  | answered hw hlen hd =>
    rcases call_line hs hd with hb | ⟨g, hg, hl, hr, hdown⟩
    · exact Or.inl hb
    · exact Or.inr ⟨g, hg, hl, hr, hdown, hw, hlen⟩

theorem inv_line (h : Inv n s) {rs : List (Rd UInt8 CBSIZE)} {g : Got} (hpc : s.cpc = .read rs)
    (hd : readLine s.reader rs = .done g) :
    Inv n { s with i := s.i + 1, cpc := .head, reader := g.reader, got := s.got ++ [g.line] } := by
  have hp := h.pc
  unfold PcInv at hp
  rw [hpc] at hp
  obtain ⟨hi, hr, hs, hround⟩ := hp
  rw [hr] at hd
  rcases hround.call hs with hb | ⟨g', hg, hl, hreader, hdown, hw, hlen⟩
  · rw [hb] at hd; cases hd
  · rw [hg] at hd
    cases hd
    refine ⟨?_, h.echoed, h.dropped, hi, hreader, hdown, hlen, hw⟩
    show s.got ++ [g.line] = (List.range (s.i + 1)).map _
    rw [h.got, hl, List.range_succ, List.map_append]
    rfl

/-- The client does not fail. -/
theorem not_fails (h : Inv n s) : ¬ ((s.cpc = .head ∨ s.cpc = .body) ∧ SrvGone s ∨
    (∃ rs, s.cpc = .read rs ∧ readLine s.reader rs = .fault)) := by
  have hp := h.pc
  unfold PcInv at hp
  rintro (⟨hpc | hpc, hg⟩ | ⟨rs, hpc, hf⟩)
  · rw [hpc] at hp; exact hp.2.2.2.2.not_gone hg
  · rw [hpc] at hp; exact hp.2.2.2.2.not_gone hg
  · rw [hpc] at hp
    obtain ⟨-, hr, hs, hround⟩ := hp
    rw [hr] at hf
    rcases hround.call hs with hb | ⟨g, hg, -⟩
    · rw [hb] at hf; cases hf
    · rw [hg] at hf; cases hf

/-! ## The server's steps -/

theorem Waits.fill {held q : List UInt8} {rs : List (Rd UInt8 CBSIZE)} {r : Rd UInt8 CBSIZE} (h : Waits s held)
    (hspc : s.spc = .read rs) (ha : Arrives s.up (CliGone s) r q) (hg : ¬ CliGone s) :
    Waits { s with spc := .read (rs ++ [r]), up := q } held := by
  obtain ⟨ts, ht, hs, hb⟩ := h
  rw [hspc] at ht
  cases ht
  obtain ⟨hstop, hq⟩ := ha.delivers hg
  refine ⟨rs ++ [r], rfl, by rw [stop_append hs, hstop], ?_⟩
  show bytes (rs ++ [r]) ++ q = held
  rw [bytes_append hs, List.append_assoc, ← hq, hb]

theorem Waits.blocked {held : List UInt8} {rs : List (Rd UInt8 CBSIZE)} (h : Waits s held) (hspc : s.spc = .read rs)
    (hn : nl ∉ held) (hc : cr ∉ held) : readLine .new rs = .blocked := by
  obtain ⟨ts, ht, hs, hb⟩ := h
  rw [hspc] at ht
  cases ht
  exact call_blocked hs (fun hm => hn (hb ▸ List.mem_append_left _ hm)) (fun hm => hc (hb ▸ List.mem_append_left _ hm))

theorem cr_not_mem_head (i : Nat) : cr ∉ head i := by
  intro h
  have : cr ∈ request i ++ [nl] := head_body i ▸ List.mem_append_left _ h
  rcases List.mem_append.mp this with h | h
  · exact cr_not_mem_request i h
  · exact absurd (List.mem_singleton.mp h) (by decide)

/-- While the client is there the server's call gets its request whole, or waits on. -/
theorem srv_call (h : Inv n s) {rs : List (Rd UInt8 CBSIZE)} (hspc : s.spc = .read rs) (hg : ¬ CliGone s) :
    readLine .new rs = .blocked ∨
      ∃ g fills, readLine .new rs = .done g ∧ g.line = some (request s.i) ∧ g.reader = .new ∧ s.up = [] ∧
        s.cpc = .read fills ∧ s.echoed.length = s.i ∧ bytes fills ++ s.down = [] := by
  have hp := h.pc
  unfold PcInv at hp
  cases hpc : s.cpc with
  | head =>
    rw [hpc] at hp
    exact Or.inl (hp.2.2.2.2.blocked hspc List.not_mem_nil List.not_mem_nil)
  | body =>
    rw [hpc] at hp
    exact Or.inl (hp.2.2.2.2.blocked hspc (nl_not_mem_head _) (cr_not_mem_head _))
  | read fills =>
    rw [hpc] at hp
    obtain ⟨-, -, -, hround⟩ := hp
    cases hround with
    | asking hw hlen hd =>
      obtain ⟨ts, ht, hs, hb⟩ := hw
      rw [hspc] at ht
      cases ht
      rcases call_line hs hb with hbl | ⟨g, hgot, hl, hr, hup⟩
      · exact Or.inl hbl
      · exact Or.inr ⟨g, fills, hgot, hl, hr, hup, rfl, hlen, hd⟩
    | echoing hw => rw [hspc] at hw; cases hw
    | answered hw => exact Or.inl (hw.blocked hspc List.not_mem_nil List.not_mem_nil)
  | closed => exact absurd (Or.inl hpc) hg
  | died => exact absurd (Or.inr hpc) hg

theorem gone_closed (h : Inv n s) (hg : CliGone s) : s.cpc = .closed := by
  have hp := h.pc
  unfold PcInv at hp
  rcases hg with hpc | hpc
  · exact hpc
  · rw [hpc] at hp; exact hp.elim

theorem bytes_snoc_nil {rs : List (Rd UInt8 CBSIZE)} {r : Rd UInt8 CBSIZE} (h : bytes rs = []) (hr : bytes [r] = []) :
    bytes (rs ++ [r]) = [] := by
  induction rs with
  | nil => exact hr
  | cons x rs ih =>
    cases x with
    | data c => exact absurd (List.append_eq_nil_iff.mp h).1 c.ne
    | eintr => exact ih h
    | error => rfl
    | eof => rfl

theorem inv_srvFill (h : Inv n s) {rs : List (Rd UInt8 CBSIZE)} {r : Rd UInt8 CBSIZE} {q : List UInt8}
    (hspc : s.spc = .read rs) (ha : Arrives s.up (CliGone s) r q) :
    Inv n { s with spc := .read (rs ++ [r]), up := q } := by
  refine ⟨h.got, h.echoed, h.dropped, ?_⟩
  have hp := h.pc
  unfold PcInv at hp ⊢
  by_cases hg : CliGone s
  · -- the client has closed: nothing but the end is left to arrive
    have hpc := gone_closed h hg
    simp only [hpc] at hp ⊢
    obtain ⟨hi, hr, hd, he, hup, hts⟩ := hp
    rw [hspc] at hts
    rw [hup] at ha
    cases ha with
    | data c q' hdata => exact absurd (List.append_eq_nil_iff.mp hdata.symm).1 c.ne
    | eintr => exact ⟨hi, hr, hd, he, rfl, bytes_snoc_nil hts rfl⟩
    | eof => exact ⟨hi, hr, hd, he, rfl, bytes_snoc_nil hts rfl⟩
    | reset => exact ⟨hi, hr, hd, he, rfl, bytes_snoc_nil hts rfl⟩
  · cases hpc : s.cpc with
    | head => rw [hpc] at hp; exact ⟨hp.1, hp.2.1, hp.2.2.1, hp.2.2.2.1, hp.2.2.2.2.fill hspc ha hg⟩
    | body => rw [hpc] at hp; exact ⟨hp.1, hp.2.1, hp.2.2.1, hp.2.2.2.1, hp.2.2.2.2.fill hspc ha hg⟩
    | read fills =>
      rw [hpc] at hp
      obtain ⟨hi, hr, hs, hround⟩ := hp
      refine ⟨hi, hr, hs, ?_⟩
      cases hround with
      | asking hw hlen hd => exact .asking (hw.fill hspc ha hg) hlen hd
      | echoing hw => rw [hspc] at hw; cases hw
      | answered hw hlen hd => exact .answered (hw.fill hspc ha hg) hlen hd
    | closed => exact absurd (Or.inl hpc) hg
    | died => exact absurd (Or.inr hpc) hg

/-- After the client closed the server's call returns no line. -/
theorem closed_line (h : Inv n s) (hg : CliGone s) {rs : List (Rd UInt8 CBSIZE)} (hspc : s.spc = .read rs) {g : Got}
    (hd : readLine .new rs = .done g) : g.line = none := by
  have hp := h.pc
  unfold PcInv at hp
  rw [gone_closed h hg, hspc] at hp
  exact (bufferLoop_dry hp.2.2.2.2.2 hd).1

theorem inv_srvLine (h : Inv n s) {rs : List (Rd UInt8 CBSIZE)} {g : Got} {line : List UInt8} (hspc : s.spc = .read rs)
    (hd : readLine .new rs = .done g) (hl : g.line = some line) : Inv n { s with spc := .write line g.reader } := by
  refine ⟨h.got, h.echoed, h.dropped, ?_⟩
  by_cases hg : CliGone s
  · rw [closed_line h hg hspc hd] at hl
    cases hl
  · rcases srv_call h hspc hg with hb | ⟨g', fills, hgot, hline, hr, hup, hpc, hlen, hdown⟩
    · rw [hb] at hd; cases hd
    · rw [hgot] at hd
      cases hd
      rw [hline] at hl
      cases hl
      have hp := h.pc
      unfold PcInv at hp ⊢
      simp only [hpc] at hp ⊢
      exact ⟨hp.1, hp.2.1, hp.2.2.1, .echoing (congrArg _ hr) hup hlen hdown⟩

/-- The server leaves its loop only after the client closed. -/
theorem srv_stops (h : Inv n s) {rs : List (Rd UInt8 CBSIZE)} (hspc : s.spc = .read rs)
    (hd : (∃ g, readLine .new rs = .done g ∧ g.line = none) ∨ readLine .new rs = .fault) : CliGone s := by
  by_contra hg
  rcases srv_call h hspc hg with hb | ⟨g, -, hgot, hline, -⟩
  · rw [hb] at hd
    rcases hd with ⟨g, hd, -⟩ | hd <;> cases hd
  · rw [hgot] at hd
    rcases hd with ⟨g', hd, hn⟩ | hd
    · cases hd
      rw [hline] at hn
      cases hn
    · cases hd

theorem inv_stopped (h : Inv n s) (hg : CliGone s) {pc : SrvPc} (hpc : pc = .accept ∨ pc = .died) :
    Inv n { s with spc := pc } := by
  refine ⟨h.got, h.echoed, h.dropped, ?_⟩
  have hp := h.pc
  have hc := gone_closed h hg
  unfold PcInv at hp ⊢
  simp only [hc] at hp ⊢
  refine ⟨hp.1, hp.2.1, hp.2.2.1, hp.2.2.2.1, hp.2.2.2.2.1, ?_⟩
  rcases hpc with rfl | rfl <;> trivial

/-- A line the server holds is the current request, and its reader is empty. -/
theorem srv_writes (h : Inv n s) {line : List UInt8} {reader : BufferedReader} (hspc : s.spc = .write line reader) :
    ∃ fills, s.cpc = .read fills ∧ line = request s.i ∧ reader = .new ∧ s.up = [] ∧ s.echoed.length = s.i ∧
      bytes fills ++ s.down = [] := by
  have hp := h.pc
  unfold PcInv at hp
  cases hpc : s.cpc with
  | head => rw [hpc] at hp; obtain ⟨ts, ht, -⟩ := hp.2.2.2.2; rw [hspc] at ht; cases ht
  | body => rw [hpc] at hp; obtain ⟨ts, ht, -⟩ := hp.2.2.2.2; rw [hspc] at ht; cases ht
  | closed => rw [hpc, hspc] at hp; exact hp.2.2.2.2.2.elim
  | died => rw [hpc] at hp; exact hp.elim
  | read fills =>
    rw [hpc] at hp
    obtain ⟨-, -, -, hround⟩ := hp
    cases hround with
    | asking hw => obtain ⟨ts, ht, -⟩ := hw; rw [hspc] at ht; cases ht
    | answered hw => obtain ⟨ts, ht, -⟩ := hw; rw [hspc] at ht; cases ht
    | echoing hw hup hlen hd =>
      rw [hspc] at hw
      cases hw
      exact ⟨fills, rfl, rfl, rfl, hup, hlen, hd⟩

theorem inv_srvWrite (h : Inv n s) {line : List UInt8} {reader : BufferedReader} (hspc : s.spc = .write line reader) :
    Inv n { s with
      spc := .read []
      down := s.down ++ (line ++ [nl])
      echoed := s.echoed ++ [line]
      dropped := s.dropped ++ [reader.cb] } := by
  obtain ⟨fills, hpc, rfl, rfl, hup, hlen, hd⟩ := srv_writes h hspc
  refine ⟨h.got, ?_, ?_, ?_⟩
  · show s.echoed ++ [request s.i] = (List.range (s.echoed ++ [request s.i]).length).map request
    rw [List.length_append, List.length_singleton, List.range_succ, List.map_append, ← h.echoed, hlen]
    rfl
  · intro t ht
    rcases List.mem_append.mp ht with ht | ht
    · exact h.dropped t ht
    · exact List.mem_singleton.mp ht
  · have hp := h.pc
    unfold PcInv at hp ⊢
    simp only [hpc] at hp ⊢
    refine ⟨hp.1, hp.2.1, hp.2.2.1, .answered ⟨[], rfl, rfl, hup⟩ ?_ ?_⟩
    · show (s.echoed ++ [request s.i]).length = _
      rw [List.length_append, hlen]
      rfl
    · show bytes fills ++ (s.down ++ (request s.i ++ [nl])) = _
      rw [← List.append_assoc, hd, List.nil_append]

/-! ## Every run -/

/-- Each step keeps the invariant. -/
theorem inv_step (h : Inv n s) (st : Step n s s') : Inv n s' := by
  cases st with
  | writeHead hpc hi => exact inv_writeHead h hpc hi
  | writeBody hpc => exact inv_writeBody h hpc
  | close hpc hi => exact inv_close h hpc hi
  | fill rs r q hpc _ ha => exact inv_fill h hpc ha
  | line rs g hpc hd => exact inv_line h hpc hd
  | fails hf => exact absurd hf (not_fails h)
  | srvFill rs r q hspc _ ha => exact inv_srvFill h hspc ha
  | srvLine rs g line hspc hd hl => exact inv_srvLine h hspc hd hl
  | srvNull rs g hspc hd hl => exact inv_stopped h (srv_stops h hspc (Or.inl ⟨g, hd, hl⟩)) (Or.inl rfl)
  | srvWrite line reader hspc => exact inv_srvWrite h hspc
  | srvFails hf =>
    rcases hf with ⟨⟨line, reader, hspc⟩, hg⟩ | ⟨rs, hspc, hf⟩
    · exact inv_stopped h hg (Or.inr rfl)
    · exact inv_stopped h (srv_stops h hspc (Or.inr hf)) (Or.inr rfl)

theorem inv_run (hr : Run n s) : Inv n s := by
  induction hr with
  | refl => exact inv_start n
  | tail _ st ih => exact inv_step ih st

/-- The counts of a state. -/
theorem Inv.counts (h : Inv n s) :
    s.got.length = s.i ∧ s.got.length ≤ s.echoed.length ∧ s.echoed.length ≤ asked s ∧ asked s ≤ s.got.length + 1 ∧
      (s.cpc = .closed → s.got.length = n ∧ s.echoed.length = n) := by
  have hgot : s.got.length = s.i := by rw [h.got]; simp
  have hp := h.pc
  unfold PcInv at hp
  unfold asked
  refine ⟨hgot, ?_⟩
  rw [hgot]
  cases hpc : s.cpc with
  | head => rw [hpc] at hp; exact ⟨by omega, by simp only; omega, by simp only; omega, fun e => by cases e⟩
  | body => rw [hpc] at hp; exact ⟨by omega, by simp only; omega, by simp only; omega, fun e => by cases e⟩
  | closed => rw [hpc] at hp; exact ⟨by omega, by simp only; omega, by simp only; omega, fun _ => ⟨hp.1, hp.2.2.2.1⟩⟩
  | died => rw [hpc] at hp; exact hp.elim
  | read fills =>
    rw [hpc] at hp
    obtain ⟨-, -, -, hround⟩ := hp
    have hlen : s.echoed.length = s.i ∨ s.echoed.length = s.i + 1 := by
      cases hround with
      | asking _ hlen => exact Or.inl hlen
      | echoing _ _ hlen => exact Or.inl hlen
      | answered _ hlen => exact Or.inr hlen
    exact ⟨by omega, by simp only; omega, by simp only; omega, fun e => by cases e⟩

/-! ## Nothing is lost -/

theorem flatMap_range_succ (f : Nat → List UInt8) (i : Nat) :
    (List.range (i + 1)).flatMap f = (List.range i).flatMap f ++ f i := by
  rw [List.range_succ, List.flatMap_append, List.flatMap_singleton]

theorem Waits.held {held : List UInt8} (h : Waits s held) : s.spc.held ++ s.up = held := by
  obtain ⟨ts, hspc, -, hb⟩ := h
  rw [hspc]
  exact hb

theorem inv_conserved (h : Inv n s) : Conserved s := by
  have hgot : s.got.flatMap lineOf = (List.range s.i).flatMap fun k => request k ++ [nl] := by
    rw [h.got, List.flatMap_map]
    rfl
  have hechoed : (s.echoed.flatMap fun line => line ++ [nl]) =
      (List.range s.echoed.length).flatMap fun k => request k ++ [nl] := by
    conv => lhs; rw [h.echoed]
    rw [List.flatMap_map]
  have hp := h.pc
  unfold PcInv at hp
  cases hpc : s.cpc with
  | head =>
    rw [hpc] at hp
    obtain ⟨-, hr, hd, he, hw⟩ := hp
    refine ⟨?_, ?_⟩
    · rw [List.append_assoc, hw.held, written, hpc, hechoed, he]
    · rw [hgot, hr, hpc, hd, hechoed, he]
      simp [BufferedReader.new, CliPc.held]
  | body =>
    rw [hpc] at hp
    obtain ⟨-, hr, hd, he, hw⟩ := hp
    refine ⟨?_, ?_⟩
    · rw [List.append_assoc, hw.held, written, hpc, hechoed, he]
    · rw [hgot, hr, hpc, hd, hechoed, he]
      simp [BufferedReader.new, CliPc.held]
  | died =>
    rw [hpc] at hp
    exact hp.elim
  | closed =>
    rw [hpc] at hp
    obtain ⟨hi, hr, hd, he, hup, hts⟩ := hp
    refine ⟨?_, ?_⟩
    · have hheld : s.spc.held = [] := by
        cases hspc : s.spc with
        | read ts => rw [hspc] at hts; exact hts
        | write _ _ => rw [hspc] at hts; exact hts.elim
        | accept => rfl
        | died => rfl
      rw [hheld, hup, written, hpc, hechoed, he, hi, List.append_nil]
    · rw [hgot, hr, hpc, hd, hechoed, he, hi]
      simp [BufferedReader.new, CliPc.held]
  | read fills =>
    rw [hpc] at hp
    obtain ⟨-, hr, -, hround⟩ := hp
    have hw : written s = ((List.range s.i).flatMap fun k => request k ++ [nl]) ++ (request s.i ++ [nl]) := by
      rw [written, hpc]
    cases hround with
    | asking hwait hlen hd =>
      refine ⟨?_, ?_⟩
      · rw [List.append_assoc, hwait.held, hw, hechoed, hlen]
      · rw [hgot, hr, hpc, List.append_assoc, hechoed, hlen]
        show _ ++ [] ++ (bytes fills ++ s.down) = _
        rw [hd, List.append_nil, List.append_nil]
    | echoing hspc hup hlen hd =>
      refine ⟨?_, ?_⟩
      · rw [hspc, hup, hw, hechoed, hlen, List.append_nil]
        show _ ++ (request s.i ++ [nl] ++ []) = _
        rw [List.append_nil]
      · rw [hgot, hr, hpc, List.append_assoc, hechoed, hlen]
        show _ ++ [] ++ (bytes fills ++ s.down) = _
        rw [hd, List.append_nil, List.append_nil]
    | answered hwait hlen hd =>
      refine ⟨?_, ?_⟩
      · rw [List.append_assoc, hwait.held, hw, hechoed, hlen, flatMap_range_succ, List.append_nil]
      · rw [hgot, hr, hpc, List.append_assoc, hechoed, hlen, flatMap_range_succ]
        show _ ++ [] ++ (bytes fills ++ s.down) = _
        rw [hd, List.append_nil]

/-! ## Every run can be brought to its end -/

/-- How far the two are in a round. -/
def phase (s : Sys) : Nat :=
  match s.cpc, s.spc with
  | .head, _ => 5
  | .body, _ => 4
  | .read _, .write _ _ => 2
  | .read _, _ => if s.echoed.length = s.i then 3 else 1
  | _, _ => 0

/-- The rounds to come, where this one is, and what is in flight. -/
def toGo (n : Nat) (s : Sys) : Nat × Nat × Nat := (n - s.i, phase s, s.up.length + s.down.length)

abbrev Nearer : Nat × Nat × Nat → Nat × Nat × Nat → Prop := Prod.Lex (· < ·) (Prod.Lex (· < ·) (· < ·))

theorem nearer_wf : WellFounded Nearer :=
  WellFounded.prod_lex Nat.lt_wfRel.wf (WellFounded.prod_lex Nat.lt_wfRel.wf Nat.lt_wfRel.wf)

theorem nearer_phase {a b p q f g : Nat} (h : a = b) (hpq : p < q) : Nearer (a, p, f) (b, q, g) := by
  subst h
  exact .right _ (.left _ _ hpq)

theorem nearer_flight {a b p q f g : Nat} (h : a = b) (hpq : p = q) (hfg : f < g) : Nearer (a, p, f) (b, q, g) := by
  subst h hpq
  exact .right _ (.right _ hfg)

/-- One byte off a channel. -/
def byte (b : UInt8) : Chunk UInt8 CBSIZE := ⟨[b], List.cons_ne_nil _ _, Nat.succ_le_succ (Nat.zero_le _)⟩

/-- A call that waits has not seen all of a line. -/
theorem not_all {held : List UInt8} {i : Nat} {rs : List (Rd UInt8 CBSIZE)} (hs : stop rs = [])
    (hh : bytes rs ++ held = request i ++ [nl]) (hb : readLine .new rs = .blocked) : held ≠ [] := by
  rintro rfl
  rw [List.append_nil] at hh
  have hcr : cr ∉ bytes rs := by
    rw [hh, List.mem_append, not_or]
    exact ⟨cr_not_mem_request i, by decide⟩
  rcases @bufferLoop_spec [] rs [] hs hcr with ⟨hno, -⟩ | ⟨_, _, hd, -⟩
  · exact hno (by rw [hh]; simp)
  · rw [readLine] at hb
    exact absurd (hd.symm.trans hb) (by simp)

/-- While an answer is waited for, one of the two can go on. -/
theorem round_nearer (h : Inv n s) {fills : List (Rd UInt8 CBSIZE)} (hpc : s.cpc = .read fills) :
    ∃ s', Step n s s' ∧ Nearer (toGo n s') (toGo n s) := by
  have hp := h.pc
  unfold PcInv at hp
  rw [hpc] at hp
  obtain ⟨hi, hr, hs, hround⟩ := hp
  cases hround with
  | asking hw hlen hd =>
    obtain ⟨ts, hspc, hts, hb⟩ := hw
    have hphase : phase s = 3 := by simp [phase, hpc, hspc, hlen]
    rcases call_line hts hb with hblock | ⟨g, hg, hline, -, -⟩
    · cases hup : s.up with
      | nil => exact absurd hup (not_all hts hb hblock)
      | cons b q =>
        refine ⟨_, .srvFill s ts (.data (byte b)) q hspc hblock (.data _ _ (by rw [hup]; rfl)), ?_⟩
        refine nearer_flight rfl ?_ ?_
        · rw [hphase]
          simp [phase, hpc, hlen]
        · rw [hup]
          simp
    · refine ⟨_, .srvLine s ts g (request s.i) hspc hg hline, nearer_phase rfl ?_⟩
      rw [hphase]
      simp [phase, hpc]
  | echoing hspc hup hlen hd =>
    refine ⟨_, .srvWrite s _ _ hspc, nearer_phase rfl ?_⟩
    have hphase : phase s = 2 := by simp [phase, hpc, hspc]
    rw [hphase]
    simp [phase, hpc, hlen]
  | answered hw hlen hd =>
    obtain ⟨ts, hspc, -, -⟩ := hw
    have hphase : phase s = 1 := by simp [phase, hpc, hspc, hlen]
    rcases call_line hs hd with hblock | ⟨g, hg, -, -, -⟩
    · cases hdown : s.down with
      | nil => exact absurd hdown (not_all hs hd hblock)
      | cons b q =>
        refine ⟨_, .fill s fills (.data (byte b)) q hpc (by rw [hr]; exact hblock) (.data _ _ (by rw [hdown]; rfl)), ?_⟩
        refine nearer_flight rfl ?_ ?_
        · rw [hphase]
          simp [phase, hspc, hlen]
        · rw [hdown]
          simp
    · refine ⟨_, .line s fills g hpc (by rw [hr]; exact hg), .left _ _ ?_⟩
      show n - (s.i + 1) < n - s.i
      omega

theorem nearer (h : Inv n s) (hne : s.cpc ≠ .closed) :
    ∃ s', Step n s s' ∧ (s'.cpc = .closed ∨ Nearer (toGo n s') (toGo n s)) := by
  cases hpc : s.cpc with
  | head =>
    by_cases hi : s.i < n
    · refine ⟨_, .writeHead s hpc hi, Or.inr (nearer_phase rfl ?_)⟩
      simp [phase, hpc]
    · exact ⟨_, .close s hpc hi, Or.inl rfl⟩
  | body =>
    have hp := h.pc
    unfold PcInv at hp
    rw [hpc] at hp
    obtain ⟨-, -, -, he, ts, hspc, -⟩ := hp
    refine ⟨_, .writeBody s hpc, Or.inr (nearer_phase rfl ?_)⟩
    simp [phase, hpc, hspc, he]
  | read fills =>
    obtain ⟨s', hst, hlt⟩ := round_nearer h hpc
    exact ⟨s', hst, Or.inr hlt⟩
  | closed => exact absurd hpc hne
  | died =>
    have hp := h.pc
    unfold PcInv at hp
    rw [hpc] at hp
    exact hp.elim

theorem run_closes (h : Inv n s) : ∃ s', Relation.ReflTransGen (Step n) s s' ∧ Inv n s' ∧ s'.cpc = .closed :=
  @reaches_of_nearer _ _ (Step n) (Inv n) (fun s => s.cpc = .closed) _ nearer_wf (toGo n) (fun _ _ => inv_step)
    (fun _ => nearer) s h

/-- In every state of every run of `n` rounds: the readers the server dropped were empty;
    the client's `k`-th `readLine` returned the line of its `k`-th request, and the
    server's `k`-th echo was that line; at most the last request is not yet echoed, and
    at most the last echo not yet read, and every byte of them is with one of the two or in flight;
    steps lead on to the end of the `n` rounds; and a client that has closed got all `n`. -/
theorem rounds (hr : Run n s) :
    (∀ t ∈ s.dropped, t = []) ∧
      (∀ (k : Nat) (x : Option (List UInt8)), s.got[k]? = some x →
        x = some (ascii "#" ++ decimal k ++ ascii " hello, world")) ∧
      (∀ (k : Nat) (l : List UInt8), s.echoed[k]? = some l → l = ascii "#" ++ decimal k ++ ascii " hello, world") ∧
      s.got.length ≤ s.echoed.length ∧ s.echoed.length ≤ asked s ∧ asked s ≤ s.got.length + 1 ∧ Conserved s ∧
      (∃ s', Relation.ReflTransGen (Step n) s s' ∧ s'.cpc = .closed) ∧
      (s.cpc = .closed → s.got.length = n ∧ s.echoed.length = n) := by
  have h := inv_run hr
  obtain ⟨hlen, hge, hea, hag, hall⟩ := h.counts
  obtain ⟨s', hgo, -, hclosed⟩ := run_closes h
  refine ⟨h.dropped, ?_, ?_, hge, hea, hag, inv_conserved h, ⟨s', hgo, hclosed⟩, hall⟩
  · intro k x hx
    obtain ⟨hk, -⟩ := List.getElem?_eq_some_iff.mp hx
    rw [hlen] at hk
    rw [h.got, List.getElem?_map, List.getElem?_range hk] at hx
    exact (Option.some.inj hx).symm
  · intro k l hl
    obtain ⟨hk, -⟩ := List.getElem?_eq_some_iff.mp hl
    rw [h.echoed, List.getElem?_map, List.getElem?_range hk] at hl
    exact (Option.some.inj hl).symm

/-- One round, the request in two fills, in front of the echo. -/
theorem rounds_one :
    ∃ s, Run 1 s ∧ s.spc = .write (request 0) .new ∧ s.got = [] ∧ Conserved s ∧
      ∃ s', Relation.ReflTransGen (Step 1) s s' ∧ s'.cpc = .closed := by
  have h1 : Run 1 _ := .single (.writeHead start rfl Nat.zero_lt_one)
  have h2 := h1.tail (.writeBody _ rfl)
  have h3 := h2.tail (.srvFill _ [] (.data ⟨head 0, by decide, by decide⟩) body rfl rfl (.data _ _ rfl))
  have h4 := h3.tail (.srvFill _ _ (.data ⟨body, by decide, by decide⟩) [] rfl rfl (.data _ _ rfl))
  have h5 := h4.tail (.srvLine _ _ ⟨some (request 0), .new, []⟩ (request 0) rfl rfl rfl)
  obtain ⟨-, -, -, -, -, -, hconserved, hgo, -⟩ := rounds h5
  exact ⟨_, h5, rfl, rfl, hconserved, hgo⟩

end NetworkCourse.DelayAck
