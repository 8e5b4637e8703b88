/-
  NetworkCourse.Intro.Returned — what the results of the line readers say
  (intro/reliable_test_server.c, intro/reliable_test_client.c).

  `readline` over `my_read` counts the bytes it stored when it stops at a newline or at end of
  file; when the buffer is full it counts one more (`counts_exactly`).

  The client's `readline` over `recv` returns 0 at end of file whatever it has taken before: the
  lines of a stream are all handed over, a tail behind the last newline is not
  (`tail_dropped`).
-/

import NetworkCourse.Intro.ClientReader
import NetworkCourse.Intro.Segments

namespace NetworkCourse.Intro.LineReader

open Lib.Cut Lib.Feed Lib.Ascii

/-! ## The number of bytes stored -/

/-- The static states calls leave, each on its own buffer and results. -/
inductive Reached : ReadBuf → Prop
  | init : Reached .init
  | call {s : ReadBuf} {maxlen : Nat} {buf : List UInt8} {rs : List (Rd UInt8 MAXLINE)} {c : Call ReadBuf MAXLINE} :
      Reached s → readline maxlen buf s rs = .done c → Reached c.st

theorem Reached.ok {s : ReadBuf} (h : Reached s) : Ok s := by
  induction h with
  | init => exact ok_init
  | call _ he ih => exact readline_ok ih he

/-- A result that is not negative counts the bytes stored from the buffer's start, which are
    the stream's next, and in front of a NUL; it leaves room for that. -/
def Counts (maxlen : Nat) (buf stream : List UInt8) (c : Call ReadBuf MAXLINE) : Prop :=
  0 ≤ c.rc → ∃ p, c.rc = p.length ∧ p <+: stream ∧ c.buf = stored p buf ∧ c.rc ≤ maxlen - 1

section
variable {maxlen : Nat} {buf : List UInt8} {s : ReadBuf} {rs : List (Rd UInt8 MAXLINE)}

/-- A newline in reach, or not enough bytes to fill the buffer. -/
def Fits (maxlen : Nat) (stream : List UInt8) : Prop := nl ∈ stream.take (maxlen - 1) ∨ stream.length + 1 < maxlen

theorem counts_of_done (h1 : 1 ≤ maxlen) (hm : maxlen ≤ buf.length) (h : Ok s) {c : Call ReadBuf MAXLINE}
    (he : readline maxlen buf s rs = .done c) : Counts maxlen buf (pend s rs) c ↔ Fits maxlen (pend s rs) := by
  have hle := cut_length_le nl (maxlen - 1) (pend s rs)
  by_cases hf : Full nl (maxlen - 1) (cut nl (maxlen - 1) (pend s rs))
  · obtain ⟨s', rs', -, -, -, -, h5⟩ := readline_full h1 hm h hf
    rw [h5 _ rfl] at he
    cases he
    by_cases hn : nl ∈ cut nl (maxlen - 1) (pend s rs)
    · -- up to the newline
      rw [Counts]
      simp only [if_pos hn]
      refine ⟨fun _ => Or.inl ((mem_cut_iff nl _ _).mp hn), fun _ _ => ⟨_, rfl, cut_initial nl _ _, rfl, ?_⟩⟩
      omega
    · -- the buffer is full
      have hlen := hf.resolve_left hn
      rw [Counts]
      simp only [if_neg hn]
      refine ⟨?_, ?_⟩
      · intro hc
        obtain ⟨p, -, -, -, hle'⟩ := hc (by omega)
        omega
      · rintro (hmem | hshort)
        · exact absurd ((mem_cut_iff nl _ _).mpr hmem) hn
        · have := (cut_initial nl (maxlen - 1) (pend s rs)).length_le
          omega
  · have hc := cut_of_not_full nl hf
    have hshort : (pend s rs).length + 1 < maxlen := by
      have hne : (cut nl (maxlen - 1) (pend s rs)).length ≠ maxlen - 1 := fun h => hf (Or.inr h)
      rw [hc] at hle hne
      omega
    refine ⟨fun _ => Or.inr hshort, fun _ => ?_⟩
    rcases stop_cases rs with hs | ⟨ys, hs⟩ | ⟨ys, hs⟩
    · rw [readline_blocked h1 hm h hf hs] at he
      cases he
    · obtain ⟨s', h4⟩ := readline_error h1 hm h hf hs
      rw [h4] at he
      cases he
      intro h0
      exact absurd (show (0 : Int) ≤ -1 from h0) (by decide)
    · obtain ⟨s', -, -, h4⟩ := readline_eof h1 hm h hf hs
      rw [h4] at he
      cases he
      intro _
      exact ⟨_, rfl, List.prefix_refl _, rfl, by simp only; omega⟩

end

/-- In every static state calls leave, and whatever is read, a call of the server's
    `readline` or the client's `readline2` counts what it stored exactly when a newline is in
    reach or the stream stops short of the buffer's end. -/
theorem counts_exactly {maxlen : Nat} (h1 : 1 ≤ maxlen) {buf : List UInt8} (hm : maxlen ≤ buf.length) {s : ReadBuf}
    (h : Reached s) {rs : List (Rd UInt8 MAXLINE)} {c : Call ReadBuf MAXLINE}
    (he : readline maxlen buf s rs = .done c ∨ Client.readline2 maxlen buf s rs = .done c) :
    Counts maxlen buf (pend s rs) c ↔ Fits maxlen (pend s rs) := by
  rcases he with he | he
  · exact counts_of_done h1 hm h.ok he
  · exact counts_of_done h1 hm h.ok he

/-- A line in a buffer of four. -/
theorem counts_exactly_line :
    ∃ c, readline 4 [0, 0, 0, 0] .init [.data ⟨[97, 10, 98], by simp, by decide⟩] = .done c ∧
      (Counts 4 [0, 0, 0, 0] [97, 10, 98] c ↔ Fits 4 [97, 10, 98]) := by
  obtain ⟨s', rs', -, -, -, -, h5⟩ := @readline_full 4 [0, 0, 0, 0] .init [.data ⟨[97, 10, 98], by simp, by decide⟩]
    (by decide) (by decide) ok_init (Or.inl (by decide))
  exact ⟨_, h5 _ rfl, counts_exactly (by decide) (by decide) .init (Or.inl (h5 _ rfl))⟩

/-- Two bytes of buffer, one byte stored, 2 returned. -/
theorem full_buffer_overcounts :
    ¬ ∀ (maxlen : Nat) (buf : List UInt8) (rs : List (Rd UInt8 MAXLINE)) (c : Call ReadBuf MAXLINE), 1 ≤ maxlen →
      maxlen ≤ buf.length → readline maxlen buf .init rs = .done c → Counts maxlen buf (pend .init rs) c := by
  intro hall
  obtain ⟨s', rs', -, -, -, -, h5⟩ := @readline_full 2 [0, 0] .init [.data ⟨[97, 98], by simp, by decide⟩]
    (by decide) (by decide) ok_init (Or.inr (by decide))
  have hc := hall 2 _ _ _ (by decide) (by decide) (h5 _ rfl)
  rcases (counts_of_done (by decide) (by decide) ok_init (h5 _ rfl)).mp hc with h | h
  · exact absurd h (show nl ∉ [(97 : UInt8)] by decide)
  · exact absurd h (show ¬ 2 + 1 < 2 by decide)

end NetworkCourse.Intro.LineReader

namespace NetworkCourse.Intro.Client

open Lib.Cut Lib.Feed Lib.Ascii
open LineReader (stored stop_replicate_eof bytes_replicate_eof)

/-! ## End of file behind a tail -/

/-- A call as its caller sees it, and how many bytes it has taken off the stream. -/
structure Turn where
  rc : Int
  buf : List UInt8
  took : Nat

/-- Successive calls of the client's `readline`. -/
def turns (len : Nat) : List (List UInt8) → RecvBuf → List (Rd UInt8 RECVSIZE) → Res (List Turn)
  | [], _, _ => .done []
  | buf :: bufs, s, rs => do
    let c ← readline len buf s rs
    let ts ← turns len bufs c.st c.rs
    return ⟨c.rc, c.buf, (pend s rs).length - (pend c.st c.rs).length⟩ :: ts

/-- What calls with a positive result have handed over. -/
def handed (ts : List Turn) : List UInt8 := (ts.filter fun t => 0 < t.rc).flatMap fun t => t.buf.take t.rc.toNat

/-- Every byte is handed over by a call with a positive result, and the others take none. -/
structure NoLoss (stream : List UInt8) (ts : List Turn) : Prop where
  all : handed ts = stream
  rest : ∀ t ∈ ts, t.rc ≤ 0 → t.took = 0

theorem handed_cons_pos {t : Turn} (h : 0 < t.rc) (ts : List Turn) :
    handed (t :: ts) = t.buf.take t.rc.toNat ++ handed ts := by
  simp [handed, h]

theorem handed_cons_neg {t : Turn} (h : t.rc ≤ 0) (ts : List Turn) : handed (t :: ts) = handed ts := by
  simp [handed, Int.not_lt.mpr h]

section
variable {len : Nat} {buf : List UInt8} {s : RecvBuf} {rs : List (Rd UInt8 RECVSIZE)}

/-- With no newline to come the call takes what there is, and returns 0 or -1. -/
theorem readline_dry (h0 : 0 < len) (hm : len ≤ buf.length) (h : Ok s) (hl : (pend s rs).length < len) (hn : nl ∉ pend s rs)
    {m : Nat} (hs : stop rs = List.replicate (m + 1) .eof) :
    ∃ c, readline len buf s rs = .done c ∧ c.rc ≤ 0 ∧ pend c.st c.rs = [] ∧ ∃ m', m ≤ m' ∧ stop c.rs = List.replicate m' .eof := by
  suffices H : ∀ q (p : List UInt8) (len : Nat) (s : RecvBuf) (rs : List (Rd UInt8 RECVSIZE)), pend s rs = q → Ok s → 0 < len →
      p.length + len ≤ buf.length → q.length < len → nl ∉ q → stop rs = List.replicate (m + 1) .eof →
      ∃ c, readlineFrom len p.length (p ++ buf.drop p.length) s rs = .done c ∧ c.rc ≤ 0 ∧ pend c.st c.rs = [] ∧
        ∃ m', m ≤ m' ∧ stop c.rs = List.replicate m' .eof by
    simpa [readline] using H _ [] len s rs rfl h h0 (by simpa using hm) hl hn hs
  clear h0 hm h hl hn hs
  intro q
  induction q with
  | nil =>
    intro p len s rs hp h h0 hm hl _ hs
    by_cases h1 : 1 < len
    · obtain ⟨s', hc, he⟩ := @readlineFrom_dry len p.length (p ++ buf.drop p.length) h1 s h rs hp
      refine ⟨⟨0, p ++ buf.drop p.length, { s' with cnt := 0 }, List.replicate m .eof⟩, ?_, Int.le_refl 0, ?_, m,
        Nat.le_refl m, stop_replicate_eof m⟩
      · rw [he, hs, List.replicate_succ, readlineFrom, if_pos (by omega), if_pos (by omega)]
      · rw [pend, left_nil (by simp), bytes_replicate_eof, List.append_nil]
    · -- no room for a byte
      refine ⟨_, by rw [readlineFrom.eq_def, if_neg (by omega)], show (-1 : Int) ≤ 0 by decide, hp, m + 1, Nat.le_succ m, hs⟩
  | cons b q ih =>
    intro p len s rs hp h h0 hm hl hn hs
    simp only [List.mem_cons, not_or, List.length_cons] at hn hl
    obtain ⟨s', rs', h1, h2, h3, -, h5⟩ := readlineFrom_byte p (by omega) hm h hp
    rw [h5, if_neg (Ne.symm hn.1)]
    have := ih (p ++ [b]) (len - 1) s' rs' h2 h1 (by omega) (by simp; omega) (by omega) hn.2 (h3.trans hs)
    simpa using this

/-- Calls behind the last newline hand nothing over; the first takes the tail. -/
theorem turns_dry (h0 : 0 < len) {bufs : List (List UInt8)} (hb : ∀ b ∈ bufs, b.length = len) (h : Ok s)
    (hl : (pend s rs).length < len) (hn : nl ∉ pend s rs) {m : Nat} (hs : stop rs = List.replicate m .eof) (hm : bufs.length ≤ m) :
    ∃ ts, turns len bufs s rs = .done ts ∧ handed ts = [] ∧
      (bufs ≠ [] → ((∀ t ∈ ts, t.rc ≤ 0 → t.took = 0) ↔ pend s rs = [])) := by
  induction bufs generalizing s rs m with
  | nil => exact ⟨[], rfl, rfl, fun hne => absurd rfl hne⟩
  | cons buf bufs ih =>
    obtain ⟨m, rfl⟩ : ∃ j, m = j + 1 := ⟨m - 1, by simp at hm; omega⟩
    obtain ⟨c, h1, h2, h3, m', h4, h5⟩ := readline_dry h0 (Nat.le_of_eq (hb buf (by simp)).symm) h hl hn hs
    obtain ⟨ts, h6, h7, h8⟩ := ih (fun b hb' => hb b (List.mem_cons_of_mem _ hb')) (readlineFrom_ok h h1)
      (by rw [h3]; exact h0) (by rw [h3]; exact List.not_mem_nil) h5 (by simp at hm; omega)
    refine ⟨⟨c.rc, c.buf, (pend s rs).length - (pend c.st c.rs).length⟩ :: ts, by simp [turns, h1, h6], ?_, ?_⟩
    · exact (handed_cons_neg h2 ts).trans h7
    · intro _
      have hts : ∀ t ∈ ts, t.rc ≤ 0 → t.took = 0 := by
        by_cases hne : bufs = []
        · subst hne
          cases h6
          intro t ht
          cases ht
        · exact (h8 hne).mpr h3
      rw [List.forall_mem_cons, h3, List.length_nil, Nat.sub_zero]
      refine ⟨?_, ?_⟩
      · intro hall
        exact List.eq_nil_of_length_eq_zero (hall.1 h2)
      · intro hnil
        exact ⟨fun _ => by rw [hnil]; rfl, hts⟩

/-- Lines are handed over, and what follows them is not. -/
theorem turns_stream (h0 : 0 < len) {ls : List (List UInt8)} {tail : List UInt8} (hls : ∀ l ∈ ls, Line nl l ∧ l.length < len)
    (ht : nl ∉ tail) (htl : tail.length < len) {bufs : List (List UInt8)} (hb : ∀ b ∈ bufs, b.length = len)
    (hn : ls.length < bufs.length) (h : Ok s) (hp : pend s rs = ls.flatten ++ tail) {m : Nat}
    (hs : stop rs = List.replicate m .eof) (hm : bufs.length ≤ m) :
    ∃ ts, turns len bufs s rs = .done ts ∧ handed ts = ls.flatten ∧ ((∀ t ∈ ts, t.rc ≤ 0 → t.took = 0) ↔ tail = []) := by
  induction ls generalizing bufs s rs with
  | nil =>
    have hp : pend s rs = tail := hp
    obtain ⟨ts, h1, h2, h3⟩ := turns_dry h0 hb h (by rw [hp]; exact htl) (by rw [hp]; exact ht) hs hm
    have hne : bufs ≠ [] := by
      rintro rfl
      exact absurd hn (Nat.lt_irrefl 0)
    rw [hp] at h3
    exact ⟨ts, h1, h2, h3 hne⟩
  | cons l ls ih =>
    obtain ⟨buf, bufs, rfl⟩ := List.exists_cons_of_ne_nil (l := bufs) (by rintro rfl; exact absurd hn (Nat.not_lt_zero _))
    obtain ⟨⟨hline, hlen⟩, hls⟩ := List.forall_mem_cons.mp hls
    have hbuf := hb buf (by simp)
    rw [List.flatten_cons, List.append_assoc] at hp
    have hcut : cut nl (len - 1) (pend s rs) = l := by rw [hp, hline.cut (by omega)]
    have hrest : rest nl (len - 1) (pend s rs) = ls.flatten ++ tail := by rw [hp, hline.rest (by omega)]
    obtain ⟨s', rs', h1, h2, h3, -, h5⟩ := readline_line (Nat.le_of_eq hbuf.symm) h (by rw [hcut]; exact hline.mem)
    rw [hcut] at h5
    rw [hrest] at h2
    obtain ⟨ts, h6, h7, h8⟩ := ih hls (fun b hb' => hb b (List.mem_cons_of_mem _ hb')) (by simpa using hn) h1 h2 (h3.trans hs)
      (by simp at hm; omega)
    have hpos : (0 : Int) < l.length := by
      have := List.length_pos_iff.mpr hline.ne_nil
      omega
    refine ⟨⟨l.length, stored l buf, (pend s rs).length - (pend s' rs').length⟩ :: ts, by simp [turns, h5, h6], ?_, ?_⟩
    · rw [handed_cons_pos hpos, h7, List.flatten_cons]
      simp [stored]
    · rw [List.forall_mem_cons, ← h8]
      refine ⟨?_, ?_⟩
      · intro hall
        exact hall.2
      · intro hts
        exact ⟨fun hle => absurd hpos (Int.not_lt.mpr hle), hts⟩

end

/-- On a stream that ends, in buffers larger than any of its lines, calls hand every byte over
    exactly when no tail follows the last newline. -/
theorem tail_dropped {len : Nat} (h0 : 0 < len) {stream : List UInt8} (hl : ∀ l ∈ lines nl stream, l.length < len)
    {rs : List (Rd UInt8 RECVSIZE)} (hd : Delivers rs stream) {bufs : List (List UInt8)} (hb : ∀ b ∈ bufs, b.length = len)
    (hn : (lines nl stream).length < bufs.length) {m : Nat} (hm : bufs.length ≤ m) :
    ∃ ts, turns len bufs .init (rs ++ List.replicate m .eof) = .done ts ∧
      (NoLoss stream ts ↔ ∀ b, stream.getLast? = some b → b = nl) := by
  obtain ⟨hstop, hbytes⟩ := hd
  have hs : stop (rs ++ List.replicate m .eof) = List.replicate m .eof := by rw [stop_append hstop, stop_replicate_eof]
  have hp : pend .init (rs ++ List.replicate m .eof) = stream := by
    rw [pend, left_init, List.nil_append, bytes_append hstop, bytes_replicate_eof, List.append_nil, hbytes]
  obtain ⟨ls, tail, rfl, h1, h2, h3⟩ := lines_split nl stream
  rw [h3] at hl hn
  have htl : tail.length < len := by
    by_cases hne : tail = []
    · rw [hne]
      exact h0
    · exact hl tail (by simp [hne])
  obtain ⟨ts, h4, h5, h6⟩ := turns_stream h0 (fun l hl' => ⟨h1 l hl', hl l (List.mem_append_left _ hl')⟩) h2 htl hb
    (by rw [List.length_append] at hn; omega) ok_init hp hs hm
  refine ⟨ts, h4, ?_⟩
  rw [← tail_eq_nil_iff nl h1 h2]
  refine ⟨?_, ?_⟩
  · intro hno
    exact h6.mp hno.rest
  · rintro rfl
    exact ⟨by rw [h5, List.append_nil], h6.mpr rfl⟩

/-- A line and a tail, in buffers of eight. -/
theorem tail_dropped_two :
    ∃ ts, turns 8 (List.replicate 3 (List.replicate 8 0)) .init
        ([.data ⟨[97, 10, 98], by simp, by decide⟩, .eintr, .data ⟨[99], by simp, by decide⟩] ++ List.replicate 3 .eof) = .done ts ∧
      (NoLoss [97, 10, 98, 99] ts ↔ ∀ b : UInt8, some 99 = some b → b = nl) :=
  tail_dropped (by decide) (show ∀ l ∈ lines nl [97, 10, 98, 99], l.length < 8 by decide) ⟨rfl, rfl⟩ (by decide) (by decide) (by decide)

/-- One byte and no newline: it is lost. -/
theorem byte_lost :
    ¬ ∀ (len : Nat) (stream : List UInt8) (rs : List (Rd UInt8 RECVSIZE)) (bufs : List (List UInt8)) (m : Nat) (ts : List Turn),
      (∀ l ∈ lines nl stream, l.length < len) → Delivers rs stream → (∀ b ∈ bufs, b.length = len) →
      (lines nl stream).length < bufs.length → bufs.length ≤ m → turns len bufs .init (rs ++ List.replicate m .eof) = .done ts →
      NoLoss stream ts := by
  intro hall
  have hb : ∀ b ∈ List.replicate 2 (List.replicate 8 (0 : UInt8)), b.length = 8 := by decide
  obtain ⟨ts, h1, -, h3⟩ := @turns_stream 8 .init ([.data ⟨[97], by simp, by decide⟩] ++ List.replicate 2 .eof) (by decide) []
    [97] (by simp) (by decide) (by decide) _ hb (by decide) ok_init rfl 2 rfl (by decide)
  have hno := hall 8 [97] [.data ⟨[97], by simp, by decide⟩] _ 2 ts (by decide) ⟨rfl, rfl⟩ hb (by decide) (by decide) h1
  cases h3.mp hno.rest

end NetworkCourse.Intro.Client
