/-
  NetworkCourse.Intro.ClientReader — the client's two line readers
  (intro/reliable_test_client.c): `readline`, with a static `recv` buffer, and
  `readline2` over `my_read`.

  `readline` counts its static buffer with `cnt`, one more than the bytes unread while
  it is inside a chunk, and decrements it before use; it takes a byte off `pend`, the
  unread part and what the feed still delivers, as `my_read` does (`readlineFrom_byte`).
  So the two agree wherever a newline is in reach (`readline_agrees`): from static
  states that owe the same bytes they return the same result, store the same bytes and
  owe the same bytes again, and the agreement goes on call after call
  (`readers_agree`).
-/

import NetworkCourse.Intro.LineReader

namespace NetworkCourse.Intro.Client

open Lib.Cut Lib.Feed Lib.Ascii
open LineReader (Call calls MAXLINE ReadBuf stored store_byte store_nul)

/-- `sizeof(b)` -/
def RECVSIZE : Nat := 1500

/-- The static `cnt`, `bp` and `b`. -/
structure RecvBuf where
  cnt : Int
  bp : Nat
  b : List UInt8
  deriving DecidableEq

def RecvBuf.init : RecvBuf := ⟨0, 0, []⟩

/-- `c = *bp++; *bufptr++ = c;` -/
def takeByte (ptr : Nat) (buf : List UInt8) (s : RecvBuf) : Res (UInt8 × List UInt8 × RecvBuf) :=
  match s.b[s.bp]? with
  | some c => do
    let buf ← store buf ptr c
    return (c, buf, { s with bp := s.bp + 1 })
  | none => .fault

/-- The loop of `readline`, from `--len > 0` on. -/
def readlineFrom (len ptr : Nat) (buf : List UInt8) (s : RecvBuf) (rs : List (Rd UInt8 RECVSIZE)) :
    Res (Call RecvBuf RECVSIZE) :=
  if 0 < len - 1 then
    if s.cnt - 1 ≤ 0 then
      match rs with
      | [] => .blocked
      | .eintr :: rs => readlineFrom len ptr buf { s with cnt := -1 } rs -- `len++; continue`
      | .error :: rs => .done ⟨-1, buf, { s with cnt := -1 }, rs⟩
      | .eof :: rs => .done ⟨0, buf, { s with cnt := 0 }, rs⟩
      | .data c :: rs => do
        let (c, buf, s) ← takeByte ptr buf ⟨c.data.length, 0, c.data⟩
        if c = nl then
          let buf ← store buf (ptr + 1) 0
          return ⟨ptr + 1, buf, s, rs⟩
        else readlineFrom (len - 1) (ptr + 1) buf s rs
    else do
      let (c, buf, s) ← takeByte ptr buf { s with cnt := s.cnt - 1 }
      if c = nl then
        let buf ← store buf (ptr + 1) 0
        return ⟨ptr + 1, buf, s, rs⟩
      else readlineFrom (len - 1) (ptr + 1) buf s rs
  else .done ⟨-1, buf, s, rs⟩ -- `set_errno(EMSGSIZE)`
termination_by len + rs.length
decreasing_by all_goals simp_wf <;> omega

/-- For a `len` of 1 and more: with 0, `--len` goes round to the largest `size_t`, and the loop has no bound. -/
def readline (len : Nat) (buf : List UInt8) (s : RecvBuf) (rs : List (Rd UInt8 RECVSIZE)) :
    Res (Call RecvBuf RECVSIZE) :=
  readlineFrom len 0 buf s rs

/-- The same text as the server's `readline`, over the same `my_read`. -/
def readline2 (maxlen : Nat) (buf : List UInt8) (s : ReadBuf) (rs : List (Rd UInt8 MAXLINE)) :
    Res (Call ReadBuf MAXLINE) :=
  LineReader.readline maxlen buf s rs

/-! ## The static buffer -/

/-- The bytes of `b` not taken yet: one fewer than `cnt`. -/
def left (s : RecvBuf) : List UInt8 := if 1 < s.cnt then s.b.drop s.bp else []

def Ok (s : RecvBuf) : Prop := 1 < s.cnt → s.bp + (s.cnt - 1) = s.b.length

/-- The bytes still to be delivered. -/
def pend (s : RecvBuf) (rs : List (Rd UInt8 RECVSIZE)) : List UInt8 := left s ++ bytes rs

@[simp] theorem ok_init : Ok .init := by simp [Ok, RecvBuf.init]
@[simp] theorem left_init : left .init = [] := rfl

theorem left_nil {s : RecvBuf} (h : s.cnt ≤ 1) : left s = [] := if_neg (by omega)

theorem left_ne_nil {s : RecvBuf} (h : Ok s) (hc : 1 < s.cnt) : left s ≠ [] := by
  have := h hc
  rw [left, if_pos hc, Ne, List.drop_eq_nil_iff]; omega

/-- `s.cnt` still counts the byte about to be taken. -/
theorem takeByte_spec {s : RecvBuf} (h0 : 0 < s.cnt) (h : s.bp + s.cnt = s.b.length) {p buf : List UInt8}
    (hp : p.length < buf.length) :
    ∃ b s', takeByte p.length (p ++ buf.drop p.length) s =
        .done (b, (p ++ [b]) ++ buf.drop (p ++ [b]).length, s') ∧ Ok s' ∧ s.b.drop s.bp = b :: left s' := by
  have hlt : s.bp < s.b.length := by omega
  refine ⟨s.b[s.bp], { s with bp := s.bp + 1 }, ?_, ?_, ?_⟩
  · simp [takeByte, List.getElem?_eq_getElem hlt, store_byte hp]
  · intro hc
    simp only at hc ⊢
    omega
  · rw [List.drop_eq_getElem_cons hlt, left]
    by_cases h1 : 1 < s.cnt
    · rw [if_pos h1]
    · rw [if_neg h1, List.drop_eq_nil_iff.mpr (by omega)]

theorem nul_step {p buf : List UInt8} {b : UInt8} (h : (p ++ [b]).length < buf.length) :
    store ((p ++ [b]) ++ buf.drop (p ++ [b]).length) (p.length + 1) 0 = .done (stored (p ++ [b]) buf) := by
  rw [← store_nul h]; simp

/-- One turn of the loop that gets a byte. -/
theorem readlineFrom_byte {len : Nat} (p : List UInt8) {buf : List UInt8} (hl : 1 < len)
    (hm : p.length + len ≤ buf.length) {s : RecvBuf} (h : Ok s) {rs : List (Rd UInt8 RECVSIZE)} {b : UInt8}
    {q : List UInt8} (hq : pend s rs = b :: q) :
    ∃ s' rs', Ok s' ∧ pend s' rs' = q ∧ stop rs' = stop rs ∧ rs' <:+ rs ∧
      readlineFrom len p.length (p ++ buf.drop p.length) s rs =
        if b = nl then .done ⟨p.length + 1, stored (p ++ [b]) buf, s', rs'⟩
        else readlineFrom (len - 1) (p.length + 1) ((p ++ [b]) ++ buf.drop (p ++ [b]).length) s' rs' := by
  have hlen : (p ++ [b]).length < buf.length := by simp; omega
  by_cases hc : s.cnt - 1 ≤ 0
  · -- the buffer is used up: the feed brings the byte, behind interrupted calls
    rw [pend, left_nil (by omega), List.nil_append] at hq
    induction rs generalizing s with
    | nil => simp at hq
    | cons r rs ih =>
      cases r with
      | eintr =>
        obtain ⟨s', rs', h1, h2, h3, h4, h5⟩ := ih (s := { s with cnt := -1 }) (by simp [Ok]) hq (by simp)
        refine ⟨s', rs', h1, h2, h3, h4.trans (List.suffix_cons _ _), ?_⟩
        rw [readlineFrom, if_pos (by omega), if_pos hc]
        exact h5
      | data c =>
        have hpos : 0 < c.data.length := List.length_pos_iff.mpr c.ne
        obtain ⟨b', s', h1, h2, h3⟩ := takeByte_spec (s := ⟨c.data.length, 0, c.data⟩) (by simpa using hpos) (by simp)
          (show p.length < buf.length by omega)
        have hq' : (b' :: left s') ++ bytes rs = b :: q := by rw [← h3]; exact hq
        injection hq' with hb hq'
        subst hb
        refine ⟨s', rs, h2, hq', rfl, List.suffix_cons _ _, ?_⟩
        rw [readlineFrom, if_pos (by omega), if_pos hc]
        simp only [h1, Res.done_bind, nul_step hlen, Res.pure_eq]
      | error => simp at hq
      | eof => simp at hq
  · have hok := h (by omega)
    obtain ⟨b', s', h1, h2, h3⟩ := takeByte_spec (s := { s with cnt := s.cnt - 1 }) (by simp; omega)
      (by simp only; omega) (show p.length < buf.length by omega)
    have hq' : (b' :: left s') ++ bytes rs = b :: q := by
      rw [← h3, ← hq, pend, left, if_pos (by omega)]
    injection hq' with hb hq'
    subst hb
    refine ⟨s', rs, h2, hq', rfl, List.suffix_refl _, ?_⟩
    rw [readlineFrom.eq_def, if_pos (by omega), if_neg hc]
    simp only [h1, Res.done_bind, nul_step hlen, Res.pure_eq]

/-- With no byte due, `readline` goes to where the feed stops. -/
theorem readlineFrom_dry {len ptr : Nat} {buf : List UInt8} (hl : 1 < len) {s : RecvBuf} (h : Ok s)
    {rs : List (Rd UInt8 RECVSIZE)} (hp : pend s rs = []) :
    ∃ s', s'.cnt ≤ 1 ∧ readlineFrom len ptr buf s rs = readlineFrom len ptr buf s' (stop rs) := by
  have hc : s.cnt ≤ 1 := by
    by_contra hc
    exact left_ne_nil h (by omega) (List.append_eq_nil_iff.mp hp).1
  have hb : bytes rs = [] := (List.append_eq_nil_iff.mp hp).2
  clear hp h
  induction rs generalizing s with
  | nil => exact ⟨s, hc, rfl⟩
  | cons r rs ih =>
    cases r with
    | eintr =>
      rw [readlineFrom, if_pos (by omega), if_pos (by omega)]
      exact ih (s := { s with cnt := -1 }) (by simp) hb
    | data c => exact absurd (List.append_eq_nil_iff.mp hb).1 c.ne
    | error => exact ⟨s, hc, rfl⟩
    | eof => exact ⟨s, hc, rfl⟩

theorem takeByte_ok {s s' : RecvBuf} (h : s.bp + s.cnt = s.b.length) {ptr : Nat} {buf buf' : List UInt8} {b : UInt8}
    (he : takeByte ptr buf s = .done (b, buf', s')) : Ok s' := by
  rw [takeByte] at he
  split at he
  · obtain ⟨_, -, he⟩ := Res.bind_done.mp he
    cases he
    intro hc
    simp only at hc ⊢; omega
  · cases he

/-- Every static state a call leaves is in order, whatever `recv` returned. -/
theorem readlineFrom_ok {len ptr : Nat} {buf : List UInt8} {s : RecvBuf} (h : Ok s) {rs : List (Rd UInt8 RECVSIZE)}
    {c : Call RecvBuf RECVSIZE} (he : readlineFrom len ptr buf s rs = .done c) : Ok c.st := by
  induction hk : len + rs.length using Nat.strongRecOn generalizing len ptr buf s rs with
  | ind k ih =>
    rw [readlineFrom.eq_def] at he
    split at he
    · split at he
      · split at he
        · cases he
        · exact ih _ (by subst hk; simp) (by simp [Ok]) he rfl
        · cases he; simp [Ok]
        · cases he; simp [Ok]
        · obtain ⟨⟨b, buf', s'⟩, h1, he⟩ := Res.bind_done.mp he
          have h2 := takeByte_ok (by simp) h1
          simp only at he
          split at he
          · obtain ⟨_, -, he⟩ := Res.bind_done.mp he
            cases he
            exact h2
          · exact ih _ (by subst hk; simp; omega) h2 he rfl
      · have := h (by omega)
        obtain ⟨⟨b, buf', s'⟩, h1, he⟩ := Res.bind_done.mp he
        have h2 := takeByte_ok (by simp only; omega) h1
        simp only at he
        split at he
        · obtain ⟨_, -, he⟩ := Res.bind_done.mp he
          cases he
          exact h2
        · exact ih _ (by omega) h2 he rfl
    · cases he
      exact h

/-! ## One line -/

theorem readlineFrom_line {len : Nat} (p : List UInt8) {buf : List UInt8} (hm : p.length + len ≤ buf.length)
    {s : RecvBuf} (h : Ok s) {rs : List (Rd UInt8 RECVSIZE)} (hn : nl ∈ cut nl (len - 1) (pend s rs)) :
    ∃ s' rs', Ok s' ∧ pend s' rs' = rest nl (len - 1) (pend s rs) ∧ stop rs' = stop rs ∧ rs' <:+ rs ∧
      readlineFrom len p.length (p ++ buf.drop p.length) s rs =
        .done ⟨p.length + (cut nl (len - 1) (pend s rs)).length, stored (p ++ cut nl (len - 1) (pend s rs)) buf, s', rs'⟩ := by
  obtain ⟨k, hk⟩ : ∃ k, len - 1 = k := ⟨_, rfl⟩
  rw [hk] at hn ⊢
  induction k generalizing p len s rs with
  | zero => simp at hn
  | succ k ih =>
    cases hp : pend s rs with
    | nil => rw [hp] at hn; simp at hn
    | cons b q =>
      obtain ⟨s', rs', h1, h2, h3, h4, h5⟩ := readlineFrom_byte p (by omega) hm h hp
      by_cases e : b = nl
      · subst e
        refine ⟨s', rs', h1, by simp [rest, h2], h3, h4, ?_⟩
        rw [h5]; simp
      · rw [hp, cut_ne_cons nl e] at hn
        have hn' : nl ∈ cut nl k (pend s' rs') := by
          rw [h2]; exact (List.mem_cons.mp hn).resolve_left (Ne.symm e)
        obtain ⟨t, ts, g1, g2, g3, g4, g5⟩ := ih (p ++ [b]) (show (p ++ [b]).length + (len - 1) ≤ buf.length by simp; omega) h1 hn' (by omega)
        refine ⟨t, ts, g1, by rw [g2, h2]; simp [rest, cut_ne_cons nl e], g3.trans h3, g4.trans h4, ?_⟩
        have hlen : (p ++ [b]).length = p.length + 1 := by simp
        have happ : p ++ b :: cut nl k q = p ++ [b] ++ cut nl k q := by simp
        rw [hlen] at g5
        rw [h5, if_neg e, hlen, g5, h2, cut_ne_cons nl e, happ]
        simp only [List.length_cons, Res.done.injEq, Call.mk.injEq, and_self, and_true]
        omega

variable {len : Nat} {buf : List UInt8} {s : RecvBuf} {rs : List (Rd UInt8 RECVSIZE)}

/-- A line in reach is stored with its NUL, and the result is its length. -/
theorem readline_line (hm : len ≤ buf.length) (h : Ok s) (hn : nl ∈ cut nl (len - 1) (pend s rs)) :
    ∃ s' rs', Ok s' ∧ pend s' rs' = rest nl (len - 1) (pend s rs) ∧ stop rs' = stop rs ∧ rs' <:+ rs ∧
      readline len buf s rs =
        .done ⟨(cut nl (len - 1) (pend s rs)).length, stored (cut nl (len - 1) (pend s rs)) buf, s', rs'⟩ := by
  simpa [readline] using readlineFrom_line [] (by simpa using hm) h hn

/-- With no line in reach the result is 0 or -1. -/
theorem readlineFrom_no_line {len : Nat} (p : List UInt8) {buf : List UInt8} (hm : p.length + len ≤ buf.length)
    {s : RecvBuf} (h : Ok s) {rs : List (Rd UInt8 RECVSIZE)} (hn : nl ∉ (pend s rs).take (len - 1)) {c : Call RecvBuf RECVSIZE}
    (he : readlineFrom len p.length (p ++ buf.drop p.length) s rs = .done c) : c.rc ≤ 0 := by
  obtain ⟨k, hk⟩ : ∃ k, len - 1 = k := ⟨_, rfl⟩
  rw [hk] at hn
  induction k generalizing p len s rs with
  | zero =>
    rw [readlineFrom.eq_def, if_neg (by omega)] at he
    cases he
    exact (by decide : (-1 : Int) ≤ 0)
  | succ k ih =>
    cases hp : pend s rs with
    | nil =>
      obtain ⟨s', hc, hd⟩ := @readlineFrom_dry len p.length (p ++ buf.drop p.length) (by omega) s h rs hp
      rw [hd] at he
      rcases stop_cases rs with hs | ⟨ys, hs⟩ | ⟨ys, hs⟩
      · rw [hs, readlineFrom, if_pos (by omega), if_pos (by omega)] at he
        cases he
      · rw [hs, readlineFrom, if_pos (by omega), if_pos (by omega)] at he
        cases he
        exact (by decide : (-1 : Int) ≤ 0)
      · rw [hs, readlineFrom, if_pos (by omega), if_pos (by omega)] at he
        cases he
        exact Int.le_refl 0
    | cons b q =>
      rw [hp, List.take_succ_cons, List.mem_cons, not_or] at hn
      obtain ⟨s', rs', h1, h2, -, -, h5⟩ := readlineFrom_byte p (by omega) hm h hp
      have hlen : (p ++ [b]).length = p.length + 1 := by simp
      rw [h5, if_neg (Ne.symm hn.1), ← hlen] at he
      exact ih (p ++ [b]) (show (p ++ [b]).length + (len - 1) ≤ buf.length by simp; omega) h1 he
        (by rw [h2]; exact hn.2) (by omega)

/-- A call that returns has found a line just when one is in reach. -/
theorem readline_pos (hm : len ≤ buf.length) (h : Ok s) {c : Call RecvBuf RECVSIZE} (he : readline len buf s rs = .done c) :
    0 < c.rc ↔ nl ∈ (pend s rs).take (len - 1) := by
  constructor
  · intro hpos
    by_contra hn
    exact absurd (readlineFrom_no_line [] (by simpa using hm) h hn he) (Int.not_le.mpr hpos)
  · intro hn
    have hmem := (mem_cut_iff nl _ _).mpr hn
    obtain ⟨s', rs', -, -, -, -, hline⟩ := readline_line hm h hmem
    rw [hline] at he
    cases he
    exact Int.natCast_pos.mpr (List.length_pos_of_mem hmem)

/-- An unfinished piece with nothing else to come leaves the call waiting in `recv`. -/
theorem readline_blocked (hm : len ≤ buf.length) (h : Ok s) (hl : (pend s rs).length + 1 < len)
    (hn : nl ∉ pend s rs) (hs : stop rs = []) : readline len buf s rs = .blocked := by
  suffices H : ∀ q (p : List UInt8) (len : Nat) (s : RecvBuf) (rs : List (Rd UInt8 RECVSIZE)), pend s rs = q → Ok s →
      p.length + len ≤ buf.length → q.length + 1 < len → nl ∉ q → stop rs = [] →
      readlineFrom len p.length (p ++ buf.drop p.length) s rs = .blocked by
    simpa [readline] using H _ [] len s rs rfl h (by simpa using hm) hl hn hs
  clear hm h hl hn hs
  intro q
  induction q with
  | nil =>
    intro p len s rs hp h hm hl _ hs
    obtain ⟨s', hc, he⟩ := readlineFrom_dry (by omega) h hp
    rw [he, hs, readlineFrom, if_pos (by omega), if_pos (by omega)]
  | cons b q ih =>
    intro p len s rs hp h hm hl hn hs
    simp only [List.mem_cons, not_or, List.length_cons] at hn hl
    obtain ⟨s', rs', h1, h2, h3, -, h5⟩ := readlineFrom_byte p (by omega) hm h hp
    rw [h5, if_neg (Ne.symm hn.1)]
    have := ih (p ++ [b]) (len - 1) s' rs' h2 h1 (by simp; omega) (by omega) hn.2 (h3.trans hs)
    simpa using this

/-! ## The two readers agree -/

/-- From static states that owe the same bytes, with a newline in reach. -/
theorem readline_agrees {buf1 buf2 : List UInt8} (h1 : buf1.length = len) (h2 : buf2.length = len) {s : RecvBuf}
    {t : ReadBuf} (hs : Ok s) (ht : LineReader.Ok t) {rs : List (Rd UInt8 RECVSIZE)} {ts : List (Rd UInt8 MAXLINE)}
    (same : pend s rs = LineReader.pend t ts) (hn : nl ∈ (pend s rs).take (len - 1)) :
    ∃ c d, readline len buf1 s rs = .done c ∧ readline2 len buf2 t ts = .done d ∧ c.rc = d.rc ∧ 0 < c.rc ∧
      (∃ p, c.rc = p.length ∧ p = cut nl (len - 1) (pend s rs) ∧ c.buf = stored p buf1 ∧ d.buf = stored p buf2) ∧
      Ok c.st ∧ LineReader.Ok d.st ∧ pend c.st c.rs = rest nl (len - 1) (pend s rs) ∧
      LineReader.pend d.st d.rs = rest nl (len - 1) (pend s rs) := by
  have hmem : nl ∈ cut nl (len - 1) (pend s rs) := (mem_cut_iff nl _ _).mpr hn
  have hpos := List.length_pos_of_mem hmem
  have hlen := cut_length_le nl (len - 1) (pend s rs)
  obtain ⟨s', rs', a1, a2, -, -, a5⟩ := readline_line (Nat.le_of_eq h1.symm) hs hmem
  obtain ⟨t', ts', b1, b2, -, -, b5⟩ := LineReader.readline_full (show 1 ≤ len by omega) (Nat.le_of_eq h2.symm) ht
    (same ▸ Or.inl hmem)
  have b6 := b5 _ (congrArg (cut nl (len - 1)) same)
  rw [if_pos hmem] at b6
  exact ⟨_, _, a5, b6, rfl, by simpa using hpos, ⟨_, rfl, rfl, rfl, rfl⟩, a1, b1, a2, same ▸ b2⟩

/-- Over any number of lines in reach, the two return the same lengths, store the same
    lines and owe the same bytes. -/
theorem calls_agree {lines : List (List UInt8)} (hl : ∀ l ∈ lines, Line nl l ∧ l.length ≤ len - 1)
    {bufs1 bufs2 : List (List UInt8)} (h1 : bufs1.length = lines.length) (h2 : bufs2.length = lines.length)
    (hb1 : ∀ b ∈ bufs1, b.length = len) (hb2 : ∀ b ∈ bufs2, b.length = len) {s : RecvBuf} {t : ReadBuf} (hs : Ok s)
    (ht : LineReader.Ok t) {rs : List (Rd UInt8 RECVSIZE)} {ts : List (Rd UInt8 MAXLINE)}
    (same : pend s rs = LineReader.pend t ts) {tail : List UInt8} (hp : pend s rs = lines.flatten ++ tail) :
    ∃ out1 out2 s' t' rs' ts', calls (readline len) bufs1 s rs = .done (out1, s', rs') ∧
      calls (readline2 len) bufs2 t ts = .done (out2, t', ts') ∧
      out1.map Prod.fst = lines.map (fun l => (l.length : Int)) ∧ out2.map Prod.fst = out1.map Prod.fst ∧
      out1.map Prod.snd = List.zipWith stored lines bufs1 ∧ out2.map Prod.snd = List.zipWith stored lines bufs2 ∧
      pend s' rs' = tail ∧ LineReader.pend t' ts' = tail := by
  induction lines generalizing bufs1 bufs2 s t rs ts with
  | nil =>
    obtain rfl := List.eq_nil_of_length_eq_zero h1
    obtain rfl := List.eq_nil_of_length_eq_zero h2
    exact ⟨[], [], s, t, rs, ts, rfl, rfl, rfl, rfl, rfl, rfl, hp, same ▸ hp⟩
  | cons l lines ih =>
    obtain ⟨b1, bufs1, rfl⟩ := List.exists_cons_of_length_eq_add_one h1
    obtain ⟨b2, bufs2, rfl⟩ := List.exists_cons_of_length_eq_add_one h2
    obtain ⟨hline, hlen⟩ := hl l (by simp)
    rw [List.flatten_cons, List.append_assoc] at hp
    have hmem : nl ∈ (pend s rs).take (len - 1) := by
      rw [hp, List.take_append, List.take_of_length_le hlen]
      exact List.mem_append_left _ hline.mem
    obtain ⟨c, d, e1, e2, e3, -, ⟨p, e4, e5, e6, e7⟩, e8, e9, e10, e11⟩ :=
      readline_agrees (hb1 b1 (by simp)) (hb2 b2 (by simp)) hs ht same hmem
    rw [hp, hline.cut hlen] at e5
    rw [hp, hline.rest hlen] at e10 e11
    subst e5
    obtain ⟨o1, o2, s', t', rs', ts', i1, i2, i3, i4, i5, i6, i7⟩ :=
      ih (fun m hm => hl m (List.mem_cons_of_mem _ hm)) (by simpa using h1) (by simpa using h2)
        (fun b hb => hb1 b (List.mem_cons_of_mem _ hb)) (fun b hb => hb2 b (List.mem_cons_of_mem _ hb)) e8 e9
        (e10.trans e11.symm) e10
    refine ⟨(c.rc, c.buf) :: o1, (d.rc, d.buf) :: o2, s', t', rs', ts', by simp [calls, e1, i1], by simp [calls, e2, i2],
      ?_, ?_, ?_, ?_, i7⟩
    · rw [List.map_cons, i3, List.map_cons, e4]
    · rw [List.map_cons, i4, List.map_cons, e3]
    · rw [List.map_cons, i5, e6]; rfl
    · rw [List.map_cons, i6, e7]; rfl

/-- `readline` and `readline2` agree. From static states that owe the same bytes, a call
    with a newline in reach returns the same length, stores the same bytes and a NUL, and
    leaves the same bytes owed; so they agree call after call on lines in reach. -/
theorem readers_agree {s : RecvBuf} {t : ReadBuf} (hs : Ok s) (ht : LineReader.Ok t) {rs : List (Rd UInt8 RECVSIZE)}
    {ts : List (Rd UInt8 MAXLINE)} (same : pend s rs = LineReader.pend t ts) (len : Nat) :
    (∀ buf1 buf2 : List UInt8, buf1.length = len → buf2.length = len → nl ∈ (pend s rs).take (len - 1) →
      ∃ c d p, readline len buf1 s rs = .done c ∧ readline2 len buf2 t ts = .done d ∧ c.rc = d.rc ∧ 0 < c.rc ∧
        c.rc = p.length ∧ c.buf = stored p buf1 ∧ d.buf = stored p buf2 ∧ pend c.st c.rs = LineReader.pend d.st d.rs ∧
        p ++ pend c.st c.rs = pend s rs) ∧
    ∀ (lines : List (List UInt8)) (tail : List UInt8), (∀ l ∈ lines, Line nl l ∧ l.length ≤ len - 1) →
      pend s rs = lines.flatten ++ tail → ∀ bufs1 bufs2 : List (List UInt8), bufs1.length = lines.length →
      bufs2.length = lines.length → (∀ b ∈ bufs1, b.length = len) → (∀ b ∈ bufs2, b.length = len) →
      ∃ out1 out2 s' t' rs' ts', calls (readline len) bufs1 s rs = .done (out1, s', rs') ∧
        calls (readline2 len) bufs2 t ts = .done (out2, t', ts') ∧
        out1.map Prod.fst = lines.map (fun l => (l.length : Int)) ∧ out2.map Prod.fst = out1.map Prod.fst ∧
        out1.map Prod.snd = List.zipWith stored lines bufs1 ∧ out2.map Prod.snd = List.zipWith stored lines bufs2 ∧
        pend s' rs' = tail ∧ LineReader.pend t' ts' = tail := by
  constructor
  · intro buf1 buf2 h1 h2 hn
    obtain ⟨c, d, e1, e2, e3, e4, ⟨p, e5, e6, e7, e8⟩, -, -, e9, e10⟩ := readline_agrees h1 h2 hs ht same hn
    refine ⟨c, d, p, e1, e2, e3, e4, e5, e7, e8, e9.trans e10.symm, ?_⟩
    rw [e6, e9, cut_append_rest]
  · intro lines tail hl hp bufs1 bufs2 h1 h2 hb1 hb2
    exact calls_agree hl h1 h2 hb1 hb2 hs ht same hp

/-- Two lines, chunked differently on the two sides. -/
theorem readers_agree_two :
    ∃ out1 out2 s' t' rs' ts',
      calls (readline 8) [List.replicate 8 0, List.replicate 8 0] .init
        [.data ⟨[97, 10, 98], by simp, by decide⟩, .eintr, .data ⟨[10], by simp, by decide⟩] = .done (out1, s', rs') ∧
      calls (readline2 8) [List.replicate 8 0, List.replicate 8 0] .init
        [.eintr, .data ⟨[97], by simp, by decide⟩, .data ⟨[10, 98, 10], by simp, by decide⟩] = .done (out2, t', ts') ∧
      out1.map Prod.fst = [[97, 10], [98, 10]].map (fun l : List UInt8 => (l.length : Int)) ∧
      out2.map Prod.fst = out1.map Prod.fst ∧
      out1.map Prod.snd = List.zipWith stored [[97, 10], [98, 10]] [List.replicate 8 0, List.replicate 8 0] ∧
      out2.map Prod.snd = List.zipWith stored [[97, 10], [98, 10]] [List.replicate 8 0, List.replicate 8 0] ∧
      pend s' rs' = [] ∧ LineReader.pend t' ts' = [] :=
  (readers_agree ok_init LineReader.ok_init rfl 8).2 [[97, 10], [98, 10]] []
    (by
      intro l hl
      simp only [List.mem_cons, List.not_mem_nil, or_false] at hl
      rcases hl with rfl | rfl
      · exact ⟨⟨[97], by decide, rfl⟩, by decide⟩
      · exact ⟨⟨[98], by decide, rfl⟩, by decide⟩)
    rfl _ _ rfl rfl (by decide) (by decide)

end NetworkCourse.Intro.Client
