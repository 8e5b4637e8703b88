/-
  NetworkCourse.Intro.LineReader — `my_read` and `readline` (intro/reliable_test_server.c;
  the client's `my_read` and `readline2` are the same text).

  `my_read` hands out one byte at a time of a static buffer and calls `read` when it is
  used up. The static variables live in `ReadBuf`; `readBuf` is the part of `read_buf`
  the last `read` filled. A load past it and a store past the caller's buffer are
  faults.

  What a call sees is `pend`: the unread part of the static buffer and what the feed
  still delivers. `readline` stores the next piece of it (`Lib.Cut.cut`) and a NUL
  (`readline_full`), waits when the piece is unfinished (`readline_blocked`), and at
  end of file stores what there is (`readline_eof`).
-/

import NetworkCourse.Lib.Cut
import NetworkCourse.Lib.Feed
import NetworkCourse.Lib.Ascii

namespace NetworkCourse.Intro.LineReader

open Lib.Cut Lib.Feed Lib.Ascii

def MAXLINE : Nat := 1024

structure ReadBuf where
  readCnt : Int
  readPtr : Nat
  readBuf : List UInt8
  deriving DecidableEq

def ReadBuf.init : ReadBuf := ⟨0, 0, []⟩

/-- What a line reader leaves: its result, the caller's buffer, its static variables
    and the results it did not use. -/
structure Call (σ : Type) (cap : Nat) where
  rc : Int
  buf : List UInt8
  st : σ
  rs : List (Rd UInt8 cap)

/-- Successive calls of a line reader on one connection, each with its own buffer. -/
def calls {σ : Type} {cap : Nat} (reader : List UInt8 → σ → List (Rd UInt8 cap) → Res (Call σ cap)) :
    List (List UInt8) → σ → List (Rd UInt8 cap) → Res (List (Int × List UInt8) × σ × List (Rd UInt8 cap))
  | [], s, rs => .done ([], s, rs)
  | buf :: bufs, s, rs => do
    let c ← reader buf s rs
    let (outs, s, rs) ← calls reader bufs c.st c.rs
    return ((c.rc, c.buf) :: outs, s, rs)

/-- `read_cnt--; *ptr = *read_ptr++; return 1` -/
def handOut (s : ReadBuf) (rs : List (Rd UInt8 MAXLINE)) : Res (Int × UInt8 × ReadBuf × List (Rd UInt8 MAXLINE)) :=
  match s.readBuf[s.readPtr]? with
  | some c => .done (1, c, { s with readCnt := s.readCnt - 1, readPtr := s.readPtr + 1 }, rs)
  | none => .fault

/-- The label `again`. -/
def again (s : ReadBuf) : List (Rd UInt8 MAXLINE) → Res (Int × UInt8 × ReadBuf × List (Rd UInt8 MAXLINE))
  | [] => .blocked
  | .eintr :: rs => again { s with readCnt := -1 } rs
  | .error :: rs => .done (-1, 0, { s with readCnt := -1 }, rs)
  | .eof :: rs => .done (0, 0, { s with readCnt := 0 }, rs)
  | .data c :: rs => handOut ⟨c.data.length, 0, c.data⟩ rs

/-- The byte is meant only when the result is 1. -/
def myRead (s : ReadBuf) (rs : List (Rd UInt8 MAXLINE)) : Res (Int × UInt8 × ReadBuf × List (Rd UInt8 MAXLINE)) :=
  if s.readCnt ≤ 0 then again s rs else handOut s rs

/-- The loop of `readline`, from its test on. -/
def readlineFrom (maxlen n ptr : Nat) (buf : List UInt8) (s : ReadBuf) (rs : List (Rd UInt8 MAXLINE)) :
    Res (Call ReadBuf MAXLINE) :=
  if n < maxlen then do
    let (rc, c, s, rs) ← myRead s rs
    if rc = 1 then
      let buf ← store buf ptr c
      if c = nl then
        let buf ← store buf (ptr + 1) 0
        return ⟨n, buf, s, rs⟩
      else readlineFrom maxlen (n + 1) (ptr + 1) buf s rs
    else if rc = 0 then
      let buf ← store buf ptr 0
      return ⟨n - 1, buf, s, rs⟩
    else return ⟨-1, buf, s, rs⟩
  else do
    let buf ← store buf ptr 0
    return ⟨n, buf, s, rs⟩
termination_by maxlen - n

def readline (maxlen : Nat) (buf : List UInt8) (s : ReadBuf) (rs : List (Rd UInt8 MAXLINE)) :
    Res (Call ReadBuf MAXLINE) :=
  readlineFrom maxlen 1 0 buf s rs

/-! ## The static buffer -/

/-- The bytes of the static buffer not handed out yet. -/
def left (s : ReadBuf) : List UInt8 := if 0 < s.readCnt then s.readBuf.drop s.readPtr else []

/-- `read_cnt` counts them. -/
def Ok (s : ReadBuf) : Prop := 0 < s.readCnt → s.readPtr + s.readCnt = s.readBuf.length

/-- The bytes still to be delivered. -/
def pend (s : ReadBuf) (rs : List (Rd UInt8 MAXLINE)) : List UInt8 := left s ++ bytes rs

@[simp] theorem ok_init : Ok .init := by simp [Ok, ReadBuf.init]
@[simp] theorem left_init : left .init = [] := rfl

theorem left_nil {s : ReadBuf} (h : s.readCnt ≤ 0) : left s = [] := if_neg (by omega)

theorem left_ne_nil {s : ReadBuf} (h : Ok s) (hc : 0 < s.readCnt) : left s ≠ [] := by
  have := h hc
  rw [left, if_pos hc, Ne, List.drop_eq_nil_iff]; omega

theorem handOut_spec {s : ReadBuf} (h : Ok s) (hc : 0 < s.readCnt) (rs : List (Rd UInt8 MAXLINE)) :
    ∃ b s', handOut s rs = .done (1, b, s', rs) ∧ Ok s' ∧ left s = b :: left s' := by
  have hl := h hc
  have hlt : s.readPtr < s.readBuf.length := by omega
  refine ⟨s.readBuf[s.readPtr], _, by rw [handOut, List.getElem?_eq_getElem hlt], ?_, ?_⟩
  · intro hc'
    simp only at hc' ⊢
    omega
  · rw [left, if_pos hc, left, List.drop_eq_getElem_cons hlt]
    by_cases h1 : 0 < s.readCnt - 1
    · rw [if_pos h1]
    · rw [if_neg h1, List.drop_eq_nil_iff.mpr (by omega)]

/-- A byte that is due is handed out, and the rest stays due. -/
theorem again_byte (s : ReadBuf) {rs : List (Rd UInt8 MAXLINE)} {b : UInt8} {p : List UInt8} (hp : bytes rs = b :: p) :
    ∃ s' rs', again s rs = .done (1, b, s', rs') ∧ Ok s' ∧ pend s' rs' = p ∧ stop rs' = stop rs ∧ rs' <:+ rs := by
  induction rs generalizing s with
  | nil => simp at hp
  | cons r rs ih =>
    cases r with
    | eintr =>
      obtain ⟨s', rs', h1, h2, h3, h4, h5⟩ := ih { s with readCnt := -1 } hp
      exact ⟨s', rs', h1, h2, h3, h4, h5.trans (List.suffix_cons _ _)⟩
    | data c =>
      have hpos : 0 < c.data.length := List.length_pos_iff.mpr c.ne
      obtain ⟨b', s', h1, h2, h3⟩ := handOut_spec (s := ⟨c.data.length, 0, c.data⟩) (by simp [Ok]) (by simpa using hpos) rs
      have hd : c.data = b' :: left s' := by simpa [left, hpos] using h3
      have hp' : (b' :: left s') ++ bytes rs = b :: p := by rw [← hd]; exact hp
      injection hp' with hb hp'
      subst hb
      exact ⟨s', rs, h1, h2, hp', rfl, List.suffix_cons _ _⟩
    | error => simp at hp
    | eof => simp at hp

theorem myRead_byte {s : ReadBuf} (h : Ok s) {rs : List (Rd UInt8 MAXLINE)} {b : UInt8} {p : List UInt8}
    (hp : pend s rs = b :: p) :
    ∃ s' rs', myRead s rs = .done (1, b, s', rs') ∧ Ok s' ∧ pend s' rs' = p ∧ stop rs' = stop rs ∧ rs' <:+ rs := by
  by_cases hc : s.readCnt ≤ 0
  · rw [pend, left_nil hc, List.nil_append] at hp
    simpa only [myRead, if_pos hc] using again_byte s hp
  · obtain ⟨b', s', h1, h2, h3⟩ := handOut_spec h (by omega) rs
    rw [pend, h3, List.cons_append] at hp
    injection hp with hb hp
    subst hb
    exact ⟨s', rs, by rw [myRead, if_neg hc, h1], h2, hp, rfl, List.suffix_refl _⟩

/-- With no byte due, `my_read` goes to where the feed stops. -/
theorem myRead_dry {s : ReadBuf} (h : Ok s) {rs : List (Rd UInt8 MAXLINE)} (hp : pend s rs = []) :
    ∃ s', s'.readCnt ≤ 0 ∧ myRead s rs = again s' (stop rs) := by
  have hc : s.readCnt ≤ 0 := by
    by_contra hc
    exact left_ne_nil h (by omega) (List.append_eq_nil_iff.mp hp).1
  have hb : bytes rs = [] := (List.append_eq_nil_iff.mp hp).2
  rw [myRead, if_pos hc]
  clear hp h
  induction rs generalizing s with
  | nil => exact ⟨s, hc, rfl⟩
  | cons r rs ih =>
    cases r with
    | eintr => exact ih (s := { s with readCnt := -1 }) (by simp) hb
    | data c => exact absurd (List.append_eq_nil_iff.mp hb).1 c.ne
    | error => exact ⟨s, hc, rfl⟩
    | eof => exact ⟨s, hc, rfl⟩

/-- Whatever `my_read` returns, `read_cnt` goes on counting. -/
theorem myRead_ok {s s' : ReadBuf} (h : Ok s) {rs rs' : List (Rd UInt8 MAXLINE)} {rc : Int} {b : UInt8}
    (he : myRead s rs = .done (rc, b, s', rs')) : Ok s' := by
  have hand : ∀ t : ReadBuf, Ok t → 0 < t.readCnt → ∀ ys, handOut t ys = .done (rc, b, s', rs') → Ok s' := by
    intro t ht hc ys hy
    obtain ⟨_, t', h1, h2, -⟩ := handOut_spec ht hc ys
    rw [h1] at hy
    cases hy
    exact h2
  rw [myRead] at he
  split at he
  · clear h
    induction rs generalizing s with
    | nil => cases he
    | cons r rs ih =>
      cases r with
      | eintr => exact ih (s := { s with readCnt := -1 }) (by simp) he
      | error => cases he; simp [Ok]
      | eof => cases he; simp [Ok]
      | data c => exact hand _ (by simp [Ok]) (by simpa using List.length_pos_iff.mpr c.ne) _ he
  · exact hand s h (by omega) rs he

theorem readlineFrom_ok {maxlen n ptr : Nat} {buf : List UInt8} {s : ReadBuf} (h : Ok s)
    {rs : List (Rd UInt8 MAXLINE)} {c : Call ReadBuf MAXLINE} (he : readlineFrom maxlen n ptr buf s rs = .done c) :
    Ok c.st := by
  induction hk : maxlen - n generalizing n ptr buf s rs with
  | zero =>
    rw [readlineFrom, if_neg (by omega)] at he
    obtain ⟨_, -, he⟩ := Res.bind_done.mp he
    cases he
    exact h
  | succ k ih =>
    rw [readlineFrom, if_pos (by omega)] at he
    obtain ⟨⟨rc, b, s', rs'⟩, h1, he⟩ := Res.bind_done.mp he
    have h2 := myRead_ok h h1
    simp only at he
    split at he
    · obtain ⟨_, -, he⟩ := Res.bind_done.mp he
      split at he
      · obtain ⟨_, -, he⟩ := Res.bind_done.mp he
        cases he
        exact h2
      · exact ih h2 he (by omega)
    · split at he
      · obtain ⟨_, -, he⟩ := Res.bind_done.mp he
        cases he
        exact h2
      · cases he
        exact h2

/-- Every static state a call leaves is in order, whatever `read` returned. -/
theorem readline_ok {maxlen : Nat} {buf : List UInt8} {s : ReadBuf} (h : Ok s) {rs : List (Rd UInt8 MAXLINE)}
    {c : Call ReadBuf MAXLINE} (he : readline maxlen buf s rs = .done c) : Ok c.st :=
  readlineFrom_ok h he

/-! ## One call -/

/-- The caller's buffer once `p` and a NUL are stored at its start. -/
def stored (p buf : List UInt8) : List UInt8 := p ++ 0 :: buf.drop (p.length + 1)

theorem stored_length {p buf : List UInt8} (h : p.length < buf.length) : (stored p buf).length = buf.length := by
  simp [stored]; omega

theorem store_nul {p buf : List UInt8} (h : p.length < buf.length) :
    store (p ++ buf.drop p.length) p.length 0 = .done (stored p buf) := by
  rw [store_of_lt (by simp; omega), set_append_drop h, stored]

theorem store_byte {p buf : List UInt8} (h : p.length < buf.length) (b : UInt8) :
    store (p ++ buf.drop p.length) p.length b = .done ((p ++ [b]) ++ buf.drop (p ++ [b]).length) := by
  rw [store_of_lt (by simp; omega), set_append_drop h]
  simp

/-- One turn of the loop that gets a byte. -/
theorem readlineFrom_byte {maxlen : Nat} (acc : List UInt8) {buf : List UInt8} (hm : maxlen ≤ buf.length)
    (hn : acc.length + 1 < maxlen) {s : ReadBuf} (h : Ok s) {rs : List (Rd UInt8 MAXLINE)} {b : UInt8} {p : List UInt8}
    (hp : pend s rs = b :: p) :
    ∃ s' rs', Ok s' ∧ pend s' rs' = p ∧ stop rs' = stop rs ∧ rs' <:+ rs ∧
      readlineFrom maxlen (acc.length + 1) acc.length (acc ++ buf.drop acc.length) s rs =
        if b = nl then .done ⟨(acc ++ [b]).length, stored (acc ++ [b]) buf, s', rs'⟩
        else readlineFrom maxlen ((acc ++ [b]).length + 1) (acc ++ [b]).length
          ((acc ++ [b]) ++ buf.drop (acc ++ [b]).length) s' rs' := by
  obtain ⟨s', rs', h1, h2, h3, h4, h5⟩ := myRead_byte h hp
  refine ⟨s', rs', h2, h3, h4, h5, ?_⟩
  rw [readlineFrom, if_pos hn, h1]
  simp only [Res.done_bind, if_true, store_byte (show acc.length < buf.length by omega)]
  by_cases e : b = nl
  · have hlen : (acc ++ [b]).length = acc.length + 1 := by simp
    have hst := store_nul (show (acc ++ [b]).length < buf.length by omega)
    rw [hlen] at hst ⊢
    simp only [if_pos e, hst, Res.done_bind, Res.pure_eq]
  · simp [e]

theorem readlineFrom_full {maxlen : Nat} (acc : List UInt8) {buf : List UInt8} (hm : maxlen ≤ buf.length)
    (hn : acc.length < maxlen) {s : ReadBuf} (h : Ok s) {rs : List (Rd UInt8 MAXLINE)}
    (hf : Full nl (maxlen - (acc.length + 1)) (cut nl (maxlen - (acc.length + 1)) (pend s rs))) :
    ∃ s' rs', Ok s' ∧ pend s' rs' = rest nl (maxlen - (acc.length + 1)) (pend s rs) ∧ stop rs' = stop rs ∧ rs' <:+ rs ∧
      ∀ p, p = cut nl (maxlen - (acc.length + 1)) (pend s rs) →
      readlineFrom maxlen (acc.length + 1) acc.length (acc ++ buf.drop acc.length) s rs =
        .done ⟨if nl ∈ p then (acc ++ p).length else (acc ++ p).length + 1, stored (acc ++ p) buf, s', rs'⟩ := by
  obtain ⟨k, hk⟩ : ∃ k, maxlen - (acc.length + 1) = k := ⟨_, rfl⟩
  rw [hk] at hf ⊢
  induction k generalizing acc s rs with
  | zero =>
    refine ⟨s, rs, h, by simp [rest], rfl, List.suffix_refl _, ?_⟩
    rintro p rfl
    rw [readlineFrom, if_neg (by omega), store_nul (by omega)]
    simp
  | succ k ih =>
    cases hp : pend s rs with
    | nil => rw [hp] at hf; simp [Full] at hf
    | cons b q =>
      obtain ⟨s', rs', h1, h2, h3, h4, h5⟩ := readlineFrom_byte acc hm (by omega) h hp
      by_cases e : b = nl
      · subst e
        refine ⟨s', rs', h1, by simp [rest, h2], h3, h4, ?_⟩
        rintro p rfl
        rw [h5]
        simp
      · have hlen : (acc ++ [b]).length = acc.length + 1 := by simp
        have hf' : Full nl k (cut nl k (pend s' rs')) := by
          rw [hp, cut_ne_cons nl e] at hf
          rw [h2]
          rcases hf with hf | hf
          · exact Or.inl ((List.mem_cons.mp hf).resolve_left (Ne.symm e))
          · exact Or.inr (by simpa using hf)
        obtain ⟨t, ts, g1, g2, g3, g4, g5⟩ := ih (acc ++ [b]) (by omega) h1 hf' (by omega)
        refine ⟨t, ts, g1, by rw [g2, h2]; simp [rest, cut_ne_cons nl e], g3.trans h3, g4.trans h4, ?_⟩
        rintro p rfl
        rw [h5, if_neg e, g5 _ rfl, h2, cut_ne_cons nl e]
        have happ : acc ++ b :: cut nl k q = acc ++ [b] ++ cut nl k q := by simp
        simp only [happ, List.mem_cons, Ne.symm e, false_or]

/-- An unfinished piece is stored, and the next `read` decides. -/
theorem readlineFrom_dry {maxlen : Nat} (acc : List UInt8) {buf : List UInt8} (hm : maxlen ≤ buf.length)
    (hn : acc.length < maxlen) {s : ReadBuf} (h : Ok s) {rs : List (Rd UInt8 MAXLINE)}
    (hf : ¬ Full nl (maxlen - (acc.length + 1)) (cut nl (maxlen - (acc.length + 1)) (pend s rs))) :
    ∃ s', s'.readCnt ≤ 0 ∧ ∀ p, p = acc ++ pend s rs → p.length + 1 < maxlen ∧
      readlineFrom maxlen (acc.length + 1) acc.length (acc ++ buf.drop acc.length) s rs =
        readlineFrom maxlen (p.length + 1) p.length (p ++ buf.drop p.length) s' (stop rs) := by
  obtain ⟨k, hk⟩ : ∃ k, maxlen - (acc.length + 1) = k := ⟨_, rfl⟩
  rw [hk] at hf
  induction k generalizing acc s rs with
  | zero => exact absurd (Or.inr (by simp)) hf
  | succ k ih =>
    cases hp : pend s rs with
    | nil =>
      obtain ⟨s', hc, he⟩ := myRead_dry h hp
      refine ⟨s', hc, ?_⟩
      rintro p rfl
      rw [List.append_nil]
      refine ⟨by omega, ?_⟩
      rw [readlineFrom, readlineFrom, if_pos (by omega), if_pos (by omega), he, myRead, if_pos hc]
    | cons b q =>
      obtain ⟨s', rs', h1, h2, h3, h4, h5⟩ := readlineFrom_byte acc hm (by omega) h hp
      by_cases e : b = nl
      · exact absurd (Or.inl (by rw [hp, e]; simp)) hf
      · have hlen : (acc ++ [b]).length = acc.length + 1 := by simp
        have hf' : ¬ Full nl k (cut nl k (pend s' rs')) := by
          rw [hp, cut_ne_cons nl e] at hf
          rw [h2]
          rintro (hq | hq)
          · exact hf (Or.inl (List.mem_cons_of_mem _ hq))
          · exact hf (Or.inr (by simpa using hq))
        obtain ⟨t, g1, g2⟩ := ih (acc ++ [b]) (by omega) h1 hf' (by omega)
        refine ⟨t, g1, ?_⟩
        rintro p rfl
        have happ : acc ++ b :: q = acc ++ [b] ++ pend s' rs' := by simp [h2]
        rw [happ, h5, if_neg e, ← h3]
        exact g2 _ rfl

variable {maxlen : Nat} {buf : List UInt8} {s : ReadBuf} {rs : List (Rd UInt8 MAXLINE)}

/-- A finished piece is stored with its NUL, whatever results brought it; the result
    counts it, one too many when the buffer cut it. -/
theorem readline_full (h1 : 1 ≤ maxlen) (hm : maxlen ≤ buf.length) (h : Ok s)
    (hf : Full nl (maxlen - 1) (cut nl (maxlen - 1) (pend s rs))) :
    ∃ s' rs', Ok s' ∧ pend s' rs' = rest nl (maxlen - 1) (pend s rs) ∧ stop rs' = stop rs ∧ rs' <:+ rs ∧
      ∀ p, p = cut nl (maxlen - 1) (pend s rs) →
      readline maxlen buf s rs = .done ⟨if nl ∈ p then p.length else p.length + 1, stored p buf, s', rs'⟩ :=
  readlineFrom_full [] hm h1 h hf

/-- An unfinished piece with nothing else to come leaves the call waiting in `read`. -/
theorem readline_blocked (h1 : 1 ≤ maxlen) (hm : maxlen ≤ buf.length) (h : Ok s)
    (hf : ¬ Full nl (maxlen - 1) (cut nl (maxlen - 1) (pend s rs))) (hs : stop rs = []) :
    readline maxlen buf s rs = .blocked := by
  obtain ⟨s', hc, hd⟩ := readlineFrom_dry [] hm h1 h hf
  obtain ⟨hlt, he⟩ := hd _ rfl
  refine he.trans ?_
  rw [hs, readlineFrom, if_pos hlt, myRead, if_pos hc]
  rfl

/-- At end of file the unfinished piece is stored and counted. -/
theorem readline_eof (h1 : 1 ≤ maxlen) (hm : maxlen ≤ buf.length) (h : Ok s)
    (hf : ¬ Full nl (maxlen - 1) (cut nl (maxlen - 1) (pend s rs))) {ys : List (Rd UInt8 MAXLINE)}
    (hs : stop rs = .eof :: ys) :
    ∃ s', Ok s' ∧ left s' = [] ∧
      readline maxlen buf s rs = .done ⟨(pend s rs).length, stored (pend s rs) buf, s', ys⟩ := by
  obtain ⟨s', hc, hd⟩ := readlineFrom_dry [] hm h1 h hf
  obtain ⟨hlt, he⟩ := hd _ rfl
  refine ⟨{ s' with readCnt := 0 }, by simp [Ok], rfl, he.trans ?_⟩
  rw [List.nil_append] at hlt ⊢
  rw [hs, readlineFrom, if_pos hlt, myRead, if_pos hc]
  simp [again, store_nul (show (pend s rs).length < buf.length by omega)]

/-- A failed `read` ends the call; the unfinished piece is stored without a NUL. -/
theorem readline_error (h1 : 1 ≤ maxlen) (hm : maxlen ≤ buf.length) (h : Ok s)
    (hf : ¬ Full nl (maxlen - 1) (cut nl (maxlen - 1) (pend s rs))) {ys : List (Rd UInt8 MAXLINE)}
    (hs : stop rs = .error :: ys) :
    ∃ s', readline maxlen buf s rs = .done ⟨-1, pend s rs ++ buf.drop (pend s rs).length, s', ys⟩ := by
  obtain ⟨s', hc, hd⟩ := readlineFrom_dry [] hm h1 h hf
  obtain ⟨hlt, he⟩ := hd _ rfl
  refine ⟨{ s' with readCnt := -1 }, he.trans ?_⟩
  rw [List.nil_append] at hlt ⊢
  rw [hs, readlineFrom, if_pos hlt, myRead, if_pos hc]
  rfl

/-- A call that had to wait for the last result used all of them. -/
theorem results_used {cap : Nat} {rs ys : List (Rd UInt8 cap)} {r : Rd UInt8 cap} (hs : stop (rs ++ [r]) = [])
    (hy : ys <:+ rs ++ [r]) {k : Nat} {p q : List UInt8} (h0 : ¬ Full nl k (cut nl k (p ++ bytes rs)))
    (hf : Full nl k (cut nl k (p ++ bytes (rs ++ [r])))) (hq : q ++ bytes ys = rest nl k (p ++ bytes (rs ++ [r]))) :
    ys = [] := by
  have hrs : stop rs = [] := stop_of_append hs
  rw [stop_append hrs] at hs
  rw [bytes_append hrs, ← List.append_assoc] at hf hq
  cases r with
  | data c =>
    rcases List.eq_nil_or_concat ys with rfl | ⟨zs, z, rfl⟩
    · rfl
    · obtain ⟨w, hw⟩ := hy
      rw [List.concat_eq_append] at hw hq
      rw [← List.append_assoc] at hw
      obtain ⟨h1, h2⟩ := List.append_inj' hw rfl
      injection h2 with h2 _
      subst h2
      have hz : stop zs = [] := stop_suffix hrs ⟨w, h1⟩
      have hlt := cut_append_lt nl h0 (t := c.data ++ []) (by simpa using c.ne)
      have hlen := rest_length nl k ((p ++ bytes rs) ++ (c.data ++ []))
      have heq := congrArg List.length hq
      rw [bytes_append hz] at heq
      simp only [List.append_assoc, bytes_data, bytes_nil, List.append_nil, List.length_append] at heq hlen hlt
      omega
  | eintr => rw [bytes_eintr, bytes_nil, List.append_nil] at hf; exact absurd hf h0
  | error => cases hs
  | eof => cases hs

end NetworkCourse.Intro.LineReader
