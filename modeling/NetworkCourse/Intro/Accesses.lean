/-
  NetworkCourse.Intro.Accesses — the memory accesses of the line readers
  (intro/reliable_test_server.c, intro/reliable_test_client.c).

  The readers again, with a log of their accesses: each successful `read` or `recv`, each load
  from the static buffer and each store into the caller's. Without the log they are the
  readers of `LineReader` and `ClientReader` (`readlineLogged_res`).

  While bytes are counted as unread, they are the ones the latest receive brought and nothing
  has loaded since (`Tracks`); an error, an interrupted call or end of file counts none. So
  whatever is read, and however calls go on, accesses stay in bounds
  (`accesses_in_bounds`).
-/

import NetworkCourse.Intro.ClientReader
import NetworkCourse.Lib.Memory

namespace NetworkCourse.Intro

open Lib.Feed Lib.Memory Lib.Ascii

/-- The accesses of successive calls, as far as they get, each with the length of its buffer. -/
def logs {σ : Type} {cap : Nat} (reader : Nat → List UInt8 → σ → List (Rd UInt8 cap) → Logged (LineReader.Call σ cap)) :
    List (List UInt8) → σ → List (Rd UInt8 cap) → List (List Access)
  | [], _, _ => []
  | buf :: bufs, s, rs =>
    let x := reader buf.length buf s rs
    x.log ::
      match x.res with
      | .blocked => []
      | .fault => []
      | .done c => logs reader bufs c.st c.rs

/-- Calls that each keep in bounds do so together. -/
theorem logs_keep {σ : Type} {cap : Nat} {reader : Nat → List UInt8 → σ → List (Rd UInt8 cap) → Logged (LineReader.Call σ cap)}
    {tracks : List Access → σ → Prop}
    (h : ∀ log buf s rs, 1 ≤ buf.length → Fresh log → tracks log s →
      Keeps buf.length log (reader buf.length buf s rs) fun log c => tracks log c.st)
    {bufs : List (List UInt8)} (hb : ∀ b ∈ bufs, 1 ≤ b.length) {log : List Access} (hf : Fresh log) {s : σ} (ht : tracks log s)
    (rs : List (Rd UInt8 cap)) :
    (∀ x ∈ bufs.zip (logs reader bufs s rs), InBounds x.1.length x.2) ∧ Fresh (log ++ (logs reader bufs s rs).flatten) := by
  induction bufs generalizing log s rs with
  | nil =>
    refine ⟨?_, ?_⟩
    · intro x hx
      cases hx
    · simpa [logs] using hf
  | cons buf bufs ih =>
    obtain ⟨h1, h2, -, h4⟩ := h log buf s rs (hb buf (by simp)) hf ht
    rw [logs]
    cases hr : (reader buf.length buf s rs).res with
    | blocked => simpa using ⟨h2, h1⟩
    | fault => simpa using ⟨h2, h1⟩
    | done c =>
      obtain ⟨h5, h6⟩ := ih (fun b hb' => hb b (List.mem_cons_of_mem _ hb')) h1 (h4 c hr) c.rs
      refine ⟨?_, ?_⟩
      · intro x hx
        rw [List.zip_cons_cons] at hx
        rcases List.mem_cons.mp hx with rfl | hx
        · exact h2
        · exact h5 x hx
      · simpa using h6

namespace LineReader

/-! ## `my_read` and `readline` -/

/-- `read_cnt--; *ptr = *read_ptr++; return 1` -/
def handOutLogged (s : ReadBuf) (rs : List (Rd UInt8 MAXLINE)) : Logged (Int × UInt8 × ReadBuf × List (Rd UInt8 MAXLINE)) := do
  let c ← load s.readBuf s.readPtr
  return (1, c, { s with readCnt := s.readCnt - 1, readPtr := s.readPtr + 1 }, rs)

def againLogged (s : ReadBuf) : List (Rd UInt8 MAXLINE) → Logged (Int × UInt8 × ReadBuf × List (Rd UInt8 MAXLINE))
  | [] => blocked
  | .eintr :: rs => againLogged { s with readCnt := -1 } rs
  | .error :: rs => pure (-1, 0, { s with readCnt := -1 }, rs)
  | .eof :: rs => pure (0, 0, { s with readCnt := 0 }, rs)
  | .data c :: rs => do
    recvd c.data.length
    handOutLogged ⟨c.data.length, 0, c.data⟩ rs

def myReadLogged (s : ReadBuf) (rs : List (Rd UInt8 MAXLINE)) : Logged (Int × UInt8 × ReadBuf × List (Rd UInt8 MAXLINE)) :=
  if s.readCnt ≤ 0 then againLogged s rs else handOutLogged s rs

def readlineFromLogged (maxlen n ptr : Nat) (buf : List UInt8) (s : ReadBuf) (rs : List (Rd UInt8 MAXLINE)) :
    Logged (Call ReadBuf MAXLINE) :=
  if n < maxlen then do
    let (rc, c, s, rs) ← myReadLogged s rs
    if rc = 1 then
      let buf ← put buf ptr c
      if c = nl then
        let buf ← put buf (ptr + 1) 0
        return ⟨n, buf, s, rs⟩
      else readlineFromLogged maxlen (n + 1) (ptr + 1) buf s rs
    else if rc = 0 then
      let buf ← put buf ptr 0
      return ⟨n - 1, buf, s, rs⟩
    else return ⟨-1, buf, s, rs⟩
  else do
    let buf ← put buf ptr 0
    return ⟨n, buf, s, rs⟩
termination_by maxlen - n

def readlineLogged (maxlen : Nat) (buf : List UInt8) (s : ReadBuf) (rs : List (Rd UInt8 MAXLINE)) :
    Logged (Call ReadBuf MAXLINE) :=
  readlineFromLogged maxlen 1 0 buf s rs

theorem handOutLogged_res (s : ReadBuf) (rs : List (Rd UInt8 MAXLINE)) : (handOutLogged s rs).res = handOut s rs := by
  rw [handOutLogged, bind_res, load, handOut]
  cases s.readBuf[s.readPtr]? <;> rfl

theorem againLogged_res (s : ReadBuf) (rs : List (Rd UInt8 MAXLINE)) : (againLogged s rs).res = again s rs := by
  induction rs generalizing s with
  | nil => rfl
  | cons r rs ih =>
    cases r with
    | eintr => exact ih _
    | error => rfl
    | eof => rfl
    | data c =>
      rw [againLogged, bind_res, recvd_res, Res.done_bind, again]
      exact handOutLogged_res _ rs

theorem myReadLogged_res (s : ReadBuf) (rs : List (Rd UInt8 MAXLINE)) : (myReadLogged s rs).res = myRead s rs := by
  rw [myReadLogged, myRead]
  split
  · exact againLogged_res s rs
  · exact handOutLogged_res s rs

theorem readlineFromLogged_res (maxlen n ptr : Nat) (buf : List UInt8) (s : ReadBuf) (rs : List (Rd UInt8 MAXLINE)) :
    (readlineFromLogged maxlen n ptr buf s rs).res = readlineFrom maxlen n ptr buf s rs := by
  induction hk : maxlen - n generalizing n ptr buf s rs with
  | zero =>
    rw [readlineFromLogged, readlineFrom, if_neg (by omega), if_neg (by omega), bind_res, put_res]
    rfl
  | succ k ih =>
    rw [readlineFromLogged, readlineFrom, if_pos (by omega), if_pos (by omega), bind_res, myReadLogged_res]
    congr 1
    funext x
    obtain ⟨rc, c, s', rs'⟩ := x
    simp only
    split
    · rw [bind_res, put_res]
      congr 1
      funext buf'
      split
      · rw [bind_res, put_res]
        rfl
      · exact ih _ _ _ _ _ (by omega)
    · split
      · rw [bind_res, put_res]
        rfl
      · rfl

/-- Without its log it is `readline`. -/
theorem readlineLogged_res (maxlen : Nat) (buf : List UInt8) (s : ReadBuf) (rs : List (Rd UInt8 MAXLINE)) :
    (readlineLogged maxlen buf s rs).res = readline maxlen buf s rs := readlineFromLogged_res maxlen 1 0 buf s rs

/-- The bytes counted as unread are due. -/
def Tracks (log : List Access) (s : ReadBuf) : Prop :=
  0 < s.readCnt → Due log s.readBuf.length s.readPtr ∧ s.readPtr + s.readCnt = s.readBuf.length

theorem tracks_none {log : List Access} {s : ReadBuf} (h : s.readCnt ≤ 0) : Tracks log s := by
  intro hc
  exact absurd hc (Int.not_lt.mpr h)

theorem tracks_init : Tracks [] .init := tracks_none (Int.le_refl 0)

theorem Tracks.store {log : List Access} {s : ReadBuf} (h : Tracks log s) (i : Nat) : Tracks (log ++ [.store i]) s := by
  intro hc
  obtain ⟨hd, hl⟩ := h hc
  exact ⟨hd.store i, hl⟩

section
variable {size : Nat} {log : List Access} {s : ReadBuf} {rs : List (Rd UInt8 MAXLINE)}

theorem handOut_keeps (hf : Fresh log) (h : Tracks log s) (hc : 0 < s.readCnt) :
    Keeps size log (handOutLogged s rs) fun log x => Tracks log x.2.2.1 := by
  obtain ⟨hd, hl⟩ := h hc
  refine Keeps.bind (fun log' _ => Due log' s.readBuf.length (s.readPtr + 1)) ?_ ?_
  · exact keeps_load (by omega) hf hd (by omega) hd.load
  · intro log' c hf' hd'
    apply keeps_pure hf'
    intro hc'
    refine ⟨hd', ?_⟩
    simp only
    omega

theorem again_keeps (hf : Fresh log) (hc : s.readCnt ≤ 0) : Keeps size log (againLogged s rs) fun log x => Tracks log x.2.2.1 := by
  induction rs generalizing s with
  | nil => exact keeps_blocked hf
  | cons r rs ih =>
    cases r with
    | eintr => exact ih (s := { s with readCnt := -1 }) (show (-1 : Int) ≤ 0 by decide)
    | error => exact keeps_pure hf (tracks_none (show (-1 : Int) ≤ 0 by decide))
    | eof => exact keeps_pure hf (tracks_none (Int.le_refl 0))
    | data c =>
      have hpos : 0 < c.data.length := List.length_pos_iff.mpr c.ne
      refine Keeps.bind (fun log' _ => Due log' c.data.length 0) ?_ ?_
      · exact keeps_recvd hf _ (due_recv log _)
      · intro log' _ hf' hd'
        apply handOut_keeps hf'
        · intro _
          exact ⟨hd', by simp⟩
        · simpa using hpos

theorem myRead_keeps (hf : Fresh log) (h : Tracks log s) : Keeps size log (myReadLogged s rs) fun log x => Tracks log x.2.2.1 := by
  rw [myReadLogged]
  split
  · next hc => exact again_keeps hf hc
  · next hc => exact handOut_keeps hf h (by omega)

theorem readlineFrom_keeps {maxlen n ptr : Nat} {buf : List UInt8} (hm : maxlen = buf.length) (hn : n = ptr + 1) (hle : n ≤ maxlen)
    (hf : Fresh log) (h : Tracks log s) :
    Keeps maxlen log (readlineFromLogged maxlen n ptr buf s rs) fun log c => Tracks log c.st := by
  induction hk : maxlen - n generalizing n ptr buf log s rs with
  | zero =>
    rw [readlineFromLogged, if_neg (by omega)]
    exact Keeps.last (by omega) (by omega) hf 0 fun _ => h.store _
  | succ k ih =>
    rw [readlineFromLogged, if_pos (by omega)]
    refine Keeps.bind _ (myRead_keeps hf h) ?_
    intro log1 ⟨rc, c, s', rs'⟩ hf1 h1
    simp only at h1 ⊢
    split
    · refine Keeps.bind (fun log' b => Tracks log' s' ∧ b.length = buf.length)
        (keeps_put (by omega) (by omega) hf1 c ⟨h1.store _, List.length_set⟩) ?_
      intro log2 buf2 hf2 ⟨h2, hl2⟩
      split
      · exact Keeps.last (by omega) (by omega) hf2 0 fun _ => h2.store _
      · exact ih (by omega) (by omega) (by omega) hf2 h2 (by omega)
    · split
      · exact Keeps.last (by omega) (by omega) hf1 0 fun _ => h1.store _
      · exact keeps_pure hf1 h1

theorem readline_keeps {buf : List UInt8} (hl : 1 ≤ buf.length) (hf : Fresh log) (h : Tracks log s) :
    Keeps buf.length log (readlineLogged buf.length buf s rs) fun log c => Tracks log c.st :=
  readlineFrom_keeps rfl rfl hl hf h

end

end LineReader

namespace Client

/-! ## The client's `readline` -/

open LineReader (Call ReadBuf MAXLINE)

/-- `c = *bp++; *bufptr++ = c;` -/
def takeByteLogged (ptr : Nat) (buf : List UInt8) (s : RecvBuf) : Logged (UInt8 × List UInt8 × RecvBuf) := do
  let c ← load s.b s.bp
  let buf ← put buf ptr c
  return (c, buf, { s with bp := s.bp + 1 })

def readlineFromLogged (len ptr : Nat) (buf : List UInt8) (s : RecvBuf) (rs : List (Rd UInt8 RECVSIZE)) :
    Logged (Call RecvBuf RECVSIZE) :=
  if 0 < len - 1 then
    if s.cnt - 1 ≤ 0 then
      match rs with
      | [] => blocked
      | .eintr :: rs => readlineFromLogged len ptr buf { s with cnt := -1 } rs
      | .error :: rs => pure ⟨-1, buf, { s with cnt := -1 }, rs⟩
      | .eof :: rs => pure ⟨0, buf, { s with cnt := 0 }, rs⟩
      | .data c :: rs => do
        recvd c.data.length
        let (c, buf, s) ← takeByteLogged ptr buf ⟨c.data.length, 0, c.data⟩
        if c = nl then
          let buf ← put buf (ptr + 1) 0
          return ⟨ptr + 1, buf, s, rs⟩
        else readlineFromLogged (len - 1) (ptr + 1) buf s rs
    else do
      let (c, buf, s) ← takeByteLogged ptr buf { s with cnt := s.cnt - 1 }
      if c = nl then
        let buf ← put buf (ptr + 1) 0
        return ⟨ptr + 1, buf, s, rs⟩
      else readlineFromLogged (len - 1) (ptr + 1) buf s rs
  else pure ⟨-1, buf, s, rs⟩
termination_by len + rs.length
decreasing_by all_goals simp_wf <;> omega

def readlineLogged (len : Nat) (buf : List UInt8) (s : RecvBuf) (rs : List (Rd UInt8 RECVSIZE)) : Logged (Call RecvBuf RECVSIZE) :=
  readlineFromLogged len 0 buf s rs

/-- The same text as the server's. -/
def readline2Logged (maxlen : Nat) (buf : List UInt8) (s : ReadBuf) (rs : List (Rd UInt8 MAXLINE)) :
    Logged (Call ReadBuf MAXLINE) :=
  LineReader.readlineLogged maxlen buf s rs

theorem takeByteLogged_res (ptr : Nat) (buf : List UInt8) (s : RecvBuf) :
    (takeByteLogged ptr buf s).res = takeByte ptr buf s := by
  rw [takeByteLogged, bind_res, load, takeByte]
  cases s.b[s.bp]? with
  | none => rfl
  | some c =>
    simp only [Res.done_bind, bind_res, put_res]
    rfl

theorem readlineFromLogged_res (len ptr : Nat) (buf : List UInt8) (s : RecvBuf) (rs : List (Rd UInt8 RECVSIZE)) :
    (readlineFromLogged len ptr buf s rs).res = readlineFrom len ptr buf s rs := by
  induction hk : len + rs.length using Nat.strongRecOn generalizing len ptr buf s rs with
  | ind k ih =>
    rw [readlineFromLogged.eq_def, readlineFrom.eq_def]
    by_cases h0 : 0 < len - 1
    · rw [if_pos h0, if_pos h0]
      by_cases hc : s.cnt - 1 ≤ 0
      · rw [if_pos hc, if_pos hc]
        cases rs with
        | nil => rfl
        | cons r rs =>
          cases r with
          | eintr => exact ih _ (by subst hk; simp) _ _ _ _ _ rfl
          | error => rfl
          | eof => rfl
          | data c =>
            simp only [bind_res, recvd_res, Res.done_bind, takeByteLogged_res]
            congr 1
            funext x
            obtain ⟨b, buf', s'⟩ := x
            simp only
            split
            · rw [bind_res, put_res]
              rfl
            · exact ih _ (by subst hk; simp; omega) _ _ _ _ _ rfl
      · rw [if_neg hc, if_neg hc, bind_res, takeByteLogged_res]
        congr 1
        funext x
        obtain ⟨b, buf', s'⟩ := x
        simp only
        split
        · rw [bind_res, put_res]
          rfl
        · exact ih _ (by omega) _ _ _ _ _ rfl
    · rw [if_neg h0, if_neg h0]
      rfl

/-- Without its log it is `readline`. -/
theorem readlineLogged_res (len : Nat) (buf : List UInt8) (s : RecvBuf) (rs : List (Rd UInt8 RECVSIZE)) :
    (readlineLogged len buf s rs).res = readline len buf s rs := readlineFromLogged_res len 0 buf s rs

/-- The bytes counted as unread are due: one fewer than `cnt`. -/
def Tracks (log : List Access) (s : RecvBuf) : Prop :=
  1 < s.cnt → Due log s.b.length s.bp ∧ s.bp + (s.cnt - 1) = s.b.length

theorem tracks_none {log : List Access} {s : RecvBuf} (h : s.cnt ≤ 1) : Tracks log s := by
  intro hc
  exact absurd hc (Int.not_lt.mpr h)

theorem tracks_init : Tracks [] .init := tracks_none (show (0 : Int) ≤ 1 by decide)

theorem Tracks.store {log : List Access} {s : RecvBuf} (h : Tracks log s) (i : Nat) : Tracks (log ++ [.store i]) s := by
  intro hc
  obtain ⟨hd, hl⟩ := h hc
  exact ⟨hd.store i, hl⟩

section
variable {size : Nat} {log : List Access}

/-- `s.cnt` still counts the byte about to be taken. -/
theorem takeByte_keeps {s : RecvBuf} {ptr : Nat} {buf : List UInt8} (hp : ptr < buf.length) (hs : ptr < size) (hf : Fresh log)
    (hd : Due log s.b.length s.bp) (h0 : 0 < s.cnt) (hl : s.bp + s.cnt = s.b.length) :
    Keeps size log (takeByteLogged ptr buf s) fun log x => Tracks log x.2.2 ∧ x.2.1.length = buf.length := by
  refine Keeps.bind (fun log' _ => Due log' s.b.length (s.bp + 1)) ?_ ?_
  · exact keeps_load (by omega) hf hd (by omega) hd.load
  · intro log1 c hf1 hd1
    refine Keeps.bind (fun log' b => Due log' s.b.length (s.bp + 1) ∧ b.length = buf.length)
      (keeps_put hp hs hf1 c ⟨hd1.store _, List.length_set⟩) ?_
    intro log2 buf2 hf2 ⟨hd2, hl2⟩
    refine keeps_pure hf2 ⟨?_, hl2⟩
    intro _
    refine ⟨hd2, ?_⟩
    simp only
    omega

theorem readlineFrom_keeps {len ptr : Nat} {buf : List UInt8} (hm : ptr + len = buf.length) (hs : size = buf.length) {s : RecvBuf}
    {rs : List (Rd UInt8 RECVSIZE)} (hf : Fresh log) (h : Tracks log s) :
    Keeps size log (readlineFromLogged len ptr buf s rs) fun log c => Tracks log c.st := by
  induction hk : len + rs.length using Nat.strongRecOn generalizing len ptr buf log s rs with
  | ind k ih =>
    rw [readlineFromLogged.eq_def]
    split
    · next h1 =>
      split
      · next hc =>
        cases rs with
        | nil => exact keeps_blocked hf
        | cons r rs =>
          cases r with
          | eintr => exact ih _ (by subst hk; simp) hm hs hf (tracks_none (show (-1 : Int) ≤ 1 by decide)) rfl
          | error => exact keeps_pure hf (tracks_none (show (-1 : Int) ≤ 1 by decide))
          | eof => exact keeps_pure hf (tracks_none (show (0 : Int) ≤ 1 by decide))
          | data c =>
            have hpos : 0 < c.data.length := List.length_pos_iff.mpr c.ne
            refine Keeps.bind (fun log' _ => Due log' c.data.length 0) (keeps_recvd hf _ (due_recv log _)) ?_
            intro log1 _ hf1 hd1
            refine Keeps.bind _ (takeByte_keeps (by omega) (by omega) hf1 hd1 (by simpa using hpos) (by simp)) ?_
            intro log2 ⟨b, buf2, s2⟩ hf2 ⟨h2, hl2⟩
            simp only at h2 hl2 ⊢
            split
            · exact Keeps.last (by omega) (by omega) hf2 0 fun _ => h2.store _
            · exact ih _ (by subst hk; simp; omega) (by omega) (by omega) hf2 h2 rfl
      · next hc =>
        obtain ⟨hd, hl⟩ := h (by omega)
        refine Keeps.bind _ (takeByte_keeps (s := { s with cnt := s.cnt - 1 }) (by omega) (by omega) hf hd (by simp; omega)
          (by simp only; omega)) ?_
        intro log2 ⟨b, buf2, s2⟩ hf2 ⟨h2, hl2⟩
        simp only at h2 hl2 ⊢
        split
        · exact Keeps.last (by omega) (by omega) hf2 0 fun _ => h2.store _
        · exact ih _ (by omega) (by omega) (by omega) hf2 h2 rfl
    · exact keeps_pure hf h

theorem readline_keeps {buf : List UInt8} {s : RecvBuf} {rs : List (Rd UInt8 RECVSIZE)} (hf : Fresh log) (h : Tracks log s) :
    Keeps buf.length log (readlineLogged buf.length buf s rs) fun log c => Tracks log c.st :=
  readlineFrom_keeps (Nat.zero_add _) rfl hf h

end

end Client

/-! ## Any sequence of calls -/

/-- Whatever is received, and however calls go on: stores stay in the caller's buffer, and a load
    takes a byte of the latest receive that was not taken before. -/
theorem accesses_in_bounds (bufs : List (List UInt8)) (hb : ∀ buf ∈ bufs, 1 ≤ buf.length) (rs : List (Rd UInt8 Client.RECVSIZE))
    (rs2 : List (Rd UInt8 LineReader.MAXLINE)) :
    ((∀ x ∈ bufs.zip (logs Client.readlineLogged bufs .init rs), InBounds x.1.length x.2) ∧
      Fresh (logs Client.readlineLogged bufs .init rs).flatten) ∧
    ((∀ x ∈ bufs.zip (logs Client.readline2Logged bufs .init rs2), InBounds x.1.length x.2) ∧
      Fresh (logs Client.readline2Logged bufs .init rs2).flatten) ∧
    ((∀ x ∈ bufs.zip (logs LineReader.readlineLogged bufs .init rs2), InBounds x.1.length x.2) ∧
      Fresh (logs LineReader.readlineLogged bufs .init rs2).flatten) := by
  have hserver := logs_keep (fun _ _ _ _ hl hf ht => LineReader.readline_keeps hl hf ht) hb fresh_nil
    LineReader.tracks_init rs2
  refine ⟨?_, ?_, ?_⟩
  · exact logs_keep (fun _ _ _ _ _ hf ht => Client.readline_keeps hf ht) hb fresh_nil Client.tracks_init rs
  · exact hserver
  · exact hserver

/-- An error and end of file between calls: the third call gets the byte. -/
theorem accesses_in_bounds_after_error :
    logs Client.readlineLogged [[9, 9], [9, 9], [9, 9]] .init [.error, .eof, .data ⟨[97], by decide, by decide⟩] =
      [[], [], [.recv 1, .load 0, .store 0]] ∧
    Fresh (logs Client.readlineLogged [[9, 9], [9, 9], [9, 9]] .init [.error, .eof, .data ⟨[97], by decide, by decide⟩]).flatten :=
  ⟨by simp [logs, Client.readlineLogged, Client.readlineFromLogged, Client.takeByteLogged, Client.RecvBuf.init, recvd, load, put,
    store, pure, bind, Logged.bind, nl], (accesses_in_bounds [[9, 9], [9, 9], [9, 9]] (by decide) _ []).1.2⟩

end NetworkCourse.Intro
