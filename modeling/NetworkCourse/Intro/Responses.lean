/-
  NetworkCourse.Intro.Responses — the answers the server formats into `buf`
  (`main` of intro/reliable_test_server.c).

  `formatted` are the texts `sprintf` writes in a run, one a turn (`mainLoop_formatted`): the
  `k`-th tells the count after `k` increments (`formatted_eq`). How many there are the reads and the
  sends decide: one for each piece that `readline` takes off what the reads deliver
  (`requests`), up to the first `send` that fails (`formatted_length`). `buf` holds an answer and its
  NUL only up to a count of six characters, so a run keeps to `buf` just when the first count
  and the last one have no more (`responses_fit`).
-/

import NetworkCourse.Intro.Session

namespace NetworkCourse.Intro.Server

open Lib.Cut Lib.Feed Lib.Ascii LineReader
open Session (IsInt isInt_incr)

/-- What `sprintf` writes in a run, the text of a failed `send` included. -/
def formatted (sends : Nat → Int) : Nat → Vars → List (Rd UInt8 MAXLINE) → List (List UInt8)
  | 0, _, _ => []
  | fuel + 1, v, rs =>
    match readline BUFSIZE v.buf v.st rs with
    | .blocked => []
    | .fault => []
    | .done c =>
      let v := { v with st := c.st, buf := c.buf }
      if 0 < c.rc then reply v.count :: if sends v.served.length < 0 then [] else formatted sends fuel (answer v) c.rs
      else []

/-- The loop sends them all, but for the last when `send` fails. -/
theorem mainLoop_formatted {sends : Nat → Int} {fuel : Nat} {v v' : Vars} {rs : List (Rd UInt8 MAXLINE)} {status : Int}
    (h : mainLoop sends fuel v rs = some (.done (status, v'))) :
    v.served.map Prod.snd ++ formatted sends fuel v rs =
      v'.served.map Prod.snd ++ if status = 0 then [] else [reply v'.count] := by
  induction fuel generalizing v rs with
  | zero => cases h
  | succ fuel ih =>
    rw [mainLoop] at h
    rw [formatted]
    cases hr : readline BUFSIZE v.buf v.st rs with
    | blocked =>
      rw [hr] at h
      cases h
    | fault =>
      rw [hr] at h
      cases h
    | done c =>
      rw [hr] at h
      simp only at h ⊢
      split at h
      · next hpos =>
        rw [if_pos hpos]
        split at h
        · next hs =>
          rw [if_pos hs]
          cases h
          rfl
        · next hs =>
          rw [if_neg hs, ← ih h]
          simp [answer]
      · next hpos =>
        rw [if_neg hpos]
        cases h
        rfl

/-- The `k`-th text tells the count after `k` increments. -/
theorem formatted_eq (sends : Nat → Int) (fuel : Nat) (v : Vars) (rs : List (Rd UInt8 MAXLINE)) :
    formatted sends fuel v rs = (List.range (formatted sends fuel v rs).length).map fun k => reply (incr^[k] v.count) := by
  induction fuel generalizing v rs with
  | zero => rfl
  | succ fuel ih =>
    rw [formatted]
    cases readline BUFSIZE v.buf v.st rs with
    | blocked => rfl
    | fault => rfl
    | done c =>
      simp only
      split
      · split
        · rfl
        · rw [List.length_cons, List.range_succ_eq_map, List.map_cons, List.map_map]
          conv => lhs; rw [ih]
          rfl
      · rfl

/-! ## How many there are -/

/-- The requests in what the reads return, with `acc` read behind the last one: each piece of up to 19
    bytes, and what is in front of an end of file. A failed `read` ends the loop, and so does an end of
    file with nothing in front. -/
def requests (acc : List UInt8) : List (Rd UInt8 MAXLINE) → Nat
  | [] => 0
  | .data c :: rs => (scan nl 19 acc c.data).1.length + requests (scan nl 19 acc c.data).2 rs
  | .eintr :: rs => requests acc rs
  | .error :: _ => 0
  | .eof :: rs => if acc = [] then 0 else requests [] rs + 1

/-- How many of the answers to `n` requests are formatted, from the `i`-th `send` on: the first one that
    fails ends the loop. -/
def answers (sends : Nat → Int) : Nat → Nat → Nat
  | _, 0 => 0
  | i, n + 1 => if sends i < 0 then 1 else answers sends (i + 1) n + 1

/-- What is delivered is cut as one stream. -/
theorem requests_eq (acc : List UInt8) (rs : List (Rd UInt8 MAXLINE)) :
    requests acc rs = (scan nl 19 acc (bytes rs)).1.length + requests (scan nl 19 acc (bytes rs)).2 (stop rs) := by
  induction rs generalizing acc with
  | nil => rfl
  | cons r rs ih =>
    cases r with
    | data c =>
      rw [requests, ih, bytes_data, stop_data, scan_append, List.length_append, Nat.add_assoc]
    | eintr => exact ih acc
    | error => exact (Nat.zero_add _).symm
    | eof => exact (Nat.zero_add _).symm

/-- A connection that delivers `stream` and ends: its pieces, the unfinished one included. -/
theorem requests_ended {rs : List (Rd UInt8 MAXLINE)} {stream : List UInt8} (h : Delivers rs stream) :
    requests [] (rs ++ [.eof, .eof]) = (pieces nl 19 stream).length := by
  obtain ⟨hstop, rfl⟩ := h
  rw [requests_eq, bytes_append hstop, stop_append hstop, bytes_eof, List.append_nil, pieces, List.length_append]
  by_cases he : (scan nl 19 [] (bytes rs)).2 = []
  · rw [if_pos he, he]
    rfl
  · rw [if_neg he, stop_eof, requests, if_neg he]
    rfl

/-- The requests in what the reader owes and the reads still bring. -/
def toCome (v : Vars) (rs : List (Rd UInt8 MAXLINE)) : Nat :=
  (scan nl 19 [] (pend v.st rs)).1.length + requests (scan nl 19 [] (pend v.st rs)).2 (stop rs)

/-- A turn of the loop gets one of them, if there is one. -/
theorem readline_requests {v : Vars} (hb : v.buf.length = BUFSIZE) (h : Ok v.st) (rs : List (Rd UInt8 MAXLINE)) :
    (toCome v rs = 0 ∧ ∀ c, readline BUFSIZE v.buf v.st rs = .done c → ¬ 0 < c.rc) ∨
      ∃ c, readline BUFSIZE v.buf v.st rs = .done c ∧ 0 < c.rc ∧ c.buf.length = BUFSIZE ∧ Ok c.st ∧
        ∀ v', v'.st = c.st → toCome v rs = toCome v' c.rs + 1 := by
  have h1 : 1 ≤ BUFSIZE := by decide
  have hm : BUFSIZE ≤ v.buf.length := Nat.le_of_eq hb.symm
  have hlen := cut_length_le nl 19 (pend v.st rs)
  by_cases hf : Full nl 19 (cut nl 19 (pend v.st rs))
  · obtain ⟨s', rs', hok, hpend, hstop, -, hread⟩ := readline_full h1 hm h hf
    have hpos := List.length_pos_iff.mpr (hf.ne_nil (by decide))
    refine Or.inr ⟨_, hread _ rfl, ?_, ?_, hok, ?_⟩
    · have hrc : (0 : Int) < if nl ∈ cut nl 19 (pend v.st rs) then ((cut nl 19 (pend v.st rs)).length : Int)
          else (cut nl 19 (pend v.st rs)).length + 1 := by split <;> omega
      exact hrc
    · exact (stored_length (by rw [hb]; show _ < 20; exact Nat.lt_succ_of_le hlen)).trans hb
    · intro v' hv'
      rw [toCome, toCome, hv', hpend, hstop, scan_full nl (by decide) hf, List.length_cons]
      exact Nat.add_right_comm _ _ _
  · have hscan := scan_not_full nl (show 0 < 19 by decide) hf
    have hto : toCome v rs = requests (pend v.st rs) (stop rs) := by
      rw [toCome, hscan]
      exact Nat.zero_add _
    rcases stop_cases rs with hs | ⟨ys, hs⟩ | ⟨ys, hs⟩
    · have hblock := readline_blocked h1 hm h hf hs
      rw [hblock, hto, hs]
      exact Or.inl ⟨rfl, fun c hc => (by cases hc)⟩
    · obtain ⟨s', herr⟩ := readline_error h1 hm h hf hs
      rw [herr, hto, hs]
      refine Or.inl ⟨rfl, ?_⟩
      intro c hc
      cases hc
      exact (by decide : ¬ (0 : Int) < -1)
    · obtain ⟨s', hok, hleft, heof⟩ := readline_eof h1 hm h hf hs
      rw [heof, hto, hs, requests]
      by_cases hnil : pend v.st rs = []
      · refine Or.inl ⟨if_pos hnil, ?_⟩
        intro c hc
        cases hc
        simp [hnil]
      · have hpos := List.length_pos_iff.mpr hnil
        rw [cut_of_not_full nl hf] at hlen
        refine Or.inr ⟨_, rfl, by simpa using hpos, ?_, hok, ?_⟩
        · exact (stored_length (by rw [hb]; show _ < 20; exact Nat.lt_succ_of_le hlen)).trans hb
        · intro v' hv'
          rw [if_neg hnil, toCome, hv', pend, hleft, List.nil_append, ← requests_eq]

/-- The loop formats an answer for each request it has turns for, up to the first `send` that fails. -/
theorem formatted_length (sends : Nat → Int) (fuel : Nat) {v : Vars} (hb : v.buf.length = BUFSIZE) (h : Ok v.st)
    (rs : List (Rd UInt8 MAXLINE)) :
    (formatted sends fuel v rs).length = answers sends v.served.length (min fuel (toCome v rs)) := by
  induction fuel generalizing v rs with
  | zero =>
    rw [Nat.zero_min]
    rfl
  | succ fuel ih =>
    rw [formatted]
    rcases readline_requests hb h rs with ⟨hzero, hno⟩ | ⟨c, hc, hpos, hlen, hok, hto⟩
    · rw [hzero, Nat.min_zero]
      cases hr : readline BUFSIZE v.buf v.st rs with
      | blocked => rfl
      | fault => rfl
      | done c =>
        simp only [if_neg (hno c hr)]
        rfl
    · have hto' := hto (answer { v with st := c.st, buf := c.buf }) rfl
      rw [hc]
      simp only [if_pos hpos, List.length_cons]
      rw [hto', Nat.add_min_add_right, answers]
      split
      · rfl
      · have hrest := ih (v := answer { v with st := c.st, buf := c.buf }) ((answer_buf_length _).trans hlen) hok c.rs
        rw [hrest, answer_served, List.length_append, List.length_singleton]

/-! ## Room for an answer -/

/-- `buf` holds an answer and its NUL up to six characters of count. -/
theorem reply_fits (count : Int) : (reply count).length + 1 ≤ BUFSIZE ↔ -99999 ≤ count ∧ count ≤ 999999 := by
  have h12 : (ascii "receive msg ").length = 12 := by decide
  have h20 : BUFSIZE = 20 := rfl
  rw [← decimal_length_le_six, reply, List.length_append, List.length_append, h12, h20, List.length_singleton]
  omega

theorem incr_eq {count : Int} (h1 : -2147483649 ≤ count) (h2 : count < 2147483647) : incr count = count + 1 := by
  rw [incr]
  exact Int.bmod_eq_of_le (by simp only [Nat.reducePow]; omega) (by simp only [Nat.reducePow]; omega)

/-- Below the largest `int` the counter counts. -/
theorem iterate_incr {count : Int} (h1 : -2147483648 ≤ count) {k : Nat} (h2 : count + k ≤ 2147483647) :
    incr^[k] count = count + k := by
  induction k with
  | zero => simp
  | succ k ih =>
    rw [Function.iterate_succ_apply', ih (by omega), incr_eq (by omega) (by omega)]
    omega

/-- The first `n` counts keep to six characters when the first and the last do. -/
theorem counts_fit {count : Int} (hc : IsInt count) (n : Nat) :
    (∀ k < n, (reply (incr^[k] count)).length + 1 ≤ BUFSIZE) ↔ n = 0 ∨ -99999 ≤ count ∧ count + n ≤ 1000000 := by
  have hmin : -2147483648 ≤ count := by simpa using hc.1
  simp only [reply_fits]
  refine ⟨?_, ?_⟩
  · intro h
    -- no count wraps around before it has seven digits
    have hk : ∀ k < n, count + k ≤ 999999 := by
      intro k
      induction k with
      | zero =>
        intro h0
        simpa using (h 0 h0).2
      | succ k ih =>
        intro hlt
        have hle := ih (by omega)
        have hfit := (h (k + 1) hlt).2
        rwa [iterate_incr hmin (by omega)] at hfit
    rcases Nat.eq_zero_or_pos n with h0 | hpos
    · exact Or.inl h0
    · have hfirst : -99999 ≤ count := (h 0 hpos).1
      have hlast := hk (n - 1) (by omega)
      exact Or.inr ⟨hfirst, by omega⟩
  · rintro (rfl | ⟨hlo, hhi⟩) k hk
    · exact absurd hk (Nat.not_lt_zero k)
    · rw [iterate_incr hmin (by omega)]
      omega

/-- Whatever the reads and the sends return: let `n` be how many answers the loop gets to in `fuel` turns,
    that is one for each request, up to the first `send` that fails. From `count` on they all fit `buf`
    exactly when there is none, or `count` is at least -99999 and the last of the `n` counts no more
    than 999999. -/
theorem responses_fit {count : Int} (hc : IsInt count) (sends : Nat → Int) (fuel : Nat) {buf : List UInt8}
    (hb : buf.length = BUFSIZE) (rs : List (Rd UInt8 MAXLINE)) {n : Nat}
    (hn : n = answers sends 0 (min fuel (requests [] rs))) :
    (∀ t ∈ formatted sends fuel (start count buf) rs, t.length + 1 ≤ BUFSIZE) ↔
      n = 0 ∨ -99999 ≤ count ∧ count + n ≤ 1000000 := by
  have hlen := formatted_length sends fuel (v := start count buf) hb ok_init rs
  have hto : toCome (start count buf) rs = requests [] rs := (requests_eq [] rs).symm
  rw [hto] at hlen
  rw [← counts_fit hc, formatted_eq, hlen, hn]
  simp [start]

/-- A line of 24 bytes is two requests; the second `send` fails, and `-5` and `-4` fit. -/
theorem responses_fit_long :
    answers (fun k => if k = 1 then -1 else 0) 0 (min 9 (requests [] [.data ⟨longLine, by decide, by decide⟩,
      .data ⟨longLine, by decide, by decide⟩, .eof, .eof])) = 2 ∧
    ∀ t ∈ formatted (fun k => if k = 1 then -1 else 0) 9 (start (-5) (List.replicate 20 0))
      [.data ⟨longLine, by decide, by decide⟩, .data ⟨longLine, by decide, by decide⟩, .eof, .eof],
      t.length + 1 ≤ BUFSIZE :=
  ⟨by decide, (responses_fit (by decide) _ 9 List.length_replicate _ (n := 2) (by decide)).mpr (Or.inr (by decide))⟩

/-- One turn, one text. -/
theorem formatted_single {sends : Nat → Int} {v : Vars} {rs : List (Rd UInt8 MAXLINE)} {c : Call ReadBuf MAXLINE}
    (h : readline BUFSIZE v.buf v.st rs = .done c) (hpos : 0 < c.rc) : formatted sends 1 v rs = [reply v.count] := by
  rw [formatted, h]
  simp [hpos, formatted]

theorem readline_newline (buf : List UInt8) (hb : buf.length = BUFSIZE) :
    ∃ c, readline BUFSIZE buf .init [.data ⟨[nl], by simp, by decide⟩] = .done c ∧ 0 < c.rc := by
  obtain ⟨s', rs', -, -, -, -, h5⟩ := @readline_full BUFSIZE buf .init [.data ⟨[nl], by simp, by decide⟩]
    (by decide) (Nat.le_of_eq hb.symm) ok_init (Or.inl (by decide))
  have hpos : (0 : Int) < if nl ∈ [nl] then ([nl].length : Int) else [nl].length + 1 := by decide
  exact ⟨_, h5 [nl] rfl, hpos⟩

/-- A count of a million takes 21 bytes. -/
theorem million_overflows :
    ¬ ∀ (count : Int) (sends : Nat → Int) (fuel : Nat) (buf : List UInt8) (rs : List (Rd UInt8 MAXLINE)), IsInt count →
      buf.length = BUFSIZE → ∀ t ∈ formatted sends fuel (start count buf) rs, t.length + 1 ≤ BUFSIZE := by
  intro hall
  obtain ⟨c, h1, h2⟩ := readline_newline (List.replicate 20 0) rfl
  have hone := @formatted_single (fun _ => 0) (start 1000000 (List.replicate 20 0)) _ c h1 h2
  have hfit := (reply_fits _).mp (hall 1000000 _ 1 _ _ (by decide) rfl (reply 1000000) (by
    rw [hone]
    exact List.mem_singleton_self _))
  exact absurd hfit.2 (show ¬ (1000000 : Int) ≤ 999999 by decide)

end NetworkCourse.Intro.Server
