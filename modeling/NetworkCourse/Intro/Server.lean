/-
  NetworkCourse.Intro.Server — `main` of intro/reliable_test_server.c, behind `accept`.

  The loop reads into `buf[20]`, formats the answer over it and sends that. `mainLoop`
  runs it on a feed, with fuel for its turns and `sends k` for what the `k`-th `send`
  returns; a feed that ends in end of file uses less fuel than it has bytes
  (`mainLoop_end`). What `sprintf` puts behind the end of `buf` is memory the model
  does not have; `send` finds it there.

  Since `readline` cuts at 19 bytes, the loop answers each piece of a line, not each
  line: one answer per line just when every line keeps to 19 bytes (`answers_per_line`).
  The client of this repository sends lines of up to 119 (`long_line_two_answers`).
-/

import NetworkCourse.Lib.Ascii
import NetworkCourse.Intro.Segments

namespace NetworkCourse.Intro.Server

open Lib.Cut Lib.Feed Lib.Ascii LineReader

/-- `sizeof(buf)` -/
def BUFSIZE : Nat := 20

/-- `"receive msg %d\n"` -/
def reply (count : Int) : List UInt8 := ascii "receive msg " ++ decimal count ++ [nl]

/-- `count++` on an `int`. -/
def incr (count : Int) : Int := (count + 1).bmod (2 ^ 32)

/-- `%s` shows a buffer up to its first NUL. -/
def cstr (buf : List UInt8) : List UInt8 := buf.takeWhile (· ≠ 0)

/-- The variables of `main`, and its exchanges: each line it showed with the answer it
    sent. -/
structure Vars where
  st : ReadBuf
  buf : List UInt8
  count : Int
  served : List (List UInt8 × List UInt8)

/-- `count` and `buf` are not initialised. -/
def start (count : Int) (buf : List UInt8) : Vars := ⟨.init, buf, count, []⟩

/-- The loop's body, once `send` has taken the answer. -/
def answer (v : Vars) : Vars :=
  { v with
    buf := (stored (reply v.count) v.buf).take v.buf.length
    count := incr v.count
    served := v.served ++ [(cstr v.buf, reply v.count)] }

/-- The loop, with the exit status: 0, or `LOG_FATAL`'s -1. -/
def mainLoop (sends : Nat → Int) : Nat → Vars → List (Rd UInt8 MAXLINE) → Option (Res (Int × Vars))
  | 0, _, _ => none
  | fuel + 1, v, rs =>
    match readline BUFSIZE v.buf v.st rs with
    | .blocked => some .blocked
    | .fault => some .fault
    | .done c =>
      let v := { v with st := c.st, buf := c.buf }
      if 0 < c.rc then
        if sends v.served.length < 0 then some (.done (-1, v)) else mainLoop sends fuel (answer v) c.rs
      else some (.done (0, v))

@[simp] theorem answer_st (v : Vars) : (answer v).st = v.st := rfl
@[simp] theorem answer_served (v : Vars) : (answer v).served = v.served ++ [(cstr v.buf, reply v.count)] := rfl

@[simp] theorem answer_buf_length (v : Vars) : (answer v).buf.length = v.buf.length := by
  simp [answer, stored]; omega

/-! ## One turn -/

/-- A call of the loop on a stream that ends: nothing is left and it returns 0, or it
    takes the next piece and returns more. -/
theorem readline_turn {v : Vars} (hb : v.buf.length = BUFSIZE) (h : Ok v.st) {rs : List (Rd UInt8 MAXLINE)} {m : Nat}
    (hs : stop rs = List.replicate (m + 1) .eof) :
    ∃ c, readline BUFSIZE v.buf v.st rs = .done c ∧ c.buf.length = BUFSIZE ∧ Ok c.st ∧
      (0 < c.rc ↔ pend v.st rs ≠ []) ∧ pend c.st c.rs = rest nl 19 (pend v.st rs) ∧
      stop c.rs = List.replicate (if Full nl 19 (cut nl 19 (pend v.st rs)) then m + 1 else m) .eof := by
  by_cases hf : Full nl 19 (cut nl 19 (pend v.st rs))
  · obtain ⟨s', rs', h2, h3, h4, -, h5⟩ := readline_full (show 1 ≤ BUFSIZE by decide) (Nat.le_of_eq hb.symm) h hf
    have hp := hf.ne_nil (by decide)
    have hlen := List.length_pos_iff.mpr hp
    refine ⟨_, h5 _ rfl, ?_, h2, ?_, h3, by rw [if_pos hf, h4, hs]⟩
    · have := cut_length_le nl 19 (pend v.st rs)
      simp only
      rw [stored_length (by rw [hb]; show _ < 20; exact Nat.lt_succ_of_le this), hb]
    · have hne : pend v.st rs ≠ [] := by
        intro e
        exact hp (by rw [e, cut_nil])
      simp only [hne, ne_eq, not_false_eq_true, iff_true]
      have hrc : (0 : Int) < if nl ∈ cut nl 19 (pend v.st rs) then ((cut nl 19 (pend v.st rs)).length : Int)
          else (cut nl 19 (pend v.st rs)).length + 1 := by split <;> omega
      exact hrc
  · obtain ⟨s', h2, h3, h4⟩ := readline_eof (show 1 ≤ BUFSIZE by decide) (Nat.le_of_eq hb.symm) h hf hs
    have hc := cut_of_not_full nl hf
    have hlen := cut_length_le nl 19 (pend v.st rs)
    rw [hc] at hlen
    refine ⟨_, h4, ?_, h2, ?_, ?_, by rw [if_neg hf, stop_replicate_eof]⟩
    · simp only
      rw [stored_length (by rw [hb]; show _ < 20; exact Nat.lt_succ_of_le hlen), hb]
    · have := List.length_pos_iff (l := pend v.st rs)
      simp only [Int.natCast_pos, this]
    · rw [pend, h3, bytes_replicate_eof, rest, hc, List.drop_length]
      rfl

/-! ## The whole run -/

/-- On a feed that ends, the loop ends with status 0, one answer for each piece. -/
theorem mainLoop_end {sends : Nat → Int} (ok : ∀ k, 0 ≤ sends k) (fuel : Nat) {v : Vars} (hb : v.buf.length = BUFSIZE)
    (h : Ok v.st) {rs : List (Rd UInt8 MAXLINE)} {m : Nat} (hs : stop rs = List.replicate m .eof)
    (hm : 2 ≤ m ∨ 1 ≤ m ∧ pend v.st rs = []) (hf : (pend v.st rs).length < fuel) :
    ∃ v', mainLoop sends fuel v rs = some (.done (0, v')) ∧
      v'.served.length = v.served.length + (pieces nl 19 (pend v.st rs)).length := by
  induction fuel generalizing v rs m with
  | zero => omega
  | succ fuel ih =>
    obtain ⟨m, rfl⟩ : ∃ j, m = j + 1 := ⟨m - 1, by omega⟩
    obtain ⟨c, h1, h2, h3, h4, h5, h6⟩ := readline_turn hb h hs
    by_cases he : pend v.st rs = []
    · have hrc : ¬ 0 < c.rc := by
        intro hc
        exact h4.mp hc he
      refine ⟨{ v with st := c.st, buf := c.buf }, by rw [mainLoop, h1]; simp only [if_neg hrc], ?_⟩
      rw [he]; rfl
    · have hrc := h4.mpr he
      have hm2 : 2 ≤ m + 1 := hm.resolve_right fun h => he h.2
      have hsend : ¬ sends v.served.length < 0 := by have := ok v.served.length; omega
      have hshort := rest_length nl 19 (pend v.st rs)
      have hpos := List.length_pos_iff.mpr (cut_ne_nil nl (show 0 < 19 by decide) he)
      obtain ⟨v', h7, h8⟩ := ih (v := answer { v with st := c.st, buf := c.buf }) (by simpa using h2) h3 h6
        (by
          show _ ∨ _ ∧ pend c.st c.rs = []
          rw [h5]
          by_cases hfull : Full nl 19 (cut nl 19 (pend v.st rs))
          · rw [if_pos hfull]
            exact Or.inl (by omega)
          · rw [if_neg hfull, rest, cut_of_not_full nl hfull, List.drop_length]
            exact Or.inr ⟨by omega, rfl⟩)
        (by show (pend c.st c.rs).length < fuel; rw [h5]; omega)
      refine ⟨v', by rw [mainLoop, h1]; simp only [if_pos hrc, if_neg hsend, h7], ?_⟩
      rw [h8]
      show _ + (pieces nl 19 (pend c.st c.rs)).length = _
      rw [h5, pieces_cons nl (show 0 < 19 by decide) he]
      simp; omega

/-- The answers a stream asks for: one for each newline, and one for what follows the
    last. -/
def due (stream : List UInt8) : Nat := stream.count nl + if stream.getLast?.any (· ≠ nl) then 1 else 0

/-- The loop run on `stream`, split by `rs` and followed by end of file. -/
def runOn (sends : Nat → Int) (count : Int) (buf : List UInt8) (stream : List UInt8) (rs : List (Rd UInt8 MAXLINE)) :
    Option (Res (Int × Vars)) :=
  mainLoop sends (stream.length + 1) (start count buf) (rs ++ [.eof, .eof])

theorem runOn_pieces {sends : Nat → Int} (ok : ∀ k, 0 ≤ sends k) (count : Int) {buf : List UInt8}
    (hb : buf.length = BUFSIZE) {stream : List UInt8} {rs : List (Rd UInt8 MAXLINE)} (hd : Delivers rs stream) :
    ∃ v, runOn sends count buf stream rs = some (.done (0, v)) ∧ v.served.length = (pieces nl 19 stream).length := by
  obtain ⟨h1, h2⟩ := hd
  have hp : pend ReadBuf.init (rs ++ [.eof, .eof]) = stream := by
    rw [pend, left_init, List.nil_append, bytes_append h1, h2, bytes_eof, List.append_nil]
  obtain ⟨v, h3, h4⟩ := @mainLoop_end sends ok (stream.length + 1) (start count buf) hb ok_init (rs ++ [.eof, .eof]) 2
    (by rw [stop_append h1]; rfl) (Or.inl (Nat.le_refl _)) (by show (pend ReadBuf.init _).length < _; rw [hp]; omega)
  refine ⟨v, h3, ?_⟩
  rw [h4]
  show 0 + (pieces nl 19 (pend ReadBuf.init (rs ++ [.eof, .eof]))).length = _
  rw [hp, Nat.zero_add]

/-- With sends that succeed, the loop sends as many answers as the stream asks for
    exactly when no line, its newline counted, and no unterminated tail is longer than
    19 bytes. -/
theorem answers_per_line {sends : Nat → Int} (ok : ∀ k, 0 ≤ sends k) (count : Int) {buf : List UInt8}
    (hb : buf.length = BUFSIZE) {stream : List UInt8} {rs : List (Rd UInt8 MAXLINE)} (hd : Delivers rs stream) :
    ∃ v, runOn sends count buf stream rs = some (.done (0, v)) ∧
      (v.served.length = due stream ↔ ∀ l ∈ lines nl stream, l.length ≤ 19) := by
  obtain ⟨v, h1, h2⟩ := runOn_pieces ok count hb hd
  refine ⟨v, h1, ?_⟩
  rw [h2, due, ← lines_length, pieces_length_eq nl (by decide)]

/-- Two short lines and a tail get three answers. -/
theorem answers_per_line_short :
    ∃ v, runOn (fun _ => 0) 0 (List.replicate 20 0) [97, 10, 98, 10, 99]
        [.data ⟨[97, 10, 98], by simp, by decide⟩, .data ⟨[10, 99], by simp, by decide⟩] = some (.done (0, v)) ∧
      (v.served.length = due [97, 10, 98, 10, 99] ↔ ∀ l ∈ lines nl [97, 10, 98, 10, 99], l.length ≤ 19) :=
  answers_per_line (fun _ => Int.le_refl 0) 0 rfl ⟨rfl, rfl⟩

/-- A line of 24 bytes, in one chunk: one newline, two answers. -/
def longLine : List UInt8 := List.replicate 23 97 ++ [nl]

theorem long_line_two_answers :
    ∃ v, runOn (fun _ => 0) 0 (List.replicate 20 0) longLine [.data ⟨longLine, by decide, by decide⟩] = some (.done (0, v)) ∧
      v.served.length = 2 ∧ due longLine = 1 := by
  have hd : Delivers [.data (⟨longLine, by decide, by decide⟩ : Chunk UInt8 MAXLINE)] longLine := ⟨rfl, by simp⟩
  obtain ⟨v, h1, h2⟩ := runOn_pieces (fun _ => Int.le_refl 0) 0 (List.length_replicate) hd
  exact ⟨v, h1, by rw [h2]; decide, by decide⟩

end NetworkCourse.Intro.Server
