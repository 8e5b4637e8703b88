/-
  NetworkCourse.Intro.Segments — the server's `readline` over every segmentation of its
  stream (intro/reliable_test_server.c).

  However `read` splits the stream, and however often it is interrupted, successive
  calls store the stream's pieces of at most `maxlen - 1` bytes, in order, then nothing
  (`readline_sequence`). What carries the leftovers of one call over to the next is
  `pend`: a call takes one piece off it.
-/

import NetworkCourse.Intro.LineReader

namespace NetworkCourse.Intro.LineReader

open Lib.Cut Lib.Feed Lib.Ascii

theorem stop_replicate_eof {cap : Nat} (m : Nat) : stop (List.replicate m (.eof : Rd UInt8 cap)) = List.replicate m .eof := by
  cases m <;> rfl

theorem bytes_replicate_eof {cap : Nat} (m : Nat) : bytes (List.replicate m (.eof : Rd UInt8 cap)) = [] := by
  cases m <;> rfl

/-- One call on a stream that ends: it stores the next piece and leaves the rest. -/
theorem readline_piece {maxlen : Nat} (h1 : 1 ≤ maxlen) {buf : List UInt8} (hm : maxlen ≤ buf.length) {s : ReadBuf}
    (h : Ok s) {rs : List (Rd UInt8 MAXLINE)} {m : Nat} (hs : stop rs = List.replicate (m + 1) .eof) :
    ∃ c, readline maxlen buf s rs = .done c ∧ c.buf = stored (cut nl (maxlen - 1) (pend s rs)) buf ∧ Ok c.st ∧
      pend c.st c.rs = rest nl (maxlen - 1) (pend s rs) ∧
      ∃ m', m ≤ m' ∧ stop c.rs = List.replicate m' .eof := by
  by_cases hf : Full nl (maxlen - 1) (cut nl (maxlen - 1) (pend s rs))
  · obtain ⟨s', rs', h2, h3, h4, -, h5⟩ := readline_full h1 hm h hf
    exact ⟨_, h5 _ rfl, rfl, h2, h3, m + 1, by omega, h4.trans hs⟩
  · obtain ⟨s', h2, h3, h4⟩ := readline_eof h1 hm h hf hs
    have hc := cut_of_not_full nl hf
    refine ⟨_, h4, by rw [hc], h2, ?_, m, Nat.le_refl _, stop_replicate_eof m⟩
    rw [pend, h3, bytes_replicate_eof, rest, hc, List.drop_length]
    rfl

theorem calls_pieces {maxlen : Nat} (h1 : 1 ≤ maxlen) {bufs : List (List UInt8)} (hb : ∀ b ∈ bufs, b.length = maxlen)
    {s : ReadBuf} (h : Ok s) {rs : List (Rd UInt8 MAXLINE)} {m : Nat} (hn : bufs.length ≤ m)
    (hs : stop rs = List.replicate m .eof) :
    ∃ outs s' rs', calls (readline maxlen) bufs s rs = .done (outs, s', rs') ∧
      outs.map Prod.snd = List.zipWith stored (cuts nl (maxlen - 1) bufs.length (pend s rs)) bufs := by
  induction bufs generalizing s rs m with
  | nil => exact ⟨[], s, rs, rfl, rfl⟩
  | cons buf bufs ih =>
    obtain ⟨m, rfl⟩ : ∃ j, m = j + 1 := ⟨m - 1, by simp at hn; omega⟩
    obtain ⟨c, h2, h3, h4, h5, m', hm', h6⟩ := readline_piece h1 (Nat.le_of_eq (hb buf (by simp)).symm) h hs
    obtain ⟨outs, s', rs', h7, h8⟩ :=
      ih (fun b hb' => hb b (List.mem_cons_of_mem _ hb')) h4 (m := m') (by simp at hn; omega) h6
    refine ⟨(c.rc, c.buf) :: outs, s', rs', by simp [calls, h2, h7], ?_⟩
    rw [List.map_cons, h8, h5, h3]
    rfl

/-- What successive calls store is the stream cut into pieces, whatever results deliver
    it: the `i`-th buffer holds the `i`-th piece and a NUL, and the pieces together are
    the stream. -/
theorem readline_sequence {maxlen : Nat} (h2 : 2 ≤ maxlen) (stream : List UInt8) (rs : List (Rd UInt8 MAXLINE))
    (hd : Delivers rs stream) (bufs : List (List UInt8)) (hb : ∀ b ∈ bufs, b.length = maxlen) (m : Nat)
    (hm : bufs.length ≤ m) :
    (∃ outs s' rs', calls (readline maxlen) bufs .init (rs ++ List.replicate m .eof) = .done (outs, s', rs') ∧
      outs.map Prod.snd = List.zipWith stored (cuts nl (maxlen - 1) bufs.length stream) bufs) ∧
    (cuts nl (maxlen - 1) bufs.length stream).flatten ++ rests nl (maxlen - 1) bufs.length stream = stream ∧
    (stream.length ≤ bufs.length → (cuts nl (maxlen - 1) bufs.length stream).flatten = stream) := by
  obtain ⟨hstop, hbytes⟩ := hd
  refine ⟨?_, cuts_flatten nl _ _ _, ?_⟩
  · have hs : stop (rs ++ List.replicate m .eof) = List.replicate m .eof := by
      rw [stop_append hstop, stop_replicate_eof]
    have hp : pend .init (rs ++ List.replicate m .eof) = stream := by
      rw [pend, left_init, List.nil_append, bytes_append hstop, bytes_replicate_eof, List.append_nil, hbytes]
    have := calls_pieces (by omega) hb ok_init hm hs
    rwa [hp] at this
  · intro hl
    have := cuts_flatten nl (maxlen - 1) bufs.length stream
    rwa [rests_eq_nil nl (by omega) hl, List.append_nil] at this

/-- Two lines and a tail, split in the middle of the second line. -/
theorem readline_sequence_split :
    ∃ outs s' rs', calls (readline 8) [List.replicate 8 0, List.replicate 8 0] .init
        ([.data ⟨[97, 10, 98], by simp, by decide⟩, .eintr, .data ⟨[99, 10, 100], by simp, by decide⟩] ++
          List.replicate 2 .eof) = .done (outs, s', rs') ∧
      outs.map Prod.snd = List.zipWith stored [[97, 10], [98, 99, 10]] [List.replicate 8 0, List.replicate 8 0] :=
  (readline_sequence (show 2 ≤ 8 by decide) [97, 10, 98, 99, 10, 100] _ ⟨rfl, rfl⟩
    [List.replicate 8 0, List.replicate 8 0] (by decide) 2 (by decide)).1

end NetworkCourse.Intro.LineReader
