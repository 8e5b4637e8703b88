/-
  NetworkCourse.DelayAck.BufferedReader — `java.io.BufferedReader` over a socket's
  `InputStreamReader`, as far as `readLine` goes.

  `cb` is what the reader holds behind `nextChar`: it reads ahead whatever a `fill`
  gives it, up to its buffer's size. A feed result is one such `fill`; on ASCII one byte
  is one character. A `fill` of nothing is tried again; an `IOException` is a fault.
  Proved: on a stream without `'\r'` a call waits for the stream's next newline and
  keeps what came behind it (`readLine_spec`).
-/

import NetworkCourse.Lib.Cut
import NetworkCourse.Lib.Feed
import NetworkCourse.Lib.Ascii
import Mathlib.Data.List.TakeWhile

namespace NetworkCourse.DelayAck

open Lib.Cut Lib.Feed Lib.Ascii

/-- `defaultCharBufferSize` -/
def CBSIZE : Nat := 8192

/-- `'\r'` -/
def cr : UInt8 := 13

structure BufferedReader where
  cb : List UInt8
  skipLF : Bool

def BufferedReader.new : BufferedReader := ⟨[], false⟩

/-- A `readLine` that returned: its line (`none` for `null`), the reader behind it and
    the fills it did not use. -/
structure Got where
  line : Option (List UInt8)
  reader : BufferedReader
  rs : List (Rd UInt8 CBSIZE)

/-- Skip a leftover `'\n'`. -/
def skip (omitLF : Bool) (cb : List UInt8) : List UInt8 :=
  if omitLF ∧ cb.head? = some nl then cb.tail else cb

/-- `charLoop`: up to the first `'\n'` or `'\r'`, and from it on. -/
def charLoop (cb : List UInt8) : List UInt8 × List UInt8 := cb.span fun c => c ≠ nl ∧ c ≠ cr

/-- `bufferLoop`, with `s` appended so far. -/
def bufferLoop (s : List UInt8) (omitLF : Bool) (cb : List UInt8) (rs : List (Rd UInt8 CBSIZE)) : Res Got :=
  match charLoop (skip omitLF cb), rs with
  | (l, c :: q), rs => .done ⟨some (s ++ l), ⟨q, c = cr⟩, rs⟩
  | (_, []), [] => .blocked
  | (l, []), .data c :: rs => bufferLoop (s ++ l) (omitLF && cb.isEmpty) c.data rs
  | (l, []), .eintr :: rs => bufferLoop (s ++ l) (omitLF && cb.isEmpty) [] rs
  | (_, []), .error :: _ => .fault
  | (l, []), .eof :: rs => .done ⟨if s ++ l = [] then none else some (s ++ l), ⟨[], omitLF && cb.isEmpty⟩, rs⟩

def readLine (r : BufferedReader) (rs : List (Rd UInt8 CBSIZE)) : Res Got := bufferLoop [] r.skipLF r.cb rs

@[simp] theorem skip_false (cb : List UInt8) : skip false cb = cb := by simp [skip]

/-! ## One line -/

theorem not_eol {l : List UInt8} (hn : nl ∉ l) (hc : cr ∉ l) : ∀ b ∈ l, decide (b ≠ nl ∧ b ≠ cr) = true := by
  intro b hb
  apply decide_eq_true
  constructor
  · rintro rfl
    exact hn hb
  · rintro rfl
    exact hc hb

theorem charLoop_eol {l q : List UInt8} (hn : nl ∉ l) (hc : cr ∉ l) : charLoop (l ++ nl :: q) = (l, nl :: q) := by
  unfold charLoop
  rw [List.span_eq_takeWhile_dropWhile]
  have hl := not_eol hn hc
  rw [List.takeWhile_append_of_pos hl, List.dropWhile_append_of_pos hl]
  simp

theorem charLoop_all {l : List UInt8} (hn : nl ∉ l) (hc : cr ∉ l) : charLoop l = (l, []) := by
  unfold charLoop
  rw [List.span_eq_takeWhile_dropWhile]
  have hl := not_eol hn hc
  rw [List.takeWhile_eq_self_iff.mpr hl, List.dropWhile_eq_nil_iff.mpr hl]

variable {cb : List UInt8} {rs : List (Rd UInt8 CBSIZE)}

/-- The buffer holds the line's end: the call returns without a fill. -/
theorem bufferLoop_line (s : List UInt8) {l q : List UInt8} (hn : nl ∉ l) (hc : cr ∉ l) (rs : List (Rd UInt8 CBSIZE)) :
    bufferLoop s false (l ++ nl :: q) rs = .done ⟨some (s ++ l), ⟨q, false⟩, rs⟩ := by
  rw [bufferLoop.eq_def, skip_false, charLoop_eol hn hc]
  rfl

@[simp] theorem bufferLoop_nil (s : List UInt8) : bufferLoop s false [] [] = .blocked := by
  simp [bufferLoop, charLoop]

@[simp] theorem bufferLoop_data (s : List UInt8) (c : Chunk UInt8 CBSIZE) (rs : List (Rd UInt8 CBSIZE)) :
    bufferLoop s false [] (.data c :: rs) = bufferLoop s false c.data rs := by
  rw [bufferLoop.eq_def]
  simp [charLoop]

@[simp] theorem bufferLoop_eintr (s : List UInt8) (rs : List (Rd UInt8 CBSIZE)) :
    bufferLoop s false [] (.eintr :: rs) = bufferLoop s false [] rs := by
  rw [bufferLoop.eq_def]
  simp [charLoop]

@[simp] theorem bufferLoop_error (s : List UInt8) (rs : List (Rd UInt8 CBSIZE)) :
    bufferLoop s false [] (.error :: rs) = .fault := by
  simp [bufferLoop, charLoop]

@[simp] theorem bufferLoop_eof (s : List UInt8) (rs : List (Rd UInt8 CBSIZE)) :
    bufferLoop s false [] (.eof :: rs) = .done ⟨if s = [] then none else some s, ⟨[], false⟩, rs⟩ := by
  simp [bufferLoop, charLoop]

/-- It does not: the call appends it all and goes on. -/
theorem bufferLoop_append (s : List UInt8) (hn : nl ∉ cb) (hc : cr ∉ cb) (rs : List (Rd UInt8 CBSIZE)) :
    bufferLoop s false cb rs = bufferLoop (s ++ cb) false [] rs := by
  rw [bufferLoop.eq_def, bufferLoop.eq_def (s ++ cb), skip_false, skip_false, charLoop_all hn hc,
    charLoop_all (List.not_mem_nil) (List.not_mem_nil)]
  cases rs with
  | nil => rfl
  | cons r rs => cases r <;> simp

/-- The call returned the line in front of the stream's first newline and keeps what
    it read behind it. -/
def Returns (s cb : List UInt8) (rs : List (Rd UInt8 CBSIZE)) : Prop :=
  ∃ l g, bufferLoop s false cb rs = .done g ∧ g.line = some (s ++ l) ∧ nl ∉ l ∧
    cb ++ bytes rs = l ++ nl :: (g.reader.cb ++ bytes g.rs) ∧ g.reader.skipLF = false ∧ stop g.rs = []

theorem returns_of_mem (s : List UInt8) (hs : stop rs = []) (hn : nl ∈ cb) (hc : cr ∉ cb) : Returns s cb rs := by
  obtain ⟨l, q, rfl, hl⟩ := List.eq_append_cons_of_mem hn
  have hcl : cr ∉ l := by
    intro h
    exact hc (List.mem_append_left _ h)
  exact ⟨l, _, bufferLoop_line s hl hcl rs, rfl, hl, by simp, rfl, hs⟩

theorem returns_append {s : List UInt8} (hn : nl ∉ cb) (hc : cr ∉ cb) (h : Returns (s ++ cb) [] rs) :
    Returns s cb rs := by
  obtain ⟨l, g, h1, h2, h3, h4, h5⟩ := h
  refine ⟨cb ++ l, g, (bufferLoop_append s hn hc rs).trans h1, by rw [h2, List.append_assoc], ?_, ?_, h5⟩
  · exact fun h => (List.mem_append.mp h).elim hn h3
  · rw [List.nil_append] at h4
    rw [h4, List.append_assoc]

theorem bufferLoop_fills (s : List UInt8) (hs : stop rs = []) (hc : cr ∉ bytes rs) :
    (nl ∉ bytes rs ∧ bufferLoop s false [] rs = .blocked) ∨ Returns s [] rs := by
  induction rs generalizing s with
  | nil => exact Or.inl ⟨List.not_mem_nil, bufferLoop_nil s⟩
  | cons r rs ih =>
    cases r with
    | error => cases hs
    | eof => cases hs
    | eintr =>
      rcases ih s hs hc with ⟨h1, h2⟩ | ⟨l, g, h1, h2⟩
      · exact Or.inl ⟨h1, (bufferLoop_eintr s rs).trans h2⟩
      · exact Or.inr ⟨l, g, (bufferLoop_eintr s rs).trans h1, h2⟩
    | data c =>
      rw [bytes_data, List.mem_append, not_or] at hc
      unfold Returns
      rw [bufferLoop_data, bytes_data, List.nil_append]
      by_cases hn : nl ∈ c.data
      · exact Or.inr (returns_of_mem s hs hn hc.1)
      · rcases ih (s ++ c.data) hs hc.2 with ⟨h1, h2⟩ | h
        · exact Or.inl ⟨fun h => (List.mem_append.mp h).elim hn h1, (bufferLoop_append s hn hc.1 rs).trans h2⟩
        · exact Or.inr (returns_append hn hc.1 h)

/-- On a feed that only delivers a call returns at the stream's first newline, or waits
    while there is none. -/
theorem bufferLoop_spec (s : List UInt8) (hs : stop rs = []) (hc : cr ∉ cb ++ bytes rs) :
    (nl ∉ cb ++ bytes rs ∧ bufferLoop s false cb rs = .blocked) ∨ Returns s cb rs := by
  rw [List.mem_append, not_or] at hc
  by_cases hn : nl ∈ cb
  · exact Or.inr (returns_of_mem s hs hn hc.1)
  · rcases bufferLoop_fills (s ++ cb) hs hc.2 with ⟨h1, h2⟩ | h
    · exact Or.inl ⟨fun h => (List.mem_append.mp h).elim hn h1, (bufferLoop_append s hn hc.1 rs).trans h2⟩
    · exact Or.inr (returns_append hn hc.1 h)

/-- A call on a connection that has nothing left returns no line. -/
theorem bufferLoop_dry (hb : bytes rs = []) {g : Got} (hd : bufferLoop [] false [] rs = .done g) :
    g.line = none ∧ g.reader.cb = [] := by
  induction rs with
  | nil => rw [bufferLoop_nil] at hd; cases hd
  | cons r rs ih =>
    cases r with
    | error => rw [bufferLoop_error] at hd; cases hd
    | eof => rw [bufferLoop_eof] at hd; cases hd; exact ⟨rfl, rfl⟩
    | eintr => rw [bufferLoop_eintr] at hd; exact ih hb hd
    | data c => exact absurd (List.append_eq_nil_iff.mp hb).1 c.ne

end NetworkCourse.DelayAck
