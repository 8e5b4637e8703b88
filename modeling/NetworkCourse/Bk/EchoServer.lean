/-
  NetworkCourse.Bk.EchoServer — bk/EchoServer.java.

  One client at a time. `main` makes the reader once for a connection, so that what it read ahead
  stays for the next `readLine`: however a client's stream is cut, it is answered its lines, each
  once and in order and with a newline behind it, whether it ended them with `'\n'`, `'\r'` or both,
  and as soon as their end is there (`serve_lines`). The last one, without an end, is answered when
  the stream ends. The next client is accepted when the stream has ended; a reset throws in
  `readLine`, which nothing catches, and is the end of the server (`server_answers`).

  `println` writes the line and `'\n'`, and swallows its errors: `written` is what it was passed.
-/

import NetworkCourse.DelayAck.BufferedReader
import NetworkCourse.Lib.CInt
import NetworkCourse.Lib.TextLines
import Mathlib.Data.List.Induction

namespace NetworkCourse.Bk

open Lib.Ascii Lib.CInt Lib.Feed Lib.TextLines DelayAck

/-- A connection's locals: what `out` was passed, `count`, and what was printed for it. -/
structure Served where
  written : List (List UInt8)
  count : Int
  stdout : List String
  deriving DecidableEq

def Served.start : Served := ⟨[], 0, []⟩

/-- The loop's body. -/
def Served.line (sv : Served) (s : List UInt8) : Served :=
  ⟨sv.written ++ [s ++ [nl]], toInt (sv.count + 1), sv.stdout ++ ["receive  message " ++ toString sv.count]⟩

/-- How the loop stands: in `readLine`, out of it by an `IOException`, or behind it. -/
inductive Stand where
  | waiting
  | thrown
  | closed
  deriving DecidableEq

/-- The loop on `in`, with fuel for its turns. -/
def serve : Nat → BufferedReader → List (Rd UInt8 CBSIZE) → Served → Option (Served × Stand)
  | 0, _, _, _ => none
  | fuel + 1, reader, rs, sv =>
    match readLine reader rs with
    | .blocked => some (sv, .waiting)
    | .fault => some (sv, .thrown)
    | .done g =>
      match g.line with
      | none => some (sv, .closed)
      | some s => serve fuel g.reader g.rs (sv.line s)

/-- `main` on its clients in turn. -/
def server (fuel : Nat) : List (List (Rd UInt8 CBSIZE)) → Option (List (Served × Stand))
  | [] => some []
  | rs :: clients =>
    match serve fuel .new rs .start with
    | none => none
    | some (sv, .closed) => (server fuel clients).map ((sv, .closed) :: ·)
    | some r => some [r]

/-! ## One `readLine` -/

theorem cr_ne_nl : cr ≠ nl := by decide

theorem charLoop_split {xs l q : List UInt8} (h : charLoop xs = (l, q)) :
    xs = l ++ q ∧ Plain nl cr l ∧ ∀ c ∈ q.head?, c = nl ∨ c = cr := by
  unfold charLoop at h
  rw [List.span_eq_takeWhile_dropWhile, Prod.mk.injEq] at h
  obtain ⟨hl, hq⟩ := h
  have hmem : ∀ b ∈ l, b ≠ nl ∧ b ≠ cr := by
    intro b hb
    rw [← hl] at hb
    simpa using List.all_eq_true.mp List.all_takeWhile b hb
  refine ⟨?_, ⟨fun hm => (hmem nl hm).1 rfl, fun hm => (hmem cr hm).2 rfl⟩, ?_⟩
  · rw [← hl, ← hq, List.takeWhile_append_dropWhile]
  · intro c hc
    have hnot := List.head?_dropWhile_not (fun c => decide (c ≠ nl ∧ c ≠ cr)) xs
    rw [hq, Option.mem_def.mp hc] at hnot
    by_contra hn
    rw [not_or] at hn
    simp [hn.1, hn.2] at hnot

variable {cb : List UInt8} {omitLF : Bool}

/-- The `'\n'` is skipped that a scan skips. -/
theorem skip_cases (omitLF : Bool) (cb : List UInt8) :
    (omitLF = true ∧ cb = nl :: skip omitLF cb) ∨ (skip omitLF cb = cb ∧ ¬ (omitLF = true ∧ cb.head? = some nl)) := by
  unfold skip
  split
  · next h =>
    obtain ⟨t, rfl⟩ := List.head?_eq_some_iff.mp h.2
    exact Or.inl ⟨h.1, rfl⟩
  · next h => exact Or.inr ⟨rfl, h⟩

/-- The buffer has no line's end. -/
theorem scan_pass {l : List UInt8} (h : charLoop (skip omitLF cb) = (l, [])) (acc s : List UInt8) :
    scan nl cr ⟨omitLF, acc⟩ (cb ++ s) = scan nl cr ⟨omitLF && cb.isEmpty, acc ++ l⟩ s := by
  obtain ⟨hl, hp, -⟩ := charLoop_split h
  rw [List.append_nil] at hl
  rcases skip_cases omitLF cb with ⟨ho, hcb⟩ | ⟨hcb, -⟩
  · rw [hcb, hl, ho, List.cons_append, scan_skip, scan_plain hp]
    rfl
  · rw [hcb] at hl
    rw [hl, scan_plain hp]

/-- The buffer has one, and goes on with `q`. -/
theorem scan_found {l q : List UInt8} {c : UInt8} (h : charLoop (skip omitLF cb) = (l, c :: q)) (acc s : List UInt8) :
    scan nl cr ⟨omitLF, acc⟩ (cb ++ s) =
      ((acc ++ l) :: (scan nl cr ⟨c = cr, []⟩ (q ++ s)).1, (scan nl cr ⟨c = cr, []⟩ (q ++ s)).2) := by
  obtain ⟨hl, hp, hc⟩ := charLoop_split h
  -- the flag is off when an `'\n'` is found
  obtain ⟨flag, hflag, hscan⟩ : ∃ flag : Bool, (c = nl → flag = false) ∧
      scan nl cr ⟨omitLF, acc⟩ (cb ++ s) = scan nl cr ⟨flag, acc ++ l⟩ (c :: (q ++ s)) := by
    rcases skip_cases omitLF cb with ⟨ho, hcb⟩ | ⟨hcb, hno⟩
    · refine ⟨false, fun _ => rfl, ?_⟩
      rw [hcb, hl, ho, List.cons_append, scan_skip, List.append_assoc, scan_plain hp]
      rfl
    · rw [hcb] at hl
      refine ⟨omitLF && l.isEmpty, ?_, by rw [hl, List.append_assoc, scan_plain hp]; rfl⟩
      rintro rfl
      cases l with
      | nil =>
        rw [hl, List.nil_append, List.head?_cons] at hno
        simpa using hno
      | cons b l => simp
  rw [hscan]
  rcases hc c rfl with rfl | rfl
  · rw [hflag rfl, scan_lf]
    rfl
  · rw [scan_cr cr_ne_nl]
    rfl

/-- What a call that returned a line leaves to scan, which is less. -/
structure Leaves (st : State UInt8) (cb : List UInt8) (rs : List (Rd UInt8 CBSIZE)) (s : List UInt8) (g : Got) : Prop where
  line : g.line = some s
  text : scan nl cr st (cb ++ bytes rs) = (s :: (scan nl cr ⟨g.reader.skipLF, []⟩ (g.reader.cb ++ bytes g.rs)).1,
    (scan nl cr ⟨g.reader.skipLF, []⟩ (g.reader.cb ++ bytes g.rs)).2)
  rest : stop g.rs = stop rs
  less : g.reader.cb.length + (bytes g.rs).length < cb.length + (bytes rs).length

/-- What a call does that comes to the end of what there is, with `acc` unfinished. -/
def AtStop (acc : List UInt8) (x : Res Got) : List (Rd UInt8 CBSIZE) → Prop
  | .eof :: rs => ∃ omitLF, x = .done ⟨if acc = [] then none else some acc, ⟨[], omitLF⟩, rs⟩
  | .error :: _ => x = .fault
  | _ => x = .blocked

/-- A call returns the next line of the scan, or there is none and it comes to the end. -/
def Reads (st : State UInt8) (cb : List UInt8) (rs : List (Rd UInt8 CBSIZE)) (x : Res Got) : Prop :=
  (∃ s g, x = .done g ∧ Leaves st cb rs s g) ∨
    ((scan nl cr st (cb ++ bytes rs)).1 = [] ∧ AtStop (scan nl cr st (cb ++ bytes rs)).2.acc x (stop rs))

theorem found_reads {l q : List UInt8} {c : UInt8} (h : charLoop (skip omitLF cb) = (l, c :: q)) (acc : List UInt8)
    (rs : List (Rd UInt8 CBSIZE)) : Reads ⟨omitLF, acc⟩ cb rs (bufferLoop acc omitLF cb rs) := by
  refine Or.inl ⟨acc ++ l, ⟨some (acc ++ l), ⟨q, c = cr⟩, rs⟩, ?_, rfl, scan_found h acc (bytes rs), rfl, ?_⟩
  · rw [bufferLoop.eq_def, h]
  · have hlen : (skip omitLF cb).length ≤ cb.length := by
      unfold skip
      split
      · rw [List.length_tail]
        omega
      · exact Nat.le_refl _
    rw [(charLoop_split h).1, List.length_append, List.length_cons] at hlen
    simp only
    omega

/-- Behind a pass that finds no end the call goes on with the next fill. -/
theorem bufferLoop_pass {l : List UInt8} (h : charLoop (skip omitLF cb) = (l, [])) (acc : List UInt8)
    (r : Rd UInt8 CBSIZE) (rs : List (Rd UInt8 CBSIZE)) :
    bufferLoop acc omitLF cb (r :: rs) =
      match r with
      | .data c => bufferLoop (acc ++ l) (omitLF && cb.isEmpty) c.data rs
      | .eintr => bufferLoop (acc ++ l) (omitLF && cb.isEmpty) [] rs
      | .error => .fault
      | .eof => .done ⟨if acc ++ l = [] then none else some (acc ++ l), ⟨[], omitLF && cb.isEmpty⟩, rs⟩ := by
  rw [bufferLoop.eq_def, h]
  cases r <;> rfl

theorem bufferLoop_reads (rs : List (Rd UInt8 CBSIZE)) (cb acc : List UInt8) (omitLF : Bool) :
    Reads ⟨omitLF, acc⟩ cb rs (bufferLoop acc omitLF cb rs) := by
  induction rs generalizing cb acc omitLF with
  | nil =>
    rcases hloop : charLoop (skip omitLF cb) with ⟨l, - | ⟨c, q⟩⟩
    · have hscan := scan_pass hloop acc []
      rw [scan_nil] at hscan
      refine Or.inr ⟨by rw [bytes_nil, hscan], ?_⟩
      show bufferLoop acc omitLF cb [] = .blocked
      rw [bufferLoop.eq_def, hloop]
    · exact found_reads hloop acc []
  | cons r rs ih =>
    rcases hloop : charLoop (skip omitLF cb) with ⟨l, - | ⟨c, q⟩⟩
    · have hscan := scan_pass hloop acc
      rw [bufferLoop_pass hloop]
      -- what the call reads behind the pass
      have hrec : ∀ cb' : List UInt8, bytes (r :: rs) = cb' ++ bytes rs → stop (r :: rs) = stop rs →
          Reads ⟨omitLF, acc⟩ cb (r :: rs) (bufferLoop (acc ++ l) (omitLF && cb.isEmpty) cb' rs) := by
        intro cb' hb hstop
        have hsame : scan nl cr ⟨omitLF, acc⟩ (cb ++ bytes (r :: rs)) =
            scan nl cr ⟨omitLF && cb.isEmpty, acc ++ l⟩ (cb' ++ bytes rs) := by rw [hscan, hb]
        rcases ih cb' (acc ++ l) (omitLF && cb.isEmpty) with ⟨s, g, hx, hg⟩ | ⟨hnone, hat⟩
        · refine Or.inl ⟨s, g, hx, hg.line, hsame.trans hg.text, hg.rest.trans hstop.symm, ?_⟩
          have hless := hg.less
          rw [hb, List.length_append]
          omega
        · refine Or.inr ⟨by rw [hsame, hnone], ?_⟩
          rw [hsame, hstop]
          exact hat
      cases r with
      | data c => exact hrec c.data (bytes_data c rs) rfl
      | eintr => exact hrec [] rfl rfl
      | error =>
        have hend := hscan []
        rw [scan_nil] at hend
        exact Or.inr ⟨by rw [bytes_error, hend], rfl⟩
      | eof =>
        have hend := hscan []
        rw [scan_nil] at hend
        refine Or.inr ⟨by rw [bytes_eof, hend], ?_⟩
        rw [bytes_eof, hend]
        exact ⟨_, rfl⟩
    · exact found_reads hloop acc (r :: rs)

/-! ## The loop -/

/-- How it ends. -/
def standAt : List (Rd UInt8 CBSIZE) → Stand
  | .eof :: _ => .closed
  | .error :: _ => .thrown
  | _ => .waiting

/-- The lines it comes to answer. -/
def answered (st : State UInt8) (cb : List UInt8) (rs : List (Rd UInt8 CBSIZE)) : List (List UInt8) :=
  if standAt (stop rs) = .closed then finish (scan nl cr st (cb ++ bytes rs)) else (scan nl cr st (cb ++ bytes rs)).1

/-- The end of a stream is read again. -/
def EofStays (rs : List (Rd UInt8 CBSIZE)) : Prop := ∀ t, stop rs = .eof :: t → ∃ t', t = .eof :: t'

theorem serve_answers {fuel : Nat} {reader : BufferedReader} {rs : List (Rd UInt8 CBSIZE)} (heof : EofStays rs)
    (hf : reader.cb.length + (bytes rs).length + 2 ≤ fuel) (sv : Served) :
    serve fuel reader rs sv = some ((answered ⟨reader.skipLF, []⟩ reader.cb rs).foldl Served.line sv, standAt (stop rs)) := by
  induction fuel generalizing reader rs sv with
  | zero => omega
  | succ fuel ih =>
    rcases bufferLoop_reads rs reader.cb [] reader.skipLF with ⟨s, g, hx, hg⟩ | ⟨hnone, hat⟩
    · have hless := hg.less
      have heof' : EofStays g.rs := by
        intro t ht
        exact heof t (hg.rest ▸ ht)
      have hans : answered ⟨reader.skipLF, []⟩ reader.cb rs = s :: answered ⟨g.reader.skipLF, []⟩ g.reader.cb g.rs := by
        unfold answered finish
        rw [hg.text, hg.rest]
        split
        · split <;> rfl
        · rfl
      rw [serve, show readLine reader rs = .done g from hx]
      simp only [hg.line]
      rw [ih heof' (by omega), hans, hg.rest]
      rfl
    · -- no line ends any more
      have hans : standAt (stop rs) ≠ .closed → answered ⟨reader.skipLF, []⟩ reader.cb rs = [] := by
        intro hne
        rw [answered, if_neg hne, hnone]
      rw [serve, readLine]
      rcases hstop : stop rs with - | ⟨c | - | - | -, t⟩
      · rw [hstop] at hat hans
        rw [show bufferLoop [] reader.skipLF reader.cb rs = .blocked from hat, hans (by simp [standAt])]
        rfl
      · rw [hstop] at hat hans
        rw [show bufferLoop [] reader.skipLF reader.cb rs = .blocked from hat, hans (by simp [standAt])]
        rfl
      · rw [hstop] at hat hans
        rw [show bufferLoop [] reader.skipLF reader.cb rs = .blocked from hat, hans (by simp [standAt])]
        rfl
      · rw [hstop] at hat hans
        rw [show bufferLoop [] reader.skipLF reader.cb rs = .fault from hat, hans (by simp [standAt])]
        rfl
      · obtain ⟨t', rfl⟩ := heof t hstop
        rw [hstop] at hat
        obtain ⟨omitLF, hx⟩ := hat
        have hclosed : answered ⟨reader.skipLF, []⟩ reader.cb rs =
            finish (scan nl cr ⟨reader.skipLF, []⟩ (reader.cb ++ bytes rs)) := by
          rw [answered, hstop]
          exact if_pos rfl
        rw [hx, hclosed, finish, hnone]
        by_cases hacc : (scan nl cr ⟨reader.skipLF, []⟩ (reader.cb ++ bytes rs)).2.acc = []
        · rw [if_pos hacc, if_pos hacc]
          rfl
        · rw [if_neg hacc, if_neg hacc]
          -- the unfinished line, and the end of the stream once more
          obtain ⟨k, rfl⟩ : ∃ k, fuel = k + 1 := ⟨fuel - 1, by omega⟩
          simp only
          rw [serve, readLine, bufferLoop.eq_def]
          simp [charLoop, skip, standAt]

/-! ## What is answered -/

/-- What a client that sent these lines is answered. -/
def answers (ls : List (List UInt8)) : Served :=
  ⟨ls.map (· ++ [nl]), toInt ls.length,
    (List.range ls.length).map fun (i : Nat) => "receive  message " ++ toString (toInt i)⟩

theorem foldl_line (ls : List (List UInt8)) : ls.foldl Served.line .start = answers ls := by
  induction ls using List.reverseRecOn with
  | nil => rfl
  | append_singleton ls s ih =>
    have hcount : toInt (toInt ls.length + 1) = toInt (ls.length + 1 : Nat) := by
      rw [toInt, toInt, Int.bmod_add_bmod]
      rfl
    rw [List.foldl_append, ih]
    show (answers ls).line s = answers (ls ++ [s])
    simp only [Served.line, answers, hcount, List.length_append, List.length_singleton, List.range_succ, List.map_append,
      List.map_cons, List.map_nil]

/-- A client's lines, with the unfinished one when it has closed. -/
def linesOf (ls : List (List UInt8 × Eol)) (tail : List UInt8) (stand : Stand) : List (List UInt8) :=
  ls.map Prod.fst ++ if stand = .closed ∧ tail ≠ [] then [tail] else []

/-- However its stream is cut, a client is answered its lines. -/
theorem serve_lines {rs : List (Rd UInt8 CBSIZE)} (heof : EofStays rs) {fuel : Nat} (hf : (bytes rs).length + 2 ≤ fuel)
    {ls : List (List UInt8 × Eol)} {tail : List UInt8} (hp : Parts nl cr (bytes rs) ls tail) :
    serve fuel .new rs .start = some (answers (linesOf ls tail (standAt (stop rs))), standAt (stop rs)) := by
  have hserve := @serve_answers fuel .new rs heof (by simpa [BufferedReader.new] using hf) .start
  obtain ⟨h1, h2⟩ := hp.scan cr_ne_nl
  have hans : answered ⟨false, []⟩ [] rs = linesOf ls tail (standAt (stop rs)) := by
    have hscan : scan nl cr ⟨false, []⟩ ([] ++ bytes rs) = scan nl cr .start (bytes rs) := rfl
    unfold answered linesOf finish
    rw [hscan, h1, h2]
    by_cases hstand : standAt (stop rs) = .closed
    · by_cases htail : tail = []
      · simp [hstand, htail]
      · simp [hstand, htail]
    · simp [hstand]
  rw [hserve, foldl_line]
  show some (answers (answered ⟨false, []⟩ [] rs), _) = _
  rw [hans]

/-- `"a\r"`, `"\nb\n\r"` and `"c"`, and the client closes. -/
def threePieces : List (Rd UInt8 CBSIZE) :=
  [.data ⟨[97, cr], by decide, by decide⟩, .data ⟨[nl, 98, nl, cr], by decide, by decide⟩, .eintr,
    .data ⟨[99], by decide, by decide⟩, .eof, .eof]

theorem threePieces_eof : EofStays threePieces := by
  intro t ht
  cases ht
  exact ⟨[], rfl⟩

/-! ## The server -/

/-- The clients up to the first that does not close. -/
def reached : List (List (Rd UInt8 CBSIZE)) → List (List (Rd UInt8 CBSIZE))
  | [] => []
  | rs :: clients => rs :: if standAt (stop rs) = .closed then reached clients else []

/-- A client is answered its lines, and it has some. -/
structure Answered (rs : List (Rd UInt8 CBSIZE)) (r : Served × Stand) : Prop where
  sent : ∃ ls tail, Parts nl cr (bytes rs) ls tail
  lines : ∀ ls tail, Parts nl cr (bytes rs) ls tail → r = (answers (linesOf ls tail (standAt (stop rs))), standAt (stop rs))

theorem serve_answered {rs : List (Rd UInt8 CBSIZE)} (heof : EofStays rs) {fuel : Nat} (hf : (bytes rs).length + 2 ≤ fuel) :
    ∃ r, serve fuel .new rs .start = some r ∧ r.2 = standAt (stop rs) ∧ Answered rs r := by
  obtain ⟨ls, tail, hp⟩ := exists_parts nl cr (bytes rs)
  refine ⟨_, serve_lines heof hf hp, rfl, ⟨ls, tail, hp⟩, ?_⟩
  intro ls' tail' hp'
  rw [← Option.some_inj, ← serve_lines heof hf hp, serve_lines heof hf hp']

/-- The clients are served in turn, each with its own lines and its own count, up to the first that
    has not closed: on a waiting one the server waits, and a reset one is its end. -/
theorem server_answers {clients : List (List (Rd UInt8 CBSIZE))} (heof : ∀ rs ∈ clients, EofStays rs) {fuel : Nat}
    (hf : ∀ rs ∈ clients, (bytes rs).length + 2 ≤ fuel) :
    ∃ served, server fuel clients = some served ∧ List.Forall₂ Answered (reached clients) served := by
  induction clients with
  | nil => exact ⟨[], rfl, .nil⟩
  | cons rs clients ih =>
    obtain ⟨served, hserved, hall⟩ := ih (fun x hx => heof x (List.mem_cons_of_mem _ hx)) fun x hx =>
      hf x (List.mem_cons_of_mem _ hx)
    obtain ⟨⟨sv, stand⟩, hserve, hstand, hr⟩ := serve_answered (heof rs List.mem_cons_self) (hf rs List.mem_cons_self)
    simp only at hstand
    rw [server, hserve, reached, ← hstand]
    cases stand with
    | closed => exact ⟨(sv, .closed) :: served, by simp only [hserved, Option.map_some], .cons hr hall⟩
    | waiting => exact ⟨_, rfl, .cons hr .nil⟩
    | thrown => exact ⟨_, rfl, .cons hr .nil⟩

/-- A client that closes, one that is still there, and one that is not accepted. -/
theorem server_answers_two :
    ∃ r s, server 9 [threePieces, [.data ⟨[100, nl, 101], by decide, by decide⟩], [.eof, .eof]] = some [r, s] ∧
      r = (answers [[97], [98], [], [99]], .closed) ∧ s = (answers [[100]], .waiting) := by
  have heof : ∀ rs ∈ [threePieces, [.data ⟨[100, nl, 101], by decide, by decide⟩], [.eof, .eof]], EofStays rs := by
    intro rs hrs t ht
    simp only [List.mem_cons, List.not_mem_nil, or_false] at hrs
    rcases hrs with rfl | rfl | rfl
    · exact threePieces_eof t ht
    · cases ht
    · cases ht
      exact ⟨[], rfl⟩
  obtain ⟨served, hserved, hall⟩ := @server_answers _ heof 9 (by decide)
  have hp : Parts nl cr (bytes threePieces) [([97], .crlf), ([98], .lf), ([], .cr)] [99] :=
    ⟨by decide, by decide, by decide, rfl⟩
  have hp' : Parts nl cr [100, nl, 101] [([100], .lf)] [101] := ⟨by decide, by decide, by decide, rfl⟩
  cases hall with
  | @cons _ r _ served hr hall =>
    cases hall with
    | @cons _ s _ served hs hall =>
      cases hall with
      | nil => exact ⟨r, s, hserved, hr.lines _ _ hp, hs.lines _ _ hp'⟩

end NetworkCourse.Bk
