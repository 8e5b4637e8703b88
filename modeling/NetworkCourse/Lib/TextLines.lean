/-
  NetworkCourse.Lib.TextLines — the lines of a text in which a line ends at `lf`, at `cr`, or at
  `cr` and `lf` together.

  `scan` takes one element at a time. It carries the unfinished line, and whether the last element
  was a `cr`, so that an `lf` to come belongs to it. It gets back the lines that were written with an
  end each (`scan_joined`), but for an empty one that `lf` ends behind one that `cr` ends (`Apart`).
-/

import Mathlib.Data.List.Basic

namespace NetworkCourse.Lib.TextLines

variable {α : Type} [DecidableEq α] (lf cr : α)

/-- Where a scan is. -/
structure State (α : Type) where
  skip : Bool
  acc : List α
  deriving DecidableEq

def State.start : State α := ⟨false, []⟩

/-- The lines that end in a text, and where that leaves the scan. -/
def scan : State α → List α → List (List α) × State α
  | st, [] => ([], st)
  | ⟨skip, acc⟩, a :: s =>
    if a = lf ∧ skip = true then scan ⟨false, acc⟩ s
    else if a = lf then (acc :: (scan ⟨false, []⟩ s).1, (scan ⟨false, []⟩ s).2)
    else if a = cr then (acc :: (scan ⟨true, []⟩ s).1, (scan ⟨true, []⟩ s).2)
    else scan ⟨false, acc ++ [a]⟩ s

/-- All lines, once nothing more comes: also what is unfinished, if that is not empty. -/
def finish (r : List (List α) × State α) : List (List α) := if r.2.acc = [] then r.1 else r.1 ++ [r.2.acc]

@[simp] theorem scan_nil (st : State α) : scan lf cr st [] = ([], st) := by
  cases st
  rfl

/-! ## One line -/

/-- No end is in it. -/
def Plain (l : List α) : Prop := lf ∉ l ∧ cr ∉ l

instance (l : List α) : Decidable (Plain lf cr l) := inferInstanceAs (Decidable (_ ∧ _))

omit [DecidableEq α] in
theorem Plain.cons {a : α} {l : List α} (h : Plain lf cr (a :: l)) : a ≠ lf ∧ a ≠ cr ∧ Plain lf cr l := by
  obtain ⟨h1, h2⟩ := h
  rw [List.mem_cons, not_or] at h1 h2
  exact ⟨Ne.symm h1.1, Ne.symm h2.1, h1.2, h2.2⟩

variable {lf cr}

/-- What is plain goes to the unfinished line. -/
theorem scan_plain {l : List α} (h : Plain lf cr l) (st : State α) (s : List α) :
    scan lf cr st (l ++ s) = scan lf cr ⟨st.skip && l.isEmpty, st.acc ++ l⟩ s := by
  induction l generalizing st with
  | nil => simp
  | cons a l ih =>
    obtain ⟨h1, h2, hl⟩ := h.cons
    obtain ⟨skip, acc⟩ := st
    rw [List.cons_append, scan, if_neg (fun h => h1 h.1), if_neg h1, if_neg h2, ih hl]
    simp

/-- The `lf` of a line's end that has begun. -/
theorem scan_skip (acc s : List α) : scan lf cr ⟨true, acc⟩ (lf :: s) = scan lf cr ⟨false, acc⟩ s := by
  rw [scan, if_pos ⟨rfl, rfl⟩]

theorem scan_lf (acc s : List α) :
    scan lf cr ⟨false, acc⟩ (lf :: s) = (acc :: (scan lf cr .start s).1, (scan lf cr .start s).2) := by
  rw [scan, if_neg (by simp), if_pos rfl]
  rfl

theorem scan_cr (hne : cr ≠ lf) (skip : Bool) (acc s : List α) :
    scan lf cr ⟨skip, acc⟩ (cr :: s) = (acc :: (scan lf cr ⟨true, []⟩ s).1, (scan lf cr ⟨true, []⟩ s).2) := by
  rw [scan, if_neg (fun h => hne h.1), if_neg hne, if_pos rfl]

/-! ## Lines and their ends -/

inductive Eol where
  | lf
  | cr
  | crlf
  deriving DecidableEq

def Eol.text (lf cr : α) : Eol → List α
  | .lf => [lf]
  | .cr => [cr]
  | .crlf => [cr, lf]

/-- Lines as they are written. -/
def joined (lf cr : α) (ls : List (List α × Eol)) : List α := ls.flatMap fun x => x.1 ++ x.2.text lf cr

/-- `skip`: a `cr` is in front of the first line. -/
def Apart : Bool → List (List α × Eol) → Prop
  | _, [] => True
  | skip, (l, e) :: ls => ¬ (skip = true ∧ l = [] ∧ e = .lf) ∧ Apart (e = .cr) ls

instance Apart.decide : (skip : Bool) → (ls : List (List α × Eol)) → Decidable (Apart skip ls)
  | _, [] => inferInstanceAs (Decidable True)
  | skip, (l, e) :: ls =>
    have := Apart.decide (e = .cr) ls
    inferInstanceAs (Decidable (¬ (skip = true ∧ l = [] ∧ e = .lf) ∧ Apart (e = .cr) ls))

theorem scan_joined (hne : cr ≠ lf) {ls : List (List α × Eol)} (hp : ∀ x ∈ ls, Plain lf cr x.1) {skip : Bool}
    (ha : Apart skip ls) (s : List α) :
    ∃ skip', scan lf cr ⟨skip, []⟩ (joined lf cr ls ++ s) =
      (ls.map Prod.fst ++ (scan lf cr ⟨skip', []⟩ s).1, (scan lf cr ⟨skip', []⟩ s).2) := by
  induction ls generalizing skip with
  | nil => exact ⟨skip, rfl⟩
  | cons x ls ih =>
    obtain ⟨l, e⟩ := x
    obtain ⟨hfirst, hrest⟩ := ha
    have hl : Plain lf cr l := hp (l, e) List.mem_cons_self
    obtain ⟨skip', hscan⟩ := ih (fun x hx => hp x (List.mem_cons_of_mem _ hx)) hrest
    refine ⟨skip', ?_⟩
    have hsplit : joined lf cr ((l, e) :: ls) ++ s = l ++ (e.text lf cr ++ (joined lf cr ls ++ s)) := by
      simp [joined, List.append_assoc]
    rw [hsplit, scan_plain hl]
    cases e with
    | lf =>
      -- an `lf` that is not skipped
      have hskip : (skip && l.isEmpty) = false := by
        cases skip with
        | false => rfl
        | true =>
          cases l with
          | nil => exact absurd ⟨rfl, rfl, rfl⟩ hfirst
          | cons a l => rfl
      rw [hskip]
      show scan lf cr ⟨false, [] ++ l⟩ (lf :: (joined lf cr ls ++ s)) = _
      rw [scan_lf, show scan lf cr .start (joined lf cr ls ++ s) = _ from hscan]
      rfl
    | cr =>
      show scan lf cr ⟨skip && l.isEmpty, [] ++ l⟩ (cr :: (joined lf cr ls ++ s)) = _
      rw [scan_cr hne, show scan lf cr ⟨true, []⟩ (joined lf cr ls ++ s) = _ from hscan]
      rfl
    | crlf =>
      show scan lf cr ⟨skip && l.isEmpty, [] ++ l⟩ (cr :: lf :: (joined lf cr ls ++ s)) = _
      rw [scan_cr hne, scan_skip, show scan lf cr ⟨false, []⟩ (joined lf cr ls ++ s) = _ from hscan]
      rfl

/-- A text as lines with their ends, and an unfinished one. -/
structure Parts (lf cr : α) (s : List α) (ls : List (List α × Eol)) (tail : List α) : Prop where
  plain : ∀ x ∈ ls, Plain lf cr x.1
  apart : Apart false ls
  rest : Plain lf cr tail
  eq : s = joined lf cr ls ++ tail

/-- The lines of a text are those it was written with. -/
theorem Parts.scan (hne : cr ≠ lf) {s tail : List α} {ls : List (List α × Eol)} (h : Parts lf cr s ls tail) :
    (scan lf cr .start s).1 = ls.map Prod.fst ∧ (TextLines.scan lf cr .start s).2.acc = tail := by
  obtain ⟨skip, hscan⟩ := scan_joined hne h.plain h.apart tail
  have htail := scan_plain h.rest ⟨skip, []⟩ []
  rw [List.append_nil, scan_nil] at htail
  rw [h.eq, State.start, hscan, htail]
  exact ⟨List.append_nil _, rfl⟩

omit [DecidableEq α] in
theorem Parts.cons_plain {a : α} {s tail : List α} {ls : List (List α × Eol)} (h : Parts lf cr s ls tail) (h1 : a ≠ lf)
    (h2 : a ≠ cr) : ∃ ls' tail', Parts lf cr (a :: s) ls' tail' := by
  have hcons : ∀ {l : List α}, Plain lf cr l → Plain lf cr (a :: l) := by
    intro l hl
    exact ⟨List.not_mem_cons_of_ne_of_not_mem (Ne.symm h1) hl.1, List.not_mem_cons_of_ne_of_not_mem (Ne.symm h2) hl.2⟩
  cases ls with
  | nil => exact ⟨[], a :: tail, h.plain, h.apart, hcons h.rest, congrArg (a :: ·) h.eq⟩
  | cons x ls =>
    obtain ⟨l, e⟩ := x
    refine ⟨(a :: l, e) :: ls, tail, ?_, ⟨by simp, h.apart.2⟩, h.rest, congrArg (a :: ·) h.eq⟩
    intro y hy
    rcases List.mem_cons.mp hy with rfl | hy
    · exact hcons (h.plain (l, e) List.mem_cons_self)
    · exact h.plain y (List.mem_cons_of_mem _ hy)

omit [DecidableEq α] in
theorem Parts.cons_line {s tail : List α} {ls : List (List α × Eol)} (h : Parts lf cr s ls tail) (e : Eol)
    (ha : Apart (e = .cr) ls) : Parts lf cr (e.text lf cr ++ s) (([], e) :: ls) tail := by
  refine ⟨?_, ⟨by simp, ha⟩, h.rest, by rw [h.eq]; simp [joined]⟩
  intro x hx
  rcases List.mem_cons.mp hx with rfl | hx
  · exact ⟨List.not_mem_nil, List.not_mem_nil⟩
  · exact h.plain x hx

/-- Every text has its lines. -/
theorem exists_parts (lf cr : α) (s : List α) : ∃ ls tail, Parts lf cr s ls tail := by
  induction hn : s.length using Nat.strongRecOn generalizing s with
  | ind n ih =>
    cases s with
    | nil => exact ⟨[], [], (fun _ hx => by cases hx), trivial, ⟨List.not_mem_nil, List.not_mem_nil⟩, rfl⟩
    | cons a s =>
      rw [List.length_cons] at hn
      obtain ⟨ls, tail, h⟩ := ih s.length (by omega) s rfl
      by_cases h1 : a = lf
      · subst h1
        exact ⟨_, _, h.cons_line .lf h.apart⟩
      by_cases h2 : a = cr
      · subst h2
        by_cases hlf : ∃ t, s = lf :: t
        · obtain ⟨t, rfl⟩ := hlf
          rw [List.length_cons] at hn
          obtain ⟨ls', tail', h'⟩ := ih t.length (by omega) t rfl
          exact ⟨_, _, h'.cons_line .crlf h'.apart⟩
        · refine ⟨_, _, h.cons_line .cr ?_⟩
          -- no line in front that only an `lf` ends
          cases ls with
          | nil => trivial
          | cons x ls =>
            obtain ⟨l, e⟩ := x
            refine ⟨?_, h.apart.2⟩
            rintro ⟨-, rfl, rfl⟩
            exact hlf ⟨_, h.eq⟩
      · exact h.cons_plain h1 h2

end NetworkCourse.Lib.TextLines
