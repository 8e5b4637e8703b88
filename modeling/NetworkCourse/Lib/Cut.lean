/-
  NetworkCourse.Lib.Cut — cutting a stream into pieces that end at a delimiter and
  never pass a length limit.

  `cut d k s` is the next piece of `s`: up to and including its first `d` when that is
  among the first `k` elements, else the first `k` elements, or all there are. A piece
  is `Full` when nothing that arrives later can change it: it holds `d`, or it has `k`
  elements. `scan` cuts one element at a time and carries the unfinished piece, so it
  composes over any splitting of its input (`scan_append`). `lines` cuts at `d` with no
  limit; `scan_count` says how many limited pieces its lines make.
-/

import Mathlib.Data.List.Basic
import Mathlib.Algebra.BigOperators.Group.List.Basic
import Mathlib.Algebra.Order.Ring.Int

namespace NetworkCourse.Lib.Cut

variable {α : Type}

/-! ## Shares of a line -/

/-- How many pieces of at most `k` a line makes. -/
def share (k : Nat) (l : List α) : Nat := (l.length + (k - 1)) / k

theorem share_eq_one {k : Nat} {l : List α} (hl : l ≠ []) : share k l = 1 ↔ l.length ≤ k ∧ 0 < k := by
  have := List.length_pos_iff.mpr hl
  unfold share
  rcases Nat.eq_zero_or_pos k with rfl | hk
  · simp
  · rw [Nat.div_eq_iff hk]; omega

theorem share_pos {k : Nat} (hk : 0 < k) {l : List α} (hl : l ≠ []) : 1 ≤ share k l := by
  have := List.length_pos_iff.mpr hl
  rw [share, Nat.one_le_div_iff hk]; omega

theorem share_full {k : Nat} (hk : 0 < k) {p : List α} (hp : p.length = k) (l : List α) :
    share k (p ++ l) = share k l + 1 := by
  unfold share
  rw [List.length_append, hp, Nat.add_assoc, Nat.add_div_left _ hk]

/-! ## Pieces -/

variable [DecidableEq α] (d : α)

/-- The next piece of `s`: to its first `d`, or `k` elements, or all there are. -/
def cut (k : Nat) (s : List α) : List α :=
  if d ∈ s.take k then s.take (s.idxOf d + 1) else s.take k

/-- What is left of `s` behind its next piece. -/
def rest (k : Nat) (s : List α) : List α := s.drop (cut d k s).length

/-- The first `n` pieces, empty ones once `s` is used up. -/
def cuts (k : Nat) : Nat → List α → List (List α)
  | 0, _ => []
  | n + 1, s => cut d k s :: cuts k n (rest d k s)

/-- What `n` pieces leave. -/
def rests (k : Nat) : Nat → List α → List α
  | 0, s => s
  | n + 1, s => rests k n (rest d k s)

/-- A piece that nothing arriving later can change. -/
def Full (k : Nat) (p : List α) : Prop := d ∈ p ∨ p.length = k

instance (k : Nat) (p : List α) : Decidable (Full d k p) := inferInstanceAs (Decidable (_ ∨ _))

omit [DecidableEq α] in
theorem Full.ne_nil {d : α} {k : Nat} (hk : 0 < k) {p : List α} (h : Full d k p) : p ≠ [] := by
  rintro rfl
  rcases h with h | h
  · cases h
  · exact absurd h (Nat.ne_of_lt hk)

/-! ## One piece -/

@[simp] theorem cut_zero (s : List α) : cut d 0 s = [] := by simp [cut]
@[simp] theorem cut_nil (k : Nat) : cut d k [] = [] := by simp [cut]

theorem cut_succ_cons (k : Nat) (a : α) (s : List α) :
    cut d (k + 1) (a :: s) = if a = d then [a] else a :: cut d k s := by
  unfold cut
  by_cases h : a = d
  · simp [h]
  · simp only [List.take_succ_cons, List.mem_cons, Ne.symm h, false_or, if_neg h, List.idxOf_cons_ne s h]
    split <;> rfl

@[simp] theorem cut_self_cons (k : Nat) (s : List α) : cut d (k + 1) (d :: s) = [d] := by simp [cut_succ_cons]

theorem cut_ne_cons {a : α} (h : a ≠ d) (k : Nat) (s : List α) : cut d (k + 1) (a :: s) = a :: cut d k s := by
  simp [cut_succ_cons, h]

theorem cut_length_le (k : Nat) (s : List α) : (cut d k s).length ≤ k := by
  induction k generalizing s with
  | zero => simp
  | succ k ih =>
    cases s with
    | nil => simp
    | cons a s =>
      rw [cut_succ_cons]
      split
      · simp
      · have := ih s
        simp only [List.length_cons]; omega

/-- A piece is the beginning of what is cut. -/
theorem cut_initial (k : Nat) (s : List α) : cut d k s <+: s := by
  induction k generalizing s with
  | zero => simp
  | succ k ih =>
    cases s with
    | nil => simp
    | cons a s =>
      rw [cut_succ_cons]
      split
      · exact ⟨s, rfl⟩
      · exact List.prefix_cons_inj a |>.mpr (ih s)

theorem cut_append_rest (k : Nat) (s : List α) : cut d k s ++ rest d k s = s :=
  List.prefix_iff_eq_append.mp (cut_initial d k s)

theorem rest_length (k : Nat) (s : List α) : (cut d k s).length + (rest d k s).length = s.length := by
  rw [← List.length_append, cut_append_rest]

theorem cut_ne_nil {k : Nat} (hk : 0 < k) {s : List α} (hs : s ≠ []) : cut d k s ≠ [] := by
  obtain ⟨k, rfl⟩ : ∃ j, k = j + 1 := ⟨k - 1, by omega⟩
  cases s with
  | nil => exact absurd rfl hs
  | cons a s => rw [cut_succ_cons]; split <;> simp

/-- The piece the definition names when a `d` is in reach. -/
theorem cut_of_mem {k : Nat} {s : List α} (h : d ∈ s.take k) : cut d k s = s.take (s.idxOf d + 1) := if_pos h

theorem cut_of_not_mem {k : Nat} {s : List α} (h : d ∉ s.take k) : cut d k s = s.take k := if_neg h

/-- A `d` in reach is in the next piece. -/
theorem mem_cut_iff (k : Nat) (s : List α) : d ∈ cut d k s ↔ d ∈ s.take k := by
  by_cases h : d ∈ s.take k
  · have hi := List.idxOf_lt_length_of_mem (List.mem_of_mem_take h)
    rw [cut_of_mem d h]
    constructor
    · intro _
      exact h
    · intro _
      exact List.mem_take_iff_getElem.mpr ⟨_, by omega, List.getElem_idxOf hi⟩
  · rw [cut_of_not_mem d h]

/-- A line in reach is cut off whole. -/
theorem cut_line {k : Nat} {l : List α} (hl : d ∉ l) (hk : l.length < k) (s : List α) :
    cut d k (l ++ d :: s) = l ++ [d] := by
  induction l generalizing k with
  | nil => obtain ⟨k, rfl⟩ : ∃ j, k = j + 1 := ⟨k - 1, by simp at hk; omega⟩; simp
  | cons a l ih =>
    obtain ⟨k, rfl⟩ : ∃ j, k = j + 1 := ⟨k - 1, by simp at hk; omega⟩
    simp only [List.mem_cons, not_or] at hl
    rw [List.cons_append, cut_ne_cons d (Ne.symm hl.1), ih hl.2 (by simp at hk; omega), List.cons_append]

/-- An unfinished piece is the whole stream. -/
theorem cut_of_not_full {k : Nat} {s : List α} (h : ¬ Full d k (cut d k s)) : cut d k s = s := by
  unfold Full at h
  by_cases hm : d ∈ s.take k
  · rw [cut_of_mem d hm] at h
    refine absurd (Or.inl ?_) h
    have hs : d ∈ s := List.mem_of_mem_take hm
    have hi := List.idxOf_lt_length_of_mem hs
    have : s[s.idxOf d] ∈ s.take (s.idxOf d + 1) := List.mem_take_iff_getElem.mpr ⟨_, by omega, rfl⟩
    simpa using this
  · rw [cut_of_not_mem d hm] at h ⊢
    simp only [not_or, List.length_take] at h
    exact List.take_of_length_le (by omega)

/-- Cutting a piece again leaves it whole. -/
@[simp] theorem cut_cut (k : Nat) (s : List α) : cut d k (cut d k s) = cut d k s := by
  induction k generalizing s with
  | zero => simp
  | succ k ih =>
    cases s with
    | nil => simp
    | cons a s =>
      by_cases e : a = d
      · subst e; simp
      · rw [cut_ne_cons d e, cut_ne_cons d e, ih]

/-- The beginning of a piece is cut no further. -/
theorem cut_of_prefix {k : Nat} {s t : List α} (h : t <+: cut d k s) : cut d k t = t := by
  induction k generalizing s t with
  | zero =>
    rw [cut_zero, List.prefix_nil] at h
    rw [h, cut_nil]
  | succ k ih =>
    cases t with
    | nil => exact cut_nil d _
    | cons b t =>
      cases s with
      | nil => simp at h
      | cons a s =>
        by_cases e : a = d
        · subst e
          rw [cut_self_cons, List.cons_prefix_cons, List.prefix_nil] at h
          obtain ⟨rfl, rfl⟩ := h
          exact cut_self_cons _ k []
        · rw [cut_ne_cons d e, List.cons_prefix_cons] at h
          obtain ⟨rfl, ht⟩ := h
          rw [cut_ne_cons d e, ih ht]

/-- What arrives behind a finished piece does not change it. -/
theorem cut_append_full {k : Nat} {s : List α} (h : Full d k (cut d k s)) (t : List α) : cut d k (s ++ t) = cut d k s := by
  induction k generalizing s with
  | zero => rw [cut_zero, cut_zero]
  | succ k ih =>
    cases s with
    | nil =>
      rw [cut_nil] at h
      exact absurd rfl (h.ne_nil (Nat.succ_pos k))
    | cons a s =>
      by_cases e : a = d
      · subst e
        rw [List.cons_append, cut_self_cons, cut_self_cons]
      · rw [cut_ne_cons d e] at h
        have hs : Full d k (cut d k s) := by
          rcases h with h | h
          · exact Or.inl ((List.mem_cons.mp h).resolve_left (Ne.symm e))
          · exact Or.inr (Nat.succ.inj h)
        rw [List.cons_append, cut_ne_cons d e, cut_ne_cons d e, ih hs]

/-! ## All pieces -/

theorem cuts_flatten (k n : Nat) (s : List α) : (cuts d k n s).flatten ++ rests d k n s = s := by
  induction n generalizing s with
  | zero => rfl
  | succ n ih => rw [cuts, rests, List.flatten_cons, List.append_assoc, ih, cut_append_rest]

/-- As many pieces as there are elements use up the stream. -/
theorem rests_eq_nil {k : Nat} (hk : 0 < k) {n : Nat} {s : List α} (hn : s.length ≤ n) : rests d k n s = [] := by
  induction n generalizing s with
  | zero => exact List.eq_nil_of_length_eq_zero (Nat.le_zero.mp hn)
  | succ n ih =>
    apply ih
    have hl := rest_length d k s
    by_cases hs : s = []
    · subst hs; simp [rest]
    · have := List.length_pos_iff.mpr (cut_ne_nil d hk hs)
      omega

/-! ## Cutting as the elements come -/

/-- The pieces `acc ++ s` makes once `acc` is the unfinished piece, and what is then
    unfinished. -/
def scan (k : Nat) : List α → List α → List (List α) × List α
  | acc, [] => ([], acc)
  | acc, b :: s =>
    if b = d ∨ acc.length + 1 = k then ((acc ++ [b]) :: (scan k [] s).1, (scan k [] s).2)
    else scan k (acc ++ [b]) s

theorem scan_emit {k : Nat} {acc : List α} {b : α} (h : b = d ∨ acc.length + 1 = k) (s : List α) :
    scan d k acc (b :: s) = ((acc ++ [b]) :: (scan d k [] s).1, (scan d k [] s).2) := by
  rw [scan, if_pos h]

theorem scan_keep {k : Nat} {acc : List α} {b : α} (h : ¬ (b = d ∨ acc.length + 1 = k)) (s : List α) :
    scan d k acc (b :: s) = scan d k (acc ++ [b]) s := by
  rw [scan, if_neg h]

theorem scan_append (k : Nat) (acc s t : List α) :
    scan d k acc (s ++ t) =
      ((scan d k acc s).1 ++ (scan d k (scan d k acc s).2 t).1, (scan d k (scan d k acc s).2 t).2) := by
  induction s generalizing acc with
  | nil => rfl
  | cons b s ih =>
    simp only [List.cons_append, scan]
    split
    · simp only [ih, List.cons_append]
    · exact ih _

theorem scan_flatten (k : Nat) (acc s : List α) : (scan d k acc s).1.flatten ++ (scan d k acc s).2 = acc ++ s := by
  induction s generalizing acc with
  | nil => simp [scan]
  | cons b s ih =>
    by_cases h : b = d ∨ acc.length + 1 = k
    · have := ih []
      simp only [scan_emit d h, List.flatten_cons, List.append_assoc, this]
      simp
    · rw [scan_keep d h, ih]; simp

/-- Cutting one element at a time makes the pieces that cutting at once makes. -/
theorem scan_cut {k : Nat} (acc : List α) (ha : acc.length < k) (s : List α) :
    scan d k acc s = if Full d (k - acc.length) (cut d (k - acc.length) s) then
      ((acc ++ cut d (k - acc.length) s) :: (scan d k [] (rest d (k - acc.length) s)).1,
        (scan d k [] (rest d (k - acc.length) s)).2)
      else ([], acc ++ s) := by
  induction s generalizing acc with
  | nil =>
    have : ¬ Full d (k - acc.length) (cut d (k - acc.length) []) := by simp [Full]; omega
    rw [if_neg this]; simp [scan]
  | cons b s ih =>
    obtain ⟨j, hj⟩ : ∃ j, k - acc.length = j + 1 := ⟨k - acc.length - 1, by omega⟩
    rw [hj]
    simp only [scan]
    by_cases e : b = d
    · subst e
      simp [Full, rest]
    · by_cases hk : acc.length + 1 = k
      · obtain rfl : j = 0 := by omega
        have hf : Full d 1 (cut d 1 (b :: s)) := Or.inr (by simp [cut_ne_cons d e])
        rw [if_pos (Or.inr hk), if_pos hf]
        simp [cut_ne_cons d e, rest]
      · have hlen : k - (acc ++ [b]).length = j := by simp; omega
        rw [if_neg (by simp [e, hk]), ih _ (by simp; omega), hlen, cut_ne_cons d e]
        have hiff : Full d (j + 1) (b :: cut d j s) ↔ Full d j (cut d j s) := by simp [Full, Ne.symm e]
        have hrest : rest d (j + 1) (b :: s) = rest d j s := by simp [rest, cut_ne_cons d e]
        simp only [hiff, hrest, List.append_assoc, List.singleton_append]

theorem scan_full {k : Nat} (hk : 0 < k) {s : List α} (h : Full d k (cut d k s)) :
    scan d k [] s = (cut d k s :: (scan d k [] (rest d k s)).1, (scan d k [] (rest d k s)).2) := by
  rw [scan_cut d [] hk]; simp [h]

theorem scan_not_full {k : Nat} (hk : 0 < k) {s : List α} (h : ¬ Full d k (cut d k s)) :
    scan d k [] s = ([], s) := by
  rw [scan_cut d [] hk]; simp [h]

/-- A finished piece is one piece. -/
theorem scan_piece {k : Nat} (hk : 0 < k) {s : List α} (h : Full d k (cut d k s)) :
    scan d k [] (cut d k s) = ([cut d k s], []) := by
  have h' : Full d k (cut d k (cut d k s)) := by rwa [cut_cut]
  have hr : rest d k (cut d k s) = [] := by rw [rest, cut_cut, List.drop_length]
  rw [scan_full d hk h', hr, cut_cut]
  rfl

/-- Finished pieces one behind another. -/
theorem scan_pieces {k : Nat} (hk : 0 < k) {ps : List (List α)} (h : ∀ p ∈ ps, cut d k p = p ∧ Full d k p) :
    scan d k [] ps.flatten = (ps, []) := by
  induction ps with
  | nil => rfl
  | cons p ps ih =>
    obtain ⟨hp, hps⟩ := List.forall_mem_cons.mp h
    have hone := scan_piece d hk (s := p) (by rw [hp.1]; exact hp.2)
    rw [hp.1] at hone
    rw [List.flatten_cons, scan_append, hone, ih hps]
    rfl

/-- What `scan` emits is finished, and what it keeps is shorter than a piece. -/
theorem scan_spec {k : Nat} (acc : List α) (ha : acc.length < k) (s : List α) :
    (∀ p ∈ (scan d k acc s).1, Full d k p) ∧ (scan d k acc s).2.length < k := by
  induction s generalizing acc with
  | nil => exact ⟨fun p hp => (by cases hp), ha⟩
  | cons b s ih =>
    by_cases h : b = d ∨ acc.length + 1 = k
    · obtain ⟨h1, h2⟩ := ih [] (by simp; omega)
      rw [scan_emit d h]
      refine ⟨?_, h2⟩
      intro p hp
      rcases List.mem_cons.mp hp with rfl | hp
      · rcases h with rfl | h
        · exact Or.inl (by simp)
        · exact Or.inr (by simpa using h)
      · exact h1 p hp
    · rw [scan_keep d h]
      exact ih (acc ++ [b]) (by simp; omega)

/-- A stream that ends in `d` leaves nothing unfinished. -/
theorem scan_ended (k : Nat) (s : List α) : (scan d k [] (s ++ [d])).2 = [] := by
  rw [scan_append, scan_emit d (Or.inl rfl)]
  rfl

/-- Enough for a piece gives one. -/
theorem scan_emits {k : Nat} {acc s : List α} (ha : acc.length < k) (h : d ∈ s ∨ k ≤ acc.length + s.length) :
    1 ≤ (scan d k acc s).1.length := by
  induction s generalizing acc with
  | nil =>
    rcases h with h | h
    · cases h
    · exact absurd ha (Nat.not_lt_of_le h)
  | cons b s ih =>
    by_cases hb : b = d ∨ acc.length + 1 = k
    · rw [scan_emit d hb]
      exact Nat.succ_le_succ (Nat.zero_le _)
    · rw [scan_keep d hb]
      rw [not_or] at hb
      refine ih (by simp; omega) ?_
      rcases h with h | h
      · exact Or.inl ((List.mem_cons.mp h).resolve_left (Ne.symm hb.1))
      · exact Or.inr (by simp at h ⊢; omega)

/-- Each part of a stream that is enough for a piece gives one, wherever the cuts fall. -/
theorem scan_length_ge {k : Nat} {acc : List α} (ha : acc.length < k) {ps : List (List α)}
    (h : ∀ p ∈ ps, d ∈ p ∨ k ≤ p.length) : ps.length ≤ (scan d k acc ps.flatten).1.length := by
  induction ps generalizing acc with
  | nil => exact Nat.zero_le _
  | cons p ps ih =>
    obtain ⟨hp, hps⟩ := List.forall_mem_cons.mp h
    have hone := scan_emits d ha (hp.imp_right fun hk => Nat.le_trans hk (Nat.le_add_left _ _))
    have hmore := ih (scan_spec d acc ha p).2 hps
    rw [List.flatten_cons, scan_append, List.length_append, List.length_cons]
    omega

/-- The pieces of a whole stream, its unfinished end included. -/
def pieces (k : Nat) (s : List α) : List (List α) :=
  (scan d k [] s).1 ++ if (scan d k [] s).2 = [] then [] else [(scan d k [] s).2]

@[simp] theorem pieces_nil (k : Nat) : pieces d k [] = [] := rfl

theorem pieces_cons {k : Nat} (hk : 0 < k) {s : List α} (hs : s ≠ []) :
    pieces d k s = cut d k s :: pieces d k (rest d k s) := by
  by_cases h : Full d k (cut d k s)
  · simp only [pieces, scan_full d hk h, List.cons_append]
  · have hr : rest d k s = [] := by rw [rest, cut_of_not_full d h, List.drop_length]
    rw [pieces, scan_not_full d hk h, hr, pieces_nil, cut_of_not_full d h]
    simp [hs]

/-- What arrives behind an unfinished piece lengthens it. -/
theorem cut_append_lt {k : Nat} {s : List α} (h : ¬ Full d k (cut d k s)) {t : List α} (ht : t ≠ []) :
    s.length < (cut d k (s ++ t)).length := by
  have hs := cut_of_not_full d h
  rw [hs, Full, not_or] at h
  have hk : s.length < k := by
    have := cut_length_le d k s
    rw [hs] at this
    omega
  have hpos := List.length_pos_iff.mpr ht
  by_cases hm : d ∈ (s ++ t).take k
  · have hi := List.idxOf_lt_length_of_mem (List.mem_of_mem_take hm)
    have hle : s.length ≤ (s ++ t).idxOf d := by
      rw [List.idxOf_append_of_notMem h.1]; omega
    rw [cut_of_mem d hm, List.length_take]; omega
  · rw [cut_of_not_mem d hm, List.length_take, List.length_append]; omega

/-- Pieces already complete stay the first pieces of a longer stream. -/
theorem scan_prefix (k : Nat) (s t : List α) : (scan d k [] s).1 <+: (scan d k [] (s ++ t)).1 := by
  rw [scan_append]
  exact List.prefix_append _ _

/-! ## Lines -/

/-- A line ends in its only `d`. -/
def Line (l : List α) : Prop := ∃ b, d ∉ b ∧ l = b ++ [d]

omit [DecidableEq α] in
theorem Line.ne_nil {d : α} {l : List α} (h : Line d l) : l ≠ [] := by
  obtain ⟨b, -, rfl⟩ := h
  simp

omit [DecidableEq α] in
theorem Line.mem {d : α} {l : List α} (h : Line d l) : d ∈ l := by
  obtain ⟨b, -, rfl⟩ := h
  simp

/-- A line in reach is the next piece. -/
theorem Line.cut {d : α} {l : List α} (h : Line d l) {k : Nat} (hk : l.length ≤ k) (t : List α) : cut d k (l ++ t) = l := by
  obtain ⟨b, hb, rfl⟩ := h
  rw [List.append_assoc, List.singleton_append, cut_line d hb (by simp at hk; omega)]

theorem Line.rest {d : α} {l : List α} (h : Line d l) {k : Nat} (hk : l.length ≤ k) (t : List α) :
    rest d k (l ++ t) = t := by
  rw [Lib.Cut.rest, h.cut hk, List.drop_left]

omit [DecidableEq α] in
/-- A stream that starts with a line, split in two: the first part holds the line, or it
    is shorter and has no `d`. -/
theorem Line.split {d : α} {l t p q : List α} (h : Line d l) (he : l ++ t = p ++ q) :
    (∃ p', p = l ++ p' ∧ t = p' ++ q) ∨ d ∉ p ∧ p.length < l.length := by
  rcases List.append_eq_append_iff.mp he with ⟨a, rfl, rfl⟩ | ⟨c, hl, rfl⟩
  · exact Or.inl ⟨a, rfl, rfl⟩
  · obtain ⟨b, hb, rfl⟩ := h
    rcases List.eq_nil_or_concat c with rfl | ⟨c', x, rfl⟩
    · exact Or.inl ⟨[], by simpa using hl.symm, by simp⟩
    · right
      rw [List.concat_eq_append, ← List.append_assoc] at hl
      obtain ⟨rfl, -⟩ := List.append_inj' hl rfl
      exact ⟨fun hm => hb (List.mem_append_left _ hm), by simp⟩

/-- `s` cut behind every `d`, and what follows the last one. -/
def lines : List α → List (List α)
  | [] => []
  | a :: s =>
    if a = d then [a] :: lines s
    else match lines s with
      | [] => [[a]]
      | l :: ls => (a :: l) :: ls

theorem lines_append {acc : List α} (ha : d ∉ acc) (hne : acc ≠ []) (s : List α) :
    lines d (acc ++ s) = match lines d s with
      | [] => [acc]
      | l :: ls => (acc ++ l) :: ls := by
  induction acc with
  | nil => exact absurd rfl hne
  | cons a acc ih =>
    simp only [List.mem_cons, not_or] at ha
    rw [List.cons_append, lines, if_neg (Ne.symm ha.1)]
    by_cases he : acc = []
    · subst he; rw [List.nil_append]; cases lines d s <;> rfl
    · rw [ih ha.2 he]; cases lines d s <;> rfl

theorem lines_ne_nil {s : List α} : ∀ l ∈ lines d s, l ≠ [] := by
  induction s with
  | nil => simp [lines]
  | cons a s ih =>
    intro l hl
    rw [lines] at hl
    split at hl
    · rcases List.mem_cons.mp hl with rfl | hl
      · simp
      · exact ih l hl
    · revert ih hl
      cases lines d s with
      | nil => intro _ hl; simp at hl; simp [hl]
      | cons m ms =>
        intro ih hl
        rcases List.mem_cons.mp hl with rfl | hl
        · simp
        · exact ih l (List.mem_cons_of_mem _ hl)

theorem lines_cons_line {l : List α} (h : Line d l) (s : List α) : lines d (l ++ s) = l :: lines d s := by
  obtain ⟨b, hb, rfl⟩ := h
  induction b with
  | nil => simp [lines]
  | cons a b ih =>
    rw [List.mem_cons, not_or] at hb
    obtain ⟨ha, hb⟩ := hb
    rw [List.cons_append, List.cons_append, lines, if_neg (Ne.symm ha), ih hb]

/-- Lines one behind another. -/
theorem lines_of_lines {ls : List (List α)} (h : ∀ l ∈ ls, Line d l) : lines d ls.flatten = ls := by
  induction ls with
  | nil => rfl
  | cons l ls ih =>
    obtain ⟨hl, hls⟩ := List.forall_mem_cons.mp h
    rw [List.flatten_cons, lines_cons_line d hl, ih hls]

theorem lines_eq_nil {s : List α} (h : lines d s = []) : s = [] := by
  cases s with
  | nil => rfl
  | cons a s =>
    rw [lines] at h
    split at h
    · cases h
    · revert h; cases lines d s <;> simp

theorem lines_flatten (s : List α) : (lines d s).flatten = s := by
  induction s with
  | nil => rfl
  | cons a s ih =>
    rw [lines]
    split
    · simp [ih]
    · revert ih; cases lines d s <;> simp

/-- A stream is lines and a tail without a `d`. -/
theorem lines_split (s : List α) :
    ∃ ls tail, s = ls.flatten ++ tail ∧ (∀ l ∈ ls, Line d l) ∧ d ∉ tail ∧
      lines d s = ls ++ if tail = [] then [] else [tail] := by
  induction hk : s.length using Nat.strongRecOn generalizing s with
  | ind k ih =>
    by_cases hd : d ∈ s
    · obtain ⟨b, s', rfl, hb⟩ := List.eq_append_cons_of_mem hd
      obtain ⟨ls, tail, h1, h2, h3, h4⟩ := ih s'.length (by simp at hk; omega) s' rfl
      have hline : Line d (b ++ [d]) := ⟨b, hb, rfl⟩
      have hs : b ++ d :: s' = (b ++ [d]) ++ s' := by simp
      refine ⟨(b ++ [d]) :: ls, tail, ?_, List.forall_mem_cons.mpr ⟨hline, h2⟩, h3, ?_⟩
      · rw [hs, List.flatten_cons, List.append_assoc (b ++ [d]), ← h1]
      · rw [hs, lines_cons_line d hline, h4, List.cons_append]
    · refine ⟨[], s, rfl, by simp, hd, ?_⟩
      by_cases hne : s = []
      · simp [hne, lines]
      · have hl := lines_append d hd hne []
        rw [List.append_nil] at hl
        rw [hl, if_neg hne]
        rfl

omit [DecidableEq α] in
/-- The tail is what follows the last `d`. -/
theorem tail_eq_nil_iff {ls : List (List α)} {tail : List α} (hl : ∀ l ∈ ls, Line d l) (ht : d ∉ tail) :
    tail = [] ↔ ∀ b, (ls.flatten ++ tail).getLast? = some b → b = d := by
  constructor
  · rintro rfl b hb
    rcases List.eq_nil_or_concat ls with rfl | ⟨ls, l, rfl⟩
    · cases hb
    · obtain ⟨c, -, rfl⟩ := hl l (by simp)
      rw [List.concat_eq_append, List.append_nil, List.flatten_concat, ← List.append_assoc, List.getLast?_concat] at hb
      cases hb
      rfl
  · intro h
    rcases List.eq_nil_or_concat tail with rfl | ⟨tail, b, rfl⟩
    · rfl
    · have hb := h b (by rw [List.concat_eq_append, ← List.append_assoc, List.getLast?_concat])
      exact absurd (by simp [hb]) ht

/-- A stream has one line for each `d`, and one more when something follows the last. -/
theorem lines_length (s : List α) :
    (lines d s).length = s.count d + if s.getLast?.any (· ≠ d) then 1 else 0 := by
  induction s with
  | nil => rfl
  | cons a s ih =>
    rw [lines]
    cases s with
    | nil => by_cases h : a = d <;> simp [h, lines]
    | cons b s =>
      rw [List.getLast?_cons_cons, List.count_cons]
      by_cases h : a = d
      · simp only [h, if_true, List.length_cons, ih, beq_self_eq_true]; omega
      · simp only [if_neg h, beq_eq_false_iff_ne.mpr h, Bool.false_eq_true, if_false, Nat.add_zero, ← ih]
        cases hl : lines d (b :: s) with
        | nil => exact absurd (lines_eq_nil d hl) (by simp)
        | cons l ls => rfl

theorem scan_count {k : Nat} (acc : List α) (ha : d ∉ acc) (hl : acc.length < k) (s : List α) :
    (scan d k acc s).1.length + (if (scan d k acc s).2 = [] then 0 else 1) =
      ((lines d (acc ++ s)).map (share k)).sum := by
  have hk : 0 < k := by omega
  induction s generalizing acc with
  | nil =>
    by_cases he : acc = []
    · subst he; rfl
    · have := (share_eq_one (k := k) he).mpr ⟨by omega, hk⟩
      rw [lines_append d ha he]
      simp [scan, lines, he, this]
  | cons b s ih =>
    have hnil := ih [] (by simp) hk
    rw [List.nil_append] at hnil
    by_cases e : b = d
    · subst e
      have h1 : share k (acc ++ [b]) = 1 := (share_eq_one (by simp)).mpr ⟨by simp; omega, hk⟩
      have hlines : lines b (acc ++ b :: s) = (acc ++ [b]) :: lines b s := by
        by_cases he : acc = []
        · subst he; simp [lines]
        · rw [lines_append b ha he]; simp [lines]
      simp only [scan_emit b (Or.inl rfl), hlines, List.map_cons, List.sum_cons, h1, ← hnil, List.length_cons]
      omega
    · have hb : d ∉ acc ++ [b] := by simp [ha, Ne.symm e]
      by_cases hf : acc.length + 1 = k
      · have hlen : (acc ++ [b]).length = k := by simpa using hf
        have happ : acc ++ b :: s = (acc ++ [b]) ++ s := by simp
        simp only [scan_emit d (Or.inr hf), happ, lines_append d hb (by simp), List.length_cons]
        cases hls : lines d s with
        | nil =>
          obtain rfl := lines_eq_nil d hls
          have h1 : share k (acc ++ [b]) = 1 := (share_eq_one (by simp)).mpr ⟨by omega, hk⟩
          simp [scan, h1]
        | cons l ls =>
          simp only [List.map_cons, List.sum_cons, share_full hk hlen]
          rw [hls, List.map_cons, List.sum_cons] at hnil
          omega
      · have := ih _ hb (by simp; omega)
        simp only [scan_keep d (show ¬ (b = d ∨ acc.length + 1 = k) by simp [e, hf]), this]
        simp

theorem pieces_length {k : Nat} (hk : 0 < k) (s : List α) :
    (pieces d k s).length = ((lines d s).map (share k)).sum := by
  have := scan_count d [] (by simp) hk s
  rw [List.nil_append] at this
  rw [← this, pieces, List.length_append]
  split <;> simp

/-- The limit makes one piece of each line just when every line keeps to it. -/
theorem pieces_length_eq {k : Nat} (hk : 0 < k) (s : List α) :
    (pieces d k s).length = (lines d s).length ↔ ∀ l ∈ lines d s, l.length ≤ k := by
  rw [pieces_length d hk]
  have hne := lines_ne_nil d (s := s)
  revert hne
  generalize lines d s = ls
  intro hne
  have hle : ∀ ls : List (List α), (∀ l ∈ ls, l ≠ []) → ls.length ≤ (ls.map (share k)).sum := by
    intro ls
    induction ls with
    | nil => intro _; simp
    | cons l ls ih =>
      intro h
      have h1 := share_pos hk (h l (by simp))
      have h2 := ih fun m hm => h m (List.mem_cons_of_mem _ hm)
      simp only [List.length_cons, List.map_cons, List.sum_cons]; omega
  induction ls with
  | nil => simp
  | cons l ls ih =>
    have hl := hne l (by simp)
    have hls : ∀ m ∈ ls, m ≠ [] := by
      intro m hm
      exact hne m (List.mem_cons_of_mem _ hm)
    have h1 := share_pos hk hl
    have h2 := hle ls hls
    have h3 := share_eq_one (k := k) hl
    simp only [List.map_cons, List.sum_cons, List.length_cons, List.forall_mem_cons, ← ih hls]
    constructor
    · intro h
      exact ⟨(h3.mp (by omega)).1, by omega⟩
    · rintro ⟨ha, hb⟩
      have := h3.mpr ⟨ha, hk⟩
      omega

end NetworkCourse.Lib.Cut
