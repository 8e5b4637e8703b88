/-
  NetworkCourse.Lib.Window — texts held in a buffer.

  `Holds buf p t` says that the buffer reads `t` from index `p` on. A text is held where its
  parts are (`holds_append`), and stays where nothing is stored (`Holds.set`). `store`,
  `storeAll` and `moveDown` are the stores of C loops, `none` out of bounds; where there is
  room they do not fail, and leave what lies below.
-/

import Mathlib.Data.List.Basic

namespace NetworkCourse.Lib.Window

variable {α : Type}

def Holds (buf : List α) (p : Nat) (t : List α) : Prop := t <+: buf.drop p

/-- `buf[i] = x` -/
def store (buf : List α) (i : Nat) (x : α) : Option (List α) := if i < buf.length then some (buf.set i x) else none

/-- `buf[i++] = x`, for each in turn. -/
def storeAll (buf : List α) (i : Nat) : List α → Option (List α)
  | [] => some buf
  | x :: xs => (store buf i x).bind fun buf => storeAll buf (i + 1) xs

/-- `*(dest++) = *(source++)`, `n` times. -/
def moveDown : Nat → List α → Nat → Nat → Option (List α)
  | 0, buf, _, _ => some buf
  | n + 1, buf, dest, source =>
    buf[source]?.bind fun x => (store buf dest x).bind fun buf => moveDown n buf (dest + 1) (source + 1)

section
variable {buf buf' : List α} {p : Nat} {t u : List α}

theorem holds_iff : Holds buf p t ↔ ∀ i, (h : i < t.length) → buf[p + i]? = some t[i] := by
  simp only [Holds, List.prefix_iff_getElem?, List.getElem?_drop]

theorem Holds.get (h : Holds buf p t) {i : Nat} (hi : i < t.length) : buf[p + i]? = some t[i] := holds_iff.mp h i hi

@[simp] theorem holds_nil (buf : List α) (p : Nat) : Holds buf p [] := List.nil_prefix

theorem holds_cons {x : α} : Holds buf p (x :: t) ↔ buf[p]? = some x ∧ Holds buf (p + 1) t := by
  rw [Holds, Holds, ← List.head?_drop, ← List.tail_drop]
  cases buf.drop p with
  | nil => simp
  | cons y ys => simp [List.cons_prefix_cons, eq_comm]

/-- A text is held where its parts are, one behind the other. -/
theorem holds_append : Holds buf p (t ++ u) ↔ Holds buf p t ∧ Holds buf (p + t.length) u := by
  induction t generalizing p with
  | nil => simp
  | cons x t ih =>
    rw [List.cons_append, holds_cons, holds_cons, ih, List.length_cons, Nat.add_comm t.length 1, ← Nat.add_assoc, and_assoc]

theorem Holds.bound (h : Holds buf p t) (hne : t ≠ []) : p + t.length ≤ buf.length := by
  have hlen := List.IsPrefix.length_le h
  have hpos := List.length_pos_iff.mpr hne
  rw [List.length_drop] at hlen
  omega

/-- A store outside of the text. -/
theorem Holds.set (h : Holds buf p t) {k : Nat} (hk : k < p ∨ p + t.length ≤ k) (x : α) : Holds (buf.set k x) p t := by
  rw [holds_iff] at h ⊢
  intro i hi
  rw [List.getElem?_set_ne (by omega)]
  exact h i hi

theorem holds_set_self {k : Nat} (hk : k < buf.length) (x : α) : Holds (buf.set k x) k [x] := by
  rw [holds_cons]
  exact ⟨List.getElem?_set_self hk, holds_nil _ _⟩

/-- The text lies below `k`, and the buffers agree there. -/
theorem Holds.of_take (h : Holds buf p t) {k : Nat} (hk : p + t.length ≤ k) (he : buf'.take k = buf.take k) : Holds buf' p t := by
  rw [holds_iff] at h ⊢
  intro i hi
  rw [← List.getElem?_take_of_lt (by omega : p + i < k), he, List.getElem?_take_of_lt (by omega)]
  exact h i hi

/-! ## Stores -/

theorem store_of_lt {i : Nat} (h : i < buf.length) (x : α) : store buf i x = some (buf.set i x) := if_pos h

theorem storeAll_spec {i : Nat} {xs : List α} (h : i + xs.length ≤ buf.length) :
    ∃ buf', storeAll buf i xs = some buf' ∧ buf'.length = buf.length ∧ buf'.take i = buf.take i ∧ Holds buf' i xs := by
  induction xs generalizing buf i with
  | nil => exact ⟨buf, rfl, rfl, rfl, holds_nil _ _⟩
  | cons x xs ih =>
    rw [List.length_cons] at h
    have hi : i < buf.length := by omega
    have hlen : (buf.set i x).length = buf.length := List.length_set
    obtain ⟨buf', hs, hl, ht, hh⟩ := @ih (buf.set i x) (i + 1) (by omega)
    refine ⟨buf', by rw [storeAll, store_of_lt hi]; exact hs, hl.trans hlen, ?_, ?_⟩
    · have hle := congrArg (List.take i) ht
      rw [List.take_take, List.take_take, Nat.min_eq_left (Nat.le_succ i), List.take_set_of_le (Nat.le_refl i)] at hle
      exact hle
    · rw [holds_cons]
      refine ⟨?_, hh⟩
      rw [← List.getElem?_take_of_lt (Nat.lt_succ_self i), ht, List.getElem?_take_of_lt (Nat.lt_succ_self i),
        List.getElem?_set_self hi]

/-- What is moved down is not overwritten before its turn. -/
theorem moveDown_spec {dest source : Nat} (hle : dest ≤ source) (h : Holds buf source t) :
    ∃ buf', moveDown t.length buf dest source = some buf' ∧ buf'.length = buf.length ∧ buf'.take dest = buf.take dest ∧
      Holds buf' dest t := by
  induction t generalizing buf dest source with
  | nil => exact ⟨buf, rfl, rfl, rfl, holds_nil _ _⟩
  | cons x t ih =>
    have hb := h.bound (List.cons_ne_nil x t)
    rw [List.length_cons] at hb
    obtain ⟨hx, ht⟩ := holds_cons.mp h
    have hd : dest < buf.length := by omega
    obtain ⟨buf', hs, hl, hk, hh⟩ := ih (Nat.succ_le_succ hle) (ht.set (Or.inl (by omega : dest < source + 1)) x)
    refine ⟨buf', ?_, hl.trans List.length_set, ?_, ?_⟩
    · rw [List.length_cons, moveDown, hx, Option.bind_some, store_of_lt hd, Option.bind_some, hs]
    · have hle := congrArg (List.take dest) hk
      rw [List.take_take, List.take_take, Nat.min_eq_left (Nat.le_succ dest), List.take_set_of_le (Nat.le_refl dest)] at hle
      exact hle
    · rw [holds_cons]
      refine ⟨?_, hh⟩
      rw [← List.getElem?_take_of_lt (Nat.lt_succ_self dest), hk, List.getElem?_take_of_lt (Nat.lt_succ_self dest),
        List.getElem?_set_self hd]

end

end NetworkCourse.Lib.Window
