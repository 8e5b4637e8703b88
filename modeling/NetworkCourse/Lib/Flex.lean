/-
  NetworkCourse.Lib.Flex — scanners as flex makes them.

  A rule is a pattern and an action on the scanner's state. Of the texts in front that a pattern
  matches the scanner takes the longest, of the rules that match it the one that stands first,
  and runs its action (`yylex_step`). It ends when nothing is left, or no rule matches.
-/

import Mathlib.Data.List.Basic

namespace NetworkCourse.Lib.Flex

variable {α σ : Type}

/-- The pattern of one character of a class. -/
def one (p : α → Bool) : List α → Bool
  | [a] => p a
  | _ => false

/-- The pattern of one or more characters of a class. -/
def plus (p : α → Bool) (text : List α) : Bool := !text.isEmpty && text.all p

structure Rule (α σ : Type) where
  pattern : List α → Bool
  action : List α → σ → σ

/-- The first rule that matches all of the text. -/
def ruleFor (rules : List (Rule α σ)) (text : List α) : Option (Rule α σ) := rules.find? fun r => r.pattern text

/-- The longest match among the first `n` characters, and its rule. -/
def longest (rules : List (Rule α σ)) (text : List α) : Nat → Option (Nat × Rule α σ)
  | 0 => none
  | n + 1 =>
    match ruleFor rules (text.take (n + 1)) with
    | some r => some (n + 1, r)
    | none => longest rules text n

/-- At most `fuel` turns. -/
def scan (rules : List (Rule α σ)) : Nat → List α → σ → σ
  | 0, _, s => s
  | fuel + 1, text, s =>
    match longest rules text text.length with
    | none => s
    | some (n, r) => scan rules fuel (text.drop n) (r.action (text.take n) s)

def yylex (rules : List (Rule α σ)) (text : List α) (s : σ) : σ := scan rules text.length text s

/-! ## Matches -/

section
variable {rules : List (Rule α σ)} {text : List α}

theorem longest_some {r : Rule α σ} {n k : Nat} (hk : k ≤ n) (h0 : 0 < k) (hr : ruleFor rules (text.take k) = some r)
    (hmax : ∀ m, k < m → m ≤ n → ruleFor rules (text.take m) = none) : longest rules text n = some (k, r) := by
  induction n with
  | zero => omega
  | succ n ih =>
    rw [longest]
    by_cases hn : k = n + 1
    · subst hn
      rw [hr]
    · rw [hmax (n + 1) (by omega) (by omega)]
      exact ih (by omega) fun m h1 h2 => hmax m h1 (by omega)

theorem longest_range {r : Rule α σ} {n k : Nat} (h : longest rules text n = some (k, r)) : 0 < k ∧ k ≤ n := by
  induction n with
  | zero => cases h
  | succ n ih =>
    rw [longest] at h
    split at h
    · cases h
      exact ⟨Nat.succ_pos n, Nat.le_refl _⟩
    · obtain ⟨h1, h2⟩ := ih h
      exact ⟨h1, Nat.le_succ_of_le h2⟩

theorem all_take {p : α → Bool} {k : Nat} (hk : k ≤ text.length) (h : (text.take k).all p = true) :
    k ≤ (text.takeWhile p).length := by
  induction text generalizing k with
  | nil => exact hk
  | cons a as ih =>
    cases k with
    | zero => exact Nat.zero_le _
    | succ k =>
      rw [List.take_succ_cons, List.all_cons, Bool.and_eq_true] at h
      rw [List.takeWhile_cons_of_pos h.1, List.length_cons]
      exact Nat.succ_le_succ (ih (Nat.le_of_succ_le_succ hk) h.2)

/-- What goes on behind the class is no match. -/
theorem plus_take {p : α → Bool} {k : Nat} (h : (text.takeWhile p).length < k) (hk : k ≤ text.length) :
    plus p (text.take k) = false := by
  have hall : (text.take k).all p = false := by
    rw [Bool.eq_false_iff]
    intro ha
    have := all_take hk ha
    omega
  rw [plus, hall, Bool.and_false]

theorem plus_takeWhile {p : α → Bool} (h : text.takeWhile p ≠ []) : plus p (text.takeWhile p) = true := by
  simp [plus, h, List.all_takeWhile]

theorem one_long {p : α → Bool} (h : 1 < text.length) : one p text = false := by
  match text, h with
  | _ :: _ :: _, _ => rfl

end

/-! ## Turns -/

theorem scan_enough (rules : List (Rule α σ)) {fuel : Nat} {text : List α} (h : text.length ≤ fuel) (s : σ) :
    scan rules fuel text s = yylex rules text s := by
  induction fuel using Nat.strongRecOn generalizing text s with
  | ind fuel ih =>
    unfold yylex
    match text, fuel, h with
    | [], 0, _ => rfl
    | [], fuel + 1, _ => rfl
    | a :: as, fuel + 1, h =>
      rw [List.length_cons] at h
      simp only [List.length_cons, scan]
      cases hl : longest rules (a :: as) (as.length + 1) with
      | none => rfl
      | some x =>
        obtain ⟨n, r⟩ := x
        have hn := longest_range hl
        have hd : ((a :: as).drop n).length ≤ as.length := by
          rw [List.length_drop, List.length_cons]
          omega
        show scan rules fuel _ _ = scan rules as.length _ _
        rw [ih fuel (Nat.lt_succ_self _) (by omega)]
        by_cases hf : as.length < fuel + 1
        · rw [ih as.length hf hd]
        · omega

@[simp] theorem yylex_nil (rules : List (Rule α σ)) (s : σ) : yylex rules [] s = s := rfl

/-- One turn of the scanner. -/
theorem yylex_step {rules : List (Rule α σ)} {text : List α} {n : Nat} {r : Rule α σ}
    (h : longest rules text text.length = some (n, r)) (s : σ) :
    yylex rules text s = yylex rules (text.drop n) (r.action (text.take n) s) := by
  obtain ⟨h0, hle⟩ := longest_range h
  unfold yylex
  obtain ⟨m, hm⟩ : ∃ m, text.length = m + 1 := ⟨text.length - 1, by omega⟩
  have hd : (text.drop n).length ≤ m := by
    rw [List.length_drop]
    omega
  rw [hm] at h ⊢
  rw [scan, hm, h]
  exact scan_enough rules hd _

end NetworkCourse.Lib.Flex
