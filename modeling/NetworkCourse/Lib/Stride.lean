/-
  NetworkCourse.Lib.Stride — a loop over every other number, left at the first that will do.

  From `x` on, short of `x + n`, the numbers of `x`'s parity are tried in turn (`Cand`). What the
  loop finds is the least of them that has a result (`search_some`), and it finds nothing only
  when none has (`search_none`).
-/

import Mathlib.Data.Int.Init
import Mathlib.Order.Basic
import Mathlib.Data.Int.LeastGreatest
import Mathlib.Data.List.Nodup

namespace NetworkCourse.Lib.Stride

variable {β : Type}

/-- `for (; i < n; i += 2, x += 2)`, left with the first result: it, and the last value of `i`. -/
def search (f : Int → Option β) (n i : Nat) (x : Int) : Option β × Nat :=
  if i < n then
    match f x with
    | some r => (some r, i)
    | none => search f n (i + 2) (x + 2)
  else (none, i)
termination_by n - i

/-- One of `x`, `x + 2`, … short of `x + n`. -/
def Cand (x : Int) (n : Nat) (p : Int) : Prop := x ≤ p ∧ p < x + n ∧ (p - x) % 2 = 0

/-- The least candidate that will do. -/
structure IsFirst (P : Int → Prop) (x : Int) (n : Nat) (p : Int) : Prop where
  cand : Cand x n p
  holds : P p
  least : ∀ q, Cand x n q → P q → p ≤ q

instance (x : Int) (n : Nat) (p : Int) : Decidable (Cand x n p) := inferInstanceAs (Decidable (_ ∧ _ ∧ _))

theorem cand_step {x : Int} {n : Nat} (hn : 0 < n) (p : Int) : Cand x n p ↔ p = x ∨ Cand (x + 2) (n - 2) p := by
  unfold Cand
  omega

theorem not_cand_zero (x p : Int) : ¬ Cand x 0 p := by
  unfold Cand
  omega

section
variable {f : Int → Option β} {n i : Nat} {x : Int}

theorem search_none : (search f n i x).1 = none ↔ ∀ p, Cand x (n - i) p → f p = none := by
  induction hm : n - i using Nat.strongRecOn generalizing i x with
  | ind m ih =>
    rw [search]
    by_cases hi : i < n
    · rw [if_pos hi]
      cases hf : f x with
      | some r =>
        refine ⟨fun h => ?_, fun h => ?_⟩
        · cases h
        · rw [h x ((cand_step (by omega) x).mpr (Or.inl rfl))] at hf
          cases hf
      | none =>
        simp only
        rw [ih (n - (i + 2)) (by omega) rfl]
        refine ⟨?_, ?_⟩
        · intro h p hp
          rcases (cand_step (by omega) p).mp hp with rfl | hp
          · exact hf
          · exact h p (by rwa [← hm, Nat.sub_sub] at hp)
        · intro h p hp
          refine h p ((cand_step (by omega) p).mpr (Or.inr ?_))
          rwa [← hm, Nat.sub_sub]
    · rw [if_neg hi]
      have : m = 0 := by omega
      subst this
      exact ⟨fun _ p hp => absurd hp (not_cand_zero x p), fun _ => rfl⟩

theorem search_even : (search f n i x).2 % 2 = i % 2 := by
  induction hm : n - i using Nat.strongRecOn generalizing i x with
  | ind m ih =>
    rw [search]
    split
    · next hi =>
      cases f x with
      | some r => rfl
      | none =>
        have hrec := @ih (n - (i + 2)) (by omega) (i + 2) (x + 2) rfl
        simp only
        omega
    · rfl

/-- The result is that of the least candidate with one. -/
theorem search_some {r : β} {j : Nat} (h : search f n i x = (some r, j)) :
    ∃ p, IsFirst (fun p => f p ≠ none) x (n - i) p ∧ f p = some r ∧ (j : Int) = i + (p - x) := by
  induction hm : n - i using Nat.strongRecOn generalizing i x with
  | ind m ih =>
    rw [search] at h
    by_cases hi : i < n
    · rw [if_pos hi] at h
      cases hf : f x with
      | some r' =>
        rw [hf] at h
        cases h
        refine ⟨x, ⟨(cand_step (by omega) x).mpr (Or.inl rfl), by simp [hf], fun q hq _ => hq.1⟩, hf, by omega⟩
      | none =>
        rw [hf] at h
        obtain ⟨p, ⟨hp, hfp, hmin⟩, hr, hj⟩ := ih (n - (i + 2)) (by omega) h rfl
        rw [← Nat.sub_sub, hm] at hp hmin
        refine ⟨p, ⟨(cand_step (by omega) p).mpr (Or.inr hp), hfp, ?_⟩, hr, by push_cast at hj; omega⟩
        intro q hq hfq
        rcases (cand_step (by omega) q).mp hq with rfl | hq
        · exact absurd hf hfq
        · exact hmin q hq hfq
    · rw [if_neg hi] at h
      cases h

theorem exists_search {p : Int} (hp : Cand x (n - i) p) (hf : f p ≠ none) : ∃ r j, search f n i x = (some r, j) := by
  cases hs : (search f n i x).1 with
  | none => exact absurd (search_none.mp hs p hp) hf
  | some r => exact ⟨r, (search f n i x).2, by rw [← hs]⟩

end

section
variable {P : Int → Prop} {x : Int} {n : Nat}

theorem IsFirst.unique {p q : Int} (hp : IsFirst P x n p) (hq : IsFirst P x n q) : p = q :=
  Int.le_antisymm (hp.least q hq.cand hq.holds) (hq.least p hp.cand hp.holds)

theorem exists_first {p : Int} (hp : Cand x n p) (h : P p) : ∃ q, IsFirst P x n q := by
  obtain ⟨q, ⟨hq, hP⟩, hmin⟩ :=
    Int.exists_least_of_bdd (P := fun q => Cand x n q ∧ P q) ⟨x, fun q hq => hq.1.1⟩ ⟨p, hp, h⟩
  exact ⟨q, hq, hP, fun r hr hPr => hmin r ⟨hr, hPr⟩⟩

/-- The first one is at most at `b` just when some one is, or there is none behind `b`. -/
theorem first_le_iff {b : Int} : (∀ p, IsFirst P x n p → p ≤ b) ↔
    (∃ p, Cand x n p ∧ P p ∧ p ≤ b) ∨ ∀ p, Cand x n p → b < p → ¬ P p := by
  refine ⟨?_, ?_⟩
  · intro h
    by_cases hany : ∃ p, Cand x n p ∧ P p
    · obtain ⟨p, hp, hP⟩ := hany
      obtain ⟨q, hq⟩ := exists_first hp hP
      exact Or.inl ⟨q, hq.cand, hq.holds, h q hq⟩
    · exact Or.inr fun p hp _ hP => hany ⟨p, hp, hP⟩
  · rintro (⟨q, hq, hP, hb⟩ | hnone) p hp
    · exact Int.le_trans (hp.least q hq hP) hb
    · by_contra hb
      exact hnone p hp.cand (by omega) hp.holds

end

/-! ## In order -/

/-- The first `k` of `x`, `x + 2`, … -/
def stride (x : Int) (k : Nat) : List Int := (List.range k).map fun j : Nat => x + 2 * j

@[simp] theorem stride_zero (x : Int) : stride x 0 = [] := rfl

theorem stride_succ (x : Int) (k : Nat) : stride x (k + 1) = stride x k ++ [x + 2 * k] := by
  simp [stride, List.range_succ]

@[simp] theorem length_stride (x : Int) (k : Nat) : (stride x k).length = k := by
  simp [stride]

theorem parity_of_mem {x p : Int} {k : Nat} (h : p ∈ stride x k) : p % 2 = x % 2 := by
  obtain ⟨j, -, rfl⟩ := List.mem_map.mp h
  omega

theorem nodup_stride (x : Int) (k : Nat) : (stride x k).Nodup := by
  refine List.nodup_range.map fun a b h => ?_
  have : x + 2 * (a : Int) = x + 2 * b := h
  omega

end NetworkCourse.Lib.Stride
