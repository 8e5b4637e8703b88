/-
  NetworkCourse.Lib.Ascii — texts as bytes, and integers in decimal as `%d` writes them.
-/

import Mathlib.Data.List.Basic
import Mathlib.Algebra.Order.Ring.Int

namespace NetworkCourse.Lib.Ascii

/-- `'\n'` -/
def nl : UInt8 := 10

def ascii (s : String) : List UInt8 := s.toList.map fun c => UInt8.ofNat c.toNat

def isDigit (b : UInt8) : Bool := 48 ≤ b && b ≤ 57

def decimalNat (n : Nat) : List UInt8 := (Nat.toDigits 10 n).map fun c => UInt8.ofNat c.toNat

/-- `%d` -/
def decimal (x : Int) : List UInt8 := if x < 0 then 45 :: decimalNat x.natAbs else decimalNat x.natAbs

/-- A decidable fact about all bytes. -/
theorem forall_byte {P : UInt8 → Prop} (h : ∀ n : Fin 256, P (UInt8.ofNat n.val)) (b : UInt8) : P b := by
  have hb := h ⟨b.toNat, b.toNat_lt⟩
  rwa [UInt8.ofNat_toNat] at hb

/-- The text does not go on with a digit. -/
def NoDigit (text : List UInt8) : Prop := ∀ b, text.head? = some b → isDigit b = false

theorem takeWhile_digits {ds rest : List UInt8} (hd : ∀ b ∈ ds, isDigit b = true) (hr : NoDigit rest) :
    (ds ++ rest).takeWhile isDigit = ds ∧ (ds ++ rest).dropWhile isDigit = rest := by
  rw [List.takeWhile_append_of_pos hd, List.dropWhile_append_of_pos hd]
  cases rest with
  | nil => simp
  | cons b rest => simp [hr b rfl]

/-- A text is taken apart run by run: its digits run by run, the other bytes one by one. -/
theorem runs_induction {P : List UInt8 → Prop} (nil : P [])
    (run : ∀ ds rest, ds ≠ [] → (∀ b ∈ ds, isDigit b = true) → NoDigit rest → P rest → P (ds ++ rest))
    (byte : ∀ b rest, isDigit b = false → P rest → P (b :: rest)) (text : List UInt8) : P text := by
  induction hn : text.length using Nat.strongRecOn generalizing text with
  | ind n ih =>
    cases text with
    | nil => exact nil
    | cons b bs =>
      have hlt : bs.length < n := by simp [← hn]
      cases hb : isDigit b with
      | true =>
        have hd : ∀ c ∈ b :: bs.takeWhile isDigit, isDigit c = true := by
          intro c hc
          rcases List.mem_cons.mp hc with rfl | hc
          · exact hb
          · exact List.all_eq_true.mp List.all_takeWhile c hc
        have hr : NoDigit (bs.dropWhile isDigit) := by
          intro c hc
          have hnot := List.head?_dropWhile_not isDigit bs
          rwa [hc] at hnot
        have hle : (bs.dropWhile isDigit).length ≤ bs.length := (List.dropWhile_sublist _).length_le
        have hrest := run _ _ (List.cons_ne_nil _ _) hd hr (ih _ (Nat.lt_of_le_of_lt hle hlt) _ rfl)
        rwa [List.cons_append, List.takeWhile_append_dropWhile] at hrest
      | false => exact byte b bs hb (ih _ hlt _ rfl)

theorem toDigits_range {n : Nat} {c : Char} (hc : c ∈ Nat.toDigits 10 n) : 48 ≤ c.toNat ∧ c.toNat ≤ 57 := by
  have hd := Nat.isDigit_of_mem_toDigits (by decide) (by decide) hc
  simp only [Char.isDigit, Bool.and_eq_true, decide_eq_true_eq, ge_iff_le, UInt32.le_iff_toNat_le] at hd
  exact hd

theorem isDigit_decimalNat {n : Nat} : ∀ b ∈ decimalNat n, isDigit b = true := by
  intro b hb
  obtain ⟨c, hc, rfl⟩ := List.mem_map.mp hb
  obtain ⟨h1, h2⟩ := toDigits_range hc
  have hm : c.toNat % 256 = c.toNat := Nat.mod_eq_of_lt (by omega)
  simp only [isDigit, Bool.and_eq_true, decide_eq_true_eq, UInt8.le_iff_toNat_le, UInt8.toNat_ofNat', Nat.reducePow, hm]
  exact ⟨h1, h2⟩

theorem decimalNat_length {n k : Nat} (hk : 0 < k) : (decimalNat n).length ≤ k ↔ n < 10 ^ k := by
  rw [decimalNat, List.length_map]
  exact Nat.length_toDigits_le_iff (by decide) hk

theorem decimalNat_pos (n : Nat) : 0 < (decimalNat n).length := by
  rw [decimalNat, List.length_map]
  exact Nat.length_toDigits_pos

/-- A larger number has no fewer digits. -/
theorem decimalNat_mono {n m : Nat} (h : n ≤ m) : (decimalNat n).length ≤ (decimalNat m).length := by
  rw [decimalNat_length (decimalNat_pos m)]
  exact Nat.lt_of_le_of_lt h ((decimalNat_length (decimalNat_pos m)).mp (Nat.le_refl _))

/-- Different numbers have different digits. -/
theorem decimalNat_inj {n m : Nat} (h : decimalNat n = decimalNat m) : n = m := by
  have back : ∀ n, (decimalNat n).map (fun b => Char.ofNat b.toNat) = Nat.toDigits 10 n := by
    intro n
    rw [decimalNat, List.map_map]
    conv => rhs; rw [← List.map_id (Nat.toDigits 10 n)]
    apply List.map_congr_left
    intro c hc
    have hr := toDigits_range hc
    have hm : c.toNat % 256 = c.toNat := Nat.mod_eq_of_lt (by omega)
    simp only [Function.comp_apply, UInt8.toNat_ofNat', Nat.reducePow, hm, Char.ofNat_toNat, id]
  have hd : Nat.toDigits 10 n = Nat.toDigits 10 m := by rw [← back n, ← back m, h]
  rw [← @Nat.ofDigitChars_ten_toDigits n, hd, Nat.ofDigitChars_ten_toDigits]

theorem decimal_nat {x : Int} (h : 0 ≤ x) : decimal x = decimalNat x.natAbs := if_neg (by omega)

/-- A decimal holds digits and a sign only. -/
theorem not_mem_decimal {b : UInt8} (hd : isDigit b = false) (hs : b ≠ 45) (x : Int) : b ∉ decimal x := by
  have h : b ∉ decimalNat x.natAbs := by
    intro hb
    simp [isDigit_decimalNat b hb] at hd
  unfold decimal
  split
  · simp [hs, h]
  · exact h

/-- At most six characters. -/
theorem decimal_length_le_six (x : Int) : (decimal x).length ≤ 6 ↔ -99999 ≤ x ∧ x ≤ 999999 := by
  have h5 := decimalNat_length (n := x.natAbs) (k := 5) (by decide)
  have h6 := decimalNat_length (n := x.natAbs) (k := 6) (by decide)
  simp only [Nat.reducePow] at h5 h6
  unfold decimal
  split
  · rw [List.length_cons]
    omega
  · rw [h6]
    omega

/-- Every `int` has at most 11 characters. -/
theorem decimal_length_le {x : Int} (h1 : -(2 ^ 31) ≤ x) (h2 : x < 2 ^ 31) : (decimal x).length ≤ 11 := by
  have := (decimalNat_length (n := x.natAbs) (k := 10) (by decide)).mpr (by omega)
  unfold decimal
  split
  · simp only [List.length_cons]; omega
  · omega

end NetworkCourse.Lib.Ascii
