/-
  NetworkCourse.Lib.CInt — integers converted to `int`, and unsigned words: conversion, lowest bit.
-/

import Mathlib.Data.Int.Init

namespace NetworkCourse.Lib.CInt

/-- Conversion to a 32-bit `int`. -/
def toInt (x : Int) : Int := x.bmod 4294967296

theorem toInt_eq {x : Int} (h1 : -2147483648 ≤ x) (h2 : x ≤ 2147483647) : toInt x = x :=
  Int.bmod_eq_of_le (by omega) (by omega)

theorem toNat_ofInt (x : Int) : (UInt32.ofInt x).toNat = (x % 4294967296).toNat := by
  rw [UInt32.ofInt, UInt32.toNat_ofNat']
  omega

/-! ## The lowest bit -/

theorem or_one (n : Nat) : n ||| 1 = n / 2 * 2 + 1 := by
  have hdiv : (n ||| 1) / 2 = n / 2 := by
    rw [Nat.or_div_two]
    simp
  have hmod : (n ||| 1) % 2 = 1 := by
    have h := Nat.or_mod_two_pow (a := n) (b := 1) (n := 1)
    rcases Nat.mod_two_eq_zero_or_one n with h0 | h0 <;> simp_all
  omega

theorem toNat_or_one (x : UInt32) : (x ||| 1).toNat = x.toNat / 2 * 2 + 1 := by
  rw [UInt32.toNat_or]
  exact or_one x.toNat

theorem toNat_and_one (x : UInt32) : (x &&& 1).toNat = x.toNat % 2 := by
  rw [UInt32.toNat_and]
  exact Nat.and_one_is_mod x.toNat

theorem toNat_and_not_one (x : UInt32) : (x &&& ~~~1).toNat = x.toNat / 2 * 2 := by
  have hx := x.toNat_lt
  have hdiv : (x.toNat &&& 4294967294) / 2 = x.toNat / 2 := by
    have h := Nat.and_two_pow_sub_one_eq_mod (x.toNat / 2) 31
    rw [Nat.and_div_two]
    simp only [Nat.reducePow, Nat.reduceSub, Nat.reduceDiv] at h ⊢
    omega
  have hmod : (x.toNat &&& 4294967294) % 2 = 0 := by
    simpa using Nat.and_mod_two_pow (a := x.toNat) (b := 4294967294) (n := 1)
  rw [UInt32.toNat_and]
  show x.toNat &&& 4294967294 = _
  omega

end NetworkCourse.Lib.CInt
