/-
  NetworkCourse.Port.BindTable — what the port searches of port/ look at.

  A socket's namespace has a range of local ports and a set of reserved ones; `bhash` has, in the
  slot of each port, the buckets of the ports that slot is for. The chains are walked in order;
  the bucket a walk finds is the port's bucket of the table (`bucketOf_some`, `bucketOf_none`).
-/

import NetworkCourse.Lib.CInt
import Mathlib.Data.List.Pairwise

namespace NetworkCourse.Port

open Lib.CInt

/-- `ip_local_port_range` -/
structure LocalPortRange where
  low : Int
  high : Int
  pos : 0 < low
  le : low ≤ high
  top : high ≤ 65535

/-- How many ports there are from `low` to `high`. -/
def LocalPortRange.size (r : LocalPortRange) : Nat := (r.high + 1 - r.low).toNat

theorem LocalPortRange.size_eq (r : LocalPortRange) : (r.size : Int) = r.high + 1 - r.low := by
  have := r.le
  unfold size
  omega

theorem LocalPortRange.size_pos (r : LocalPortRange) : 0 < r.size := by
  have := r.le
  have := r.size_eq
  omega

theorem LocalPortRange.size_lt (r : LocalPortRange) : r.size < 65536 := by
  have := r.pos
  have := r.top
  have := r.size_eq
  omega

/-- The C code's `high - low`, once `high` is one more. -/
theorem LocalPortRange.toNat_remaining (r : LocalPortRange) : (UInt32.ofInt (r.high + 1 - r.low)).toNat = r.size := by
  have := r.size_lt
  rw [toNat_ofInt, ← r.size_eq]
  omega

/-- `struct inet_bind_bucket` -/
structure BindBucket (Net Owners : Type) where
  ibNet : Net
  port : UInt16
  owners : Owners

/-- `bhash`: a bucket is in the slot of its port, and the only one of its port and namespace. -/
structure Bhash (Net Owners Slot : Type) (bhashfn : Net → Int → Slot) where
  chain : Slot → List (BindBucket Net Owners)
  placed : ∀ slot, ∀ tb ∈ chain slot, bhashfn tb.ibNet tb.port.toNat = slot
  single : ∀ slot, (chain slot).Pairwise fun a b => a.ibNet = b.ibNet → a.port ≠ b.port

structure Env (Net Owners Slot : Type) where
  net : Net
  range : LocalPortRange
  /-- `inet_is_local_reserved_port` -/
  isLocalReservedPort : Int → Bool
  /-- `inet_bhashfn` -/
  bhashfn : Net → Int → Slot
  bhash : Bhash Net Owners Slot bhashfn

section
variable {Net Owners Slot : Type} (e : Env Net Owners Slot)

/-- `inet_bind_bucket_for_each` in the slot of `port`, up to its bucket. -/
def bucketOf [DecidableEq Net] (port : Int) : Option (BindBucket Net Owners) :=
  (e.bhash.chain (e.bhashfn e.net port)).find? fun tb => tb.ibNet = e.net ∧ (tb.port.toNat : Int) = port

/-- `tb` is the bucket of `port` in the table. -/
def IsBucket (port : Int) (tb : BindBucket Net Owners) : Prop :=
  (∃ slot, tb ∈ e.bhash.chain slot) ∧ tb.ibNet = e.net ∧ (tb.port.toNat : Int) = port

variable {e}

theorem isBucket_iff {port : Int} {tb : BindBucket Net Owners} :
    IsBucket e port tb ↔ tb ∈ e.bhash.chain (e.bhashfn e.net port) ∧ tb.ibNet = e.net ∧ (tb.port.toNat : Int) = port := by
  refine ⟨?_, ?_⟩
  · intro ⟨⟨slot, hm⟩, hn, hp⟩
    have hs := e.bhash.placed slot tb hm
    rw [hn, hp] at hs
    rw [hs]
    exact ⟨hm, hn, hp⟩
  · intro ⟨hm, hn, hp⟩
    exact ⟨⟨_, hm⟩, hn, hp⟩

theorem IsBucket.unique {port : Int} {tb tb' : BindBucket Net Owners} (h : IsBucket e port tb) (h' : IsBucket e port tb') :
    tb = tb' := by
  obtain ⟨hm, hn, hp⟩ := isBucket_iff.mp h
  obtain ⟨hm', hn', hp'⟩ := isBucket_iff.mp h'
  by_contra hne
  have : Std.Symm fun a b : BindBucket Net Owners => a.ibNet = b.ibNet → a.port ≠ b.port :=
    ⟨fun a b hab hba he => hab hba.symm he.symm⟩
  refine (e.bhash.single _).forall hm hm' hne (hn.trans hn'.symm) ?_
  refine UInt16.toNat_inj.mp ?_
  omega

variable [DecidableEq Net]

theorem bucketOf_some {port : Int} {tb : BindBucket Net Owners} : bucketOf e port = some tb ↔ IsBucket e port tb := by
  refine ⟨?_, ?_⟩
  · intro h
    have hp := List.find?_some h
    simp only [decide_eq_true_eq] at hp
    exact isBucket_iff.mpr ⟨List.mem_of_find?_eq_some h, hp⟩
  · intro h
    cases hb : bucketOf e port with
    | none =>
      obtain ⟨hm, hp⟩ := isBucket_iff.mp h
      have := List.find?_eq_none.mp hb tb hm
      simp [hp] at this
    | some tb' =>
      have hp := List.find?_some hb
      simp only [decide_eq_true_eq] at hp
      rw [(isBucket_iff.mpr ⟨List.mem_of_find?_eq_some hb, hp⟩ : IsBucket e port tb').unique h]

theorem bucketOf_none {port : Int} : bucketOf e port = none ↔ ∀ tb, ¬ IsBucket e port tb := by
  refine ⟨?_, ?_⟩
  · intro h tb htb
    rw [bucketOf_some.mpr htb] at h
    cases h
  · intro h
    cases hb : bucketOf e port with
    | none => rfl
    | some tb => exact absurd (bucketOf_some.mp hb) (h tb)

end

/-! ## Small tables -/

/-- The range of the comments in the source. -/
def defaultRange : LocalPortRange := ⟨32768, 60999, by decide, by decide, by decide⟩

/-- A table without buckets. -/
def noBuckets (range : LocalPortRange) (reserved : Int → Bool) : Env Unit Unit Unit :=
  ⟨(), range, reserved, fun _ _ => (), ⟨fun _ => [], by simp, by simp⟩⟩

/-- A table of one slot and one bucket. -/
def oneBucket (range : LocalPortRange) (port : UInt16) : Env Unit Unit Unit :=
  ⟨(), range, fun _ => false, fun _ _ => (), ⟨fun _ => [⟨(), port, ()⟩], by simp, by simp⟩⟩

end NetworkCourse.Port
