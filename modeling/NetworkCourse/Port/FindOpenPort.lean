/-
  NetworkCourse.Port.FindOpenPort — `inet_csk_find_open_port` of port/inet_connection_sock.c.

  `bind(0)` tries the ports of one parity from a random offset on, then those of the other from
  one before (`search_passes`). Each pass is as long as the range but does not wrap at its
  end: the ports it looks at lie between the offset and as far behind the range. So a port
  above `high` can be returned (`inet_csk_find_open_port_sound`), and a port below the offset
  is never looked at (`inet_csk_find_open_port_complete`).
-/

import NetworkCourse.Lib.CInt
import NetworkCourse.Lib.Stride
import NetworkCourse.Port.BindTable

namespace NetworkCourse.Port

open Lib.CInt Lib.Stride

/-- `*port_ret` and `*tb_ret` -/
structure Found (Net Owners : Type) where
  port : Int
  tb : Option (BindBucket Net Owners)

/-- Where the first pass starts. -/
def LocalPortRange.firstPort (r : LocalPortRange) (draw : UInt32) : Int := r.low + (draw.toNat % r.size / 2 * 2 + 1 : Nat)

/-- The first pass starts behind `low`, and no more than one behind `high`. -/
theorem LocalPortRange.firstPort_range (r : LocalPortRange) (draw : UInt32) :
    r.low < r.firstPort draw ∧ r.firstPort draw ≤ r.high + 1 := by
  have := r.size_eq
  have := Nat.mod_lt draw.toNat r.size_pos
  unfold firstPort
  omega

section
-- `bindConflict` is `inet_csk_bind_conflict` for the socket
variable {Net Owners Slot : Type} [DecidableEq Net] (e : Env Net Owners Slot) (bindConflict : BindBucket Net Owners → Bool)

/-- The body of the loop: `success`, or on to the next port. -/
def probe (port : Int) : Option (Found Net Owners) :=
  if e.isLocalReservedPort port then none
  else
    match bucketOf e port with
    | some tb => if bindConflict tb then none else some ⟨port, some tb⟩
    | none => some ⟨port, none⟩

/-- From `other_parity_scan` on. -/
def otherParityScan (remaining offset : UInt32) : Option (Found Net Owners) :=
  let port := toInt (e.range.low + offset.toNat)
  match (search (probe e bindConflict) remaining.toNat 0 port).1 with
  | some found => some found
  | none =>
    if (offset - 1) &&& 1 = 0 then otherParityScan remaining (offset - 1) else none
termination_by (offset &&& 1).toNat
decreasing_by
  -- an even offset is one before an odd one
  rename_i h
  rw [toNat_and_one, toNat_and_one]
  have h0 := congrArg UInt32.toNat h
  rw [toNat_and_one, UInt32.toNat_sub] at h0
  rw [UInt32.toNat_sub]
  have := offset.toNat_lt
  simp only [UInt32.toNat_one, UInt32.toNat_zero] at h0 ⊢
  omega

def inetCskFindOpenPort (draw : UInt32) : Option (Found Net Owners) :=
  let low := e.range.low
  let high := e.range.high + 1
  let remaining := UInt32.ofInt (high - low)
  let offset := draw % remaining
  let offset := offset ||| 1
  otherParityScan e bindConflict remaining offset

/-! ## The two passes -/

theorem otherParityScan_even {remaining offset : UInt32} (h : offset.toNat % 2 = 0) :
    otherParityScan e bindConflict remaining offset =
      (search (probe e bindConflict) remaining.toNat 0 (toInt (e.range.low + offset.toNat))).1 := by
  have hodd : ¬ (offset - 1) &&& 1 = 0 := by
    intro h0
    have h0 := congrArg UInt32.toNat h0
    have := offset.toNat_lt
    rw [toNat_and_one, UInt32.toNat_sub] at h0
    simp only [UInt32.toNat_one, UInt32.toNat_zero] at h0
    omega
  rw [otherParityScan]
  simp only [if_neg hodd]
  cases (search (probe e bindConflict) remaining.toNat 0 (toInt (e.range.low + offset.toNat))).1 with
  | none => rfl
  | some found => rfl

theorem otherParityScan_odd {remaining offset : UInt32} (h : offset.toNat % 2 = 1) :
    otherParityScan e bindConflict remaining offset =
      (search (probe e bindConflict) remaining.toNat 0 (toInt (e.range.low + offset.toNat))).1.or
        (search (probe e bindConflict) remaining.toNat 0 (toInt (e.range.low + offset.toNat - 1))).1 := by
  have hpred : (offset - 1).toNat = offset.toNat - 1 := by
    have := offset.toNat_lt
    rw [UInt32.toNat_sub]
    simp only [UInt32.toNat_one]
    omega
  have heven : (offset - 1) &&& 1 = 0 := by
    refine UInt32.toNat_inj.mp ?_
    rw [toNat_and_one, hpred]
    simp only [UInt32.toNat_zero]
    omega
  have hcast : e.range.low + ((offset.toNat - 1 : Nat) : Int) = e.range.low + offset.toNat - 1 := by omega
  rw [otherParityScan]
  simp only [if_pos heven]
  rw [otherParityScan_even e bindConflict (by omega), hpred, hcast]
  cases (search (probe e bindConflict) remaining.toNat 0 (toInt (e.range.low + offset.toNat))).1 with
  | none => rfl
  | some found => rfl

/-- First the ports from `firstPort` on, then those from one before it on. -/
theorem search_passes (draw : UInt32) :
    inetCskFindOpenPort e bindConflict draw =
      (search (probe e bindConflict) e.range.size 0 (e.range.firstPort draw)).1.or
        (search (probe e bindConflict) e.range.size 0 (e.range.firstPort draw - 1)).1 := by
  obtain ⟨h1, h2⟩ := e.range.firstPort_range draw
  have hpos := e.range.pos
  have htop := e.range.top
  have hrem := e.range.toNat_remaining
  have hoff : e.range.low + ((draw % UInt32.ofInt (e.range.high + 1 - e.range.low) ||| 1).toNat : Int) =
      e.range.firstPort draw := by
    rw [toNat_or_one, UInt32.toNat_mod, hrem]
    rfl
  unfold inetCskFindOpenPort
  rw [otherParityScan_odd, hrem, hoff, toInt_eq (by omega) (by omega), toInt_eq (by omega) (by omega)]
  rw [toNat_or_one]
  omega

/-! ## Usable ports -/

omit [DecidableEq Net] in
/-- Not reserved, and without a bucket that conflicts. -/
def Usable (port : Int) : Prop :=
  e.isLocalReservedPort port = false ∧ ∀ tb, IsBucket e port tb → bindConflict tb = false

omit [DecidableEq Net] in
/-- `port` with its bucket, if it has one. -/
structure OwnBucket (f : Found Net Owners) : Prop where
  notReserved : e.isLocalReservedPort f.port = false
  bucket : (f.tb = none ∧ ∀ tb, ¬ IsBucket e f.port tb) ∨
    ∃ tb, f.tb = some tb ∧ IsBucket e f.port tb ∧ bindConflict tb = false

variable {e bindConflict}

theorem probe_some {port : Int} {f : Found Net Owners} (h : probe e bindConflict port = some f) :
    f.port = port ∧ OwnBucket e bindConflict f := by
  unfold probe at h
  split at h
  · cases h
  · rename_i hr
    simp only [Bool.not_eq_true] at hr
    cases hb : bucketOf e port with
    | none =>
      simp only [hb, Option.some.injEq] at h
      subst h
      exact ⟨rfl, hr, Or.inl ⟨rfl, bucketOf_none.mp hb⟩⟩
    | some tb =>
      simp only [hb] at h
      split at h
      · cases h
      · rename_i hc
        cases h
        exact ⟨rfl, hr, Or.inr ⟨tb, rfl, bucketOf_some.mp hb, by simpa using hc⟩⟩

/-- The loop goes past the ports that cannot be used, and stops at those that can. -/
theorem probe_ne_none {port : Int} : probe e bindConflict port ≠ none ↔ Usable e bindConflict port := by
  unfold probe
  cases hr : e.isLocalReservedPort port with
  | true => simp [Usable, hr]
  | false =>
    cases hb : bucketOf e port with
    | none =>
      have hno := bucketOf_none.mp hb
      simp [Usable, hr, hno]
    | some tb =>
      have htb := bucketOf_some.mp hb
      have huse : Usable e bindConflict port ↔ bindConflict tb = false := by
        refine ⟨fun h => h.2 tb htb, fun h => ⟨hr, fun tb' htb' => ?_⟩⟩
        rw [htb'.unique htb]
        exact h
      rw [huse]
      cases hc : bindConflict tb <;> simp [hc]

theorem probe_none {port : Int} : probe e bindConflict port = none ↔ ¬ Usable e bindConflict port := by
  rw [← probe_ne_none, not_not]

/-! ## What the search finds -/

section
variable {draw : UInt32} {n : Nat} {x : Int}

theorem pass_none : (search (probe e bindConflict) n 0 x).1 = none ↔ ∀ p, Cand x n p → ¬ Usable e bindConflict p := by
  rw [search_none]
  exact forall_congr' fun p => imp_congr_right fun _ => probe_none

theorem pass_some {f : Found Net Owners} (h : (search (probe e bindConflict) n 0 x).1 = some f) :
    IsFirst (Usable e bindConflict) x n f.port ∧ OwnBucket e bindConflict f := by
  obtain ⟨p, hp, hr, -⟩ := search_some (j := (search (probe e bindConflict) n 0 x).2) (by rw [← h])
  obtain ⟨rfl, hown⟩ := probe_some hr
  exact ⟨⟨hp.cand, probe_ne_none.mp hp.holds, fun q hq hu => hp.least q hq (probe_ne_none.mpr hu)⟩, hown⟩

/-- The first usable port of the first pass, or without one that of the second. -/
def Stops (e : Env Net Owners Slot) (bindConflict : BindBucket Net Owners → Bool) (draw : UInt32) (p : Int) : Prop :=
  IsFirst (Usable e bindConflict) (e.range.firstPort draw) e.range.size p ∨
    (∀ q, Cand (e.range.firstPort draw) e.range.size q → ¬ Usable e bindConflict q) ∧
      IsFirst (Usable e bindConflict) (e.range.firstPort draw - 1) e.range.size p

/-- `p` is looked at in one of the passes. -/
def Probed (r : LocalPortRange) (draw : UInt32) (p : Int) : Prop :=
  Cand (r.firstPort draw) r.size p ∨ Cand (r.firstPort draw - 1) r.size p

theorem find_some {f : Found Net Owners} (h : inetCskFindOpenPort e bindConflict draw = some f) :
    Stops e bindConflict draw f.port ∧ OwnBucket e bindConflict f := by
  rw [search_passes, Option.or_eq_some_iff] at h
  rcases h with h | ⟨hn, h⟩
  · obtain ⟨hfirst, hown⟩ := pass_some h
    exact ⟨Or.inl hfirst, hown⟩
  · obtain ⟨hfirst, hown⟩ := pass_some h
    exact ⟨Or.inr ⟨pass_none.mp hn, hfirst⟩, hown⟩

theorem find_none : inetCskFindOpenPort e bindConflict draw = none ↔
    ∀ p, Probed e.range draw p → ¬ Usable e bindConflict p := by
  rw [search_passes, Option.or_eq_none_iff, pass_none, pass_none]
  refine ⟨?_, fun h => ⟨fun p hp => h p (Or.inl hp), fun p hp => h p (Or.inr hp)⟩⟩
  rintro ⟨h1, h2⟩ p (hp | hp)
  · exact h1 p hp
  · exact h2 p hp

omit [DecidableEq Net] in
theorem Stops.unique {p q : Int} (hp : Stops e bindConflict draw p) (hq : Stops e bindConflict draw q) : p = q := by
  rcases hp with hp | ⟨hn, hp⟩ <;> rcases hq with hq | ⟨hn', hq⟩
  · exact hp.unique hq
  · exact absurd hp.holds (hn' p hp.cand)
  · exact absurd hq.holds (hn q hq.cand)
  · exact hp.unique hq

omit [DecidableEq Net] in
theorem Stops.probed {p : Int} (h : Stops e bindConflict draw p) : Probed e.range draw p ∧ Usable e bindConflict p := by
  rcases h with h | ⟨-, h⟩
  · exact ⟨Or.inl h.cand, h.holds⟩
  · exact ⟨Or.inr h.cand, h.holds⟩

theorem find_stops {p : Int} (h : Stops e bindConflict draw p) :
    ∃ f, inetCskFindOpenPort e bindConflict draw = some f ∧ f.port = p := by
  cases hf : inetCskFindOpenPort e bindConflict draw with
  | none =>
    obtain ⟨hp, hu⟩ := h.probed
    exact absurd hu (find_none.mp hf p hp)
  | some f => exact ⟨f, rfl, (find_some hf).1.unique h⟩

end

/-! ## Soundness -/

/-- A port of the range, usable, with its bucket. -/
structure Sound (e : Env Net Owners Slot) (bindConflict : BindBucket Net Owners → Bool) (f : Found Net Owners) : Prop where
  low : e.range.low ≤ f.port
  high : f.port ≤ e.range.high
  own : OwnBucket e bindConflict f

/-- A pass that would find something finds something up to `high`: it has a usable port up to
    `high`, or none above. -/
def StaysInRange (e : Env Net Owners Slot) (bindConflict : BindBucket Net Owners → Bool) (x : Int) : Prop :=
  (∃ p, Cand x e.range.size p ∧ Usable e bindConflict p ∧ p ≤ e.range.high) ∨
    ∀ p, Cand x e.range.size p → e.range.high < p → ¬ Usable e bindConflict p

/-- A port that is returned is one of the range just when the passes stay in it, the second if
    it is needed. -/
theorem inet_csk_find_open_port_sound (e : Env Net Owners Slot) (bindConflict : BindBucket Net Owners → Bool)
    (draw : UInt32) :
    (∀ f, inetCskFindOpenPort e bindConflict draw = some f → Sound e bindConflict f) ↔
      StaysInRange e bindConflict (e.range.firstPort draw) ∧
        ((∃ p, Cand (e.range.firstPort draw) e.range.size p ∧ Usable e bindConflict p) ∨
          StaysInRange e bindConflict (e.range.firstPort draw - 1)) := by
  have hstop : (∀ f, inetCskFindOpenPort e bindConflict draw = some f → Sound e bindConflict f) ↔
      ∀ p, Stops e bindConflict draw p → p ≤ e.range.high := by
    refine ⟨?_, ?_⟩
    · intro h p hp
      obtain ⟨f, hf, rfl⟩ := find_stops hp
      exact (h f hf).high
    · intro h f hf
      obtain ⟨hp, hown⟩ := find_some hf
      refine ⟨?_, h _ hp, hown⟩
      have hr := (e.range.firstPort_range draw).1
      rcases hp.probed.1 with hc | hc
      · have := hc.1
        omega
      · have := hc.1
        omega
  rw [hstop, StaysInRange, StaysInRange, ← first_le_iff, ← first_le_iff]
  refine ⟨?_, ?_⟩
  · intro h
    refine ⟨fun p hp => h p (Or.inl hp), ?_⟩
    by_cases hany : ∃ p, Cand (e.range.firstPort draw) e.range.size p ∧ Usable e bindConflict p
    · exact Or.inl hany
    · exact Or.inr fun p hp => h p (Or.inr ⟨fun q hq hu => hany ⟨q, hq, hu⟩, hp⟩)
  · rintro ⟨h1, h2⟩ p (hp | ⟨hn, hp⟩)
    · exact h1 p hp
    · rcases h2 with ⟨q, hq, hu⟩ | h2
      · exact absurd hu (hn q hq)
      · exact h2 p hp

/-- With the draw 28231 the search starts at 60999; that port is reserved, the next is 61001. -/
theorem find_open_port_above_high :
    ¬ ∀ f, inetCskFindOpenPort (noBuckets defaultRange (· == 60999)) (fun _ => false) 28231 = some f →
      Sound (noBuckets defaultRange (· == 60999)) (fun _ => false) f := by
  intro h
  have hstop : Stops (noBuckets defaultRange (· == 60999)) (fun _ => false) 28231 61001 := by
    refine Or.inl ⟨by decide, ⟨rfl, fun tb htb => ?_⟩, fun q hq hu => ?_⟩
    · obtain ⟨⟨_, hm⟩, -⟩ := htb
      cases hm
    · have hne : q ≠ 60999 := by simpa [Usable, noBuckets] using hu.1
      have h1 : 60999 ≤ q := hq.1
      have h2 : (q - 60999) % 2 = 0 := hq.2.2
      omega
  obtain ⟨f, hf, hport⟩ := find_stops hstop
  have hhigh := (h f hf).high
  rw [hport] at hhigh
  exact absurd hhigh (by decide)

/-! ## Completeness -/

section
variable (e : Env Net Owners Slot) (bindConflict : BindBucket Net Owners → Bool) (draw : UInt32)

/-- `p` is the only usable port of the range. -/
structure OnlyUsable (p : Int) : Prop where
  low : e.range.low ≤ p
  high : p ≤ e.range.high
  usable : Usable e bindConflict p
  only : ∀ q, e.range.low ≤ q → q ≤ e.range.high → Usable e bindConflict q → q = p

/-- NULL only if no port of the range can be used, and a single one that can is found. -/
structure Complete : Prop where
  null : inetCskFindOpenPort e bindConflict draw = none → ∀ p, e.range.low ≤ p → p ≤ e.range.high →
    e.isLocalReservedPort p = true ∨ ∃ tb, IsBucket e p tb ∧ bindConflict tb = true
  single : ∀ p, OnlyUsable e bindConflict p → ∃ f, inetCskFindOpenPort e bindConflict draw = some f ∧ f.port = p

end

omit [DecidableEq Net] in
theorem not_usable_iff {p : Int} : ¬ Usable e bindConflict p ↔
    e.isLocalReservedPort p = true ∨ ∃ tb, IsBucket e p tb ∧ bindConflict tb = true := by
  simp only [Usable, not_and_or, Bool.not_eq_false, not_forall, exists_prop]

/-- Of the range the passes look at all from one before their start on. -/
theorem probed_iff {r : LocalPortRange} {draw : UInt32} {p : Int} (h : p ≤ r.high) :
    Probed r draw p ↔ r.firstPort draw - 1 ≤ p := by
  have hs := r.size_eq
  have hf := r.firstPort_range draw
  unfold Probed Cand
  omega

theorem null_iff {draw : UInt32} :
    (inetCskFindOpenPort e bindConflict draw = none → ∀ p, e.range.low ≤ p → p ≤ e.range.high →
        e.isLocalReservedPort p = true ∨ ∃ tb, IsBucket e p tb ∧ bindConflict tb = true) ↔
      (∃ p, Probed e.range draw p ∧ Usable e bindConflict p) ∨
        ∀ p, e.range.low ≤ p → p < e.range.firstPort draw - 1 → ¬ Usable e bindConflict p := by
  have hf := (e.range.firstPort_range draw).2
  refine ⟨?_, ?_⟩
  · intro h
    by_cases hany : ∃ p, Probed e.range draw p ∧ Usable e bindConflict p
    · exact Or.inl hany
    · refine Or.inr fun p hlow hp => not_usable_iff.mpr (h (find_none.mpr fun q hq hu => hany ⟨q, hq, hu⟩) p hlow ?_)
      omega
  · rintro (⟨p, hp, hu⟩ | hnone) hnull q hlow hhigh
    · exact absurd hu (find_none.mp hnull p hp)
    · rw [← not_usable_iff]
      by_cases hq : q < e.range.firstPort draw - 1
      · exact hnone q hlow hq
      · exact find_none.mp hnull q ((probed_iff hhigh).mpr (by omega))

theorem single_iff {draw : UInt32} {p : Int} (h : OnlyUsable e bindConflict p) :
    (∃ f, inetCskFindOpenPort e bindConflict draw = some f ∧ f.port = p) ↔
      e.range.firstPort draw - 1 ≤ p ∧ (Cand (e.range.firstPort draw) e.range.size p ∨
        ∀ q, Cand (e.range.firstPort draw) e.range.size q → e.range.high < q → ¬ Usable e bindConflict q) := by
  have hlow := (e.range.firstPort_range draw).1
  have hiff : (∃ f, inetCskFindOpenPort e bindConflict draw = some f ∧ f.port = p) ↔ Stops e bindConflict draw p := by
    refine ⟨?_, find_stops⟩
    rintro ⟨f, hf, rfl⟩
    exact (find_some hf).1
  rw [hiff, ← probed_iff h.high]
  refine ⟨?_, ?_⟩
  · intro hstop
    refine ⟨hstop.probed.1, ?_⟩
    rcases hstop with hp | ⟨hn, _⟩
    · exact Or.inl hp.cand
    · exact Or.inr fun q hq _ => hn q hq
  · rintro ⟨hp, hc⟩
    -- a usable port at or behind the start of a pass is `p` or above `high`
    have hfirst : ∀ x, e.range.low ≤ x → Cand x e.range.size p → IsFirst (Usable e bindConflict) x e.range.size p := by
      intro x hx hcand
      refine ⟨hcand, h.usable, fun q hq hu => ?_⟩
      by_cases hqh : q ≤ e.range.high
      · exact (h.only q (Int.le_trans hx hq.1) hqh hu).ge
      · have := h.high
        omega
    by_cases hodd : Cand (e.range.firstPort draw) e.range.size p
    · exact Or.inl (hfirst _ hlow.le hodd)
    · rcases hp with hp | hp
      · exact absurd hp hodd
      · refine Or.inr ⟨fun q hq hu => ?_, hfirst _ (by omega) hp⟩
        rcases hc with hc | hc
        · exact hodd hc
        · by_cases hqh : q ≤ e.range.high
          · have hqp := h.only q (Int.le_trans hlow.le hq.1) hqh hu
            rw [hqp] at hq
            exact hodd hq
          · exact hc q hq (by omega) hu

/-- The search is complete just when nothing usable is left out below its start, or it finds
    something elsewhere; and it finds a single usable port just when that is not below its start,
    and the first pass looks at it or does not stop above `high`. -/
theorem inet_csk_find_open_port_complete (e : Env Net Owners Slot) (bindConflict : BindBucket Net Owners → Bool)
    (draw : UInt32) :
    Complete e bindConflict draw ↔
      ((∃ p, Probed e.range draw p ∧ Usable e bindConflict p) ∨
        ∀ p, e.range.low ≤ p → p < e.range.firstPort draw - 1 → ¬ Usable e bindConflict p) ∧
      ∀ p, OnlyUsable e bindConflict p → e.range.firstPort draw - 1 ≤ p ∧
        (Cand (e.range.firstPort draw) e.range.size p ∨
          ∀ q, Cand (e.range.firstPort draw) e.range.size q → e.range.high < q → ¬ Usable e bindConflict q) := by
  refine ⟨?_, ?_⟩
  · intro h
    exact ⟨null_iff.mp h.null, fun p hp => (single_iff hp).mp (h.single p hp)⟩
  · intro ⟨h1, h2⟩
    exact ⟨null_iff.mpr h1, fun p hp => (single_iff hp).mpr (h2 p hp)⟩

/-- Only 32768 can be used, the draw 2 starts two ports behind it: NULL. -/
theorem find_open_port_misses_low :
    ¬ Complete (noBuckets defaultRange (· != 32768)) (fun _ => false) 2 := by
  intro h
  have hnull : inetCskFindOpenPort (noBuckets defaultRange (· != 32768)) (fun _ => false) 2 = none := by
    refine find_none.mpr fun p hp hu => ?_
    have he : p = 32768 := by simpa [Usable, noBuckets] using hu.1
    rw [he, probed_iff (by decide)] at hp
    exact absurd hp (by decide)
  rcases h.null hnull 32768 (by decide) (by decide) with hr | ⟨tb, ⟨⟨_, hm⟩, -⟩, -⟩
  · cases hr
  · cases hm

end

end NetworkCourse.Port
