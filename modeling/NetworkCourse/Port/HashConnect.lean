/-
  NetworkCourse.Port.HashConnect — `__inet_hash_connect` of port/net_ipv4_inet_hashtables.c.

  `connect` tries the ports of `low`'s parity, from an offset that `hint` moves on at each
  call. The search is over as many ports as the range has of that parity, without a wrap at its
  end (`connect_spec`), and stops at a port only if `check_established` is called for it: if there
  is some bucket, of whatever port, in its slot (`Hit`). So a port above `high` can be chosen, and
  an empty table has no port to choose.
-/

import NetworkCourse.Lib.CInt
import NetworkCourse.Lib.Stride
import NetworkCourse.Port.BindTable
import Mathlib.Data.Int.ModEq

namespace NetworkCourse.Port

open Lib.CInt Lib.Stride

/-- What a call leaves: the static `hint`, and the port whose check led to `ok`, if one did. -/
structure Connected where
  hint : UInt32
  port : Option Int

/-- `remaining &= ~1U` -/
def LocalPortRange.window (r : LocalPortRange) : Nat := r.size / 2 * 2

/-- Where the search starts. -/
def LocalPortRange.start (r : LocalPortRange) (hint portOffset : UInt32) : Int :=
  r.low + ((hint + portOffset).toNat % r.window / 2 * 2 : Nat)

theorem LocalPortRange.window_eq (r : LocalPortRange) :
    r.window % 2 = 0 ∧ r.window ≤ r.size ∧ r.size ≤ r.window + 1 := by
  unfold window
  omega

theorem LocalPortRange.window_pos (r : LocalPortRange) : 0 < r.window ↔ r.low < r.high := by
  have := r.size_eq
  unfold window
  omega

theorem LocalPortRange.start_range (r : LocalPortRange) (h : r.low < r.high) (hint portOffset : UInt32) :
    r.low ≤ r.start hint portOffset ∧ r.start hint portOffset + 2 ≤ r.low + r.window ∧
      (r.start hint portOffset - r.low) % 2 = 0 := by
  have hw := r.window_pos.mpr h
  have := Nat.mod_lt (hint + portOffset).toNat hw
  have := r.window_eq
  unfold start
  omega

section
-- `checkEstablished` is `check_established` for the socket
variable {Net Owners Slot : Type} (e : Env Net Owners Slot) (checkEstablished : UInt16 → Int)

/-- The body of the loop: the walk over the chain, left to `ok` at the first check that returns 0. -/
def checkPort (port : Int) : Option Int :=
  if e.isLocalReservedPort port then none
  else if (e.bhash.chain (e.bhashfn e.net port)).any fun _ => checkEstablished (UInt16.ofInt port) = 0 then some port
  else none

/-- A call with `hint` as the calls before left it; none is a modulo by zero. -/
def inetHashConnect (hint portOffset : UInt32) : Option Connected :=
  let low := e.range.low
  let high := e.range.high + 1
  let remaining := UInt32.ofInt (high - low)
  let remaining := remaining &&& ~~~1
  if remaining = 0 then none
  else
    let offset := (hint + portOffset) % remaining
    let offset := offset &&& ~~~1
    let port := toInt (low + offset.toNat)
    let (chosen, i) := search (checkPort e checkEstablished) remaining.toNat 0 port
    some ⟨hint + UInt32.ofNat (i + 2), chosen⟩

/-- A port the search stops at. -/
def Hit (port : Int) : Prop :=
  e.isLocalReservedPort port = false ∧ e.bhash.chain (e.bhashfn e.net port) ≠ [] ∧
    checkEstablished (UInt16.ofInt port) = 0

variable {e checkEstablished}

theorem checkPort_ne_none {port : Int} : checkPort e checkEstablished port ≠ none ↔ Hit e checkEstablished port := by
  unfold checkPort Hit
  cases e.isLocalReservedPort port with
  | true => simp
  | false =>
    by_cases hc : checkEstablished (UInt16.ofInt port) = 0
    · simp [hc, List.eq_nil_iff_forall_not_mem]
    · simp [hc]

theorem checkPort_some {port p : Int} (h : checkPort e checkEstablished port = some p) : p = port := by
  unfold checkPort at h
  split at h
  · cases h
  · split at h
    · cases h
      rfl
    · cases h

section
variable {hint portOffset : UInt32}

/-- On one port the modulus is 0. -/
theorem connect_one (h : e.range.low = e.range.high) : inetHashConnect e checkEstablished hint portOffset = none := by
  have hrem : UInt32.ofInt (e.range.high + 1 - e.range.low) &&& ~~~1 = 0 := by
    have hs := e.range.size_eq
    refine UInt32.toNat_inj.mp ?_
    rw [toNat_and_not_one, e.range.toNat_remaining, UInt32.toNat_zero]
    omega
  unfold inetHashConnect
  rw [if_pos hrem]

theorem connect_eq (h : e.range.low < e.range.high) :
    inetHashConnect e checkEstablished hint portOffset =
      let s := search (checkPort e checkEstablished) e.range.window 0 (e.range.start hint portOffset)
      some ⟨hint + UInt32.ofNat (s.2 + 2), s.1⟩ := by
  obtain ⟨h1, h2, -⟩ := e.range.start_range h hint portOffset
  have hw := e.range.window_eq
  have hlt := e.range.size_lt
  have hpos := e.range.pos
  have htop := e.range.top
  have hrem : (UInt32.ofInt (e.range.high + 1 - e.range.low) &&& ~~~1).toNat = e.range.window := by
    rw [toNat_and_not_one, e.range.toNat_remaining]
    rfl
  have hne : UInt32.ofInt (e.range.high + 1 - e.range.low) &&& ~~~1 ≠ 0 := by
    intro h0
    have hwpos := e.range.window_pos.mpr h
    rw [h0] at hrem
    rw [← hrem] at hwpos
    exact absurd hwpos (by decide)
  have hport : e.range.low + (((hint + portOffset) % (UInt32.ofInt (e.range.high + 1 - e.range.low) &&& ~~~1) &&&
      ~~~1).toNat : Int) = e.range.start hint portOffset := by
    rw [toNat_and_not_one, UInt32.toNat_mod, hrem]
    rfl
  unfold inetHashConnect
  rw [if_neg hne]
  dsimp only
  rw [hport, toInt_eq (by omega) (by omega), hrem]

/-- The first port that is hit is chosen, and `hint` goes on by its distance and 2. -/
theorem connect_spec (checkEstablished : UInt16 → Int) (h : e.range.low < e.range.high) (hint portOffset : UInt32) :
    ∃ c, inetHashConnect e checkEstablished hint portOffset = some c ∧
      (∀ p, c.port = some p ↔ IsFirst (Hit e checkEstablished) (e.range.start hint portOffset) e.range.window p) ∧
      ∀ p, c.port = some p → c.hint = hint + UInt32.ofNat ((p - e.range.start hint portOffset).toNat + 2) := by
  obtain ⟨⟨chosen, i⟩, hs⟩ :
      ∃ s, search (checkPort e checkEstablished) e.range.window 0 (e.range.start hint portOffset) = s := ⟨_, rfl⟩
  have hfirst : ∀ p, chosen = some p →
      IsFirst (Hit e checkEstablished) (e.range.start hint portOffset) e.range.window p ∧
        i = (p - e.range.start hint portOffset).toNat := by
    rintro p rfl
    obtain ⟨q, hq, hr, hi⟩ := search_some hs
    obtain rfl := checkPort_some hr
    have hleast := fun r hr (hhit : Hit e checkEstablished r) => hq.least r hr (checkPort_ne_none.mpr hhit)
    exact ⟨⟨hq.cand, checkPort_ne_none.mp hq.holds, hleast⟩, by omega⟩
  refine ⟨⟨hint + UInt32.ofNat (i + 2), chosen⟩, by rw [connect_eq h, hs], fun p => ⟨?_, ?_⟩, ?_⟩
  · intro hp
    exact (hfirst p hp).1
  · intro hp
    obtain ⟨q, j, hs'⟩ := exists_search (n := e.range.window) (i := 0) hp.cand (checkPort_ne_none.mpr hp.holds)
    rw [hs, Prod.mk.injEq] at hs'
    rw [hs'.1]
    exact congrArg some ((hfirst q hs'.1).1.unique hp)
  · intro p hp
    rw [(hfirst p hp).2]

end

/-! ## Soundness -/

/-- The offset is defined, and a chosen port is one of the range, of `low`'s parity, not reserved. -/
def ConnectSound (e : Env Net Owners Slot) (checkEstablished : UInt16 → Int) (hint portOffset : UInt32) : Prop :=
  ∃ c, inetHashConnect e checkEstablished hint portOffset = some c ∧ ∀ p, c.port = some p →
    e.range.low ≤ p ∧ p ≤ e.range.high ∧ (p - e.range.low) % 2 = 0 ∧ e.isLocalReservedPort p = false

/-- There is more than one port, and the search hits one up to `high` or none above. -/
theorem inet_hash_connect_sound (e : Env Net Owners Slot) (checkEstablished : UInt16 → Int) (hint portOffset : UInt32) :
    ConnectSound e checkEstablished hint portOffset ↔
      e.range.low < e.range.high ∧
        ((∃ p, Cand (e.range.start hint portOffset) e.range.window p ∧ Hit e checkEstablished p ∧ p ≤ e.range.high) ∨
          ∀ p, Cand (e.range.start hint portOffset) e.range.window p → e.range.high < p →
            ¬ Hit e checkEstablished p) := by
  by_cases hlt : e.range.low < e.range.high
  · obtain ⟨c, hc, hport, -⟩ := connect_spec checkEstablished hlt hint portOffset
    obtain ⟨hstart, -, hpar⟩ := e.range.start_range hlt hint portOffset
    rw [← first_le_iff]
    refine ⟨?_, ?_⟩
    · rintro ⟨c', hc', h⟩
      rw [hc] at hc'
      cases hc'
      exact ⟨hlt, fun p hp => (h p ((hport p).mpr hp)).2.1⟩
    · rintro ⟨-, h⟩
      refine ⟨c, hc, fun p hp => ?_⟩
      have hfirst := (hport p).mp hp
      obtain ⟨h1, -, h3⟩ := hfirst.cand
      exact ⟨by omega, h p hfirst, by omega, hfirst.holds.1⟩
  · have heq : e.range.low = e.range.high := Int.le_antisymm e.range.le (Int.not_lt.mp hlt)
    refine ⟨?_, fun h => absurd h.1 hlt⟩
    rintro ⟨c, hc, -⟩
    rw [connect_one heq] at hc
    cases hc

/-- One port: the modulus is 0. -/
theorem inet_hash_connect_one_port :
    ¬ ConnectSound (noBuckets ⟨40000, 40000, by decide, by decide, by decide⟩ fun _ => false) (fun _ => 0) 0 0 := by
  rintro ⟨c, hc, -⟩
  rw [connect_one rfl] at hc
  cases hc

/-! ## Completeness -/

/-- A port of the window that `connect` could use. -/
structure Good (e : Env Net Owners Slot) (checkEstablished : UInt16 → Int) (p : Int) : Prop where
  low : e.range.low ≤ p
  window : p < e.range.low + e.range.window
  parity : (p - e.range.low) % 2 = 0
  notReserved : e.isLocalReservedPort p = false
  free : (∀ tb, ¬ IsBucket e p tb) ∨ checkEstablished (UInt16.ofInt p) = 0

/-- With a good port in the window the search stops at one. -/
def ConnectComplete (e : Env Net Owners Slot) (checkEstablished : UInt16 → Int) (hint portOffset : UInt32) : Prop :=
  (∃ p, Good e checkEstablished p) →
    ∃ c p, inetHashConnect e checkEstablished hint portOffset = some c ∧ c.port = some p ∧ Good e checkEstablished p

/-- It does just when one of the window, from its start on, is hit. -/
theorem inet_hash_connect_complete (e : Env Net Owners Slot) (checkEstablished : UInt16 → Int) (hint portOffset : UInt32) :
    ConnectComplete e checkEstablished hint portOffset ↔
      (∀ p, ¬ Good e checkEstablished p) ∨
        ∃ p, Cand (e.range.start hint portOffset) e.range.window p ∧ p < e.range.low + e.range.window ∧
          Hit e checkEstablished p := by
  by_cases hany : ∃ p, Good e checkEstablished p
  · obtain ⟨g, hg⟩ := hany
    have hlt : e.range.low < e.range.high := by
      have h1 := hg.low
      have h2 := hg.window
      exact e.range.window_pos.mp (by omega)
    obtain ⟨c, hc, hport, -⟩ := connect_spec checkEstablished hlt hint portOffset
    obtain ⟨hstart, -, hpar⟩ := e.range.start_range hlt hint portOffset
    refine ⟨?_, ?_⟩
    · intro h
      obtain ⟨c', p, hc', hp, hgood⟩ := h ⟨g, hg⟩
      rw [hc] at hc'
      cases hc'
      have hfirst := (hport p).mp hp
      exact Or.inr ⟨p, hfirst.cand, hgood.window, hfirst.holds⟩
    · rintro (h | ⟨p, hp, hwin, hhit⟩) -
      · exact absurd hg (h g)
      · obtain ⟨q, hq⟩ := exists_first hp hhit
        have hle := hq.least p hp hhit
        obtain ⟨h1, -, h3⟩ := hq.cand
        exact ⟨c, q, hc, (hport q).mpr hq, ⟨by omega, by omega, by omega, hq.holds.1, Or.inr hq.holds.2.2⟩⟩
  · refine ⟨fun _ => Or.inl fun p hp => hany ⟨p, hp⟩, fun _ h => absurd h hany⟩

/-- Every port is free in an empty table, and none is found. -/
theorem inet_hash_connect_empty : ¬ ConnectComplete (noBuckets defaultRange fun _ => false) (fun _ => 0) 0 0 := by
  intro h
  obtain ⟨c, p, hc, hp, -⟩ := h ⟨32768, by decide, by decide, by decide, rfl, Or.inr rfl⟩
  obtain ⟨c', hc', hport, -⟩ := connect_spec (e := noBuckets defaultRange fun _ => false) (fun _ => 0) (by decide) 0 0
  rw [hc, Option.some_inj] at hc'
  subst hc'
  exact ((hport p).mp hp).holds.2.1 rfl

/-! ## The hint -/

theorem even_mod {w : Nat} (hw : w % 2 = 0) (n : Nat) : n % w / 2 * 2 = n / 2 * 2 % w := by
  obtain ⟨m, rfl⟩ : ∃ m, w = 2 * m := ⟨w / 2, by omega⟩
  rw [Nat.mod_mul_right_div_self, Nat.mul_comm 2 m, Nat.mul_mod_mul_right]

/-- The sum of 32 bits, moved on by an even number, moves the offset on by as much, unless it
    wraps and the window does not divide what it wraps at. -/
theorem offset_moves {w x k : Nat} (hw : w % 2 = 0) (hk : k % 2 = 0) (hx : x + k < 8589934592) :
    (x + k) % 4294967296 % w / 2 * 2 = (x % w / 2 * 2 + k) % w ↔ x + k < 4294967296 ∨ w ∣ 4294967296 := by
  have hgo : (x % w / 2 * 2 + k) % w = (x / 2 * 2 + k) % w := by
    rw [even_mod hw, Nat.mod_add_mod]
  rw [even_mod hw, hgo]
  by_cases hwrap : x + k < 4294967296
  · have he : (x + k) % 4294967296 / 2 * 2 = x / 2 * 2 + k := by omega
    rw [he]
    exact ⟨fun _ => Or.inl hwrap, fun _ => rfl⟩
  · have he : x / 2 * 2 + k = (x + k) % 4294967296 / 2 * 2 + 4294967296 := by omega
    rw [he]
    have hdvd := Nat.modEq_iff_dvd' (n := w) (Nat.le_add_right ((x + k) % 4294967296 / 2 * 2) 4294967296)
    rw [Nat.add_sub_cancel_left] at hdvd
    exact hdvd.trans ⟨Or.inr, fun h => h.resolve_left hwrap⟩

/-- After a call that chose `p` the next one starts behind `p`, in a circle, just when a port is
    hit before the sum with `hint` wraps, or the window divides what it wraps at. -/
theorem inet_hash_connect_hint (e : Env Net Owners Slot) (checkEstablished : UInt16 → Int) (hint portOffset : UInt32)
    {c : Connected} {p : Int} (hc : inetHashConnect e checkEstablished hint portOffset = some c) (hp : c.port = some p) :
    e.range.start c.hint portOffset = e.range.low + (p - e.range.low + 2) % e.range.window ↔
      (∃ q, Cand (e.range.start hint portOffset) e.range.window q ∧ Hit e checkEstablished q ∧
        (hint + portOffset).toNat + (q - e.range.start hint portOffset) + 2 < 4294967296) ∨
      e.range.window ∣ 4294967296 := by
  have hlt : e.range.low < e.range.high := by
    by_contra hn
    rw [connect_one (Int.le_antisymm e.range.le (Int.not_lt.mp hn))] at hc
    cases hc
  obtain ⟨c', hc', hport, hhint⟩ := connect_spec checkEstablished hlt hint portOffset
  rw [hc, Option.some_inj] at hc'
  subst hc'
  have hfirst := (hport p).mp hp
  obtain ⟨hge, hcand, hpar⟩ := hfirst.cand
  have hsize := e.range.size_lt
  obtain ⟨heven, hwle, -⟩ := e.range.window_eq
  have hx := (hint + portOffset).toNat_lt
  -- `p` is `k` behind the start, and the sum moves on by `k + 2`
  obtain ⟨k, hk⟩ : ∃ k : Nat, p = e.range.start hint portOffset + k :=
    ⟨(p - e.range.start hint portOffset).toNat, by omega⟩
  have hsum : (c.hint + portOffset).toNat = ((hint + portOffset).toNat + (k + 2)) % 4294967296 := by
    have hd : (p - e.range.start hint portOffset).toNat = k := by omega
    rw [hhint p hp, hd]
    simp only [UInt32.toNat_add, UInt32.toNat_ofNat']
    omega
  have hoff : e.range.low + (p - e.range.low + 2) % e.range.window =
      e.range.low + (((hint + portOffset).toNat % e.range.window / 2 * 2 + (k + 2)) % e.range.window : Nat) := by
    rw [hk, LocalPortRange.start]
    push_cast
    congr 2
    omega
  have hmoves := offset_moves (x := (hint + portOffset).toNat) (k := k + 2) heven (by omega) (by omega)
  have hsoon : (∃ q, Cand (e.range.start hint portOffset) e.range.window q ∧ Hit e checkEstablished q ∧
      (hint + portOffset).toNat + (q - e.range.start hint portOffset) + 2 < 4294967296) ↔
      (hint + portOffset).toNat + (k + 2) < 4294967296 := by
    refine ⟨?_, ?_⟩
    · rintro ⟨q, hq, hhit, hlt⟩
      have := hfirst.least q hq hhit
      omega
    · intro h
      exact ⟨p, hfirst.cand, hfirst.holds, by omega⟩
  rw [hsoon, ← hmoves, hoff, LocalPortRange.start, hsum]
  omega

/-- A hit at the start is taken at once. -/
theorem connect_at_once {hint portOffset : UInt32} (h : e.range.low < e.range.high)
    (hh : Hit e checkEstablished (e.range.start hint portOffset)) :
    inetHashConnect e checkEstablished hint portOffset = some ⟨hint + 2, some (e.range.start hint portOffset)⟩ := by
  obtain ⟨c, hc, hport, hhint⟩ := connect_spec checkEstablished h hint portOffset
  have hw := e.range.window_pos.mpr h
  have hp := (hport _).mpr ⟨⟨Int.le_refl _, by omega, by omega⟩, hh, fun q hq _ => hq.1⟩
  have hmoved := hhint _ hp
  rw [Int.sub_self] at hmoved
  rw [hc, ← hp, Option.some_inj]
  obtain ⟨hint', port⟩ := c
  simp only at hmoved
  rw [hmoved]
  rfl

/-- The sum 4294967294 wraps: after 37670 the search starts at 32768 again. -/
theorem inet_hash_connect_hint_wraps :
    ¬ ∀ c p, inetHashConnect (oneBucket defaultRange 32768) (fun _ => 0) 0 4294967294 = some c → c.port = some p →
      p < defaultRange.low + defaultRange.window →
      defaultRange.start c.hint 4294967294 = defaultRange.low + (p - defaultRange.low + 2) % defaultRange.window := by
  intro h
  have hhit : Hit (oneBucket defaultRange 32768) (fun _ => 0) (defaultRange.start 0 4294967294) :=
    ⟨rfl, by simp [oneBucket], rfl⟩
  have hc := connect_at_once (e := oneBucket defaultRange 32768) (by decide) hhit
  exact absurd (h _ _ hc rfl (by decide)) (by decide)

/-- After 32768 the search starts at 32770. -/
theorem inet_hash_connect_hint_first :
    defaultRange.start 2 0 = defaultRange.low + (defaultRange.start 0 0 - defaultRange.low + 2) % defaultRange.window := by
  have hhit : Hit (oneBucket defaultRange 32768) (fun _ => 0) (defaultRange.start 0 0) := ⟨rfl, by simp [oneBucket], rfl⟩
  have hc := connect_at_once (e := oneBucket defaultRange 32768) (by decide) hhit
  have hfirst : Cand (defaultRange.start 0 0) defaultRange.window (defaultRange.start 0 0) := by decide
  exact (inet_hash_connect_hint (oneBucket defaultRange 32768) (fun _ => 0) 0 0 hc rfl).mpr
    (Or.inl ⟨_, hfirst, hhit, by decide⟩)

end

end NetworkCourse.Port
