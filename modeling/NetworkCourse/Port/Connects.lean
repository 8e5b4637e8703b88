/-
  NetworkCourse.Port.Connects — `__inet_hash_connect`, called again and again.

  `hint` is all that one call leaves to the next. Between the calls everything else can change: the
  reserved ports, the table, what `check_established` says. For one range and `port_offset`, as long
  as the sum with `hint` does not wrap, the searches go round the window: no port is chosen again
  before `hint` has moved on by all of the window (`port_again`), and so the ports chosen while it
  moves on by less are distinct.
-/

import NetworkCourse.Port.HashConnect

namespace NetworkCourse.Port

open Lib.CInt Lib.Stride

/-- What a call finds, and the socket's offset. -/
structure ConnectCall (Net Owners Slot : Type) where
  e : Env Net Owners Slot
  checkEstablished : UInt16 → Int
  portOffset : UInt32

section
variable {Net Owners Slot : Type}

/-- The calls one after the other, each with `hint` as the one before left it. -/
def connects : UInt32 → List (ConnectCall Net Owners Slot) → Option (List Connected)
  | _, [] => some []
  | hint, call :: calls => do
    let c ← inetHashConnect call.e call.checkEstablished hint call.portOffset
    let cs ← connects c.hint calls
    some (c :: cs)

/-- The sum with `hint` grows from call to call. -/
def Climbs (portOffset : UInt32) : UInt32 → List Connected → Prop
  | _, [] => True
  | hint, c :: cs => (hint + portOffset).toNat < (c.hint + portOffset).toNat ∧ Climbs portOffset c.hint cs

theorem connects_cons {hint : UInt32} {call : ConnectCall Net Owners Slot} {calls : List (ConnectCall Net Owners Slot)}
    {rs : List Connected} (h : connects hint (call :: calls) = some rs) :
    ∃ c cs, rs = c :: cs ∧ inetHashConnect call.e call.checkEstablished hint call.portOffset = some c ∧
      connects c.hint calls = some cs := by
  rw [connects, Option.bind_eq_bind, Option.bind_eq_some_iff] at h
  obtain ⟨c, hc, h⟩ := h
  rw [Option.bind_eq_bind, Option.bind_eq_some_iff] at h
  obtain ⟨cs, hcs, h⟩ := h
  cases h
  exact ⟨c, cs, rfl, hc, hcs⟩

/-! ## One call -/

section
variable {e : Env Net Owners Slot} {checkEstablished : UInt16 → Int} {hint portOffset : UInt32} {c : Connected}

theorem connect_range (hc : inetHashConnect e checkEstablished hint portOffset = some c) : e.range.low < e.range.high := by
  by_contra hn
  rw [connect_one (Int.le_antisymm e.range.le (Int.not_lt.mp hn))] at hc
  cases hc

/-- The sum with `hint` keeps its parity. -/
theorem connect_parity (hc : inetHashConnect e checkEstablished hint portOffset = some c) :
    (c.hint + portOffset).toNat % 2 = (hint + portOffset).toNat % 2 := by
  rw [connect_eq (connect_range hc)] at hc
  cases hc
  have heven := @search_even Int (checkPort e checkEstablished) e.range.window 0 (e.range.start hint portOffset)
  simp only [UInt32.toNat_add, UInt32.toNat_ofNat']
  omega

/-- Behind a port that was chosen the next search begins 2 on, in the circle of the window. -/
theorem connect_circle {p : Int} (hc : inetHashConnect e checkEstablished hint portOffset = some c) (hp : c.port = some p)
    (hup : (hint + portOffset).toNat < (c.hint + portOffset).toNat) :
    (hint + portOffset).toNat + 2 ≤ (c.hint + portOffset).toNat ∧
      p - e.range.low + 2 ≡ ((c.hint + portOffset).toNat / 2 * 2 : Nat) [ZMOD e.range.window] := by
  have hlt := connect_range hc
  obtain ⟨c', hc', hport, hhint⟩ := connect_spec checkEstablished hlt hint portOffset
  rw [hc, Option.some_inj] at hc'
  subst hc'
  obtain ⟨hge, hcand, hpar⟩ := ((hport p).mp hp).cand
  have hsize := e.range.size_lt
  obtain ⟨heven, hwle, -⟩ := e.range.window_eq
  obtain ⟨k, hk⟩ : ∃ k : Nat, p = e.range.start hint portOffset + k :=
    ⟨(p - e.range.start hint portOffset).toNat, by omega⟩
  -- the sum moves on by `k + 2`, and does not wrap
  have hsum : (c.hint + portOffset).toNat = (hint + portOffset).toNat + (k + 2) := by
    have hd : (p - e.range.start hint portOffset).toNat = k := by omega
    rw [hhint p hp, hd] at hup ⊢
    simp only [UInt32.toNat_add, UInt32.toNat_ofNat'] at hup ⊢
    omega
  refine ⟨by omega, ?_⟩
  have hstart : p - e.range.low + 2 = ((hint + portOffset).toNat / 2 * 2 % e.range.window : Nat) + ((k : Int) + 2) := by
    rw [hk, LocalPortRange.start, even_mod heven]
    omega
  have hnext : (((c.hint + portOffset).toNat / 2 * 2 : Nat) : Int) =
      ((hint + portOffset).toNat / 2 * 2 : Nat) + ((k : Int) + 2) := by
    rw [hsum]
    omega
  rw [hstart, hnext, Int.natCast_mod]
  exact (Int.mod_modEq _ _).add_right _

end

/-! ## All calls -/

/-- A later call starts where `hint` has only grown. -/
theorem later_call {portOffset hint : UInt32} {calls : List (ConnectCall Net Owners Slot)} {rs : List Connected}
    (h : connects hint calls = some rs) (hsame : ∀ call ∈ calls, call.portOffset = portOffset) (hup : Climbs portOffset hint rs)
    {c : Connected} (hc : c ∈ rs) :
    ∃ call ∈ calls, ∃ hint', inetHashConnect call.e call.checkEstablished hint' portOffset = some c ∧
      (hint + portOffset).toNat ≤ (hint' + portOffset).toNat ∧ (hint' + portOffset).toNat < (c.hint + portOffset).toNat ∧
        (hint' + portOffset).toNat % 2 = (hint + portOffset).toNat % 2 := by
  induction calls generalizing hint rs with
  | nil =>
    cases h
    cases hc
  | cons call calls ih =>
    obtain ⟨c0, cs, rfl, hc0, hcs⟩ := connects_cons h
    obtain ⟨hlt, hrest⟩ := hup
    have hoff := hsame call List.mem_cons_self
    rcases List.mem_cons.mp hc with rfl | hc
    · exact ⟨call, List.mem_cons_self, hint, hoff ▸ hc0, Nat.le_refl _, hlt, rfl⟩
    · obtain ⟨call', hm, hint', hc', hle, hlt', hpar⟩ :=
        ih hcs (fun x hx => hsame x (List.mem_cons_of_mem _ hx)) hrest hc
      have hpar0 := connect_parity hc0
      rw [hoff] at hpar0
      exact ⟨call', List.mem_cons_of_mem _ hm, hint', hc', by omega, hlt', hpar.trans hpar0⟩

theorem again_after {r : LocalPortRange} {portOffset hint : UInt32} {calls : List (ConnectCall Net Owners Slot)}
    {rs : List Connected} (h : connects hint calls = some rs)
    (hsame : ∀ call ∈ calls, call.e.range = r ∧ call.portOffset = portOffset) (hup : Climbs portOffset hint rs) :
    rs.Pairwise fun c c' => ∀ p, c.port = some p → c'.port = some p →
      (c.hint + portOffset).toNat + r.window ≤ (c'.hint + portOffset).toNat := by
  induction calls generalizing hint rs with
  | nil =>
    cases h
    exact .nil
  | cons call calls ih =>
    obtain ⟨c, cs, rfl, hc, hcs⟩ := connects_cons h
    obtain ⟨hlt, hrest⟩ := hup
    obtain ⟨hr, hoff⟩ := hsame call List.mem_cons_self
    have hsame' : ∀ call ∈ calls, call.e.range = r ∧ call.portOffset = portOffset := fun x hx =>
      hsame x (List.mem_cons_of_mem _ hx)
    refine .cons ?_ (ih hcs hsame' hrest)
    intro c' hmem p hp hp'
    obtain ⟨call', hm, hint', hc', hle, hlt', hpar⟩ := later_call hcs (fun x hx => (hsame' x hx).2) hrest hmem
    rw [hoff] at hc
    obtain ⟨-, h1⟩ := connect_circle hc hp hlt
    obtain ⟨hge, h2⟩ := connect_circle hc' hp' hlt'
    rw [hr] at h1
    rw [(hsame' call' hm).1] at h2
    have hpar' := connect_parity hc'
    have heven := r.window_eq.1
    -- both searches would start at the same place next, one a round or more behind the other
    have hround : (((c.hint + portOffset).toNat / 2 * 2 : Nat) : Int) ≡ ((c'.hint + portOffset).toNat / 2 * 2 : Nat)
        [ZMOD r.window] := h1.symm.trans h2
    have hle' := Int.le_of_dvd (by omega) hround.dvd
    omega

/-- A port is chosen again only after `hint` has moved on by the window; those chosen while it moves on
    by less are distinct. -/
theorem port_again {r : LocalPortRange} {portOffset hint : UInt32} {calls : List (ConnectCall Net Owners Slot)}
    {rs : List Connected} (h : connects hint calls = some rs)
    (hsame : ∀ call ∈ calls, call.e.range = r ∧ call.portOffset = portOffset) (hup : Climbs portOffset hint rs) :
    (rs.Pairwise fun c c' => ∀ p, c.port = some p → c'.port = some p →
        (c.hint + portOffset).toNat + r.window ≤ (c'.hint + portOffset).toNat) ∧
      ((∀ c ∈ rs, (c.hint + portOffset).toNat ≤ (hint + portOffset).toNat + r.window) → (rs.filterMap Connected.port).Nodup) := by
  have hpair := again_after h hsame hup
  refine ⟨hpair, fun hless => ?_⟩
  rw [List.Nodup, List.pairwise_filterMap]
  refine hpair.imp_of_mem ?_
  intro c c' hc hc' hagain p hp q hq hpq
  obtain ⟨call, -, hint', -, hle, hlt, -⟩ := later_call h (fun x hx => (hsame x hx).2) hup hc
  have hround := hagain p hp (hpq ▸ hq)
  have hbound := hless c' hc'
  omega

/-- Two calls that take the first port they try. -/
theorem port_again_two :
    ∃ rs, connects 0 [⟨oneBucket defaultRange 32768, fun _ => 0, 0⟩, ⟨oneBucket defaultRange 32768, fun _ => 0, 0⟩] = some rs ∧
      rs.filterMap Connected.port = [32768, 32770] ∧ (rs.filterMap Connected.port).Nodup := by
  have hhit : ∀ p, Hit (oneBucket defaultRange 32768) (fun _ => 0) p := fun p => ⟨rfl, by simp [oneBucket], rfl⟩
  have h1 := connect_at_once (e := oneBucket defaultRange 32768) (by decide) (hhit (defaultRange.start 0 0))
  have h2 := connect_at_once (e := oneBucket defaultRange 32768) (by decide) (hhit (defaultRange.start 2 0))
  have h : connects 0 [⟨oneBucket defaultRange 32768, fun _ => 0, 0⟩, ⟨oneBucket defaultRange 32768, fun _ => 0, 0⟩] =
      some [⟨2, some 32768⟩, ⟨4, some 32770⟩] := by
    simp only [connects, h1, Option.bind_eq_bind, Option.bind_some]
    rw [show (0 : UInt32) + 2 = 2 from rfl, h2]
    rfl
  refine ⟨_, h, by decide, (@port_again Unit Unit Unit defaultRange 0 _ _ _ h ?_ ⟨by decide, by decide, trivial⟩).2 ?_⟩
  · intro call hcall
    simp only [List.mem_cons, List.not_mem_nil, or_false, or_self] at hcall
    subst hcall
    exact ⟨rfl, rfl⟩
  · decide

end

end NetworkCourse.Port
