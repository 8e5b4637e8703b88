/-
  NetworkCourse.Port.Probes — the loops of `inet_csk_find_open_port` step by step.

  The loop and the jump back to `other_parity_scan` are steps here (`scanStep`), so that the
  search could go on for ever; it ends since each pass counts up to the size of the range and
  the jump is taken only while the offset is odd. The ports examined are kept, pass by pass. A
  first pass takes those of one parity, a second those of the other (`Inv`), whatever is in the
  tables (`inet_csk_find_open_port_probes`). What the steps return is what
  `inetCskFindOpenPort` does (`outcome_step`).
-/

import NetworkCourse.Lib.Machine
import NetworkCourse.Port.FindOpenPort

namespace NetworkCourse.Port

open Lib.CInt Lib.Machine Lib.Stride

/-- `body` is behind the loop's condition. -/
inductive Label where
  | otherParityScan
  | loop
  | body

/-- The locals, and the ports examined in the passes before and in this one. -/
structure Scan where
  label : Label
  remaining : UInt32
  offset : UInt32
  i : Int
  port : Int
  done : List (List Int)
  ports : List Int

def Scan.passes (s : Scan) : List (List Int) := s.done ++ [s.ports]

section
variable {Net Owners Slot : Type} [DecidableEq Net] (e : Env Net Owners Slot) (bindConflict : BindBucket Net Owners → Bool)

omit [DecidableEq Net] in
/-- Up to `other_parity_scan`; `i` is not set yet. -/
def scanStart (draw : UInt32) : Scan :=
  let low := e.range.low
  let high := e.range.high + 1
  let remaining := UInt32.ofInt (high - low)
  let offset := draw % remaining
  let offset := offset ||| 1
  ⟨.otherParityScan, remaining, offset, 0, 0, [], []⟩

def scanStep (s : Scan) : Scan ⊕ Option (Found Net Owners) :=
  match s.label with
  | .otherParityScan => .inl { s with label := .loop, port := toInt (e.range.low + s.offset.toNat), i := 0 }
  | .loop =>
    if UInt32.ofInt s.i < s.remaining then .inl { s with label := .body, ports := s.ports ++ [s.port] }
    else
      let offset := s.offset - 1
      if offset &&& 1 = 0 then
        .inl { s with label := .otherParityScan, offset := offset, done := s.done ++ [s.ports], ports := [] }
      else .inr none
  | .body =>
    match probe e bindConflict s.port with
    | some found => .inr (some found)
    | none => .inl { s with label := .loop, i := toInt (s.i + 2), port := toInt (s.port + 2) }

/-- At most two passes, each over at most half of the range, rounded up; no port twice; and none
    of `low`'s parity in front of one that is not. -/
structure ProbeOrder (r : LocalPortRange) (passes : List (List Int)) : Prop where
  two : passes.length ≤ 2
  half : ∀ pass ∈ passes, pass.length ≤ (r.size + 1) / 2
  nodup : passes.flatten.Nodup
  parity : passes.flatten.Pairwise fun p q => (p - r.low) % 2 = 0 → (q - r.low) % 2 = 0

/-! ## The passes -/

/-- The passes behind, and the offset of this one. -/
inductive PassOf (r : LocalPortRange) (draw : UInt32) : List (List Int) → UInt32 → Prop
  | first {offset : UInt32} : r.low + offset.toNat = r.firstPort draw → PassOf r draw [] offset
  | second {k : Nat} {offset : UInt32} : 2 * k ≤ r.size + 1 → r.low + offset.toNat = r.firstPort draw - 1 →
      PassOf r draw [stride (r.firstPort draw) k] offset

/-- Where the loop is in its pass. -/
def Placed (r : LocalPortRange) (s : Scan) : Prop :=
  match s.label with
  | .otherParityScan => s.ports = []
  | .loop => ∃ k : Nat, s.ports = stride (r.low + s.offset.toNat) k ∧ s.i = 2 * k ∧
      s.port = r.low + s.offset.toNat + 2 * k ∧ 2 * k ≤ r.size + 1
  | .body => ∃ k : Nat, s.ports = stride (r.low + s.offset.toNat) (k + 1) ∧ s.i = 2 * k ∧
      s.port = r.low + s.offset.toNat + 2 * k ∧ 2 * k < r.size

structure Inv (r : LocalPortRange) (draw : UInt32) (s : Scan) : Prop where
  remaining : s.remaining.toNat = r.size
  pass : PassOf r draw s.done s.offset
  placed : Placed r s

section
variable {r : LocalPortRange} {draw : UInt32} {s : Scan} {done : List (List Int)} {offset : UInt32}

theorem PassOf.start_range (h : PassOf r draw done offset) :
    r.low ≤ r.low + offset.toNat ∧ r.low + offset.toNat ≤ r.high + 1 := by
  obtain ⟨h1, h2⟩ := r.firstPort_range draw
  cases h with
  | first h => omega
  | second _ h => omega

/-- The first offset is odd. -/
theorem firstPort_parity (r : LocalPortRange) (draw : UInt32) : (r.firstPort draw - r.low) % 2 = 1 := by
  unfold LocalPortRange.firstPort
  omega

theorem PassOf.parity (h : PassOf r draw done offset) : offset.toNat % 2 = if done = [] then 1 else 0 := by
  have hodd := firstPort_parity r draw
  cases h with
  | first h =>
    rw [if_pos rfl]
    omega
  | second _ h =>
    rw [if_neg (List.cons_ne_nil _ _)]
    omega

/-- The jump is taken just when the offset was odd: from 0 it wraps to an odd number. -/
theorem jumps_iff (offset : UInt32) : (offset - 1) &&& 1 = 0 ↔ offset.toNat % 2 = 1 := by
  have := offset.toNat_lt
  rw [← UInt32.toNat_inj, toNat_and_one, UInt32.toNat_sub]
  simp only [UInt32.toNat_one, UInt32.toNat_zero]
  omega

theorem toNat_pred {offset : UInt32} (h : offset.toNat % 2 = 1) : (offset - 1).toNat = offset.toNat - 1 := by
  have := offset.toNat_lt
  rw [UInt32.toNat_sub]
  simp only [UInt32.toNat_one]
  omega

/-- The second pass is from one before the first. -/
theorem PassOf.next (h : PassOf r draw done offset) (hodd : offset.toNat % 2 = 1) {k : Nat} (hk : 2 * k ≤ r.size + 1) :
    PassOf r draw (done ++ [stride (r.low + offset.toNat) k]) (offset - 1) := by
  have hpar := h.parity
  cases h with
  | first h =>
    rw [h]
    exact .second hk (by rw [toNat_pred hodd]; omega)
  | second _ _ =>
    rw [if_neg (List.cons_ne_nil _ _)] at hpar
    omega

/-- The loop's condition, with `i` as an unsigned word. -/
theorem more_iff {k : Nat} (hr : s.remaining.toNat = r.size) (hi : s.i = 2 * k) (hk : 2 * k ≤ r.size + 1) :
    UInt32.ofInt s.i < s.remaining ↔ 2 * k < r.size := by
  have := r.size_lt
  rw [UInt32.lt_iff_toNat_lt, hr, hi, toNat_ofInt]
  omega

end

/-! ## What a step does -/

section
variable {e bindConflict} {draw : UInt32} {s s' : Scan}

theorem scanStep_inl (h : scanStep e bindConflict s = .inl s') :
    (s.label = .otherParityScan ∧
      s' = { s with label := .loop, port := toInt (e.range.low + s.offset.toNat), i := 0 }) ∨
    (s.label = .loop ∧ UInt32.ofInt s.i < s.remaining ∧ s' = { s with label := .body, ports := s.ports ++ [s.port] }) ∨
    (s.label = .loop ∧ ¬ UInt32.ofInt s.i < s.remaining ∧ (s.offset - 1) &&& 1 = 0 ∧ s' = { s with
      label := .otherParityScan, offset := s.offset - 1, done := s.done ++ [s.ports], ports := [] }) ∨
    (s.label = .body ∧ probe e bindConflict s.port = none ∧
      s' = { s with label := .loop, i := toInt (s.i + 2), port := toInt (s.port + 2) }) := by
  unfold scanStep at h
  split at h
  · rename_i hl
    exact Or.inl ⟨hl, (Sum.inl.inj h).symm⟩
  · rename_i hl
    split at h
    · rename_i hc
      exact Or.inr (Or.inl ⟨hl, hc, (Sum.inl.inj h).symm⟩)
    · rename_i hc
      simp only at h
      split at h
      · rename_i hj
        exact Or.inr (Or.inr (Or.inl ⟨hl, hc, hj, (Sum.inl.inj h).symm⟩))
      · cases h
  · rename_i hl
    split at h
    · cases h
    · rename_i hp
      exact Or.inr (Or.inr (Or.inr ⟨hl, hp, (Sum.inl.inj h).symm⟩))

theorem scanStep_inr {r : Option (Found Net Owners)} (h : scanStep e bindConflict s = .inr r) :
    (s.label = .loop ∧ ¬ UInt32.ofInt s.i < s.remaining ∧ ¬ (s.offset - 1) &&& 1 = 0 ∧ r = none) ∨
    (s.label = .body ∧ ∃ found, probe e bindConflict s.port = some found ∧ r = some found) := by
  unfold scanStep at h
  split at h
  · cases h
  · rename_i hl
    split at h
    · cases h
    · rename_i hc
      simp only at h
      split at h
      · cases h
      · rename_i hj
        exact Or.inl ⟨hl, hc, hj, (Sum.inr.inj h).symm⟩
  · rename_i hl
    split at h
    · rename_i found hp
      exact Or.inr ⟨hl, found, hp, (Sum.inr.inj h).symm⟩
    · cases h

omit [DecidableEq Net] in
theorem start_inv : Inv e.range draw (scanStart e draw) := by
  refine ⟨e.range.toNat_remaining, .first ?_, rfl⟩
  show e.range.low + ((draw % UInt32.ofInt (e.range.high + 1 - e.range.low) ||| 1).toNat : Int) = e.range.firstPort draw
  rw [toNat_or_one, UInt32.toNat_mod, e.range.toNat_remaining]
  rfl

theorem step_inv (hi : Inv e.range draw s) (h : scanStep e bindConflict s = .inl s') : Inv e.range draw s' := by
  obtain ⟨hrem, hpass, hplaced⟩ := hi
  obtain ⟨hlow, hhigh⟩ := hpass.start_range
  have hpos := e.range.pos
  have htop := e.range.top
  have hlt := e.range.size_lt
  rcases scanStep_inl h with ⟨hl, rfl⟩ | ⟨hl, hc, rfl⟩ | ⟨hl, hc, hj, rfl⟩ | ⟨hl, -, rfl⟩
  · unfold Placed at hplaced
    rw [hl] at hplaced
    refine ⟨hrem, hpass, 0, hplaced, rfl, ?_, Nat.zero_le _⟩
    rw [toInt_eq (by omega) (by omega)]
    exact (Int.add_zero _).symm
  · unfold Placed at hplaced
    rw [hl] at hplaced
    obtain ⟨k, hports, hk, hport, hle⟩ := hplaced
    refine ⟨hrem, hpass, k, ?_, hk, hport, (more_iff hrem hk hle).mp hc⟩
    rw [stride_succ, ← hports, ← hport]
  · unfold Placed at hplaced
    rw [hl] at hplaced
    obtain ⟨k, hports, hk, -, hle⟩ := hplaced
    have hodd := (jumps_iff s.offset).mp hj
    refine ⟨hrem, ?_, rfl⟩
    show PassOf e.range draw (s.done ++ [s.ports]) (s.offset - 1)
    rw [hports]
    exact hpass.next hodd hle
  · unfold Placed at hplaced
    rw [hl] at hplaced
    obtain ⟨k, hports, hk, hport, hle⟩ := hplaced
    refine ⟨hrem, hpass, k + 1, hports, ?_, ?_, by omega⟩
    · show toInt (s.i + 2) = _
      rw [toInt_eq (by omega) (by omega), hk]
      omega
    · show toInt (s.port + 2) = e.range.low + s.offset.toNat + 2 * (k + 1 : Nat)
      rw [toInt_eq (by omega) (by omega), hport]
      omega

end

/-! ## What is returned -/

/-- What the functions of `FindOpenPort` give from here on. -/
def outcome (s : Scan) : Option (Found Net Owners) :=
  match s.label with
  | .otherParityScan => otherParityScan e bindConflict s.remaining s.offset
  | _ =>
    match (search (probe e bindConflict) s.remaining.toNat s.i.toNat s.port).1 with
    | some found => some found
    | none => if (s.offset - 1) &&& 1 = 0 then otherParityScan e bindConflict s.remaining (s.offset - 1) else none

section
variable {e bindConflict} {draw : UInt32} {s s' : Scan}

/-- A candidate is looked at, and the next one is two behind it. -/
theorem outcome_body (hl : s.label = .body) (hi : s.i.toNat < s.remaining.toNat) :
    outcome e bindConflict s = match probe e bindConflict s.port with
      | some found => some found
      | none => outcome e bindConflict { s with label := .loop, i := s.i.toNat + 2, port := s.port + 2 } := by
  simp only [outcome, hl]
  rw [search, if_pos hi]
  cases probe e bindConflict s.port with
  | some found => rfl
  | none => rfl

theorem outcome_step (hi : Inv e.range draw s) (h : scanStep e bindConflict s = .inl s') :
    outcome e bindConflict s' = outcome e bindConflict s := by
  obtain ⟨hrem, hpass, hplaced⟩ := hi
  obtain ⟨hlow, hhigh⟩ := hpass.start_range
  have hpos := e.range.pos
  have htop := e.range.top
  have hlt := e.range.size_lt
  rcases scanStep_inl h with ⟨hl, rfl⟩ | ⟨hl, hc, rfl⟩ | ⟨hl, hc, hj, rfl⟩ | ⟨hl, hp, rfl⟩
  · simp only [outcome, hl, Int.toNat_zero]
    exact (otherParityScan.eq_1 e bindConflict s.remaining s.offset).symm
  · simp only [outcome, hl]
  · unfold Placed at hplaced
    rw [hl] at hplaced
    obtain ⟨k, -, hk, -, hle⟩ := hplaced
    rw [more_iff hrem hk hle] at hc
    simp only [outcome, hl]
    rw [search, if_neg (by omega)]
    exact (if_pos hj).symm
  · unfold Placed at hplaced
    rw [hl] at hplaced
    obtain ⟨k, -, hk, hport, hle⟩ := hplaced
    rw [outcome_body hl (by omega), hp, toInt_eq (by omega) (by omega), toInt_eq (by omega) (by omega)]
    simp only [outcome]
    rw [show (s.i + 2).toNat = s.i.toNat + 2 by omega]
    rfl

theorem outcome_end {r : Option (Found Net Owners)} (hi : Inv e.range draw s) (h : scanStep e bindConflict s = .inr r) :
    r = outcome e bindConflict s := by
  obtain ⟨hrem, -, hplaced⟩ := hi
  unfold Placed at hplaced
  rcases scanStep_inr h with ⟨hl, hc, hj, rfl⟩ | ⟨hl, found, hp, rfl⟩
  · rw [hl] at hplaced
    obtain ⟨k, -, hk, -, hle⟩ := hplaced
    rw [more_iff hrem hk hle] at hc
    simp only [outcome, hl]
    rw [search, if_neg (by omega)]
    exact (if_neg hj).symm
  · rw [hl] at hplaced
    obtain ⟨k, -, hk, -, hlt⟩ := hplaced
    rw [outcome_body hl (by omega), hp]

/-- Steps that are still to come at most. -/
def toCome (r : LocalPortRange) (s : Scan) : Nat :=
  s.offset.toNat % 2 * (2 * r.size + 8) + match s.label with
    | .otherParityScan => 2 * r.size + 6
    | .loop => 2 * (r.size + 2 - s.i.toNat) + 1
    | .body => 2 * (r.size + 2 - s.i.toNat)

theorem toCome_step (hi : Inv e.range draw s) (h : scanStep e bindConflict s = .inl s') :
    toCome e.range s' < toCome e.range s := by
  obtain ⟨hrem, hpass, hplaced⟩ := hi
  have hlt := e.range.size_lt
  unfold Placed at hplaced
  rcases scanStep_inl h with ⟨hl, rfl⟩ | ⟨hl, hc, rfl⟩ | ⟨hl, hc, hj, rfl⟩ | ⟨hl, -, rfl⟩
  · simp only [toCome, hl, Int.toNat_zero]
    omega
  · simp only [toCome, hl]
    omega
  · have hodd := (jumps_iff s.offset).mp hj
    have heven : (s.offset - 1).toNat % 2 = 0 := by
      rw [toNat_pred hodd]
      omega
    simp only [toCome, hl, hodd, heven]
    omega
  · rw [hl] at hplaced
    obtain ⟨k, -, hk, -, hle⟩ := hplaced
    simp only [toCome, hl, toInt_eq (x := s.i + 2) (by omega) (by omega)]
    omega

end

/-- The steps come to an end, with what the function returns. -/
theorem scan_ends (draw : UInt32) :
    Ends (scanStep e bindConflict) (scanStart e draw) (inetCskFindOpenPort e bindConflict draw) := by
  obtain ⟨r, hr⟩ : ∃ r, Ends (scanStep e bindConflict) (scanStart e draw) r :=
    ends_of_measure_of (P := Inv e.range draw) (fun _ _ => step_inv) (toCome e.range) (fun _ _ => toCome_step) start_inv
  have hout : r = outcome e bindConflict (scanStart e draw) :=
    hr.eq_of_kept (P := Inv e.range draw) (fun _ _ => step_inv) (fun _ _ => outcome_step) (fun _ _ => outcome_end) start_inv
  rw [hout] at hr
  exact hr

end

/-! ## The order of the ports -/

section
variable {r : LocalPortRange} {draw : UInt32}

/-- A first pass, and a second one from one before it. -/
theorem order_passes {k j : Nat} (hk : 2 * k ≤ r.size + 1) (hj : 2 * j ≤ r.size + 1) :
    ProbeOrder r [stride (r.firstPort draw) k, stride (r.firstPort draw - 1) j] := by
  have hodd := firstPort_parity r draw
  have h1 : ∀ p ∈ stride (r.firstPort draw) k, (p - r.low) % 2 = 1 := by
    intro p hp
    have := parity_of_mem hp
    omega
  have h2 : ∀ p ∈ stride (r.firstPort draw - 1) j, (p - r.low) % 2 = 0 := by
    intro p hp
    have := parity_of_mem hp
    omega
  refine ⟨Nat.le_refl _, ?_, ?_, ?_⟩
  · intro pass hpass
    rcases List.mem_cons.mp hpass with rfl | hpass
    · rw [length_stride]
      omega
    · rw [List.mem_singleton.mp hpass, length_stride]
      omega
  · rw [List.flatten_cons, List.flatten_cons, List.flatten_nil, List.append_nil]
    refine List.nodup_append.mpr ⟨nodup_stride _ _, nodup_stride _ _, fun p hp q hq he => ?_⟩
    have := h1 p hp
    have := h2 q hq
    omega
  · rw [List.flatten_cons, List.flatten_cons, List.flatten_nil, List.append_nil]
    refine List.pairwise_append.mpr ⟨?_, ?_, fun p _ q hq _ => h2 q hq⟩
    · refine List.Pairwise.imp_of_mem (R := fun _ _ => True) (fun hp _ _ h => ?_) (List.pairwise_of_forall fun _ _ => trivial)
      have := h1 _ hp
      omega
    · exact List.Pairwise.imp_of_mem (R := fun _ _ => True) (fun _ hq _ _ => h2 _ hq)
        (List.pairwise_of_forall fun _ _ => trivial)

/-- Fewer passes, or shorter ones from their start. -/
theorem ProbeOrder.first {pass : List Int} {passes : List (List Int)} (h : ProbeOrder r (pass :: passes)) :
    ProbeOrder r [pass] := by
  have hsub : [pass].flatten.Sublist (pass :: passes).flatten := by
    rw [List.flatten_cons, List.flatten_cons, List.flatten_nil, List.append_nil]
    exact List.sublist_append_left _ _
  refine ⟨Nat.le_succ 1, fun p hp => h.half p ?_, h.nodup.sublist hsub, h.parity.sublist hsub⟩
  rw [List.mem_singleton.mp hp]
  exact List.mem_cons_self

theorem Inv.ports {s : Scan} (h : Inv r draw s) :
    ∃ k : Nat, s.ports = stride (r.low + s.offset.toNat) k ∧ 2 * k ≤ r.size + 1 := by
  have hplaced := h.placed
  unfold Placed at hplaced
  cases hl : s.label with
  | otherParityScan =>
    rw [hl] at hplaced
    exact ⟨0, hplaced, Nat.zero_le _⟩
  | loop =>
    rw [hl] at hplaced
    obtain ⟨k, hports, -, -, hle⟩ := hplaced
    exact ⟨k, hports, hle⟩
  | body =>
    rw [hl] at hplaced
    obtain ⟨k, hports, -, -, hlt⟩ := hplaced
    exact ⟨k + 1, hports, by omega⟩

theorem Inv.order {s : Scan} (h : Inv r draw s) : ProbeOrder r s.passes := by
  obtain ⟨k, hports, hk⟩ := h.ports
  have hall : ∀ done offset, PassOf r draw done offset → ProbeOrder r (done ++ [stride (r.low + offset.toNat) k]) := by
    intro done offset hpass
    cases hpass with
    | first hstart =>
      rw [hstart]
      exact (order_passes (j := 0) hk (by omega)).first
    | second hj hstart =>
      rw [hstart]
      exact order_passes hj hk
  rw [Scan.passes, hports]
  exact hall _ _ h.pass

end

/-- The loops and the jump come to an end, with what the function returns; and the ports examined
    on the way are in this order at any time. -/
theorem inet_csk_find_open_port_probes {Net Owners Slot : Type} [DecidableEq Net] (e : Env Net Owners Slot)
    (bindConflict : BindBucket Net Owners → Bool) (draw : UInt32) :
    Ends (scanStep e bindConflict) (scanStart e draw) (inetCskFindOpenPort e bindConflict draw) ∧
      ∀ s, Goes (scanStep e bindConflict) (scanStart e draw) s → ProbeOrder e.range s.passes :=
  ⟨scan_ends e bindConflict draw, fun _ h => (h.keeps (P := Inv e.range draw) (fun _ _ => step_inv) start_inv).order⟩

end NetworkCourse.Port
