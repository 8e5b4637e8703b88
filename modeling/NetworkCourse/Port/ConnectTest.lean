/-
  NetworkCourse.Port.ConnectTest — `time_elapse` and the loop of port/connect_test_client.c.

  Each call of `time_elapse` gives the milliseconds since the last one. Seconds and
  microseconds are subtracted apart, and C's division drops the fraction towards zero: where
  the microseconds go down the result is rounded up. So the results are the whole milliseconds
  of their windows, and add up to no more than the time that passed, just when in no window the
  microseconds go down by a broken number of milliseconds (`time_elapse_floors`). The loop
  prints one result for every thousand connections (`run_times`).
-/

import NetworkCourse.Lib.CInt
import NetworkCourse.Lib.Trace
import Mathlib.Algebra.BigOperators.Group.List.Basic
import Mathlib.Algebra.Order.Ring.Int

namespace NetworkCourse.Port.ConnectTest

open Lib.CInt Lib.Trace

/-- `struct timeval`, as `gettimeofday` sets it. -/
structure Timeval where
  tvSec : Int
  tvUsec : Int
  nonneg : 0 ≤ tvUsec
  lt : tvUsec < 1000000

/-- All of it in microseconds. -/
def Timeval.usec (t : Timeval) : Int := t.tvSec * 1000000 + t.tvUsec

/-- `time_elapse` when the clock says `now`: the result, and `*tv_begin` behind the call. The
    arithmetic is that of `long`, which the clock stays within; the result is an `int`. -/
def timeElapse (tvBegin now : Timeval) : Int × Timeval :=
  let tvCur := tvBegin
  let tvBegin := now
  (toInt ((tvBegin.tvSec - tvCur.tvSec) * 1000 + (tvBegin.tvUsec - tvCur.tvUsec).tdiv 1000), tvBegin)

/-- The results of successive calls. -/
def elapses (tvBegin : Timeval) : List Timeval → List Int
  | [] => []
  | now :: nows =>
    let (ms, tvBegin) := timeElapse tvBegin now
    ms :: elapses tvBegin nows

/-! ## Windows -/

/-- From each call to the next. -/
def windows (tvBegin : Timeval) (nows : List Timeval) : List (Timeval × Timeval) := (tvBegin :: nows).zip nows

/-- How many microseconds a window takes. -/
def span (w : Timeval × Timeval) : Int := w.2.usec - w.1.usec

/-- The clock does not go back, and no window has more milliseconds than an `int`. -/
def Clock (tvBegin : Timeval) (nows : List Timeval) : Prop :=
  ∀ w ∈ windows tvBegin nows, 0 ≤ span w ∧ span w ≤ 2147483647 * 1000

/-- The microseconds do not go down, or by whole milliseconds. -/
def Exact (w : Timeval × Timeval) : Prop := w.1.tvUsec ≤ w.2.tvUsec ∨ 1000 ∣ w.2.tvUsec - w.1.tvUsec

/-- From the first call to the last. -/
def total (tvBegin : Timeval) (nows : List Timeval) : Int := (nows.getLastD tvBegin).usec - tvBegin.usec

/-- Each result is that of its window, rounded down; and together they are not more than what
    passed, nor less by a millisecond for each. -/
structure Floors (tvBegin : Timeval) (nows : List Timeval) : Prop where
  floor : elapses tvBegin nows = (windows tvBegin nows).map fun w => span w / 1000
  nonneg : ∀ ms ∈ elapses tvBegin nows, 0 ≤ ms
  notMore : (elapses tvBegin nows).sum * 1000 ≤ total tvBegin nows
  notLess : nows ≠ [] → total tvBegin nows < ((elapses tvBegin nows).sum + nows.length) * 1000

section
variable {tvBegin now : Timeval} {nows : List Timeval}

theorem elapses_eq (tvBegin : Timeval) (nows : List Timeval) :
    elapses tvBegin nows = (windows tvBegin nows).map fun w => (timeElapse w.1 w.2).1 := by
  induction nows generalizing tvBegin with
  | nil => rfl
  | cons now nows ih =>
    rw [elapses, windows, List.zip_cons_cons, List.map_cons]
    exact congrArg _ (ih now)

theorem tdiv_of_neg {x : Int} (h : ¬ 0 ≤ x) : x.tdiv 1000 = -(-x / 1000) := by
  rw [← Int.tdiv_eq_ediv_of_nonneg (by omega), Int.neg_tdiv, Int.neg_neg]

/-- Truncation is the floor of what is not negative or has no fraction. -/
theorem tdiv_eq_iff (x : Int) : x.tdiv 1000 = x / 1000 ↔ 0 ≤ x ∨ 1000 ∣ x := by
  by_cases hx : 0 ≤ x
  · rw [Int.tdiv_eq_ediv_of_nonneg hx]
    exact ⟨fun _ => Or.inl hx, fun _ => rfl⟩
  · rw [tdiv_of_neg hx]
    omega

/-- It is at most one more. -/
theorem tdiv_range (x : Int) : x / 1000 ≤ x.tdiv 1000 ∧ x.tdiv 1000 * 1000 < x + 1000 := by
  by_cases hx : 0 ≤ x
  · rw [Int.tdiv_eq_ediv_of_nonneg hx]
    omega
  · rw [tdiv_of_neg hx]
    omega

/-- One call. -/
theorem timeElapse_eq_iff {w : Timeval × Timeval} (h0 : 0 ≤ span w) (h1 : span w ≤ 2147483647 * 1000) :
    (timeElapse w.1 w.2).1 = span w / 1000 ↔ Exact w := by
  obtain ⟨a, b⟩ := w
  have hspan : span (a, b) = (b.tvSec - a.tvSec) * 1000000 + (b.tvUsec - a.tvUsec) := by
    simp only [span, Timeval.usec]
    omega
  have hfloor : span (a, b) / 1000 = (b.tvSec - a.tvSec) * 1000 + (b.tvUsec - a.tvUsec) / 1000 := by
    rw [hspan]
    omega
  have hrange := tdiv_range (b.tvUsec - a.tvUsec)
  have hint : (timeElapse a b).1 = (b.tvSec - a.tvSec) * 1000 + (b.tvUsec - a.tvUsec).tdiv 1000 :=
    toInt_eq (by omega) (by omega)
  have hdiv := tdiv_eq_iff (b.tvUsec - a.tvUsec)
  show (timeElapse a b).1 = span (a, b) / 1000 ↔ a.tvUsec ≤ b.tvUsec ∨ 1000 ∣ b.tvUsec - a.tvUsec
  rw [hint, hfloor]
  omega

/-- The windows make up the whole. -/
theorem sum_span (tvBegin : Timeval) (nows : List Timeval) : ((windows tvBegin nows).map span).sum = total tvBegin nows := by
  induction nows generalizing tvBegin with
  | nil => simp [windows, total]
  | cons now nows ih =>
    have hrest : ((windows tvBegin (now :: nows)).map span).sum = span (tvBegin, now) + ((windows now nows).map span).sum := rfl
    rw [hrest, ih, total, total, List.getLastD_cons]
    simp only [span]
    omega

/-- Rounding down loses less than a millisecond a window. -/
theorem sum_floors (ws : List (Timeval × Timeval)) :
    (ws.map fun w => span w / 1000).sum * 1000 ≤ (ws.map span).sum ∧
      (ws ≠ [] → (ws.map span).sum < ((ws.map fun w => span w / 1000).sum + ws.length) * 1000) := by
  induction ws with
  | nil => simp
  | cons w ws ih =>
    simp only [List.map_cons, List.sum_cons, List.length_cons]
    obtain ⟨h1, h2⟩ := ih
    refine ⟨by omega, fun _ => ?_⟩
    by_cases hws : ws = []
    · subst hws
      simp only [List.map_nil, List.sum_nil, List.length_nil]
      omega
    · have := h2 hws
      push_cast
      omega

theorem length_windows (tvBegin : Timeval) (nows : List Timeval) : (windows tvBegin nows).length = nows.length := by
  simp [windows]

end

/-- The results are rounded down just when in no window the microseconds go down, other than by
    whole milliseconds. -/
theorem time_elapse_floors {tvBegin : Timeval} {nows : List Timeval} (h : Clock tvBegin nows) :
    Floors tvBegin nows ↔ ∀ w ∈ windows tvBegin nows, Exact w := by
  have hfloor : (elapses tvBegin nows = (windows tvBegin nows).map fun w => span w / 1000) ↔
      ∀ w ∈ windows tvBegin nows, Exact w := by
    rw [elapses_eq, List.map_inj_left]
    exact forall₂_congr fun w hw => timeElapse_eq_iff (h w hw).1 (h w hw).2
  refine ⟨fun hf => hfloor.mp hf.floor, fun hex => ?_⟩
  have he := hfloor.mpr hex
  obtain ⟨h1, h2⟩ := sum_floors (windows tvBegin nows)
  rw [← he, sum_span] at h1 h2
  refine ⟨he, ?_, h1, fun hne => ?_⟩
  · rw [he]
    intro ms hms
    obtain ⟨w, hw, rfl⟩ := List.mem_map.mp hms
    have := (h w hw).1
    omega
  · rw [length_windows] at h2
    refine h2 fun hnil => hne ?_
    rw [← List.length_eq_zero_iff, ← length_windows tvBegin, hnil, List.length_nil]

/-- In the first window the microseconds go up, in the second down by whole milliseconds. -/
theorem time_elapse_floors_of_two :
    Floors ⟨0, 0, by decide, by decide⟩ [⟨0, 999500, by decide, by decide⟩, ⟨1, 500, by decide, by decide⟩] := by
  refine (time_elapse_floors ?_).mpr ?_
  · intro w hw
    simp only [windows, List.zip_cons_cons, List.zip_nil_right, List.mem_cons, List.not_mem_nil, or_false] at hw
    rcases hw with rfl | rfl <;> decide
  · intro w hw
    simp only [windows, List.zip_cons_cons, List.zip_nil_right, List.mem_cons, List.not_mem_nil, or_false] at hw
    rcases hw with rfl | rfl
    · exact Or.inl (by decide)
    · exact Or.inr (by decide)

/-- One microsecond over the border of a second is a whole millisecond. -/
theorem one_microsecond_rounds_up :
    Clock ⟨0, 999999, by decide, by decide⟩ [⟨1, 0, by decide, by decide⟩] ∧
      total ⟨0, 999999, by decide, by decide⟩ [⟨1, 0, by decide, by decide⟩] = 1 ∧
      elapses ⟨0, 999999, by decide, by decide⟩ [⟨1, 0, by decide, by decide⟩] = [1] ∧
      ¬ Floors ⟨0, 999999, by decide, by decide⟩ [⟨1, 0, by decide, by decide⟩] := by
  refine ⟨?_, by decide, by decide, fun h => ?_⟩
  · intro w hw
    simp only [windows, List.zip_cons_cons, List.zip_nil_right, List.mem_cons, List.not_mem_nil, or_false] at hw
    subst hw
    decide
  · have hsum := h.notMore
    revert hsum
    decide

/-! ## The loop -/

inductive Line where
  | socketCreateFailed
  | timeCost (successCounter timeCost : Int)
  | connectFailed
  | rc (rc : Int)
  | inTheEnd (successCounter : Int)

/-- What `socket` and `connect` do in a turn of the loop, and what the clock says if asked. -/
inductive Turn where
  | socketFails
  | connect (rc : Int) (now : Timeval)

structure Client where
  successCounter : Int
  tvBegin : Timeval
  printed : List Line
  inLoop : Bool

def Client.start (tvBegin : Timeval) : Client := ⟨0, tvBegin, [], true⟩

/-- `connect` has succeeded. -/
def connected (s : Client) (now : Timeval) : Client :=
  let s : Client := { s with successCounter := s.successCounter + 1 }
  if s.successCounter % 1000 = 0 then
    let (timeCost, tvBegin) := timeElapse s.tvBegin now
    { s with tvBegin, printed := s.printed ++ [.timeCost s.successCounter timeCost] }
  else s

/-- The loop of `main`; it is left with the line `in the end`. -/
def turn (s : Client) (t : Turn) : Option Client :=
  if s.inLoop then
    if s.successCounter < 50000 then
      match t with
      | .socketFails =>
        some { s with printed := s.printed ++ [.socketCreateFailed, .inTheEnd s.successCounter], inLoop := false }
      | .connect rc now =>
        if rc = 0 then some (connected s now)
        else
          some { s with
            printed := s.printed ++ [.connectFailed, .rc rc, .inTheEnd s.successCounter], inLoop := false }
    else some { s with printed := s.printed ++ [.inTheEnd s.successCounter], inLoop := false }
  else none

/-- The reading of the clock in a turn: in every thousandth that connects. -/
def reading (s : Client) : Turn → Option Timeval
  | .socketFails => none
  | .connect rc now =>
    if s.successCounter < 50000 ∧ rc = 0 ∧ (s.successCounter + 1) % 1000 = 0 then some now else none

def readings (tr : List (Client × Turn)) : List Timeval := tr.filterMap fun (s, t) => reading s t

/-- The lines with a time. -/
def timed (printed : List Line) : List (Int × Int) :=
  printed.filterMap fun
    | .timeCost successCounter timeCost => some (successCounter, timeCost)
    | _ => none

/-- So many connections go with so many times. -/
structure Timed (tvBegin : Timeval) (nows : List Timeval) (s : Client) : Prop where
  begin : s.tvBegin = nows.getLastD tvBegin
  counter : s.successCounter / 1000 = nows.length
  bound : 0 ≤ s.successCounter ∧ s.successCounter ≤ 50000
  lines : timed s.printed = (elapses tvBegin nows).mapIdx fun i ms => (((i : Int) + 1) * 1000, ms)

section
variable {s s' : Client} {tvBegin now : Timeval} {nows : List Timeval}

theorem elapses_snoc (tvBegin : Timeval) (nows : List Timeval) (now : Timeval) :
    elapses tvBegin (nows ++ [now]) = elapses tvBegin nows ++ [(timeElapse (nows.getLastD tvBegin) now).1] := by
  induction nows generalizing tvBegin with
  | nil => rfl
  | cons now' nows ih =>
    rw [List.getLastD_cons]
    exact congrArg _ (ih now')

theorem length_elapses (tvBegin : Timeval) (nows : List Timeval) : (elapses tvBegin nows).length = nows.length := by
  rw [elapses_eq, List.length_map, length_windows]

/-- A turn that connects. -/
theorem timed_connected (h : Timed tvBegin nows s) (hlt : s.successCounter < 50000) :
    Timed tvBegin (nows ++ (reading s (.connect 0 now)).toList) (connected s now) := by
  obtain ⟨hbegin, hcounter, ⟨h0, h1⟩, hlines⟩ := h
  by_cases hth : (s.successCounter + 1) % 1000 = 0
  · have hread : reading s (.connect 0 now) = some now := if_pos ⟨hlt, rfl, hth⟩
    have hconn : connected s now = { s with
        successCounter := s.successCounter + 1, tvBegin := now,
        printed := s.printed ++ [.timeCost (s.successCounter + 1) (timeElapse s.tvBegin now).1] } := if_pos hth
    rw [hread, hconn]
    refine ⟨by simp, ?_, ⟨by show 0 ≤ s.successCounter + 1; omega, by show s.successCounter + 1 ≤ 50000; omega⟩, ?_⟩
    · simp only [Option.toList_some, List.length_append, List.length_singleton]
      omega
    · have hnum : s.successCounter + 1 = ((elapses tvBegin nows).length + 1 : Int) * 1000 := by
        rw [length_elapses]
        omega
      have hone : timed (s.printed ++ [.timeCost (s.successCounter + 1) (timeElapse s.tvBegin now).1]) =
          timed s.printed ++ [(s.successCounter + 1, (timeElapse s.tvBegin now).1)] := List.filterMap_append
      rw [hone, hlines, Option.toList_some, elapses_snoc, ← hbegin, hnum, List.mapIdx_append]
      simp
  · have hread : reading s (.connect 0 now) = none := if_neg fun h => hth h.2.2
    have hconn : connected s now = { s with successCounter := s.successCounter + 1 } := if_neg hth
    rw [hread, hconn]
    simp only [Option.toList_none, List.append_nil]
    exact ⟨hbegin, by show (s.successCounter + 1) / 1000 = _; omega,
      ⟨by show 0 ≤ s.successCounter + 1; omega, by show s.successCounter + 1 ≤ 50000; omega⟩, hlines⟩

/-- A turn that leaves the loop prints no time. -/
theorem timed_leave {lines : List Line} (h : Timed tvBegin nows s) (hl : timed lines = []) :
    Timed tvBegin nows { s with printed := s.printed ++ lines, inLoop := false } := by
  refine ⟨h.begin, h.counter, h.bound, ?_⟩
  have happ : timed (s.printed ++ lines) = timed s.printed ++ timed lines := List.filterMap_append
  rw [← h.lines, happ, hl, List.append_nil]

/-- Any turn. -/
theorem timed_turn {t : Turn} (h : Timed tvBegin nows s) (hst : turn s t = some s') :
    Timed tvBegin (nows ++ (reading s t).toList) s' := by
  unfold turn at hst
  split at hst
  · split at hst
    · rename_i hlt
      cases t with
      | socketFails =>
        cases hst
        simp only [reading, Option.toList_none, List.append_nil]
        exact timed_leave h rfl
      | connect rc now =>
        simp only at hst
        split at hst
        · rename_i hrc
          subst hrc
          cases hst
          exact timed_connected h hlt
        · rename_i hrc
          cases hst
          have hread : reading s (.connect rc now) = none := if_neg fun h => hrc h.2.1
          rw [hread, Option.toList_none, List.append_nil]
          exact timed_leave h rfl
    · rename_i hge
      cases hst
      have hread : reading s t = none := by
        cases t with
        | socketFails => rfl
        | connect rc now => exact if_neg fun h => hge h.1
      rw [hread, Option.toList_none, List.append_nil]
      exact timed_leave h rfl
  · cases hst

end

/-- The times printed are the results for the readings of the clock, each beside its
    thousandth connection. -/
theorem run_times {tvBegin : Timeval} {s : Client} {tr : List (Client × Turn)} (h : Run turn (.start tvBegin) tr s) :
    Timed tvBegin (readings tr) s := by
  induction h with
  | nil => exact ⟨rfl, rfl, ⟨Int.le_refl 0, by show (0 : Int) ≤ 50000; decide⟩, rfl⟩
  | snoc t _ hst ih =>
    rw [readings, List.filterMap_append]
    exact timed_turn ih hst

end NetworkCourse.Port.ConnectTest
