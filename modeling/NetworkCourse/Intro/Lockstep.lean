/-
  NetworkCourse.Intro.Lockstep — request and response in turn.

  On lines the server's buffer holds (at most 19 bytes, ended by their only newline, no
  NUL), each line is one message of the client's and one piece of the server's, and as
  long as the counts keep to 6 characters the counter does not wrap. In every state of
  every run the client is at most one answer behind, and its `k`-th text is the server's
  answer to its `k`-th line (`lockstep`).
-/

import NetworkCourse.Intro.Deadlock

namespace NetworkCourse.Intro.Lockstep

open Lib.Cut Lib.Ascii Session
open Server (BUFSIZE reply incr)

/-- A line the server reads in one call and shows whole. -/
structure Short (l : List UInt8) : Prop where
  line : Line nl l
  no_nul : (0 : UInt8) ∉ l
  le : l.length ≤ 19

theorem Short.cut {l : List UInt8} (h : Short l) {k : Nat} (hk : 19 ≤ k) : cut nl k l = l := by
  have := h.line.cut (Nat.le_trans h.le hk) []
  rwa [List.append_nil] at this

variable {lines : List (List UInt8)}

theorem scan_lines (hl : ∀ l ∈ lines, Short l) {k : Nat} (hk : 19 ≤ k) : scan nl k [] lines.flatten = (lines, []) :=
  scan_pieces nl (by omega) fun l hm => ⟨(hl l hm).cut hk, Or.inl (hl l hm).line.mem⟩

/-- The client sends its lines as they are. -/
theorem messages_lines (hl : ∀ l ∈ lines, Short l) : messages lines.flatten = lines := by
  have hp : pieces nl (CBUFSIZE - 1) lines.flatten = lines := by
    rw [pieces, scan_lines hl (by decide)]
    simp
  rw [messages, hp]
  conv_rhs => rw [← List.map_id lines]
  exact List.map_congr_left fun l hm => cstr_of_no_nul (hl l hm).no_nul

/-- A count of at most 6 characters. -/
theorem natAbs_of_decimal {x : Int} (h : (decimal x).length ≤ 6) : x.natAbs < 10 ^ 6 := by
  refine (decimalNat_length (k := 6) (by decide)).mp ?_
  unfold decimal at h
  split at h
  · rw [List.length_cons] at h
    omega
  · exact h

/-- Counts that short do not wrap. -/
theorem incr_iterate {c : Int} {n : Nat} (h : ∀ k < n, (decimal (c + k)).length ≤ 6) {k : Nat} (hk : k < n) :
    incr^[k] c = c + k := by
  induction k with
  | zero => exact (Int.add_zero c).symm
  | succ k ih =>
    have hb := natAbs_of_decimal (h (k + 1) hk)
    have he : c + (k : Int) + 1 = c + ((k + 1 : Nat) : Int) := by omega
    rw [Function.iterate_succ_apply', ih (by omega), incr, he]
    exact Int.bmod_eq_of_le (by omega) (by omega)

theorem getElem?_of_prefix {α : Type} {l m : List α} (h : l <+: m) {k : Nat} {x : α} (hx : l[k]? = some x) :
    m[k]? = some x := by
  obtain ⟨hk, -⟩ := List.getElem?_eq_some_iff.mp hx
  obtain ⟨t, rfl⟩ := h
  rwa [List.getElem?_append_left hk]

/-- In every state a run reaches, at most one request is unanswered, and the `k`-th text
    the client printed is `receive msg c+k` (counting from 0), the server's answer to the
    client's `k`-th line. -/
theorem lockstep (hl : ∀ l ∈ lines, Short l) {c : Int} (hc : IsInt c)
    (hcount : ∀ k < lines.length, (decimal (c + k)).length ≤ 6) {cbuf sbuf : List UInt8} (hcb : cbuf.length = CBUFSIZE)
    (hsb : sbuf.length = BUFSIZE) {s : Sys} (hr : Run lines.flatten c cbuf sbuf s) :
    s.printed.length ≤ s.sent.length ∧ s.sent.length ≤ s.printed.length + 1 ∧ s.sent <+: lines ∧
      ∀ (k : Nat) (x : List UInt8), s.printed[k]? = some x →
        x = ascii "receive msg " ++ decimal (c + k) ++ [nl] ∧
          ∃ l, lines[k]? = some l ∧ s.srv.served[k]? = some (l, x) := by
  have h := inv_run hc hcb hsb hr
  have hsent : s.printed.length ≤ s.sent.length ∧ s.sent.length ≤ s.printed.length + 1 := by
    have hcli := h.cli
    unfold CliInv at hcli
    split at hcli
    · exact ⟨by omega, by omega⟩
    · exact ⟨by omega, by omega⟩
    · exact ⟨by omega, by omega⟩
  refine ⟨hsent.1, hsent.2, ?_, ?_⟩
  · have := h.sent_prefix
    rwa [messages_lines hl] at this
  · intro k x hx
    obtain ⟨hk, -⟩ := List.getElem?_eq_some_iff.mp hx
    have hsnd : (s.srv.served.map Prod.snd)[k]? = some x := getElem?_of_prefix h.printedPre hx
    have hserved : k < s.srv.served.length := by
      obtain ⟨hlt, -⟩ := List.getElem?_eq_some_iff.mp hsnd
      rwa [List.length_map] at hlt
    have hheard := h.heardPre
    rw [messages_lines hl, scan_lines hl (Nat.le_refl _)] at hheard
    have hline : lines[k]? = some s.srv.served[k].1 := by
      apply getElem?_of_prefix hheard
      rw [List.getElem?_take, if_pos hk, List.getElem?_map, List.getElem?_eq_getElem hserved]
      rfl
    obtain ⟨hkl, -⟩ := List.getElem?_eq_some_iff.mp hline
    have hreply : x = reply (c + k) := by
      rw [h.replies, List.getElem?_map, List.getElem?_range hserved, Option.map_some] at hsnd
      rw [← incr_iterate hcount hkl]
      exact (Option.some.inj hsnd).symm
    refine ⟨hreply, _, hline, ?_⟩
    rw [List.getElem?_map, List.getElem?_eq_getElem hserved, Option.map_some] at hsnd
    rw [List.getElem?_eq_getElem hserved, ← Option.some.inj hsnd]

/-- Some run on two lines prints two answers, from a negative count on. -/
theorem lockstep_two_lines :
    ∃ s, Run [ascii "a\n", ascii "bc\n"].flatten (-1) (List.replicate 120 0) (List.replicate 20 0) s ∧
      s.printed.length = 2 ∧
      (s.printed.length ≤ s.sent.length ∧ s.sent.length ≤ s.printed.length + 1 ∧
        s.sent <+: [ascii "a\n", ascii "bc\n"] ∧
        ∀ (k : Nat) (x : List UInt8), s.printed[k]? = some x →
          x = ascii "receive msg " ++ decimal (-1 + k) ++ [nl] ∧
            ∃ l, [ascii "a\n", ascii "bc\n"][k]? = some l ∧ s.srv.served[k]? = some (l, x)) := by
  have hl : ∀ l ∈ [ascii "a\n", ascii "bc\n"], Short l := by
    intro l hm
    simp only [List.mem_cons, List.not_mem_nil, or_false] at hm
    rcases hm with rfl | rfl
    · exact ⟨⟨ascii "a", by decide, by decide⟩, by decide, by decide⟩
    · exact ⟨⟨ascii "bc", by decide, by decide⟩, by decide, by decide⟩
  have hans : Answered [ascii "a\n", ascii "bc\n"].flatten := by decide
  obtain ⟨s, hrun, hlen⟩ := @answered_run _ (-1) (by decide) (List.replicate 120 0) (List.replicate 20 0) rfl rfl hans
  exact ⟨s, hrun, hlen.trans (by decide), lockstep hl (by decide) (by decide) rfl rfl hrun⟩

end NetworkCourse.Intro.Lockstep
