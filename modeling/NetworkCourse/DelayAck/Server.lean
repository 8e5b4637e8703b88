/-
  NetworkCourse.DelayAck.Server — the inner loop of `DelayAckServer.main`.

  Each turn makes a new `BufferedReader` on the one socket stream, reads a line and
  writes it back. What the reader of one turn read ahead is gone with it. So the server
  sees each fill only up to and including its first newline (`kept`): it writes back the
  lines of that (`serve_kept`), which are all lines sent exactly when no fill holds a
  byte behind a newline (`echo_iff`). `DelayAckClient` makes its reader once, in front
  of its loop.
-/

import NetworkCourse.DelayAck.BufferedReader

namespace NetworkCourse.DelayAck

open Lib.Cut Lib.Feed Lib.Ascii

/-- The body behind `readLine`, `out` written so far; `go` is the next turn. -/
def echo (go : List (List UInt8) → List (Rd UInt8 CBSIZE) → Option (Res (List (List UInt8))))
    (out : List (List UInt8)) : Res Got → Option (Res (List (List UInt8)))
  | .blocked => some .blocked
  | .fault => some .fault
  | .done g =>
    match g.line with
    | none => some (.done out)
    | some line => go (out ++ [line ++ [nl]]) g.rs

/-- The inner loop, with fuel for its turns, and what it wrote. -/
def serve : Nat → List (List UInt8) → List (Rd UInt8 CBSIZE) → Option (Res (List (List UInt8)))
  | 0, _, _ => none
  | fuel + 1, out, rs => echo (serve fuel) out (readLine .new rs)

/-- What the server sees of the fills. -/
def kept : List (Rd UInt8 CBSIZE) → List UInt8
  | .data c :: rs => cut nl c.data.length c.data ++ kept rs
  | .eintr :: rs => kept rs
  | _ => []

@[simp] theorem kept_nil : kept [] = [] := rfl
@[simp] theorem kept_eintr (rs : List (Rd UInt8 CBSIZE)) : kept (.eintr :: rs) = kept rs := rfl
@[simp] theorem kept_data (c : Chunk UInt8 CBSIZE) (rs : List (Rd UInt8 CBSIZE)) :
    kept (.data c :: rs) = cut nl c.data.length c.data ++ kept rs := rfl

/-- Empty, or ended by a newline. -/
def Ended (s : List UInt8) : Prop := s = [] ∨ ∃ b, s = b ++ [nl]

theorem ended_append {a b : List UInt8} (hb : b ≠ []) : Ended (a ++ b) ↔ Ended b := by
  unfold Ended
  constructor
  · intro h
    rcases h with h | ⟨x, hx⟩
    · exact absurd (List.append_eq_nil_iff.mp h).2 hb
    · obtain ⟨b', y, rfl⟩ := (List.eq_nil_or_concat b).resolve_left hb
      rw [List.concat_eq_append, ← List.append_assoc] at hx
      obtain ⟨-, hy⟩ := List.append_inj' hx rfl
      exact Or.inr ⟨b', by rw [List.concat_eq_append, hy]⟩
  · intro h
    rcases h with h | ⟨x, rfl⟩
    · exact absurd h hb
    · exact Or.inr ⟨a ++ x, by rw [List.append_assoc]⟩

theorem cut_of_no_nl {s : List UInt8} (h : nl ∉ s) : cut nl s.length s = s := by
  rw [cut_of_not_mem nl (by rwa [List.take_length]), List.take_length]

theorem cut_of_nl {p : List UInt8} (h : nl ∉ p) (q : List UInt8) :
    cut nl (p ++ nl :: q).length (p ++ nl :: q) = p ++ [nl] :=
  cut_line nl h (by simp) q

/-! ## What is written -/

/-- From the middle of a call on, with `s` read so far, the server writes the lines of
    what it sees. -/
theorem echo_kept {rs : List (Rd UInt8 CBSIZE)} (hs : stop rs = []) (hc : cr ∉ bytes rs) {s : List UInt8}
    (hn : nl ∉ s) (he : Ended (s ++ kept rs)) (out : List (List UInt8)) {fuel : Nat} (hf : rs.length ≤ fuel) :
    echo (serve fuel) out (bufferLoop s false [] (rs ++ [.eof])) = some (.done (out ++ lines nl (s ++ kept rs))) := by
  induction rs generalizing s out fuel with
  | nil =>
    rw [kept_nil, List.append_nil] at he ⊢
    have hnil : s = [] := by
      rcases he with h | ⟨b, rfl⟩
      · exact h
      · exact absurd (List.mem_append_right b (List.mem_singleton_self nl)) hn
    subst hnil
    simp [echo, lines]
  | cons r rs ih =>
    cases r with
    | error => cases hs
    | eof => cases hs
    | eintr =>
      rw [List.cons_append, bufferLoop_eintr]
      exact ih hs hc hn he out (Nat.le_of_succ_le hf)
    | data c =>
      rw [bytes_data, List.mem_append, not_or] at hc
      rw [List.cons_append, bufferLoop_data]
      by_cases hm : nl ∈ c.data
      · obtain ⟨fuel, rfl⟩ : ∃ j, fuel = j + 1 := ⟨fuel - 1, by simp at hf; omega⟩
        obtain ⟨p, q, hd, hp⟩ := List.eq_append_cons_of_mem hm
        have hk : s ++ kept (.data c :: rs) = (s ++ p ++ [nl]) ++ kept rs := by
          rw [kept_data, hd, cut_of_nl hp]
          simp
        have hline : Line nl (s ++ p ++ [nl]) := ⟨s ++ p, fun h => (List.mem_append.mp h).elim hn hp, rfl⟩
        have hcp : cr ∉ p := by
          intro h
          exact hc.1 (by rw [hd]; exact List.mem_append_left _ h)
        have he' : Ended ([] ++ kept rs) := by
          by_cases hnil : kept rs = []
          · exact Or.inl hnil
          · exact (ended_append hnil).mp (hk ▸ he)
        have hrec := ih hs hc.2 List.not_mem_nil he' (out ++ [s ++ p ++ [nl]]) (Nat.le_of_succ_le_succ hf)
        have hd' : ∀ t, out ++ (s ++ p ++ [nl]) :: t = (out ++ [s ++ p ++ [nl]]) ++ t := by
          intro t
          simp
        rw [hk, hd, bufferLoop_line s hp hcp, lines_cons_line nl hline, hd']
        exact hrec
      · have hk : s ++ kept (.data c :: rs) = (s ++ c.data) ++ kept rs := by
          rw [kept_data, cut_of_no_nl hm, List.append_assoc]
        rw [hk] at he ⊢
        rw [bufferLoop_append s hm hc.1]
        exact ih hs hc.2 (fun h => (List.mem_append.mp h).elim hn hm) he out (Nat.le_of_succ_le hf)

theorem kept_eq_nil {rs : List (Rd UInt8 CBSIZE)} (hs : stop rs = []) : kept rs = [] ↔ bytes rs = [] := by
  induction rs with
  | nil => exact Iff.rfl
  | cons r rs ih =>
    cases r with
    | error => cases hs
    | eof => cases hs
    | eintr => exact ih hs
    | data c =>
      have hcut := cut_ne_nil nl (List.length_pos_iff.mpr c.ne) c.ne
      simp [hcut, c.ne]

theorem ended_kept {rs : List (Rd UInt8 CBSIZE)} (hs : stop rs = []) (he : Ended (bytes rs)) : Ended (kept rs) := by
  induction rs with
  | nil => exact Or.inl rfl
  | cons r rs ih =>
    cases r with
    | error => cases hs
    | eof => cases hs
    | eintr => exact ih hs he
    | data c =>
      by_cases hb : bytes rs = []
      · rw [kept_data, (kept_eq_nil (show stop rs = [] from hs)).mpr hb, List.append_nil]
        rw [bytes_data, hb, List.append_nil] at he
        obtain ⟨b, hd⟩ := he.resolve_left c.ne
        obtain ⟨p, q, hpq, hp⟩ := List.eq_append_cons_of_mem (show nl ∈ c.data by rw [hd]; simp)
        exact Or.inr ⟨p, by rw [hpq, cut_of_nl hp]⟩
      · have hk : kept rs ≠ [] := by
          intro h
          exact hb ((kept_eq_nil (show stop rs = [] from hs)).mp h)
        exact (ended_append hk).mpr (ih hs ((ended_append hb).mp he))

theorem kept_length_le (rs : List (Rd UInt8 CBSIZE)) : (kept rs).length ≤ (bytes rs).length := by
  induction rs with
  | nil => exact Nat.le_refl _
  | cons r rs ih =>
    cases r with
    | error => exact Nat.le_refl _
    | eof => exact Nat.le_refl _
    | eintr => exact ih
    | data c =>
      have := cut_length_le nl c.data.length c.data
      simp only [kept_data, bytes_data, List.length_append]
      omega

/-- Nothing is cut off just when a newline is the last byte, if there is one. -/
theorem cut_eq_self {s : List UInt8} : cut nl s.length s = s ↔ nl ∉ s.dropLast := by
  by_cases hm : nl ∈ s
  · obtain ⟨p, q, rfl, hp⟩ := List.eq_append_cons_of_mem hm
    rw [cut_of_nl hp, List.dropLast_append_cons]
    cases q with
    | nil => simp [hp]
    | cons b q => simp
  · have : nl ∉ s.dropLast := by
      intro h
      exact hm (List.dropLast_subset s h)
    simp [cut_of_no_nl hm, this]

/-- The server sees the whole stream exactly when no fill goes on behind a newline. -/
theorem kept_eq_bytes {rs : List (Rd UInt8 CBSIZE)} (hs : stop rs = []) :
    kept rs = bytes rs ↔ ∀ c, Rd.data c ∈ rs → nl ∉ c.data.dropLast := by
  induction rs with
  | nil => simp
  | cons r rs ih =>
    cases r with
    | error => cases hs
    | eof => cases hs
    | eintr => simpa using ih hs
    | data c =>
      have hlen := kept_length_le rs
      have hle := cut_length_le nl c.data.length c.data
      have hsplit : kept (.data c :: rs) = bytes (.data c :: rs) ↔ cut nl c.data.length c.data = c.data ∧ kept rs = bytes rs := by
        rw [kept_data, bytes_data]
        constructor
        · intro h
          have := congrArg List.length h
          rw [List.length_append, List.length_append] at this
          exact List.append_inj h (by omega)
        · intro h
          rw [h.1, h.2]
      rw [hsplit, cut_eq_self, ih hs]
      simp

/-- On newline-terminated lines without `'\r'` the loop ends at end of stream, and it
    wrote back the lines of what it saw. -/
theorem serve_kept {ls : List (List UInt8)} (hl : ∀ l ∈ ls, Line nl l ∧ cr ∉ l) {rs : List (Rd UInt8 CBSIZE)}
    (hd : Delivers rs ls.flatten) : serve (rs.length + 1) [] (rs ++ [.eof]) = some (.done (lines nl (kept rs))) := by
  obtain ⟨hs, hb⟩ := hd
  have hcr : cr ∉ bytes rs := by
    intro h
    rw [hb] at h
    obtain ⟨l, hm, hin⟩ := List.mem_flatten.mp h
    exact (hl l hm).2 hin
  have hend : Ended (bytes rs) := by
    rw [hb]
    rcases List.eq_nil_or_concat ls with rfl | ⟨ls', l, rfl⟩
    · exact Or.inl rfl
    · obtain ⟨b, -, he⟩ := (hl l (by simp)).1
      exact Or.inr ⟨ls'.flatten ++ b, by simp [he]⟩
  exact echo_kept hs hcr List.not_mem_nil (ended_kept hs hend) [] (Nat.le_refl _)

/-- However the lines arrive, the server wrote back exactly the lines sent if and only if
    no fill held a newline in front of its last byte. -/
theorem echo_iff {ls : List (List UInt8)} (hl : ∀ l ∈ ls, Line nl l ∧ cr ∉ l) {rs : List (Rd UInt8 CBSIZE)}
    (hd : Delivers rs ls.flatten) :
    ∃ out, serve (rs.length + 1) [] (rs ++ [.eof]) = some (.done out) ∧
      (out = ls ↔ ∀ c, Rd.data c ∈ rs → nl ∉ c.data.dropLast) := by
  refine ⟨_, serve_kept hl hd, ?_⟩
  rw [← kept_eq_bytes hd.1, hd.2]
  constructor
  · intro h
    rw [← lines_flatten nl (kept rs), h]
  · intro h
    rw [h, lines_of_lines nl fun l hm => (hl l hm).1]

/-- A line in two fills, then a line and a half in one. -/
def threeLines : List (Rd UInt8 CBSIZE) :=
  [.data ⟨[97], by simp, by decide⟩, .data ⟨[nl], by simp, by decide⟩, .data ⟨[98, nl, 99], by simp, by decide⟩,
    .data ⟨[nl], by simp, by decide⟩]

theorem echo_iff_three :
    ∃ out, serve 5 [] (threeLines ++ [.eof]) = some (.done out) ∧
      (out = [[97, nl], [98, nl], [99, nl]] ↔ ∀ c, Rd.data c ∈ threeLines → nl ∉ c.data.dropLast) := by
  have hl : ∀ l ∈ [[97, nl], [98, nl], [99, nl]], Line nl l ∧ cr ∉ l := by
    intro l hm
    simp only [List.mem_cons, List.not_mem_nil, or_false] at hm
    rcases hm with rfl | rfl | rfl
    · exact ⟨⟨[97], by decide, rfl⟩, by decide⟩
    · exact ⟨⟨[98], by decide, rfl⟩, by decide⟩
    · exact ⟨⟨[99], by decide, rfl⟩, by decide⟩
  exact echo_iff hl (show Delivers threeLines _ from ⟨rfl, rfl⟩)

/-- Two lines in one fill. -/
def twoLines : List (Rd UInt8 CBSIZE) := [.data ⟨[97, nl, 98, nl], by simp, by decide⟩]

/-- The second line is dropped with the first turn's reader. -/
theorem second_line_dropped :
    Delivers twoLines [[97, nl], [98, nl]].flatten ∧ serve 2 [] (twoLines ++ [.eof]) = some (.done [[97, nl]]) :=
  ⟨⟨rfl, rfl⟩, rfl⟩

end NetworkCourse.DelayAck
