/-
  NetworkCourse.Calc.RoundTrip — the scanner and its inverse relation.

  A text writes the tokens that `yylex` returns for it, and no others, exactly when each of its
  digit runs is the value of an `int` (`round_trip`). So no byte of the language is dropped
  and no digit run is split.

  One direction is `Writes.scanned`. The other takes the longest match off the text, which is a
  spelling or a byte to ignore (`byte_spelling`).
-/

import NetworkCourse.Calc.Scanner

namespace NetworkCourse.Calc

open Lib.Ascii

/-! ## Bytes -/

/-- The bytes calc.l has a rule for, but the one that calls them invalid. -/
def legal : List UInt8 := ascii "abcdefghijklmnopqrstuvwxyz0123456789-+()=/*\n \t"

theorem mem_legal (b : UInt8) : b ∈ legal ↔ (isDigit b || isLetter b || isChar b || isBlank b) = true := by
  have hall : ∀ c ∈ legal, (isDigit c || isLetter c || isChar c || isBlank c) = true := List.all_eq_true.mp (by decide +kernel)
  have hmem : ∀ c, (isDigit c || isLetter c || isChar c || isBlank c) = true → c ∈ legal := forall_byte (by decide +kernel)
  exact ⟨hall b, hmem b⟩

/-- Between tokens stand blanks, tabs and what is not legal. -/
theorem isIgnored_iff (b : UInt8) : isIgnored b = true ↔ isBlank b = true ∨ b ∉ legal := by
  have hblank : ∀ c, isBlank c = true → isIgnored c = true := forall_byte (by decide +kernel)
  rw [mem_legal]
  refine ⟨?_, ?_⟩
  · intro h
    rw [isIgnored, Bool.not_eq_true'] at h
    rw [h, Bool.false_or]
    cases isBlank b <;> simp
  · rintro (h | h)
    · exact hblank b h
    · rw [isIgnored, Bool.not_eq_true']
      exact (Bool.or_eq_false_iff.mp (Bool.eq_false_of_not_eq_true h)).1

theorem letter_eq : ∀ b, isLetter b = true → b.toNat - 97 < 26 ∧ b = UInt8.ofNat (97 + (b.toNat - 97)) :=
  forall_byte (by decide +kernel)

theorem yychar_of_charToken {c : Nat} {t : Token} (h : charToken c = some t) : t.yychar = c ∧ ∀ n, t ≠ .INTEGER n := by
  unfold charToken at h
  split at h
  all_goals
    cases h
    try exact ⟨rfl, fun n h => by cases h⟩

/-- A byte that is no digit is ignored, or spells a token that is no number. -/
theorem byte_spelling {b : UInt8} (h : isDigit b = false) :
    isIgnored b = true ∨ ∃ t, Spelling t [b] ∧ ∀ n, t ≠ .INTEGER n := by
  cases hl : isLetter b with
  | true =>
    obtain ⟨hlt, hb⟩ := letter_eq b hl
    refine Or.inr ⟨.VARIABLE ⟨b.toNat - 97, hlt⟩, ?_, fun n h => by cases h⟩
    have hs := Spelling.VARIABLE ⟨b.toNat - 97, hlt⟩
    rwa [← hb] at hs
  | false =>
    cases hc : charToken b.toNat with
    | none => exact Or.inl (by simp [isIgnored, isChar, h, hl, hc])
    | some t =>
      obtain ⟨ht, hn⟩ := yychar_of_charToken hc
      exact Or.inr ⟨t, .char ht, hn⟩

theorem Spelling.scanned_byte {t : Token} {b : UInt8} (h : Spelling t [b]) (hn : ∀ n, t ≠ .INTEGER n) (rest : List UInt8) :
    tokens (b :: rest) = t :: tokens rest := h.scanned fun n he => absurd he (hn n)

/-! ## Digit runs -/

/-- Every digit run, taken whole, is the value of an `int`. -/
def RunsFit (text : List UInt8) : Prop :=
  ∀ pre ds post, text = pre ++ ds ++ post → (∀ b ∈ ds, isDigit b = true) → (∀ b, pre.getLast? = some b → isDigit b = false) →
    NoDigit post → (digits ds : Int) ≤ INT_MAX

theorem runsFit_nil : RunsFit [] := by
  intro pre ds post h _ _ _
  simp only [List.nil_eq, List.append_eq_nil_iff] at h
  rw [h.1.2]
  decide

theorem runsFit_byte {b : UInt8} (hb : isDigit b = false) (text : List UInt8) : RunsFit (b :: text) ↔ RunsFit text := by
  refine ⟨?_, ?_⟩
  · intro h pre ds post he hd hp hn
    apply h (b :: pre) ds post (by rw [he]; rfl) hd _ hn
    intro c hc
    cases pre with
    | nil =>
      cases hc
      exact hb
    | cons a pre => exact hp c (by simpa using hc)
  · intro h pre ds post he hd hp hn
    cases pre with
    | nil =>
      cases ds with
      | nil => decide
      | cons d ds =>
        rw [List.nil_append, List.cons_append, List.cons.injEq] at he
        have hdig := hd d List.mem_cons_self
        rw [← he.1, hb] at hdig
        cases hdig
    | cons a pre =>
      simp only [List.cons_append, List.cons.injEq] at he
      apply h pre ds post he.2 hd _ hn
      intro c hc
      apply hp c
      cases pre with
      | nil => cases hc
      | cons a' pre => simpa using hc

theorem runsFit_digits {ds rest : List UInt8} (hne : ds ≠ []) (hd : ∀ b ∈ ds, isDigit b = true) (hr : NoDigit rest) :
    RunsFit (ds ++ rest) ↔ (digits ds : Int) ≤ INT_MAX ∧ RunsFit rest := by
  refine ⟨?_, ?_⟩
  · intro h
    refine ⟨h [] ds rest rfl hd (by simp) hr, ?_⟩
    intro pre run post he hrun hp hn
    cases pre with
    | nil =>
      -- what follows the first run begins with no digit
      cases run with
      | nil => decide
      | cons d run =>
        subst he
        have h0 := hr d rfl
        rw [hrun d List.mem_cons_self] at h0
        cases h0
    | cons a pre =>
      apply h (ds ++ a :: pre) run post (by rw [he]; simp) hrun _ hn
      intro b hb
      rw [List.getLast?_append_cons] at hb
      exact hp b hb
  · intro ⟨hfit, hrest⟩ pre run post he hrun hp hn
    rw [List.append_assoc] at he
    rcases List.append_eq_append_iff.mp he with ⟨a, rfl, rfl⟩ | ⟨c, rfl, hc⟩
    · apply hrest a run post (List.append_assoc _ _ _).symm hrun _ hn
      intro b hb
      cases a with
      | nil => cases hb
      | cons a' a =>
        apply hp
        rw [List.getLast?_append_cons]
        exact hb
    · rcases List.eq_nil_or_concat pre with rfl | ⟨pre, b, rfl⟩
      · simp only [List.nil_append] at hd hfit
        have h1 := (takeWhile_digits hrun hn).1
        rw [hc, (takeWhile_digits hd hr).1] at h1
        rwa [← h1]
      · have h0 := hp b (by simp)
        rw [hd b (by simp)] at h0
        cases h0

/-! ## Both directions -/

theorem Writes.runsFit {ts : List Token} {text : List UInt8} (h : Writes isIgnored Apart ts text) : RunsFit text := by
  induction h with
  | nil => exact runsFit_nil
  | gap hb _ ih => exact (runsFit_byte (doAction_ignored hb).1 _).mpr ih
  | @token t s ts text hs hw hnext ih =>
    cases hs with
    | INTEGER hne hd hn hmax =>
      have hr := hw.behind_number (fun _ h => h) (fun _ _ h => h) hnext
      exact (runsFit_digits hne hd hr).mpr ⟨by rwa [hn], ih⟩
    | VARIABLE x => exact (runsFit_byte (doAction_letter x).1 _).mpr ih
    | char h => exact (runsFit_byte (doAction_char (charToken_yychar h)).1 _).mpr ih

/-- Where the text goes on with a byte that is no digit, a number has its gap. -/
theorem apart_or_gap {rest : List UInt8} (hr : NoDigit rest) (t : Token) :
    ∀ t', (tokens rest).head? = some t' → Apart t t' ∨ ∃ b, rest.head? = some b ∧ isIgnored b = true := by
  intro t' ht'
  cases rest with
  | nil => cases ht'
  | cons b rest =>
    rcases byte_spelling (hr b rfl) with hb | ⟨u, hu, hn⟩
    · exact Or.inr ⟨b, rfl, hb⟩
    · rw [hu.scanned_byte hn] at ht'
      cases ht'
      exact Or.inl fun _ n' _ => hn n'

/-- The text is a rendering of what is scanned. -/
theorem writes_tokens {text : List UInt8} (h : RunsFit text) : Writes isIgnored Apart (tokens text) text := by
  induction text using runs_induction with
  | nil => exact .nil
  | run ds rest hne hd hr ih =>
    obtain ⟨hfit, hrest⟩ := (runsFit_digits hne hd hr).mp h
    rw [tokens_digits hne hd hr, atoi_eq hfit]
    exact .token (.INTEGER hne hd rfl hfit) (ih hrest) (apart_or_gap hr _)
  | byte b rest hb ih =>
    have hw := ih ((runsFit_byte hb rest).mp h)
    rcases byte_spelling hb with hi | ⟨t, ht, hnum⟩
    · rw [tokens_ignored hi]
      exact .gap hi hw
    · rw [ht.scanned_byte hnum]
      exact .token ht hw fun t' _ => Or.inl fun n _ he => absurd he (hnum n)

/-- A text writes the tokens scanned from it and no others, if its digit runs fit `int`. -/
theorem round_trip (ts : List Token) (text : List UInt8) :
    Writes isIgnored Apart ts text ↔ RunsFit text ∧ tokens text = ts := by
  refine ⟨?_, ?_⟩
  · intro h
    exact ⟨h.runsFit, h.scanned (fun _ h => h) (fun _ _ h => h)⟩
  · intro ⟨h, ht⟩
    rw [← ht]
    exact writes_tokens h

end NetworkCourse.Calc
