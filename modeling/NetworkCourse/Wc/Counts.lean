/-
  NetworkCourse.Wc.Counts — the word counter of packetdrill/wc.l.

  A run of ASCII letters is a word, a newline is a line, every byte is a character; each rule
  counts what it took. The scanner's turns take runs of letters of several lengths, the counts
  are of positions: a run is one word since it is taken up to its end (`starts_run`). Short of
  `INT_MAX` bytes the three ints are the counts (`wc_counts`).
-/

import NetworkCourse.Lib.Ascii
import NetworkCourse.Lib.CInt
import NetworkCourse.Lib.Flex
import Mathlib.Data.Nat.Find

namespace NetworkCourse.Wc

open Lib.Ascii Lib.CInt Lib.Flex

structure Counts where
  chars : Int
  words : Int
  lines : Int
  deriving DecidableEq

/-- `[a-zA-Z]` -/
def isLetter (b : UInt8) : Bool := (97 ≤ b && b ≤ 122) || (65 ≤ b && b ≤ 90)

def strlen (yytext : List UInt8) : Nat := (yytext.takeWhile (· != 0)).length

/-- `[a-zA-Z]+` -/
def wordRule : Rule UInt8 Counts :=
  ⟨plus isLetter, fun yytext c => { c with words := toInt (c.words + 1), chars := toInt (c.chars + strlen yytext) }⟩

/-- `\n` -/
def lineRule : Rule UInt8 Counts :=
  ⟨one (· == nl), fun _ c => { c with chars := toInt (c.chars + 1), lines := toInt (c.lines + 1) }⟩

/-- `.` -/
def charRule : Rule UInt8 Counts := ⟨one (· != nl), fun _ c => { c with chars := toInt (c.chars + 1) }⟩

/-- The rules of wc.l: every byte has one, so that flex's own rule behind them is never taken. -/
def rules : List (Rule UInt8 Counts) := [wordRule, lineRule, charRule]

/-- The counters once `yylex` has returned, over all of the input. -/
def wc (text : List UInt8) : Counts := yylex rules text ⟨0, 0, 0⟩

/-! ## What is counted -/

def letterAt (text : List UInt8) (i : Nat) : Bool := text[i]?.any isLetter

/-- A letter that is first, or has no letter in front of it. -/
def startsWord (text : List UInt8) (i : Nat) : Bool := letterAt text i && (i == 0 || !letterAt text (i - 1))

/-- How many words start in the text. -/
def wordStarts (text : List UInt8) : Nat := (List.range text.length).countP (startsWord text)

/-- The letters from `i` up to `j`, as many as there are. -/
structure IsRun (text : List UInt8) (i j : Nat) : Prop where
  some : i < j
  letters : ∀ k, i ≤ k → k < j → letterAt text k = true
  left : i = 0 ∨ letterAt text (i - 1) = false
  right : letterAt text j = false

theorem letterAt_lt {text : List UInt8} {i : Nat} (h : letterAt text i = true) : i < text.length := by
  by_contra hn
  rw [letterAt, List.getElem?_eq_none (by omega)] at h
  cases h

/-- A word starts just where one maximal run of letters does. -/
theorem startsWord_iff (text : List UInt8) (i : Nat) : startsWord text i = true ↔ ∃! j, IsRun text i j := by
  simp only [startsWord, Bool.and_eq_true, Bool.or_eq_true, beq_iff_eq, Bool.not_eq_true']
  refine ⟨?_, ?_⟩
  · intro ⟨hi, hl⟩
    have hend : ∃ j, i ≤ j ∧ letterAt text j = false := by
      refine ⟨text.length, (letterAt_lt hi).le, ?_⟩
      rw [Bool.eq_false_iff]
      intro h
      exact absurd (letterAt_lt h) (Nat.lt_irrefl _)
    obtain ⟨hle, hr⟩ := Nat.find_spec hend
    have hin : ∀ k, i ≤ k → k < Nat.find hend → letterAt text k = true := by
      intro k hk hlt
      have := Nat.find_min hend hlt
      simpa [hk] using this
    refine ⟨Nat.find hend, ⟨?_, hin, hl, hr⟩, ?_⟩
    · refine lt_of_le_of_ne hle ?_
      intro he
      rw [← he, hi] at hr
      cases hr
    · intro j hj
      refine Nat.le_antisymm ?_ (Nat.find_min' hend ⟨hj.some.le, hj.right⟩)
      by_contra hlt
      rw [hj.letters _ hle (by omega)] at hr
      cases hr
  · intro ⟨j, hj, _⟩
    exact ⟨hj.letters i (Nat.le_refl _) hj.some, hj.left⟩

/-- The words that start in a text behind a letter, or behind none. -/
def starts (letter : Bool) : List UInt8 → Nat
  | [] => 0
  | b :: bs => (if isLetter b && !letter then 1 else 0) + starts (isLetter b) bs

theorem countP_startsWord (b : UInt8) (bs : List UInt8) :
    (List.range bs.length).countP (fun i => startsWord (b :: bs) (i + 1)) = starts (isLetter b) bs := by
  induction bs generalizing b with
  | nil => rfl
  | cons c cs ih =>
    rw [List.length_cons, List.range_succ_eq_map, List.countP_cons, List.countP_map, starts, Nat.add_comm, ← ih c]
    rfl

theorem wordStarts_eq (text : List UInt8) : wordStarts text = starts false text := by
  cases text with
  | nil => rfl
  | cons b bs =>
    rw [wordStarts, List.length_cons, List.range_succ_eq_map, List.countP_cons, List.countP_map, starts, Nat.add_comm,
      ← countP_startsWord b bs]
    rfl

/-- Behind a letter nothing starts up to the end of the run. -/
theorem starts_run (bs : List UInt8) : starts true bs = starts false (bs.dropWhile isLetter) := by
  induction bs with
  | nil => rfl
  | cons b bs ih =>
    cases hb : isLetter b with
    | true => simp [starts, hb, ih]
    | false => simp [starts, hb]

/-! ## What a turn takes -/

theorem ne_nl_of_isLetter {b : UInt8} (h : isLetter b = true) : b ≠ nl ∧ b ≠ 0 := by
  refine ⟨?_, ?_⟩
  · rintro rfl
    cases h
  · rintro rfl
    cases h

theorem ruleFor_long {text : List UInt8} (h : 1 < text.length) (hp : plus isLetter text = false) :
    ruleFor rules text = none := by
  simp [ruleFor, rules, wordRule, lineRule, charRule, one_long h, hp]

/-- A run of letters is taken whole, any other byte by itself. -/
theorem longest_word {w rest : List UInt8} (hw : w ≠ []) (hall : ∀ b ∈ w, isLetter b = true)
    (hr : rest.takeWhile isLetter = []) :
    longest rules (w ++ rest) (w ++ rest).length = some (w.length, wordRule) := by
  have h0 := List.length_pos_iff.mpr hw
  have hrun : (w ++ rest).takeWhile isLetter = w := by
    rw [List.takeWhile_append_of_pos hall, hr, List.append_nil]
  have hplus : plus isLetter w = true := by
    have h : plus isLetter ((w ++ rest).takeWhile isLetter) = true := plus_takeWhile (by rwa [hrun])
    rwa [hrun] at h
  refine longest_some (by simp) h0 ?_ ?_
  · rw [List.take_left, ruleFor, rules, List.find?_cons_of_pos]
    exact hplus
  · intro m hm hle
    refine ruleFor_long ?_ (plus_take (by rwa [hrun]) hle)
    rw [List.length_take]
    omega

theorem longest_byte {b : UInt8} (bs : List UInt8) (hb : isLetter b = false) :
    longest rules (b :: bs) (b :: bs).length = some (1, if b = nl then lineRule else charRule) := by
  have hw : (b :: bs).takeWhile isLetter = [] := List.takeWhile_cons_of_neg (by simp [hb])
  refine longest_some (by simp) Nat.one_pos ?_ ?_
  · by_cases hn : b = nl
    · subst hn
      rfl
    · simp [ruleFor, rules, wordRule, lineRule, charRule, one, plus, hb, hn]
  · intro m hm hle
    refine ruleFor_long ?_ (plus_take (by rw [hw]; exact Nat.zero_lt_of_lt hm) hle)
    rw [List.length_take]
    omega

theorem strlen_letters {w : List UInt8} (h : ∀ b ∈ w, isLetter b = true) : strlen w = w.length := by
  have hne : ∀ b ∈ w, (b != 0) = true := fun b hb => by simpa using (ne_nl_of_isLetter (h b hb)).2
  have hw : (w ++ []).takeWhile (· != 0) = w ++ [].takeWhile (· != 0) := List.takeWhile_append_of_pos hne
  rw [List.append_nil, List.takeWhile_nil, List.append_nil] at hw
  rw [strlen, hw]

theorem count_letters {w : List UInt8} (h : ∀ b ∈ w, isLetter b = true) : w.count nl = 0 := by
  rw [List.count_eq_zero]
  intro hm
  exact (ne_nl_of_isLetter (h nl hm)).1 rfl

/-! ## The counts -/

/-- Room for as many more in each counter. -/
structure Room (c : Counts) (n : Nat) : Prop where
  chars : 0 ≤ c.chars ∧ c.chars + n ≤ 2147483647
  words : 0 ≤ c.words ∧ c.words + n ≤ 2147483647
  lines : 0 ≤ c.lines ∧ c.lines + n ≤ 2147483647

theorem Room.weaken {c : Counts} {n m : Nat} (hc : Room c n) (h : m ≤ n) : Room c m := by
  obtain ⟨hch, hwo, hli⟩ := hc
  refine ⟨?_, ?_, ?_⟩ <;> omega

theorem Room.after {c : Counts} {n m : Nat} (hc : Room c (n + m)) {ch wo li : Nat} (h1 : ch ≤ n) (h2 : wo ≤ n)
    (h3 : li ≤ n) : Room ⟨c.chars + ch, c.words + wo, c.lines + li⟩ m := by
  obtain ⟨hch, hwo, hli⟩ := hc
  refine ⟨?_, ?_, ?_⟩ <;> simp only <;> omega

theorem word_action {w : List UInt8} {c : Counts} (hw : w ≠ []) (hall : ∀ b ∈ w, isLetter b = true)
    (hc : Room c w.length) :
    wordRule.action w c = ⟨c.chars + w.length, c.words + (1 : Nat), c.lines + (0 : Nat)⟩ := by
  obtain ⟨hch, hwo, _⟩ := hc
  have h0 := List.length_pos_iff.mpr hw
  simp only [wordRule, strlen_letters hall, Nat.cast_one, Nat.cast_zero, Int.add_zero]
  rw [toInt_eq (by omega) (by omega), toInt_eq (by omega) (by omega)]

theorem byte_action {b : UInt8} {c : Counts} (yytext : List UInt8) (hc : Room c 1) :
    (if b = nl then lineRule else charRule).action yytext c =
      ⟨c.chars + (1 : Nat), c.words + (0 : Nat), c.lines + (if b = nl then 1 else 0 : Nat)⟩ := by
  obtain ⟨hch, _, hli⟩ := hc
  by_cases hb : b = nl
  · simp only [hb, if_true, lineRule, Nat.cast_one, Nat.cast_zero, Int.add_zero]
    rw [toInt_eq (by omega) (by omega), toInt_eq (by omega) (by omega)]
  · simp only [if_neg hb, charRule, Nat.cast_one, Nat.cast_zero, Int.add_zero]
    rw [toInt_eq (by omega) (by omega)]

theorem takeWhile_dropWhile (p : UInt8 → Bool) (text : List UInt8) : (text.dropWhile p).takeWhile p = [] := by
  have hnot := List.head?_dropWhile_not p text
  cases hd : text.dropWhile p with
  | nil => rfl
  | cons b bs =>
    rw [hd] at hnot
    exact List.takeWhile_cons_of_neg (by simpa using hnot)

theorem starts_word {w rest : List UInt8} (hw : w ≠ []) (hall : ∀ b ∈ w, isLetter b = true)
    (hr : rest.takeWhile isLetter = []) : starts false (w ++ rest) = 1 + starts false rest := by
  match w with
  | b :: bs =>
    have hrest : (bs ++ rest).dropWhile isLetter = rest := by
      rw [List.dropWhile_append_of_pos fun a ha => hall a (List.mem_cons_of_mem _ ha)]
      have := List.takeWhile_append_dropWhile (p := isLetter) (l := rest)
      rwa [hr, List.nil_append] at this
    rw [List.cons_append, starts, hall b List.mem_cons_self, starts_run, hrest]
    rfl

theorem exists_word {b : UInt8} (bs : List UInt8) (hb : isLetter b = true) :
    ∃ w rest, w ≠ [] ∧ (∀ a ∈ w, isLetter a = true) ∧ rest.takeWhile isLetter = [] ∧ b :: bs = w ++ rest := by
  refine ⟨(b :: bs).takeWhile isLetter, (b :: bs).dropWhile isLetter, ?_, List.all_eq_true.mp List.all_takeWhile,
    takeWhile_dropWhile _ _, List.takeWhile_append_dropWhile.symm⟩
  rw [List.takeWhile_cons_of_pos hb]
  exact List.cons_ne_nil _ _

/-- Whatever was counted before, the text is counted on top of it. -/
theorem yylex_counts (text : List UInt8) {c : Counts} (hc : Room c text.length) :
    yylex rules text c = ⟨c.chars + text.length, c.words + starts false text, c.lines + text.count nl⟩ := by
  -- by length: a turn takes a whole run, not one byte
  induction hn : text.length using Nat.strongRecOn generalizing text c with
  | ind n ih =>
    subst hn
    match text with
    | [] => simp [starts]
    | b :: bs =>
      cases hb : isLetter b with
      | true =>
        obtain ⟨w, rest, hw, hall, hr, hsplit⟩ := exists_word bs hb
        have h0 := List.length_pos_iff.mpr hw
        rw [hsplit, List.length_append] at hc ih
        rw [hsplit, yylex_step (longest_word hw hall hr), List.take_left, List.drop_left, starts_word hw hall hr,
          List.count_append, count_letters hall, List.length_append,
          word_action hw hall (hc.weaken (Nat.le_add_right _ _)),
          ih rest.length (by omega) rest (hc.after (Nat.le_refl _) h0 (Nat.zero_le _)) rfl]
        simp only [Counts.mk.injEq, Nat.cast_add]
        refine ⟨?_, ?_, ?_⟩ <;> omega
      | false =>
        have hstart : starts false (b :: bs) = starts false bs := by
          rw [starts, hb]
          exact Nat.zero_add _
        rw [List.length_cons, Nat.add_comm] at hc ih
        rw [yylex_step (longest_byte bs hb), hstart, List.drop_one, List.tail_cons, List.length_cons, List.count_cons,
          byte_action _ (hc.weaken (Nat.le_add_right _ _)),
          ih bs.length (by omega) bs (hc.after (Nat.le_refl _) (Nat.zero_le _) (by split <;> omega)) rfl]
        simp only [Counts.mk.injEq, Nat.cast_add, beq_iff_eq]
        refine ⟨?_, ?_, ?_⟩ <;> omega

/-- The three ints are the counts of the input: its bytes, its newlines, its words. -/
theorem wc_counts (text : List UInt8) (h : text.length < 2147483647) :
    (wc text).chars = text.length ∧ (wc text).lines = text.count nl ∧ (wc text).words = wordStarts text ∧
      ∀ i, startsWord text i = true ↔ ∃! j, IsRun text i j := by
  have hroom : Room ⟨0, 0, 0⟩ text.length := ⟨by simp only; omega, by simp only; omega, by simp only; omega⟩
  rw [wc, yylex_counts text hroom, wordStarts_eq]
  exact ⟨Int.zero_add _, Int.zero_add _, Int.zero_add _, startsWord_iff text⟩

/-- Runs at both ends, broken by a digit, a newline and bytes above 127. -/
theorem wc_counts_mixed :
    (wc (ascii "ab1Z\nq" ++ [195, 169] ++ ascii "xy")).chars = 10 ∧
      (wc (ascii "ab1Z\nq" ++ [195, 169] ++ ascii "xy")).lines = 1 ∧
      (wc (ascii "ab1Z\nq" ++ [195, 169] ++ ascii "xy")).words = 4 := by
  obtain ⟨h1, h2, h3, -⟩ := wc_counts (ascii "ab1Z\nq" ++ [195, 169] ++ ascii "xy") (by decide)
  exact ⟨h1, h2, h3⟩

end NetworkCourse.Wc
