/-
  NetworkCourse.Lib.Feed — what successive `read` calls on one byte stream return.

  A feed is the list of results still to come: non-empty chunks of at most `cap`
  bytes, interrupted calls, failures and end of file. `bytes` is what it delivers
  before its first end of file or failure, `stop` the feed from there on. `Delivers`
  says that a feed is one way of splitting a stream into results, with any number of
  interrupted calls between them. A call that runs out of results is `blocked`: it
  waits in `read` for the next one. A load or a store out of bounds is a `fault`.
  `Sent` is the other direction: what was passed to `write` calls and what they took.
-/

import Mathlib.Data.List.Basic

namespace NetworkCourse.Lib.Feed

variable {α : Type} {cap : Nat}

/-- What one successful `read` into `cap` bytes delivers. -/
structure Chunk (α : Type) (cap : Nat) where
  data : List α
  ne : data ≠ []
  le : data.length ≤ cap

inductive Rd (α : Type) (cap : Nat) where
  | data (c : Chunk α cap)
  | eintr
  | error
  | eof

/-- The bytes delivered before the first end of file or failure. -/
def bytes : List (Rd α cap) → List α
  | .data c :: rs => c.data ++ bytes rs
  | .eintr :: rs => bytes rs
  | _ => []

/-- The feed from its first end of file or failure on. -/
def stop : List (Rd α cap) → List (Rd α cap)
  | .data _ :: rs => stop rs
  | .eintr :: rs => stop rs
  | rs => rs

/-- `rs` splits `s` into results, with interrupted calls anywhere between them. -/
def Delivers (rs : List (Rd α cap)) (s : List α) : Prop := stop rs = [] ∧ bytes rs = s

@[simp] theorem bytes_nil : bytes ([] : List (Rd α cap)) = [] := rfl
@[simp] theorem bytes_data (c : Chunk α cap) (rs : List (Rd α cap)) : bytes (.data c :: rs) = c.data ++ bytes rs := rfl
@[simp] theorem bytes_eintr (rs : List (Rd α cap)) : bytes (.eintr :: rs) = bytes rs := rfl
@[simp] theorem bytes_error (rs : List (Rd α cap)) : bytes (.error :: rs) = [] := rfl
@[simp] theorem bytes_eof (rs : List (Rd α cap)) : bytes (.eof :: rs) = [] := rfl
@[simp] theorem stop_nil : stop ([] : List (Rd α cap)) = [] := rfl
@[simp] theorem stop_data (c : Chunk α cap) (rs : List (Rd α cap)) : stop (.data c :: rs) = stop rs := rfl
@[simp] theorem stop_eintr (rs : List (Rd α cap)) : stop (.eintr :: rs) = stop rs := rfl
@[simp] theorem stop_error (rs : List (Rd α cap)) : stop (.error :: rs) = .error :: rs := rfl
@[simp] theorem stop_eof (rs : List (Rd α cap)) : stop (.eof :: rs) = .eof :: rs := rfl

theorem stop_append {rs : List (Rd α cap)} (h : stop rs = []) (ys : List (Rd α cap)) : stop (rs ++ ys) = stop ys := by
  induction rs with
  | nil => rfl
  | cons r rs ih => cases r <;> simp_all

theorem bytes_append {rs : List (Rd α cap)} (h : stop rs = []) (ys : List (Rd α cap)) :
    bytes (rs ++ ys) = bytes rs ++ bytes ys := by
  induction rs with
  | nil => rfl
  | cons r rs ih => cases r <;> simp_all

theorem stop_of_append {rs ys : List (Rd α cap)} (h : stop (rs ++ ys) = []) : stop rs = [] := by
  induction rs with
  | nil => rfl
  | cons r rs ih => cases r <;> simp_all

/-- A feed that only delivers keeps doing so from any point on. -/
theorem stop_suffix {rs ys : List (Rd α cap)} (h : stop rs = []) (hs : ys <:+ rs) : stop ys = [] := by
  induction rs with
  | nil => rw [List.suffix_nil.mp hs]; rfl
  | cons r rs ih =>
    rcases List.suffix_cons_iff.mp hs with rfl | hs
    · exact h
    · cases r <;> simp_all

/-- Where the feed stops, it waits, failed or ended. -/
theorem stop_cases (rs : List (Rd α cap)) :
    stop rs = [] ∨ (∃ ys, stop rs = .error :: ys) ∨ ∃ ys, stop rs = .eof :: ys := by
  induction rs with
  | nil => exact Or.inl rfl
  | cons r rs ih =>
    cases r with
    | data c => exact ih
    | eintr => exact ih
    | error => exact Or.inr (Or.inl ⟨rs, rfl⟩)
    | eof => exact Or.inr (Or.inr ⟨rs, rfl⟩)

/-! ## A channel in between -/

/-- What a `read` on a channel that holds `q` can return, and what it leaves there: any
    start of it, an interrupted call, or, once the other side has closed, end of file or
    a reset. -/
inductive Arrives (q : List α) (closed : Prop) : Rd α cap → List α → Prop
  | data (c : Chunk α cap) (q' : List α) : q = c.data ++ q' → Arrives q closed (.data c) q'
  | eintr : Arrives q closed .eintr q
  | eof : closed → q = [] → Arrives q closed .eof q
  | reset : closed → Arrives q closed .error q

/-- While the other side is open, what arrives comes off the channel's front. -/
theorem Arrives.delivers {q q' : List α} {closed : Prop} {r : Rd α cap} (h : Arrives q closed r q') (ho : ¬ closed) :
    stop [r] = [] ∧ q = bytes [r] ++ q' := by
  cases h with
  | data c q' he => exact ⟨rfl, by simpa using he⟩
  | eintr => exact ⟨rfl, rfl⟩
  | eof hc => exact absurd hc ho
  | reset hc => exact absurd hc ho

/-! ## Calls -/

/-- How a call ends that works on a feed. -/
inductive Res (β : Type) where
  | blocked
  | fault
  | done (b : β)

def Res.bind {β γ : Type} (x : Res β) (f : β → Res γ) : Res γ :=
  match x with
  | .blocked => .blocked
  | .fault => .fault
  | .done b => f b

instance : Monad Res where
  pure := .done
  bind := Res.bind

@[simp] theorem Res.pure_eq {β : Type} (b : β) : (pure b : Res β) = .done b := rfl
@[simp] theorem Res.blocked_bind {β γ : Type} (f : β → Res γ) : (Res.blocked >>= f) = .blocked := rfl
@[simp] theorem Res.fault_bind {β γ : Type} (f : β → Res γ) : (Res.fault >>= f) = .fault := rfl
@[simp] theorem Res.done_bind {β γ : Type} (b : β) (f : β → Res γ) : (Res.done b >>= f) = f b := rfl

/-- A call that gets to its end got there through every part. -/
theorem Res.bind_done {β γ : Type} {x : Res β} {f : β → Res γ} {c : γ} :
    (x >>= f) = .done c ↔ ∃ b, x = .done b ∧ f b = .done c := by
  cases x <;> simp

/-- `*(buf + i) = x`, inside the buffer only. -/
def store (buf : List α) (i : Nat) (x : α) : Res (List α) :=
  if i < buf.length then .done (buf.set i x) else .fault

@[simp] theorem store_of_lt {buf : List α} {i : Nat} (h : i < buf.length) (x : α) :
    store buf i x = .done (buf.set i x) := if_pos h

/-- A store behind what was stored so far. -/
theorem set_append_drop {l buf : List α} (h : l.length < buf.length) (x : α) :
    (l ++ buf.drop l.length).set l.length x = l ++ x :: buf.drop (l.length + 1) := by
  rw [List.set_append_right _ _ (Nat.le_refl _), Nat.sub_self, List.drop_eq_getElem_cons h, List.set_cons_zero]

/-! ## Writes -/

/-- What was passed to successive `write` calls on one stream, and what they took of it. -/
structure Sent (α : Type) where
  passed : List α
  taken : List α

def Sent.Whole (w : Sent α) : Prop := w.taken = w.passed

/-- A `write` of `text` that returns `n`. -/
def Sent.write (w : Sent α) (text : List α) (n : Int) : Sent α := ⟨w.passed ++ text, w.taken ++ text.take n.toNat⟩

/-- What `write` can return: how many bytes it took, or `-1`. -/
def Returns (text : List α) (n : Int) : Prop := n = -1 ∨ 0 ≤ n ∧ n ≤ text.length

instance (text : List α) (n : Int) : Decidable (Returns text n) := inferInstanceAs (Decidable (_ ∨ _))

/-- A `write` keeps the stream whole just when it takes all there is to take. -/
theorem Sent.write_whole {w : Sent α} (h : w.Whole) {text : List α} {n : Int} (hn : Returns text n) :
    (w.write text n).Whole ↔ n = text.length ∨ text = [] := by
  have htake : text.take n.toNat = text ↔ text.length ≤ n.toNat := by
    refine ⟨fun he => ?_, List.take_of_length_le⟩
    have hlen := congrArg List.length he
    rw [List.length_take] at hlen
    omega
  unfold Whole at h
  rw [Whole, write, h, List.append_cancel_left_eq, htake, ← List.length_eq_zero_iff]
  unfold Returns at hn
  omega

end NetworkCourse.Lib.Feed
