/-
  NetworkCourse.Lib.Memory — calls that tell what they do with memory.

  A logged call has, besides its end, the list of its accesses: what each receive brings into
  an internal buffer, each load from that buffer and each store into the caller's. A log is
  `Fresh` when every load takes an element that the latest receive brought and that was not
  taken since.

  `Keeps` is what a call does that starts behind a log: it goes on with a fresh one, stores in
  bounds, does not fault, and meets a postcondition where it ends. It has one rule for each
  access, one for sequencing (`Keeps.bind`) and one for a call that ends with a store
  (`Keeps.last`).
-/

import NetworkCourse.Lib.Feed

namespace NetworkCourse.Lib.Memory

open Lib.Feed

variable {α β γ : Type}

inductive Access where
  | recv (n : Nat)
  | load (i : Nat)
  | store (i : Nat)
  deriving DecidableEq

structure Logged (β : Type) where
  log : List Access
  res : Res β

def Logged.bind (x : Logged β) (f : β → Logged γ) : Logged γ :=
  match x.res with
  | .blocked => ⟨x.log, .blocked⟩
  | .fault => ⟨x.log, .fault⟩
  | .done b => ⟨x.log ++ (f b).log, (f b).res⟩

instance : Monad Logged where
  pure b := ⟨[], .done b⟩
  bind := Logged.bind

/-- The receive brings `n` elements. -/
def recvd (n : Nat) : Logged Unit := ⟨[.recv n], .done ()⟩

def load (buf : List α) (i : Nat) : Logged α :=
  ⟨[.load i], match buf[i]? with
    | some c => .done c
    | none => .fault⟩

def put (buf : List α) (i : Nat) (x : α) : Logged (List α) := ⟨[.store i], store buf i x⟩

def blocked : Logged β := ⟨[], .blocked⟩

/-! ## The end of a call -/

@[simp] theorem recvd_res (n : Nat) : (recvd n).res = .done () := rfl
@[simp] theorem put_res (buf : List α) (i : Nat) (x : α) : (put buf i x).res = store buf i x := rfl

@[simp] theorem bind_res (x : Logged β) (f : β → Logged γ) : (x >>= f).res = x.res >>= fun b => (f b).res := by
  show (Logged.bind x f).res = _
  unfold Logged.bind
  cases x.res <;> rfl

/-! ## Fresh logs -/

/-- No load is out of the latest receive's bounds, and none is repeated. -/
def Fresh (log : List Access) : Prop :=
  ∀ pre i post, log = pre ++ .load i :: post →
    ∃ old n new, pre = old ++ .recv n :: new ∧ (∀ m, .recv m ∉ new) ∧ i < n ∧ .load i ∉ new

/-- The latest receive brought `n`, and the loads since are below `k`. -/
def Due (log : List Access) (n k : Nat) : Prop :=
  ∃ old new, log = old ++ .recv n :: new ∧ (∀ m, .recv m ∉ new) ∧ ∀ i, .load i ∈ new → i < k

theorem fresh_nil : Fresh [] := by
  intro pre i post h
  simp at h

theorem fresh_snoc {log : List Access} (h : Fresh log) {a : Access}
    (ha : ∀ i, a = .load i → ∃ old n new, log = old ++ .recv n :: new ∧ (∀ m, .recv m ∉ new) ∧ i < n ∧ .load i ∉ new) :
    Fresh (log ++ [a]) := by
  intro pre i post he
  rcases List.eq_nil_or_concat post with rfl | ⟨post, b, rfl⟩
  · obtain ⟨hpre, ha'⟩ := List.append_inj' he rfl
    subst hpre
    exact ha i (List.singleton_inj.mp ha')
  · rw [List.concat_eq_append, ← List.cons_append, ← List.append_assoc] at he
    obtain ⟨rfl, -⟩ := List.append_inj' he rfl
    exact h pre i post rfl

theorem Fresh.recv {log : List Access} (h : Fresh log) (n : Nat) : Fresh (log ++ [.recv n]) := by
  apply fresh_snoc h
  intro i hi
  cases hi

theorem Fresh.store {log : List Access} (h : Fresh log) (i : Nat) : Fresh (log ++ [.store i]) := by
  apply fresh_snoc h
  intro j hj
  cases hj

/-- The next element due may be loaded. -/
theorem Fresh.load {log : List Access} (h : Fresh log) {n k : Nat} (hd : Due log n k) (hk : k < n) : Fresh (log ++ [.load k]) := by
  obtain ⟨old, new, rfl, hr, hl⟩ := hd
  apply fresh_snoc h
  intro i hi
  cases hi
  refine ⟨old, n, new, rfl, hr, hk, ?_⟩
  intro hm
  exact Nat.lt_irrefl _ (hl k hm)

theorem due_recv (log : List Access) (n : Nat) : Due (log ++ [.recv n]) n 0 :=
  ⟨log, [], rfl, fun _ => List.not_mem_nil, fun _ h => absurd h List.not_mem_nil⟩

theorem Due.load {log : List Access} {n k : Nat} (h : Due log n k) : Due (log ++ [.load k]) n (k + 1) := by
  obtain ⟨old, new, rfl, hr, hl⟩ := h
  refine ⟨old, new ++ [.load k], by simp, ?_, ?_⟩
  · intro m
    simp [hr m]
  · intro i hi
    rcases List.mem_append.mp hi with hi | hi
    · exact Nat.lt_succ_of_lt (hl i hi)
    · rw [List.mem_singleton] at hi
      cases hi
      exact Nat.lt_succ_self k

theorem Due.store {log : List Access} {n k : Nat} (h : Due log n k) (i : Nat) : Due (log ++ [.store i]) n k := by
  obtain ⟨old, new, rfl, hr, hl⟩ := h
  refine ⟨old, new ++ [.store i], by simp, ?_, ?_⟩
  · intro m
    simp [hr m]
  · intro j hj
    exact hl j (by simpa using hj)

/-! ## Rules -/

/-- Stores go to the first `size` places. -/
def InBounds (size : Nat) (log : List Access) : Prop := ∀ i, .store i ∈ log → i < size

/-- What `x` does behind `log`. -/
structure Keeps (size : Nat) (log : List Access) (x : Logged β) (post : List Access → β → Prop) : Prop where
  fresh : Fresh (log ++ x.log)
  inBounds : InBounds size x.log
  safe : x.res ≠ .fault
  post : ∀ b, x.res = .done b → post (log ++ x.log) b

section
variable {size : Nat} {log : List Access} {post : List Access → β → Prop}

theorem inBounds_nil (size : Nat) : InBounds size [] := by
  intro i h
  cases h

theorem keeps_pure (h : Fresh log) {b : β} (hp : post log b) : Keeps size log (pure b) post := by
  refine ⟨?_, inBounds_nil size, ?_, ?_⟩
  · simpa [pure] using h
  · intro hf
    cases hf
  · intro b' hb
    cases hb
    simpa [pure] using hp

theorem keeps_blocked (h : Fresh log) : Keeps size log blocked post := by
  refine ⟨?_, inBounds_nil size, ?_, ?_⟩
  · simpa [blocked] using h
  · intro hf
    cases hf
  · intro b hb
    cases hb

theorem keeps_recvd (h : Fresh log) {post : List Access → Unit → Prop} (n : Nat) (hp : post (log ++ [.recv n]) ()) :
    Keeps size log (recvd n) post := by
  refine ⟨h.recv n, ?_, ?_, ?_⟩
  · intro i hi
    simp [recvd] at hi
  · intro hf
    cases hf
  · intro b _
    exact hp

theorem keeps_load {buf : List β} {i : Nat} (hi : i < buf.length) (h : Fresh log) {n : Nat} (hd : Due log n i) (hn : i < n)
    (hp : post (log ++ [.load i]) buf[i]) : Keeps size log (load buf i) post := by
  have hg : buf[i]? = some buf[i] := List.getElem?_eq_getElem hi
  refine ⟨h.load hd hn, ?_, ?_, ?_⟩
  · intro j hj
    simp [load] at hj
  · simp [load, hg]
  · intro b hb
    simp only [load, hg, Res.done.injEq] at hb
    subst hb
    exact hp

theorem keeps_put {post : List Access → List α → Prop} {buf : List α} {i : Nat} (hi : i < buf.length) (hs : i < size)
    (h : Fresh log) (x : α) (hp : post (log ++ [.store i]) (buf.set i x)) : Keeps size log (put buf i x) post := by
  refine ⟨h.store i, ?_, ?_, ?_⟩
  · intro j hj
    simp only [put, List.mem_singleton, Access.store.injEq] at hj
    subst hj
    exact hs
  · simp [hi]
  · intro b hb
    simp only [put_res, store_of_lt hi, Res.done.injEq] at hb
    subst hb
    exact hp

/-- One call behind the other. -/
theorem Keeps.bind (mid : List Access → γ → Prop) {x : Logged γ} {f : γ → Logged β} (h : Keeps size log x mid)
    (hf : ∀ log' b, Fresh log' → mid log' b → Keeps size log' (f b) post) : Keeps size log (x >>= f) post := by
  show Keeps size log (Logged.bind x f) post
  unfold Logged.bind
  cases hx : x.res with
  | blocked =>
    refine ⟨h.fresh, h.inBounds, by simp, ?_⟩
    intro b hb
    cases hb
  | fault => exact absurd hx h.safe
  | done b =>
    obtain ⟨h1, h2, h3, h4⟩ := hf _ b h.fresh (h.post b hx)
    rw [List.append_assoc] at h1 h4
    refine ⟨h1, ?_, h3, h4⟩
    intro i hi
    rcases List.mem_append.mp hi with hi | hi
    · exact h.inBounds i hi
    · exact h2 i hi

/-- A call that ends with a store. -/
theorem Keeps.last {buf : List α} {i : Nat} (hi : i < buf.length) (hs : i < size) (h : Fresh log) (x : α) {f : List α → β}
    (hp : ∀ b, post (log ++ [.store i]) (f b)) : Keeps size log (put buf i x >>= fun b => pure (f b)) post := by
  apply Keeps.bind (fun log' _ => ∀ b, post log' (f b)) (keeps_put hi hs h x hp)
  intro log' b h' hp'
  exact keeps_pure h' (hp' b)

end

end NetworkCourse.Lib.Memory
