/-
  NetworkCourse.Lib.Trace — runs of a labelled machine, step by step.

  `step s a` is the state after the action `a`, if `a` can happen in `s`. A run lists its
  actions, each with the state it happened in. What the steps keep under a condition on each of
  them, a run keeps whose steps meet it (`Run.keeps`), and each of its steps has it before
  (`Run.before`). `follow` runs given actions.
-/

import Mathlib.Data.List.Basic

namespace NetworkCourse.Lib.Trace

variable {S A : Type} {step : S → A → Option S}

inductive Run (step : S → A → Option S) (s0 : S) : List (S × A) → S → Prop
  | nil : Run step s0 [] s0
  | snoc {tr : List (S × A)} {s s' : S} (a : A) : Run step s0 tr s → step s a = some s' → Run step s0 (tr ++ [(s, a)]) s'

/-- Each step of a run meets `C`. -/
def Each (C : S → A → Prop) (tr : List (S × A)) : Prop := ∀ x ∈ tr, C x.1 x.2

instance (C : S → A → Prop) [∀ s a, Decidable (C s a)] (tr : List (S × A)) : Decidable (Each C tr) :=
  inferInstanceAs (Decidable (∀ x ∈ tr, C x.1 x.2))

@[simp] theorem each_nil (C : S → A → Prop) : Each C [] := by
  intro x hx
  cases hx

@[simp] theorem each_snoc {C : S → A → Prop} {tr : List (S × A)} {s : S} {a : A} :
    Each C (tr ++ [(s, a)]) ↔ Each C tr ∧ C s a := by
  refine ⟨?_, ?_⟩
  · intro h
    exact ⟨fun x hx => h x (List.mem_append_left _ hx), h (s, a) (List.mem_append_right _ (List.mem_singleton_self _))⟩
  · intro ⟨h, ha⟩ x hx
    rcases List.mem_append.mp hx with hx | hx
    · exact h x hx
    · rw [List.mem_singleton] at hx
      subst hx
      exact ha

theorem each_cons {C : S → A → Prop} {tr : List (S × A)} {s : S} {a : A} :
    Each C ((s, a) :: tr) ↔ C s a ∧ Each C tr := List.forall_mem_cons

section
variable {P : S → Prop} {C : S → A → Prop} {s0 s : S} {tr : List (S × A)}

/-- What each step keeps, a run keeps. -/
theorem Run.keeps (h0 : P s0) (hP : ∀ s a s', P s → C s a → step s a = some s' → P s') (h : Run step s0 tr s)
    (hC : Each C tr) : P s := by
  induction h with
  | nil => exact h0
  | snoc a _ hst ih =>
    obtain ⟨htr, ha⟩ := each_snoc.mp hC
    exact hP _ _ _ (ih htr) ha hst

/-- And each step has it before. -/
theorem Run.before (h0 : P s0) (hP : ∀ s a s', P s → C s a → step s a = some s' → P s') (h : Run step s0 tr s)
    (hC : Each C tr) : Each (fun s _ => P s) tr := by
  induction h with
  | nil => exact each_nil _
  | snoc a h' hst ih =>
    obtain ⟨htr, ha⟩ := each_snoc.mp hC
    exact each_snoc.mpr ⟨ih htr, h'.keeps h0 hP htr⟩

end

/-- The steps of a run can happen. -/
theorem Run.happens {s0 s : S} {tr : List (S × A)} (h : Run step s0 tr s) : Each (fun s a => ∃ s', step s a = some s') tr := by
  induction h with
  | nil => exact each_nil _
  | snoc a _ hst ih => exact each_snoc.mpr ⟨ih, _, hst⟩

/-- A step that is not fit dooms a run, and a doomed run stays so: the run is fit throughout,
    or it ends doomed. -/
theorem Run.fit_or_doomed {P D : S → Prop} {C Q : S → A → Prop} {s0 s : S} {tr : List (S × A)} (h0 : P s0)
    (hP : ∀ s a s', P s → C s a → step s a = some s' → P s')
    (hD : ∀ s a s', P s → C s a → step s a = some s' → D s ∨ ¬ Q s a → D s') (h : Run step s0 tr s) (hC : Each C tr) :
    Each Q tr ∨ D s := by
  induction h with
  | nil => exact Or.inl (each_nil Q)
  | @snoc tr s s' a h' hst ih =>
    obtain ⟨htr, ha⟩ := each_snoc.mp hC
    have hs := h'.keeps h0 hP htr
    rcases ih htr with hq | hd
    · by_cases hqa : Q s a
      · exact Or.inl (each_snoc.mpr ⟨hq, hqa⟩)
      · exact Or.inr (hD _ _ _ hs ha hst (Or.inr hqa))
    · exact Or.inr (hD _ _ _ hs ha hst (Or.inl hd))

/-- Where a step leads to `P` just when it meets `Q`, as long as `P` held so far, it holds all
    the way just when all steps meet `Q`. -/
theorem Run.always_iff {P I : S → Prop} {Q : S → A → Prop} {s0 s : S} {tr : List (S × A)} (hI0 : I s0) (hP0 : P s0)
    (hI : ∀ s a s', I s → P s → step s a = some s' → I s')
    (hQ : ∀ s a s', I s → P s → step s a = some s' → (P s' ↔ Q s a)) (h : Run step s0 tr s) :
    (Each (fun s _ => P s) tr ∧ P s ↔ Each Q tr) ∧ (Each (fun s _ => P s) tr → I s) := by
  induction h with
  | nil => exact ⟨⟨fun _ => each_nil Q, fun _ => ⟨each_nil _, hP0⟩⟩, fun _ => hI0⟩
  | @snoc tr s s' a _ hst ih =>
    obtain ⟨hiff, hinv⟩ := ih
    refine ⟨⟨?_, ?_⟩, ?_⟩
    · intro ⟨hp, hs'⟩
      obtain ⟨htr, hs⟩ := each_snoc.mp hp
      exact each_snoc.mpr ⟨hiff.mp ⟨htr, hs⟩, (hQ s a s' (hinv htr) hs hst).mp hs'⟩
    · intro hq
      obtain ⟨htr, ha⟩ := each_snoc.mp hq
      obtain ⟨hp, hs⟩ := hiff.mpr htr
      exact ⟨each_snoc.mpr ⟨hp, hs⟩, (hQ s a s' (hinv hp) hs hst).mpr ha⟩
    · intro hp
      obtain ⟨htr, hs⟩ := each_snoc.mp hp
      exact hI s a s' (hinv htr) hs hst

theorem Run.cons {s0 s1 s : S} {tr : List (S × A)} {a : A} (hst : step s0 a = some s1) (h : Run step s1 tr s) :
    Run step s0 ((s0, a) :: tr) s := by
  induction h with
  | nil => exact show Run step s0 ([] ++ [(s0, a)]) s1 from .snoc a .nil hst
  | snoc b _ hb ih => exact .snoc b ih hb

theorem Run.append {s0 s1 s : S} {tr tr' : List (S × A)} (h : Run step s0 tr s1) (h' : Run step s1 tr' s) :
    Run step s0 (tr ++ tr') s := by
  induction h' with
  | nil =>
    rw [List.append_nil]
    exact h
  | snoc a _ hst ih =>
    rw [← List.append_assoc]
    exact .snoc a ih hst

/-- The run of the actions in turn, if all of them can happen. -/
def follow (step : S → A → Option S) : S → List A → Option (List (S × A) × S)
  | s, [] => some ([], s)
  | s, a :: as =>
    match step s a with
    | none => none
    | some s' => (follow step s' as).map fun (tr, t) => ((s, a) :: tr, t)

theorem run_of_follow (as : List A) {s0 s : S} {tr : List (S × A)} (h : follow step s0 as = some (tr, s)) :
    Run step s0 tr s := by
  induction as generalizing s0 tr with
  | nil =>
    cases h
    exact .nil
  | cons a as ih =>
    rw [follow] at h
    cases hst : step s0 a with
    | none =>
      rw [hst] at h
      cases h
    | some s1 =>
      rw [hst, Option.map_eq_some_iff] at h
      obtain ⟨⟨tr', t⟩, h', he⟩ := h
      cases he
      exact (ih h').cons hst

end NetworkCourse.Lib.Trace
