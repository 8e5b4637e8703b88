/-
  NetworkCourse.Lib.Machine — deterministic machines, and simulations between them.

  A machine is a function `step` that gives the next state or a result. `run` bounds the
  number of steps, `Ends` does not; what `run` gives a machine ends with (`ends_of_run`), and
  it ends with at most one result (`Ends.unique`). A machine whose steps lower a measure ends from
  every state (`ends_of_measure`). Two machines that take their steps together end alike
  (`ends_iff_in_step`). `EndsIn` counts the steps: a count of what is left that goes down with each
  one says how many there are (`ends_in_of_left`). When another machine follows each of its steps by some of its own, it
  ends with a matching result (`Sim.run`). Where steps are a relation, some of them lead to a goal if from
  every state one gets nearer to it (`reaches_of_nearer`).
-/

import Mathlib.Logic.Relation

namespace NetworkCourse.Lib.Machine

variable {S R : Type} {step : S → S ⊕ R}

/-- The result after at most `n` steps. -/
def run (step : S → S ⊕ R) : Nat → S → Option R
  | 0, _ => none
  | n + 1, s =>
    match step s with
    | .inl s' => run step n s'
    | .inr r => some r

/-- Some steps lead from one state to the other. -/
def Goes (step : S → S ⊕ R) : S → S → Prop := Relation.ReflTransGen fun s s' => step s = .inl s'

/-- The machine ends, started from `s`, with result `r`. -/
def Ends (step : S → S ⊕ R) (s : S) (r : R) : Prop := ∃ s', Goes step s s' ∧ step s' = .inr r

theorem Goes.refl (s : S) : Goes step s s := Relation.ReflTransGen.refl

theorem Goes.one {s s' : S} (h : step s = .inl s') : Goes step s s' := Relation.ReflTransGen.single h

theorem Goes.trans {s s' s'' : S} (h : Goes step s s') (h' : Goes step s' s'') : Goes step s s'' :=
  Relation.ReflTransGen.trans h h'

theorem Goes.next {s s' s'' : S} (h : step s = .inl s') (h' : Goes step s' s'') : Goes step s s'' :=
  Relation.ReflTransGen.head h h'

/-- What each step keeps, a run keeps. -/
theorem Goes.keeps {P : S → Prop} (hP : ∀ s s', P s → step s = .inl s' → P s') {s s' : S} (h : Goes step s s')
    (hs : P s) : P s' := by
  induction h with
  | refl => exact hs
  | tail _ hst ih => exact hP _ _ ih hst

theorem ends_of_step {s : S} {r : R} (h : step s = .inr r) : Ends step s r := ⟨s, .refl s, h⟩

theorem Ends.next {s s' : S} {r : R} (h : step s = .inl s') (he : Ends step s' r) : Ends step s r := by
  obtain ⟨s'', hg, hr⟩ := he
  exact ⟨s'', .next h hg, hr⟩

/-- The first step of a run to its end. -/
theorem Ends.cases {s : S} {r : R} (h : Ends step s r) : step s = .inr r ∨ ∃ s', step s = .inl s' ∧ Ends step s' r := by
  obtain ⟨s', hg, hr⟩ := h
  rcases Relation.ReflTransGen.cases_head hg with rfl | ⟨s1, h1, h2⟩
  · exact Or.inl hr
  · exact Or.inr ⟨s1, h1, s', h2, hr⟩

theorem Ends.of_inl {s s' : S} {r : R} (h : Ends step s r) (hst : step s = .inl s') : Ends step s' r := by
  rcases h.cases with h | ⟨s1, h1, h2⟩
  · rw [hst] at h; cases h
  · rw [hst] at h1; cases h1; exact h2

theorem Ends.of_inr {s : S} {r r' : R} (h : Ends step s r) (hst : step s = .inr r') : r = r' := by
  rcases h.cases with h | ⟨s1, h1, -⟩
  · rw [hst] at h; cases h; rfl
  · rw [hst] at h1; cases h1

/-- A run on the way to the end does not change it. -/
theorem Goes.ends_iff {s s' : S} (h : Goes step s s') (r : R) : Ends step s r ↔ Ends step s' r := by
  induction h with
  | refl => exact Iff.rfl
  | tail _ hst ih => exact ih.trans ⟨fun h => h.of_inl hst, fun h => h.next hst⟩

/-- A machine ends with one result. -/
theorem Ends.unique {s : S} {r r' : R} (h : Ends step s r) (h' : Ends step s r') : r = r' := by
  obtain ⟨s1, hg, hr⟩ := h
  exact (((hg.ends_iff r').mp h').of_inr hr).symm

theorem ends_of_run {n : Nat} {s : S} {r : R} (h : run step n s = some r) : Ends step s r := by
  induction n generalizing s with
  | zero => cases h
  | succ n ih =>
    unfold run at h
    cases hs : step s with
    | inl s' => rw [hs] at h; exact (ih h).next hs
    | inr r' => rw [hs] at h; cases h; exact ends_of_step hs

/-- Steps that keep `P` and lower a measure under it come to an end. -/
theorem ends_of_measure_of {P : S → Prop} (hP : ∀ s s', P s → step s = .inl s' → P s') (μ : S → Nat)
    (h : ∀ s s', P s → step s = .inl s' → μ s' < μ s) {s : S} (hs : P s) : ∃ r, Ends step s r := by
  induction hm : μ s using Nat.strongRecOn generalizing s with
  | ind m ih =>
    cases hst : step s with
    | inr r => exact ⟨r, ends_of_step hst⟩
    | inl s' =>
      obtain ⟨r, hr⟩ := ih (μ s') (hm ▸ h s s' hs hst) (hP s s' hs hst) rfl
      exact ⟨r, hr.next hst⟩

/-- Steps that lower a measure come to an end. -/
theorem ends_of_measure (μ : S → Nat) (h : ∀ s s', step s = .inl s' → μ s' < μ s) (s : S) : ∃ r, Ends step s r :=
  ends_of_measure_of (P := fun _ => True) (fun _ _ _ _ => trivial) μ (fun s s' _ => h s s') trivial

/-- What steps keep and results are, the result is. -/
theorem Ends.eq_of_kept {P : S → Prop} {f : S → R} (hP : ∀ s s', P s → step s = .inl s' → P s')
    (hf : ∀ s s', P s → step s = .inl s' → f s' = f s) (hr : ∀ s r, P s → step s = .inr r → r = f s) {s : S} {r : R}
    (h : Ends step s r) (hs : P s) : r = f s := by
  obtain ⟨s', hg, hst⟩ := h
  have hkept : P s' ∧ f s' = f s :=
    hg.keeps (P := fun t => P t ∧ f t = f s) (fun t t' ht htt => ⟨hP t t' ht.1 htt, (hf t t' ht.1 htt).trans ht.2⟩) ⟨hs, rfl⟩
  rw [← hkept.2]
  exact hr s' r hkept.1 hst

/-- A machine that is like another except where it gives up, and does not give up, ends like
    the other. -/
theorem Ends.of_agrees {step' : S → S ⊕ R} {up : R → Prop} (h : ∀ s, step s = step' s ∨ ∃ r, step s = .inr r ∧ up r)
    {s : S} {r : R} (he : Ends step s r) (hr : ¬ up r) : Ends step' s r := by
  obtain ⟨s', hg, hst⟩ := he
  induction hg using Relation.ReflTransGen.head_induction_on with
  | refl =>
    rcases h s' with heq | ⟨r', hr', hup⟩
    · exact ends_of_step (heq ▸ hst)
    · rw [hst] at hr'
      cases hr'
      exact absurd hup hr
  | @head s _ h1 _ ih =>
    rcases h s with heq | ⟨r', hr', -⟩
    · exact ih.next (heq ▸ h1)
    · rw [h1] at hr'
      cases hr'

/-- It ends wherever the other one does. -/
theorem Ends.agrees_or {step' : S → S ⊕ R} {up : R → Prop} (h : ∀ s, step s = step' s ∨ ∃ r, step s = .inr r ∧ up r)
    {s : S} {r : R} (he : Ends step' s r) : Ends step s r ∨ ∃ r', Ends step s r' ∧ up r' := by
  obtain ⟨s', hg, hst⟩ := he
  induction hg using Relation.ReflTransGen.head_induction_on with
  | refl =>
    rcases h s' with heq | ⟨r', hr', hup⟩
    · exact Or.inl (ends_of_step (heq.trans hst))
    · exact Or.inr ⟨r', ends_of_step hr', hup⟩
  | @head s s1 h1 _ ih =>
    rcases h s with heq | ⟨r', hr', hup⟩
    · have hs : step s = .inl s1 := heq.trans h1
      rcases ih with ih | ⟨r', hr', hup⟩
      · exact Or.inl (ih.next hs)
      · exact Or.inr ⟨r', hr'.next hs, hup⟩
    · exact Or.inr ⟨r', ends_of_step hr', hup⟩

/-- Machines that stay related, a step for a step and with the same results, end alike. -/
theorem Ends.in_step {T : Type} {tstep : T → T ⊕ R} {rel : S → T → Prop}
    (h : ∀ s t, rel s t → (∃ s' t', step s = .inl s' ∧ tstep t = .inl t' ∧ rel s' t') ∨
      ∃ r, step s = .inr r ∧ tstep t = .inr r) {s : S} {t : T} {r : R} (hr : rel s t) (he : Ends step s r) :
    Ends tstep t r := by
  obtain ⟨s', hg, hst⟩ := he
  induction hg using Relation.ReflTransGen.head_induction_on generalizing t with
  | refl =>
    rcases h s' t hr with ⟨_, _, h1, -, -⟩ | ⟨r', h1, h2⟩
    · rw [hst] at h1
      cases h1
    · rw [hst] at h1
      cases h1
      exact ends_of_step h2
  | @head s _ hs _ ih =>
    rcases h s t hr with ⟨_, _, h1, h2, hr'⟩ | ⟨r', h1, -⟩
    · rw [hs] at h1
      cases h1
      exact (ih hr').next h2
    · rw [hs] at h1
      cases h1

theorem ends_iff_in_step {T : Type} {tstep : T → T ⊕ R} {rel : S → T → Prop}
    (h : ∀ s t, rel s t → (∃ s' t', step s = .inl s' ∧ tstep t = .inl t' ∧ rel s' t') ∨
      ∃ r, step s = .inr r ∧ tstep t = .inr r) {s : S} {t : T} (hr : rel s t) (r : R) :
    Ends step s r ↔ Ends tstep t r := by
  refine ⟨fun he => he.in_step h hr, fun he => @Ends.in_step T R tstep S step (fun t s => rel s t) ?_ t s r hr he⟩
  intro t s hst
  rcases h s t hst with ⟨s', t', h1, h2, h3⟩ | ⟨r, h1, h2⟩
  · exact Or.inl ⟨t', s', h2, h1, h3⟩
  · exact Or.inr ⟨r, h2, h1⟩

/-- A machine that another one runs as a part of its own state, to the result `r`. -/
theorem Ends.called {T Q : Type} {tstep : T → T ⊕ Q} {f : S → T} {s : S} {r : R} {t : T} (h : Ends step s r)
    (hf : ∀ s s', step s = .inl s' → tstep (f s) = .inl (f s')) (hr : ∀ s, step s = .inr r → tstep (f s) = .inl t) :
    Goes tstep (f s) t := by
  obtain ⟨s', hg, hst⟩ := h
  have hgo : Goes tstep (f s) (f s') := Relation.ReflTransGen.lift f hf _ _ hg
  exact hgo.trans (.one (hr s' hst))

/-! ## Counting steps -/

/-- It ends with its `n`th step, and not before. -/
def EndsIn (step : S → S ⊕ R) (n : Nat) (s : S) (r : R) : Prop := run step n s = some r ∧ ∀ m < n, run step m s = none

theorem ends_in_one {s : S} {r : R} (h : step s = .inr r) : EndsIn step 1 s r := by
  refine ⟨by rw [run, h], ?_⟩
  intro m hm
  obtain rfl : m = 0 := Nat.lt_one_iff.mp hm
  rfl

theorem EndsIn.next {n : Nat} {s s' : S} {r : R} (h : step s = .inl s') (he : EndsIn step n s' r) : EndsIn step (n + 1) s r := by
  refine ⟨by rw [run, h]; exact he.1, ?_⟩
  intro m hm
  cases m with
  | zero => rfl
  | succ m =>
    rw [run, h]
    exact he.2 m (Nat.lt_of_succ_lt_succ hm)

/-- Each step takes one off what is left, so it takes as many as there were, less those that are left
    at the end. -/
theorem ends_in_of_left {Left : Nat → S → Prop} {good : Nat → R → Prop}
    (hstep : ∀ n s s', Left n s → step s = .inl s' → ∃ m, n = m + 1 ∧ Left m s')
    (hend : ∀ n s r, Left n s → step s = .inr r → good n r) {n : Nat} {s : S} (h : Left n s) :
    ∃ m k r, EndsIn step (m + 1) s r ∧ n = m + k ∧ good k r := by
  induction n generalizing s with
  | zero =>
    cases hst : step s with
    | inl s' =>
      obtain ⟨m, hm, -⟩ := hstep 0 s s' h hst
      exact absurd hm.symm (Nat.succ_ne_zero m)
    | inr r => exact ⟨0, 0, r, ends_in_one hst, rfl, hend 0 s r h hst⟩
  | succ n ih =>
    cases hst : step s with
    | inl s' =>
      obtain ⟨m, hm, hl⟩ := hstep (n + 1) s s' h hst
      cases hm
      obtain ⟨m, k, r, he, hn, hg⟩ := ih hl
      exact ⟨m + 1, k, r, he.next hst, by omega, hg⟩
    | inr r => exact ⟨0, n + 1, r, ends_in_one hst, (Nat.zero_add _).symm, hend (n + 1) s r h hst⟩

/-! ## Simulations -/

/-- `tstep` follows `step` along `rel`, as long as the states keep to `ok`: each step by some
    of its own, a result by a result that matches it. -/
structure Sim {T Q : Type} (step : S → S ⊕ R) (tstep : T → T ⊕ Q) (ok : S → Prop) (rel : S → T → Prop)
    (out : R → Q → Prop) : Prop where
  goes : ∀ {s t s'}, ok s → rel s t → step s = .inl s' → ∃ t', Goes tstep t t' ∧ rel s' t'
  ends : ∀ {s t r}, ok s → rel s t → step s = .inr r → ∃ q, Ends tstep t q ∧ out r q

variable {T Q : Type} {tstep : T → T ⊕ Q} {ok : S → Prop} {rel : S → T → Prop} {out : R → Q → Prop}

/-- Steps from `ok` states only. -/
def Through (ok : S → Prop) (step : S → S ⊕ R) : S → S → Prop :=
  Relation.ReflTransGen fun s s' => ok s ∧ step s = .inl s'

theorem Through.one {s s' : S} (hok : ok s) (h : step s = .inl s') : Through ok step s s' :=
  Relation.ReflTransGen.single ⟨hok, h⟩

theorem Through.trans {s s' s'' : S} (h : Through ok step s s') (h' : Through ok step s' s'') : Through ok step s s'' :=
  Relation.ReflTransGen.trans h h'

theorem Through.goes {s s' : S} (h : Through ok step s s') : Goes step s s' :=
  Relation.ReflTransGen.mono (fun _ _ h => h.2) _ _ h

/-- They are followed. -/
theorem Sim.through (h : Sim step tstep ok rel out) {s s' : S} {t : T} (hr : rel s t) (hg : Through ok step s s') :
    ∃ t', Goes tstep t t' ∧ rel s' t' := by
  induction hg with
  | refl => exact ⟨t, .refl t, hr⟩
  | tail _ hst ih =>
    obtain ⟨t1, ht1, hr1⟩ := ih
    obtain ⟨t2, ht2, hr2⟩ := h.goes hst.1 hr1 hst.2
    exact ⟨t2, ht1.trans ht2, hr2⟩

/-- A run to its end through `ok` states is followed to its end. -/
theorem Sim.run (h : Sim step tstep ok rel out) {s : S} {t : T} {r : R} (hr : rel s t) (he : Ends step s r)
    (hok : ∀ s', Goes step s s' → ok s') : ∃ q, Ends tstep t q ∧ out r q := by
  obtain ⟨s', hg, hst⟩ := he
  induction hg using Relation.ReflTransGen.head_induction_on generalizing t with
  | refl => exact h.ends (hok s' (.refl s')) hr hst
  | head h1 _ ih =>
    obtain ⟨t1, ht1, hr1⟩ := h.goes (hok _ (.refl _)) hr h1
    obtain ⟨q, hq, ho⟩ := ih hr1 fun s2 h2 => hok s2 (.next h1 h2)
    exact ⟨q, (ht1.ends_iff q).mpr hq, ho⟩

/-! ## Getting nearer -/

/-- From each state that is not a goal some step gets to one, or lowers `μ`: so steps lead to a goal. -/
theorem reaches_of_nearer {S B : Type} {Step : S → S → Prop} {P : S → Prop} (Goal : S → Prop) {lt : B → B → Prop}
    (wf : WellFounded lt) (μ : S → B) (hP : ∀ s s', P s → Step s s' → P s')
    (h : ∀ s, P s → ¬ Goal s → ∃ s', Step s s' ∧ (Goal s' ∨ lt (μ s') (μ s))) {s : S} (hs : P s) :
    ∃ s', Relation.ReflTransGen Step s s' ∧ P s' ∧ Goal s' := by
  induction hb : μ s using wf.induction generalizing s with
  | h b ih =>
    by_cases hg : Goal s
    · exact ⟨s, .refl, hs, hg⟩
    · obtain ⟨s1, hst, hgoal | hlt⟩ := h s hs hg
      · exact ⟨s1, .single hst, hP s s1 hs hst, hgoal⟩
      · obtain ⟨s2, hgo, h2, hgoal⟩ := ih (μ s1) (hb ▸ hlt) (hP s s1 hs hst) rfl
        exact ⟨s2, hgo.head hst, h2, hgoal⟩

end NetworkCourse.Lib.Machine
