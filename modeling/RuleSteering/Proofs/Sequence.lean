/-!
# Sequences of inputs

What the histories of all parts have in common.

* `transcript`, the answers of a machine to a list of inputs, and `transcript_of_related`: machines
  that answer alike as long as their states are related have the same transcripts;
* `answersTo`, the answers to some of the inputs, and `answersTo_eq_transcript_filter`: they are the same
  without the other inputs if these leave related states related;
* `exists_split_cons`, `forall_split_cons`, a place in a list is its front or a place in the rest;
* `foldl_iff_of_step`, when a property holds that some inputs establish and only one of them ends.
-/

namespace RuleSteering

variable {σ τ ι ω : Type}

/-- The answers of a machine to a list of inputs, and its state after the last of them. -/
def transcript (step : σ → ι → ω × σ) : σ → List ι → List ω × σ
  | s, [] => ([], s)
  | s, i :: is =>
    let rest := transcript step (step s i).2 is
    ((step s i).1 :: rest.1, rest.2)

@[simp] theorem transcript_nil (step : σ → ι → ω × σ) (s : σ) : transcript step s [] = ([], s) :=
  rfl

theorem transcript_cons (step : σ → ι → ω × σ) (s : σ) (i : ι) (is : List ι) :
    transcript step s (i :: is) =
      ((step s i).1 :: (transcript step (step s i).2 is).1, (transcript step (step s i).2 is).2) :=
  rfl

/-- If machines in related states give the same answer to every input, and are in related states
after it, their answers to all lists of inputs are the same. -/
theorem transcript_of_related {step : σ → ι → ω × σ} {step' : τ → ι → ω × τ} {R : σ → τ → Prop}
    (hstep : ∀ {s t}, R s t → ∀ i, (step s i).1 = (step' t i).1 ∧ R (step s i).2 (step' t i).2)
    {s : σ} {t : τ} (h : R s t) (is : List ι) :
    (transcript step s is).1 = (transcript step' t is).1 ∧
      R (transcript step s is).2 (transcript step' t is).2 := by
  induction is generalizing s t with
  | nil => exact ⟨rfl, h⟩
  | cons i is ih =>
    obtain ⟨hanswer, hrelated⟩ := hstep h i
    obtain ⟨hanswers, hlast⟩ := ih hrelated
    rw [transcript_cons, transcript_cons, hanswer, hanswers]
    exact ⟨rfl, hlast⟩

/-- The answers of a machine to those inputs of a list that satisfy `p`. -/
def answersTo (step : σ → ι → ω × σ) (p : ι → Bool) : σ → List ι → List ω
  | _, [] => []
  | s, i :: is =>
    if p i then (step s i).1 :: answersTo step p (step s i).2 is
    else answersTo step p (step s i).2 is

/-- If related states give the same answer to an input that satisfies `p`, and are related after it, and
if they remain related when one of them misses any other input, the answers to the inputs that
satisfy `p` do not depend on the others. -/
theorem answersTo_eq_transcript_filter {step : σ → ι → ω × σ} {p : ι → Bool} {R : σ → σ → Prop}
    (hboth : ∀ {s t}, R s t → ∀ i, p i = true → (step s i).1 = (step t i).1 ∧
      R (step s i).2 (step t i).2)
    (hmissed : ∀ {s t}, R s t → ∀ i, p i = false → R (step s i).2 t)
    {s t : σ} (h : R s t) (is : List ι) :
    answersTo step p s is = (transcript step t (is.filter p)).1 := by
  induction is generalizing s t with
  | nil => rfl
  | cons i is ih =>
    cases hp : p i with
    | true =>
      obtain ⟨hanswer, hrelated⟩ := hboth h i hp
      rw [List.filter_cons_of_pos hp, transcript_cons, answersTo, if_pos hp, hanswer, ih hrelated]
    | false =>
      have hnot : ¬ p i = true := by simp [hp]
      rw [List.filter_cons_of_neg hnot, answersTo, if_neg hnot, ih (hmissed h i hp)]

/-- A place in a list is its front or a place in the rest of it. -/
theorem exists_split_cons {x : ι} {xs : List ι} {P : List ι → ι → List ι → Prop} :
    (∃ before a after, x :: xs = before ++ a :: after ∧ P before a after) ↔
      P [] x xs ∨ ∃ before a after, xs = before ++ a :: after ∧ P (x :: before) a after := by
  constructor
  · rintro ⟨before, a, after, heq, h⟩
    cases before with
    | nil =>
      obtain ⟨rfl, rfl⟩ := List.cons.inj heq
      exact .inl h
    | cons y before =>
      obtain ⟨rfl, rfl⟩ := List.cons.inj heq
      exact .inr ⟨before, a, after, rfl, h⟩
  · rintro (h | ⟨before, a, after, rfl, h⟩)
    · exact ⟨[], x, xs, rfl, h⟩
    · exact ⟨x :: before, a, after, rfl, h⟩

/-- What holds of every place in a list holds of its front and of every place in the rest of it. -/
theorem forall_split_cons {x : ι} {xs : List ι} {P : List ι → ι → List ι → Prop} :
    (∀ before a after, x :: xs = before ++ a :: after → P before a after) ↔
      P [] x xs ∧ ∀ before a after, xs = before ++ a :: after → P (x :: before) a after := by
  constructor
  · intro h
    exact ⟨h [] x xs rfl, fun before a after heq => h (x :: before) a after (by rw [heq]; rfl)⟩
  · rintro ⟨hfront, hrest⟩ before a after heq
    cases before with
    | nil =>
      obtain ⟨rfl, rfl⟩ := List.cons.inj heq
      exact hfront
    | cons y before =>
      obtain ⟨rfl, htail⟩ := List.cons.inj heq
      exact hrest before a after htail

/-- A property that some inputs establish and only the input `r` ends holds after a list of inputs if
one of them has established it and `r` came no more, or if it held before and `r` did not come. -/
theorem foldl_iff_of_step {step : σ → ι → σ} {P : σ → Prop} {E : σ → ι → Prop} {r : ι}
    (hstep : ∀ s i, P (step s i) ↔ E s i ∨ (P s ∧ i ≠ r)) {s : σ} {is : List ι} :
    P (is.foldl step s) ↔
      (∃ before i after, is = before ++ i :: after ∧ E (before.foldl step s) i ∧ r ∉ after) ∨
        (P s ∧ r ∉ is) := by
  induction is generalizing s with
  | nil => simp
  | cons i is ih =>
    rw [List.foldl_cons, ih, hstep, exists_split_cons]
    have hmem : r ∉ i :: is ↔ i ≠ r ∧ r ∉ is := by
      rw [List.mem_cons, not_or, ne_eq, eq_comm]
    simp only [List.foldl_cons, List.foldl_nil, hmem]
    rw [or_and_right, and_assoc, or_left_comm, or_assoc]

end RuleSteering
