import RuleSteering.Text.Line

/-!
# Lines are cut at line feeds

The lines of a text are found on both sides of each line feed on their own (`lines_append`), so a
text that is put together from lines is cut into the same lines again (`lines_flatMap`).
-/

namespace RuleSteering.Text

theorem lines_cons {c : Char} {s : List Char} (hn : c ≠ '\n') (hr : c = '\r' → ∀ t, s ≠ '\n' :: t) :
    lines (c :: s) = match lines s with
      | [] => [[c]]
      | l :: ls => (c :: l) :: ls :=
  lines.eq_4 c s hn fun t hc => hr hc t

/-- A text is cut at a line feed, whatever stands before and after it. -/
theorem lines_append (s t : List Char) : lines (s ++ '\n' :: t) = lines (s ++ ['\n']) ++ lines t := by
  fun_induction lines s with
  | case1 => simp
  | case2 s ih => simp [ih]
  | case3 s ih => simp [ih]
  | case4 c s hn hr hs ih | case5 c s hn hr l ls hs ih =>
    by_cases hc : c = '\r' ∧ s = []
    · obtain ⟨rfl, rfl⟩ := hc
      simp
    · have hcr (u : List Char) (h : c = '\r') : ∀ v, s ++ '\n' :: u ≠ '\n' :: v := by
        intro v hv
        cases s with
        | nil => exact hc ⟨h, rfl⟩
        | cons d s =>
          rw [List.cons_append, List.cons.injEq] at hv
          exact hr s h (by rw [hv.1])
      rw [List.cons_append, List.cons_append, lines_cons hn (hcr t), lines_cons hn (hcr []), ih]
      -- the lines before the line feed are not none, so the first of them takes the character
      cases h : lines (s ++ ['\n']) with
      | nil => simp [lines_eq_nil_iff] at h
      | cons l ls => rfl

/-- A text without ends of lines makes one line. -/
theorem lines_line {l : List Char} (hn : '\n' ∉ l) (hr : '\r' ∉ l) : lines (l ++ ['\n']) = [l] := by
  induction l with
  | nil => simp
  | cons c l ih =>
    simp only [List.mem_cons, not_or] at hn hr
    rw [List.cons_append, lines_cons (Ne.symm hn.1) fun h => absurd h.symm hr.1, ih hn.2 hr.2]

/-- A text that is put together from lines is cut into these lines. -/
theorem lines_flatMap {ls : List (List Char)} (h : ∀ l ∈ ls, '\n' ∉ l ∧ '\r' ∉ l) :
    lines (ls.flatMap (· ++ ['\n'])) = ls := by
  induction ls with
  | nil => rfl
  | cons l ls ih =>
    obtain ⟨hn, hr⟩ := h l List.mem_cons_self
    rw [List.flatMap_cons, List.append_assoc, List.singleton_append, lines_append, lines_line hn hr,
      ih fun x hx => h x (List.mem_cons_of_mem _ hx), List.singleton_append]

end RuleSteering.Text
