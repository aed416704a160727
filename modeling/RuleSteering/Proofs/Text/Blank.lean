import Mathlib.Data.List.TakeWhile
import RuleSteering.Text.Blank

/-!
# What trimming leaves

Trimming takes the blanks at both ends of a text away and nothing else, and this leaves only one
text (`trim_eq_iff`).

* `IsTrimmed`, what is left of a text without the blanks at its ends;
* `trim_of_not_isBlank`, a text without blanks is left as it is;
* `mem_trim_of_not_isBlank`, no other character is lost.
-/

namespace RuleSteering.Text

/-- The text `t` is what is left of the text `s` without the blanks at its ends. -/
structure IsTrimmed (s t : List Char) : Prop where
  blank_ends : ∃ a b, s = a ++ t ++ b ∧ (∀ c ∈ a, isBlank c = true) ∧ ∀ c ∈ b, isBlank c = true
  head : ∀ c ∈ t.head?, isBlank c = false
  last : ∀ c ∈ t.getLast?, isBlank c = false

theorem trimStart_append {a : List Char} (s : List Char) (h : ∀ c ∈ a, isBlank c = true) :
    trimStart (a ++ s) = trimStart s :=
  List.dropWhile_append_of_pos h

theorem trimStart_eq_self {s : List Char} (h : ∀ c ∈ s.head?, isBlank c = false) :
    trimStart s = s := by
  cases s with
  | nil => rfl
  | cons c s => simp [trimStart_cons, h c rfl]

theorem exists_eq_append_trimStart (s : List Char) :
    ∃ a, s = a ++ trimStart s ∧ ∀ c ∈ a, isBlank c = true :=
  ⟨s.takeWhile isBlank, List.takeWhile_append_dropWhile.symm, fun _ => List.mem_takeWhile_imp⟩

theorem not_isBlank_of_mem_head?_trimStart {s : List Char} {c : Char}
    (h : c ∈ (trimStart s).head?) : isBlank c = false := by
  have hnot := List.head?_dropWhile_not isBlank s
  rw [show s.dropWhile isBlank = trimStart s from rfl, h] at hnot
  simpa using hnot

theorem IsTrimmed.trim_eq {s t : List Char} (h : IsTrimmed s t) : trim s = t := by
  obtain ⟨a, b, rfl, ha, hb⟩ := h.blank_ends
  rw [trim, List.append_assoc, trimStart_append _ ha]
  cases t with
  | nil =>
    have hall : trimStart b = [] := by simpa using trimStart_append [] hb
    simp [hall, trimEnd]
  | cons c t =>
    have hlast : ∀ d ∈ (c :: t).reverse.head?, isBlank d = false := by
      rw [List.head?_reverse]
      exact h.last
    rw [trimStart_eq_self (by simpa using h.head), trimEnd, List.reverse_append,
      trimStart_append _ (by simpa using hb), trimStart_eq_self hlast, List.reverse_reverse]

theorem isTrimmed_trim (s : List Char) : IsTrimmed s (trim s) := by
  obtain ⟨a, hs, ha⟩ := exists_eq_append_trimStart s
  obtain ⟨b, hb, hblank⟩ := exists_eq_append_trimStart (trimStart s).reverse
  have hfront : trimStart s = trim s ++ b.reverse := by
    simpa [trim, trimEnd] using congrArg List.reverse hb
  refine ⟨⟨a, b.reverse, ?_, ha, by simpa using hblank⟩, fun c hc => ?_, fun c hc => ?_⟩
  · rw [List.append_assoc, ← hfront]
    exact hs
  · refine not_isBlank_of_mem_head?_trimStart (s := s) ?_
    rw [hfront, List.head?_append, hc]
    rfl
  · refine not_isBlank_of_mem_head?_trimStart (s := (trimStart s).reverse) ?_
    rwa [trim, trimEnd, List.getLast?_reverse] at hc

/-- Only one text is left without the blanks at the ends. -/
theorem trim_eq_iff {s t : List Char} : trim s = t ↔ IsTrimmed s t :=
  ⟨fun h => h ▸ isTrimmed_trim s, IsTrimmed.trim_eq⟩

/-- Nothing is trimmed off a text without blanks. -/
theorem trim_of_not_isBlank {s : List Char} (h : ∀ c ∈ s, isBlank c = false) : trim s = s :=
  trim_eq_iff.mpr
    { blank_ends := ⟨[], [], by simp⟩
      head := fun c hc => h c (List.mem_of_head? hc)
      last := fun c hc => h c (List.mem_of_getLast? hc) }

/-- Trimming takes nothing away but blanks. -/
theorem mem_trim_of_not_isBlank {s : List Char} {c : Char} (hc : c ∈ s) (h : isBlank c = false) :
    c ∈ trim s := by
  obtain ⟨a, b, hs, ha, hb⟩ := (isTrimmed_trim s).blank_ends
  rw [hs, List.mem_append, List.mem_append] at hc
  rcases hc with (hc | hc) | hc
  · rw [ha c hc] at h
    contradiction
  · exact hc
  · rw [hb c hc] at h
    contradiction

end RuleSteering.Text
