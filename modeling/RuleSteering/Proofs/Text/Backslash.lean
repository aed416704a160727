import Mathlib.Data.List.TakeWhile
import Mathlib.Tactic.SplitIfs
import RuleSteering.Proofs.Sequence

/-!
# Runs of backslashes

Whether a character is escaped is read off the backslashes right before it: an odd number of them escapes
it. A reader that goes from left to right need not look back for them: a backslash together with the
character after it can be left out without changing what is escaped later (`escapesNext_pair`), and so can
any other character (`escapesNext_cons`).

* `trailingBackslashes`, `EscapesNext`;
* `Hides`, some characters stand in a text only escaped; where such a text ends before one of them can be
  told from what follows (`Hides.append_cons_inj`);
* `pairInduction`, induction on a text as such a reader takes it apart.
-/

namespace RuleSteering.Text

/-- How many backslashes a text ends with. -/
def trailingBackslashes (s : List Char) : Nat :=
  (s.reverse.takeWhile (· = '\\')).length

/-- A character right after the text is escaped: the text ends with an odd number of backslashes. -/
def EscapesNext (s : List Char) : Prop :=
  trailingBackslashes s % 2 = 1

instance (s : List Char) : Decidable (EscapesNext s) :=
  inferInstanceAs (Decidable (trailingBackslashes s % 2 = 1))

/-- A character in front of a text counts only if nothing but backslashes follows it. -/
theorem trailingBackslashes_cons (c : Char) (s : List Char) :
    trailingBackslashes (c :: s) =
      if c = '\\' ∧ s.all (· = '\\') = true then trailingBackslashes s + 1
      else trailingBackslashes s := by
  have hall : (s.reverse.takeWhile (· = '\\')).length = s.reverse.length ↔
      s.all (· = '\\') = true := by
    rw [← List.all_reverse, List.all_eq_true]
    constructor
    · intro hlen
      exact List.takeWhile_eq_self_iff.mp ((List.takeWhile_prefix _).eq_of_length hlen)
    · intro h
      rw [List.takeWhile_eq_self_iff.mpr h]
  rw [trailingBackslashes, trailingBackslashes, List.reverse_cons, List.takeWhile_append]
  by_cases hs : s.all (· = '\\') = true
  · have hlen := hall.mpr hs
    rw [if_pos hlen, List.length_append, hlen]
    by_cases hc : c = '\\'
    · rw [if_pos ⟨hc, hs⟩, hc]
      rfl
    · rw [if_neg fun h => hc h.1, List.takeWhile_cons_of_neg (by simpa using hc)]
      rfl
  · rw [if_neg (mt hall.mp hs), if_neg fun h => hs h.2]

theorem not_escapesNext_nil : ¬ EscapesNext [] := by
  decide

theorem escapesNext_backslash : EscapesNext ['\\'] := by
  decide

theorem escapesNext_cons {c : Char} (s : List Char) (h : c ≠ '\\') :
    EscapesNext (c :: s) ↔ EscapesNext s := by
  rw [EscapesNext, trailingBackslashes_cons, if_neg fun hc => h hc.1]
  rfl

/-- What a backslash escapes is not a backslash that escapes something. -/
theorem escapesNext_pair (c : Char) (s : List Char) :
    EscapesNext ('\\' :: c :: s) ↔ EscapesNext s := by
  unfold EscapesNext
  simp only [trailingBackslashes_cons, List.all_cons, Bool.and_eq_true, decide_eq_true_eq, true_and]
  split_ifs <;> omega

/-! ### Texts that hide characters -/

/-- The characters with the property `p` stand in the text only where they are escaped. -/
def Hides (p : Char → Bool) (s : List Char) : Prop :=
  ∀ before c after, s = before ++ c :: after → p c = true → EscapesNext before

section Hides

variable {p : Char → Bool}

theorem hides_nil : Hides p [] := by
  intro before c after h
  simp at h

theorem hides_backslash (hp : p '\\' = false) : Hides p ['\\'] :=
  forall_split_cons.mpr ⟨by simp [hp], fun before c after h => by simp at h⟩

theorem hides_cons {c : Char} (s : List Char) (hc : c ≠ '\\') :
    Hides p (c :: s) ↔ p c = false ∧ Hides p s := by
  unfold Hides
  rw [forall_split_cons]
  simp only [escapesNext_cons _ hc, not_escapesNext_nil, imp_false, Bool.not_eq_true]

theorem hides_pair (hp : p '\\' = false) (c : Char) (s : List Char) :
    Hides p ('\\' :: c :: s) ↔ Hides p s := by
  unfold Hides
  rw [forall_split_cons, forall_split_cons]
  simp only [escapesNext_pair, escapesNext_backslash, hp, Bool.false_eq_true, false_imp_iff,
    implies_true, true_and]

theorem Hides.not_concat_prefix {a b : List Char} {c : Char} (hb : Hides p b) (hc : p c = true)
    (ha : ¬ EscapesNext a) : ¬ a ++ [c] <+: b := by
  rintro ⟨t, rfl⟩
  exact ha (hb a c t (by simp) hc)

/-- The first character that is not hidden marks the end of a text that hides it. -/
theorem Hides.append_cons_inj {a b x y : List Char} {c : Char} (ha : Hides p a) (hb : Hides p b)
    (hnota : ¬ EscapesNext a) (hnotb : ¬ EscapesNext b) (hc : p c = true)
    (h : a ++ c :: x = b ++ c :: y) : a = b ∧ x = y := by
  have hstarta : a ++ [c] <+: a ++ c :: x := ⟨x, by simp⟩
  have hstartb : b ++ [c] <+: a ++ c :: x := ⟨y, by simp [h]⟩
  have hend : a ++ [c] = b ++ [c] := by
    rcases List.prefix_or_prefix_of_prefix hstarta hstartb with hab | hba
    · exact (List.prefix_concat_iff.mp hab).resolve_right (hb.not_concat_prefix hc hnota)
    · exact ((List.prefix_concat_iff.mp hba).resolve_right (ha.not_concat_prefix hc hnotb)).symm
  obtain rfl : a = b := List.append_cancel_right hend
  exact ⟨rfl, List.tail_eq_of_cons_eq (List.append_cancel_left h)⟩

end Hides

/-! ### Induction -/

/-- What holds of a text if it holds of what is left of it after its first character or, if this is a
backslash, its first two characters. -/
@[elab_as_elim] theorem pairInduction {P : List Char → Prop} (nil : P []) (backslash : P ['\\'])
    (pair : ∀ c s, P s → P ('\\' :: c :: s)) (plain : ∀ c s, c ≠ '\\' → P s → P (c :: s)) :
    (s : List Char) → P s
  | [] => nil
  | [c] => by
    by_cases hc : c = '\\'
    · rw [hc]
      exact backslash
    · exact plain c [] hc nil
  | c :: d :: s => by
    by_cases hc : c = '\\'
    · rw [hc]
      exact pair d s (pairInduction nil backslash pair plain s)
    · exact plain c (d :: s) hc (pairInduction nil backslash pair plain (d :: s))

end RuleSteering.Text
