import RuleSteering.Proofs.Text.Backslash
import RuleSteering.Proofs.Text.Escape

/-!
# What a written text hides

A written text has nothing in it that the line format could take for its own: no control character, no
mark that is not escaped, and no backslash at its end that would escape what is written next. It is built
up from its end, one written character at a time, and none of them changes what is escaped behind it
(`escapesNext_escapeChar_append`, `hides_escapeChar_append`).

* `isHidden`, the characters that stand behind a backslash; `StandsFor`, all that a written text keeps;
* `standsFor_escapeKey`, `standsFor_escapeValue`.
-/

namespace RuleSteering.Text

/-- A mark of the line format, or a space if spaces are to be hidden. -/
def isHidden (hideSpace : Bool) (c : Char) : Bool :=
  c = '=' || c = ':' || c = '#' || c = '!' || (hideSpace && c = ' ')

theorem isHidden_eq_false_of_writtenPlain {b hideSpace : Bool} {c : Char}
    (h : WrittenPlain hideSpace c) (hb : b = true → hideSpace = true) : isHidden b c = false := by
  have hspace : b = true → c ≠ ' ' := fun hc => h.ne_space (hb hc)
  simpa [isHidden, h.ne_mark, h.ne_comment] using hspace

/-! ### One character -/

/-- A written character ends with no backslash of its own. -/
theorem escapesNext_escapeChar_append (hideSpace : Bool) (c : Char) (w : List Char) :
    EscapesNext (escapeChar hideSpace c ++ w) ↔ EscapesNext w := by
  rcases escapeChar_cases hideSpace c with ⟨d, hc, -⟩ | ⟨hc, hplain⟩
  · rw [hc]
    exact escapesNext_pair d w
  · rw [hc]
    exact escapesNext_cons w hplain.ne_backslash

theorem hides_escapeChar_append {b hideSpace : Bool} (hb : b = true → hideSpace = true) (c : Char)
    (w : List Char) : Hides (isHidden b) (escapeChar hideSpace c ++ w) ↔ Hides (isHidden b) w := by
  have hbackslash : isHidden b '\\' = false := by cases b <;> decide
  rcases escapeChar_cases hideSpace c with ⟨d, hc, -⟩ | ⟨hc, hplain⟩
  · rw [hc]
    exact hides_pair hbackslash d w
  · rw [hc]
    exact (hides_cons w hplain.ne_backslash).trans
      (and_iff_right (isHidden_eq_false_of_writtenPlain hplain hb))

/-! ### Texts -/

/-- The written text `w` is read as the text `s`, and no part of it has a meaning to the line format:
it holds no control character, every hidden character is escaped, and so is not what comes after it. -/
structure StandsFor (hideSpace : Bool) (w s : List Char) : Prop where
  reads : unescape w = s
  not_control : ∀ c ∈ controls, c ∉ w
  hides : Hides (isHidden hideSpace) w
  not_escapesNext : ¬ EscapesNext w

theorem standsFor_nil (hideSpace : Bool) : StandsFor hideSpace [] [] :=
  ⟨rfl, fun _ _ => List.not_mem_nil, hides_nil, not_escapesNext_nil⟩

/-- One more character may be written in front, with spaces hidden even if they need not be. -/
theorem StandsFor.cons {b hideSpace : Bool} {w s : List Char} (h : StandsFor b w s)
    (hb : b = true → hideSpace = true) (c : Char) :
    StandsFor b (escapeChar hideSpace c ++ w) (c :: s) where
  reads := by rw [unescape_escapeChar_append, h.reads]
  not_control d hd hmem := by
    rcases List.mem_append.mp hmem with hmem | hmem
    · exact not_mem_escapeChar hideSpace hd hmem
    · exact h.not_control d hd hmem
  hides := (hides_escapeChar_append hb c w).mpr h.hides
  not_escapesNext := by
    rw [escapesNext_escapeChar_append]
    exact h.not_escapesNext

theorem standsFor_flatMap_escapeChar (hideSpace : Bool) (s : List Char) :
    StandsFor hideSpace (s.flatMap (escapeChar hideSpace)) s := by
  induction s with
  | nil => exact standsFor_nil hideSpace
  | cons c s ih => exact ih.cons id c

theorem standsFor_escapeKey (s : List Char) : StandsFor true (escapeKey s) s :=
  standsFor_flatMap_escapeChar true s

theorem standsFor_escapeValue (s : List Char) : StandsFor false (escapeValue s) s := by
  cases s with
  | nil => exact standsFor_nil false
  | cons c s => exact (standsFor_flatMap_escapeChar false s).cons (by simp) c

end RuleSteering.Text
