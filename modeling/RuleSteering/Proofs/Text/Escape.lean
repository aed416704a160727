import Mathlib.Tactic.SplitIfs
import RuleSteering.Text.Blank
import RuleSteering.Text.Escape

/-!
# Escapes are undone

What is written with escapes is read back, and what it hides stays hidden: no written character
ends a line or a key, except a blank that the writer does not know.

* `isOddBlank`, the blanks that are written as they stand;
* `controls`, the characters that are not written at all;
* `escapeChar_cases`, the two ways to write a character;
* `unescape_flatMap_escapeChar`, a text that is written character by character is read back;
* `trimStart_escapeKey_append` and `trimStart_escapeValue`, what is lost of a key or a value if
  blanks are removed from the start of its written form.
-/

namespace RuleSteering.Text

/-- A blank that is written as it stands: any but space, tab, line feed, carriage return and form
feed. -/
def isOddBlank (c : Char) : Bool :=
  isBlank c && c ≠ ' ' && c ≠ '\t' && c ≠ '\n' && c ≠ '\r' && c ≠ '\x0c'

theorem isBlank_of_isOddBlank {c : Char} (h : isOddBlank c = true) : isBlank c = true := by
  simp only [isOddBlank, Bool.and_eq_true] at h
  exact h.1.1.1.1.1

/-- The control characters that are written as a letter behind a backslash. -/
def controls : List Char := ['\t', '\n', '\r', '\x0c']

/-! ### One character -/

/-- The character `c` is written as a backslash and `d`. -/
structure WrittenBehind (c d : Char) : Prop where
  reads : escapedChar d = c
  ne_unicode : d ≠ 'u'
  ne_lineFeed : d ≠ '\n'
  ne_carriageReturn : d ≠ '\r'
  not_odd : isOddBlank c = false

/-- The character `c` has no meaning to the format, and is written as it stands. -/
structure WrittenPlain (hideSpace : Bool) (c : Char) : Prop where
  ne_backslash : c ≠ '\\'
  ne_mark : c ≠ '=' ∧ c ≠ ':'
  ne_comment : c ≠ '#' ∧ c ≠ '!'
  ne_tab : c ≠ '\t'
  ne_lineFeed : c ≠ '\n'
  ne_carriageReturn : c ≠ '\r'
  ne_formFeed : c ≠ '\x0c'
  ne_space : hideSpace = true → c ≠ ' '

/-- The two ways to write a character. -/
theorem escapeChar_cases (hideSpace : Bool) (c : Char) :
    (∃ d, escapeChar hideSpace c = ['\\', d] ∧ WrittenBehind c d) ∨
      (escapeChar hideSpace c = [c] ∧ WrittenPlain hideSpace c) := by
  have behind {c d : Char} (h : escapedChar d = c ∧ d ≠ 'u' ∧ d ≠ '\n' ∧ d ≠ '\r' ∧
      isOddBlank c = false) : WrittenBehind c d := ⟨h.1, h.2.1, h.2.2.1, h.2.2.2.1, h.2.2.2.2⟩
  unfold escapeChar
  split_ifs with hs hhide ht hn hr hf hm
  · subst hs
    exact .inl ⟨' ', rfl, behind (by decide)⟩
  · subst hs
    exact .inr ⟨rfl, by decide, by decide, by decide, by decide, by decide, by decide, by decide,
      fun h => absurd h hhide⟩
  · subst ht
    exact .inl ⟨'t', rfl, behind (by decide)⟩
  · subst hn
    exact .inl ⟨'n', rfl, behind (by decide)⟩
  · subst hr
    exact .inl ⟨'r', rfl, behind (by decide)⟩
  · subst hf
    exact .inl ⟨'f', rfl, behind (by decide)⟩
  · refine .inl ⟨c, rfl, behind ?_⟩
    rcases hm with rfl | rfl | rfl | rfl | rfl <;> decide
  · simp only [not_or] at hm
    obtain ⟨hbackslash, heq, hcolon, hhash, hbang⟩ := hm
    exact .inr ⟨rfl, hbackslash, ⟨heq, hcolon⟩, ⟨hhash, hbang⟩, ht, hn, hr, hf, fun _ => hs⟩

/-- A character that is written as it stands is blank only if it is an odd blank or a space. -/
theorem WrittenPlain.isBlank_eq_false {hideSpace : Bool} {c : Char} (h : WrittenPlain hideSpace c)
    (hs : c ≠ ' ') (hodd : isOddBlank c = false) : isBlank c = false := by
  rw [Bool.eq_false_iff]
  intro hblank
  simp [isOddBlank, hblank, hs, h.ne_tab, h.ne_lineFeed, h.ne_carriageReturn, h.ne_formFeed] at hodd

/-- An odd blank is written as it stands. -/
theorem escapeChar_of_isOddBlank (hideSpace : Bool) {c : Char} (h : isOddBlank c = true) :
    escapeChar hideSpace c = [c] := by
  rcases escapeChar_cases hideSpace c with ⟨d, -, hd⟩ | ⟨hc, -⟩
  · exact absurd h (Bool.eq_false_iff.mp hd.not_odd)
  · exact hc

/-- Any other character starts with no blank if spaces are hidden. -/
theorem isBlank_head_escapeChar {c : Char} (h : isOddBlank c = false) :
    ∃ d w, escapeChar true c = d :: w ∧ isBlank d = false ∧ d ≠ '#' ∧ d ≠ '!' := by
  rcases escapeChar_cases true c with ⟨d, hc, -⟩ | ⟨hc, hplain⟩
  · exact ⟨'\\', [d], hc, by decide, by decide, by decide⟩
  · exact ⟨c, [], hc, hplain.isBlank_eq_false (hplain.ne_space rfl) h, hplain.ne_comment⟩

theorem unescape_escapeChar_append (hideSpace : Bool) (c : Char) (s : List Char) :
    unescape (escapeChar hideSpace c ++ s) = c :: unescape s := by
  rcases escapeChar_cases hideSpace c with ⟨d, hc, hd⟩ | ⟨hc, hplain⟩
  · rw [hc]
    show unescape ('\\' :: d :: s) = c :: unescape s
    rw [unescape_escaped s hd.ne_unicode, hd.reads]
  · rw [hc]
    exact unescape_cons s hplain.ne_backslash

/-- No control character is written. -/
theorem not_mem_escapeChar {c d : Char} (hideSpace : Bool) (hd : d ∈ controls) :
    d ∉ escapeChar hideSpace c := by
  have hself : escapedChar d = d ∧ escapeChar hideSpace d ≠ ['\\', d] ∧
      escapeChar hideSpace d ≠ [d] ∧ d ≠ '\\' := by
    simp only [controls, List.mem_cons, List.not_mem_nil, or_false] at hd
    rcases hd with rfl | rfl | rfl | rfl <;> cases hideSpace <;> decide
  obtain ⟨hreads, hbehind, hplain, hbackslash⟩ := hself
  rcases escapeChar_cases hideSpace c with ⟨e, hc, he⟩ | ⟨hc, -⟩
  · rw [hc]
    intro hmem
    rcases List.mem_cons.mp hmem with h | hmem
    · exact hbackslash h
    · -- behind the backslash it would be read as itself
      obtain rfl := List.mem_singleton.mp hmem
      exact hbehind (by rwa [← he.reads, hreads] at hc)
  · rw [hc]
    intro hmem
    obtain rfl := List.mem_singleton.mp hmem
    exact hplain hc

/-! ### Texts -/

theorem unescape_flatMap_escapeChar (hideSpace : Bool) (s : List Char) :
    unescape (s.flatMap (escapeChar hideSpace)) = s := by
  induction s with
  | nil => rfl
  | cons c s ih => rw [List.flatMap_cons, unescape_escapeChar_append, ih]

theorem unescape_escapeKey (s : List Char) : unescape (escapeKey s) = s :=
  unescape_flatMap_escapeChar true s

/-! ### Blanks at the start of a written text -/

theorem trimStart_cons_of_not_isBlank {c : Char} (s : List Char) (h : isBlank c = false) :
    trimStart (c :: s) = c :: s := by
  rw [trimStart_cons]
  simp [h]

/-- A key loses the odd blanks that it starts with. -/
theorem trimStart_escapeKey_append (k : List Char) {d : Char} (s : List Char)
    (hd : isBlank d = false) :
    trimStart (escapeKey k ++ d :: s) = escapeKey (k.dropWhile isOddBlank) ++ d :: s := by
  induction k with
  | nil => exact trimStart_cons_of_not_isBlank s hd
  | cons c k ih =>
    cases hc : isOddBlank c with
    | true =>
      rw [escapeKey_cons, escapeChar_of_isOddBlank true hc, List.dropWhile_cons_of_pos hc, ← ih]
      show trimStart (c :: (escapeKey k ++ d :: s)) = _
      rw [trimStart_cons, if_pos (isBlank_of_isOddBlank hc)]
    | false =>
      obtain ⟨e, w, he, hblank, -⟩ := isBlank_head_escapeChar hc
      rw [List.dropWhile_cons_of_neg (by simp [hc]), escapeKey_cons, he]
      exact trimStart_cons_of_not_isBlank _ hblank

/-- The blanks that are removed from the start of a value once an odd one has been. -/
def isBare (c : Char) : Bool := isOddBlank c || c = ' '

theorem trimStart_flatMap_escapeChar (s : List Char) :
    trimStart (s.flatMap (escapeChar false)) =
      (s.dropWhile isBare).flatMap (escapeChar false) := by
  induction s with
  | nil => rfl
  | cons c s ih =>
    rw [List.flatMap_cons]
    rcases escapeChar_cases false c with ⟨d, hc, hd⟩ | ⟨hc, hplain⟩
    · have hbare : isBare c = false := by
        have hsp : c ≠ ' ' := by
          rintro rfl
          simp [escapeChar] at hc
        simp [isBare, hd.not_odd, hsp]
      rw [List.dropWhile_cons_of_neg (by simp [hbare]), List.flatMap_cons, hc]
      exact trimStart_cons_of_not_isBlank _ (by decide)
    · cases hbare : isBare c with
      | true =>
        have hblank : isBlank c = true := by
          simp only [isBare, Bool.or_eq_true, decide_eq_true_eq] at hbare
          rcases hbare with h | rfl
          · exact isBlank_of_isOddBlank h
          · decide
        rw [List.dropWhile_cons_of_pos hbare, hc, ← ih]
        show trimStart (c :: s.flatMap (escapeChar false)) = _
        rw [trimStart_cons, if_pos hblank]
      | false =>
        have hblank : isBlank c = false := by
          simp only [isBare, Bool.or_eq_false_iff, decide_eq_false_iff_not] at hbare
          exact hplain.isBlank_eq_false hbare.2 hbare.1
        rw [List.dropWhile_cons_of_neg (by simp [hbare]), List.flatMap_cons, hc]
        exact trimStart_cons_of_not_isBlank _ hblank

/-- What is read of a value: all of it, unless it starts with an odd blank. -/
def readValue : List Char → List Char
  | [] => []
  | c :: s => if isOddBlank c then s.dropWhile isBare else c :: s

theorem unescape_trimStart_escapeValue (v : List Char) :
    unescape (trimStart (escapeValue v)) = readValue v := by
  cases v with
  | nil => rfl
  | cons c s =>
    show unescape (trimStart (escapeChar true c ++ s.flatMap (escapeChar false))) = _
    cases hc : isOddBlank c with
    | true =>
      rw [escapeChar_of_isOddBlank true hc]
      show unescape (trimStart (c :: s.flatMap (escapeChar false))) = _
      rw [trimStart_cons, if_pos (isBlank_of_isOddBlank hc), trimStart_flatMap_escapeChar,
        unescape_flatMap_escapeChar]
      simp [readValue, hc]
    | false =>
      have hread : readValue (c :: s) = c :: s := by simp [readValue, hc]
      obtain ⟨d, w, hd, hblank, -⟩ := isBlank_head_escapeChar hc
      have htrim : trimStart (escapeChar true c ++ s.flatMap (escapeChar false)) =
          escapeChar true c ++ s.flatMap (escapeChar false) := by
        rw [hd]
        exact trimStart_cons_of_not_isBlank _ hblank
      rw [htrim, unescape_escapeChar_append, unescape_flatMap_escapeChar, hread]

/-- A value is read back exactly if it does not start with an odd blank. -/
theorem readValue_eq_self_iff {v : List Char} :
    readValue v = v ↔ ∀ c ∈ v.head?, isOddBlank c = false := by
  cases v with
  | nil => simp [readValue]
  | cons c s =>
    cases hc : isOddBlank c with
    | true =>
      simp only [readValue, hc, if_true, List.head?_cons, Option.mem_def, Option.some.injEq,
        forall_eq', Bool.true_eq_false, iff_false]
      intro h
      have hlen := congrArg List.length h
      have hle := (List.dropWhile_sublist isBare (l := s)).length_le
      simp only [List.length_cons] at hlen
      omega
    | false => simp [readValue, hc]

end RuleSteering.Text
