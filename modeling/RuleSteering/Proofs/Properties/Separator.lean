import RuleSteering.Proofs.Properties.RoundTrip
import RuleSteering.Proofs.Sequence
import RuleSteering.Proofs.Text.Backslash
import RuleSteering.Proofs.Text.Blank

/-!
# Where a line is split

The reader splits a line at the first separator that is not escaped, and takes the separator away with the
blanks around it. This says what a key, a gap and a value of a line are without saying how they are found,
and the line has only one of each (`splits_iff_splitEntry`).

* `isSeparator`, the characters that end a key; `NoSeparator`, a text that holds them only escaped;
* `IsGap`, what may stand between a key and its value; `afterBlank` is what is left after the longest gap
  (`exists_gap`, `afterBlank_append_suffix`);
* `Splits`, the parts of a line. A character in front of the line that ends no key, or a backslash with the
  character after it, belongs to the key and changes nothing else (`splits_cons_iff`, `splits_pair_iff`).
-/

namespace RuleSteering.Properties

open Text

/-! ### Separators -/

/-- A character that ends a key unless it is escaped. -/
def isSeparator (c : Char) : Bool :=
  c = '=' || c = ':' || isBlank c

/-- Every separator in the text is escaped. -/
def NoSeparator (k : List Char) : Prop :=
  ∀ before c after, k = before ++ c :: after → isSeparator c = true → EscapesNext before

theorem noSeparator_nil : NoSeparator [] := hides_nil

theorem noSeparator_backslash : NoSeparator ['\\'] := hides_backslash (by decide)

theorem noSeparator_cons {c : Char} (k : List Char) (hc : c ≠ '\\') :
    NoSeparator (c :: k) ↔ isSeparator c = false ∧ NoSeparator k :=
  hides_cons k hc

theorem noSeparator_pair (c : Char) (k : List Char) :
    NoSeparator ('\\' :: c :: k) ↔ NoSeparator k :=
  hides_pair (by decide) c k

/-! ### Gaps -/

/-- The text consists of blanks, at most one mark, and blanks again. -/
def IsGap (g : List Char) : Prop :=
  ∃ a m b, g = a ++ m ++ b ∧ (∀ c ∈ a, isBlank c = true) ∧ (m = [] ∨ m = ['='] ∨ m = [':']) ∧
    ∀ c ∈ b, isBlank c = true

theorem isGap_nil : IsGap [] :=
  ⟨[], [], [], by simp⟩

/-- Every separator is a gap. -/
theorem isGap_singleton {c : Char} (h : isSeparator c = true) : IsGap [c] := by
  simp only [isSeparator, Bool.or_eq_true, decide_eq_true_eq] at h
  rcases h with (rfl | rfl) | hblank
  · exact ⟨[], ['='], [], by simp⟩
  · exact ⟨[], [':'], [], by simp⟩
  · exact ⟨[c], [], [], by simpa using hblank⟩

/-- Every character of a gap is a separator. -/
theorem isSeparator_of_mem {g : List Char} (h : IsGap g) {c : Char} (hc : c ∈ g) :
    isSeparator c = true := by
  obtain ⟨a, m, b, rfl, ha, hm, hb⟩ := h
  have hblank (h : isBlank c = true) : isSeparator c = true := by simp [isSeparator, h]
  rcases List.mem_append.mp hc with hc | hc
  · rcases List.mem_append.mp hc with hc | hc
    · exact hblank (ha c hc)
    · rcases hm with rfl | rfl | rfl
      · contradiction
      · rw [List.mem_singleton.mp hc]
        decide
      · rw [List.mem_singleton.mp hc]
        decide
  · exact hblank (hb c hc)

theorem exists_eq_append_dropMark (s : List Char) :
    ∃ m, s = m ++ dropMark s ∧ (m = [] ∨ m = ['='] ∨ m = [':']) := by
  fun_cases dropMark s with
  | case1 s => exact ⟨['='], rfl, .inr (.inl rfl)⟩
  | case2 s => exact ⟨[':'], rfl, .inr (.inr rfl)⟩
  | case3 s h₁ h₂ => exact ⟨[], rfl, .inl rfl⟩

/-- A text starts with a gap, and then comes what is left after it. -/
theorem exists_gap (s : List Char) : ∃ g, IsGap g ∧ s = g ++ afterBlank s := by
  obtain ⟨a, hs, ha⟩ := exists_eq_append_trimStart s
  obtain ⟨m, hm, hmark⟩ := exists_eq_append_dropMark (trimStart s)
  obtain ⟨b, hb, hblank⟩ := exists_eq_append_trimStart (dropMark (trimStart s))
  refine ⟨a ++ m ++ b, ⟨a, m, b, rfl, ha, hmark, hblank⟩, ?_⟩
  rw [afterBlank, List.append_assoc, List.append_assoc, ← hb, ← hm, ← hs]

theorem afterBlank_suffix (s : List Char) : afterBlank s <:+ s := by
  obtain ⟨g, -, hs⟩ := exists_gap s
  exact ⟨g, hs.symm⟩

/-- No gap that a text starts with is longer: if one is taken away, what is left holds all that is left
after the longest gap. -/
theorem afterBlank_append_suffix {g : List Char} (h : IsGap g) (v : List Char) :
    afterBlank (g ++ v) <:+ v := by
  obtain ⟨a, m, b, rfl, ha, hm, hb⟩ := h
  have htrim : afterBlank (a ++ m ++ b ++ v) = trimStart (dropMark (trimStart (m ++ (b ++ v)))) := by
    rw [afterBlank, List.append_assoc, List.append_assoc, trimStart_append _ ha]
  rw [htrim]
  have hmark {d : Char} (hd : isBlank d = false) (hdrop : dropMark (d :: (b ++ v)) = b ++ v) :
      trimStart (dropMark (trimStart (d :: (b ++ v)))) <:+ v := by
    rw [trimStart_cons_of_not_isBlank _ hd, hdrop, trimStart_append _ hb]
    exact List.dropWhile_suffix _
  rcases hm with rfl | rfl | rfl
  · rw [List.nil_append, trimStart_append _ hb]
    exact afterBlank_suffix v
  · exact hmark (by decide) rfl
  · exact hmark (by decide) rfl

/-- What follows the longest gap of a text is what is left of it. -/
theorem afterBlank_eq_of_longest {g v : List Char} (hg : IsGap g)
    (hlongest : ∀ t, t <+: g ++ v → IsGap t → t.length ≤ g.length) : afterBlank (g ++ v) = v := by
  obtain ⟨t, ht, heq⟩ := exists_gap (g ++ v)
  have hle : t.length ≤ g.length := hlongest t ⟨_, heq.symm⟩ ht
  have hlen := congrArg List.length heq
  simp only [List.length_append] at hlen
  exact (afterBlank_append_suffix hg v).eq_of_length_le (by omega)

theorem splitEntry_separator {c : Char} (s : List Char) (h : isSeparator c = true) :
    splitEntry (c :: s) = ([], afterBlank (c :: s)) := by
  have hmark {d : Char} (hd : isBlank d = false) (hdrop : dropMark (d :: s) = s) :
      afterBlank (d :: s) = trimStart s := by
    rw [afterBlank, trimStart_cons_of_not_isBlank _ hd, hdrop]
  simp only [isSeparator, Bool.or_eq_true, decide_eq_true_eq] at h
  rcases h with (rfl | rfl) | hblank
  · rw [hmark (by decide) rfl]
    simp [splitEntry]
  · rw [hmark (by decide) rfl]
    simp [splitEntry]
  · rw [splitEntry_blank s hblank, afterBlank, afterBlank, trimStart_cons, if_pos hblank]

theorem splitEntry_of_not_isSeparator {c : Char} (s : List Char) (hc : c ≠ '\\')
    (h : isSeparator c = false) :
    splitEntry (c :: s) = (c :: (splitEntry s).1, (splitEntry s).2) := by
  simp only [isSeparator, Bool.or_eq_false_iff, decide_eq_false_iff_not] at h
  exact splitEntry_plain s hc h.1 h.2

/-! ### The parts of a line -/

/-- The line consists of the key `k`, the gap `g` and the value `v`. -/
structure Splits (line k g v : List Char) : Prop where
  line_eq : line = k ++ g ++ v
  /-- The key holds no separator that is not escaped. -/
  key : NoSeparator k
  gap : IsGap g
  /-- What follows the key starts with no longer gap. -/
  longest : ∀ t, t <+: g ++ v → IsGap t → t.length ≤ g.length
  /-- The first character of the gap is not escaped. -/
  not_escaped : g ≠ [] → ¬ EscapesNext k
  value : ∀ c ∈ v.head?, isBlank c = false
  /-- There is a gap unless the key is the whole line. -/
  whole : g = [] → k = line

/-- What stands in front of the key is part of it, if it makes no difference to what is escaped. -/
theorem splits_append_iff {p line k g v : List Char} (hkey : NoSeparator (p ++ k) ↔ NoSeparator k)
    (hesc : EscapesNext (p ++ k) ↔ EscapesNext k) :
    Splits (p ++ line) (p ++ k) g v ↔ Splits line k g v := by
  constructor
  · intro h
    refine ⟨?_, hkey.mp h.key, h.gap, h.longest, fun hg => mt hesc.mpr (h.not_escaped hg), h.value,
      fun hg => List.append_cancel_left (h.whole hg)⟩
    have hline := h.line_eq
    rw [List.append_assoc, List.append_assoc] at hline
    rw [List.append_cancel_left hline, List.append_assoc]
  · intro h
    refine ⟨?_, hkey.mpr h.key, h.gap, h.longest, fun hg => mt hesc.mp (h.not_escaped hg), h.value,
      fun hg => congrArg (p ++ ·) (h.whole hg)⟩
    rw [h.line_eq, List.append_assoc, List.append_assoc, List.append_assoc]

theorem splits_cons_iff {c : Char} {line k g v : List Char} (hc : c ≠ '\\')
    (hsep : isSeparator c = false) : Splits (c :: line) (c :: k) g v ↔ Splits line k g v :=
  splits_append_iff (p := [c]) ((noSeparator_cons k hc).trans (and_iff_right hsep))
    (escapesNext_cons k hc)

theorem splits_pair_iff {c : Char} {line k g v : List Char} :
    Splits ('\\' :: c :: line) ('\\' :: c :: k) g v ↔ Splits line k g v :=
  splits_append_iff (p := ['\\', c]) (noSeparator_pair c k) (escapesNext_pair c k)

/-- A line without a separator is a key. -/
theorem splits_self {line : List Char} (h : NoSeparator line) : Splits line line [] [] where
  line_eq := by simp
  key := h
  gap := isGap_nil
  longest t ht _ := by simpa using ht.length_le
  not_escaped h := absurd rfl h
  value := by simp
  whole _ := rfl

/-- A line that starts with a separator has an empty key. -/
theorem exists_splits_separator {c : Char} (s : List Char) (h : isSeparator c = true) :
    ∃ g, Splits (c :: s) [] g (afterBlank (c :: s)) := by
  obtain ⟨g, hg, hs⟩ := exists_gap (c :: s)
  have hlongest : ∀ t, t <+: g ++ afterBlank (c :: s) → IsGap t → t.length ≤ g.length := by
    rintro t ⟨u, hu⟩ ht
    rw [← hs] at hu
    have hle := (afterBlank_append_suffix ht u).length_le
    have hlen := congrArg List.length (hu.trans hs)
    rw [hu] at hle
    simp only [List.length_append] at hlen
    omega
  refine ⟨g, hs, noSeparator_nil, hg, hlongest, fun _ => not_escapesNext_nil,
    fun d hd => not_isBlank_of_mem_head?_trimStart hd, fun hnil => ?_⟩
  -- the separator alone is a gap, so the longest one is not empty
  have hle := hlongest [c] ⟨s, by rw [← hs]; rfl⟩ (isGap_singleton h)
  rw [hnil] at hle
  simp at hle

/-- The reader finds parts of the line. -/
theorem exists_splits_splitEntry (line : List Char) :
    ∃ g, Splits line (splitEntry line).1 g (splitEntry line).2 := by
  induction line using pairInduction with
  | nil => exact ⟨[], splits_self noSeparator_nil⟩
  | backslash => exact ⟨[], splits_self noSeparator_backslash⟩
  | pair c s ih =>
    obtain ⟨g, hg⟩ := ih
    rw [splitEntry_escaped]
    exact ⟨g, splits_pair_iff.mpr hg⟩
  | plain c s hc ih =>
    cases hsep : isSeparator c with
    | true =>
      rw [splitEntry_separator s hsep]
      exact exists_splits_separator s hsep
    | false =>
      obtain ⟨g, hg⟩ := ih
      rw [splitEntry_of_not_isSeparator s hc hsep]
      exact ⟨g, (splits_cons_iff hc hsep).mpr hg⟩

/-- Without a gap there is no value. -/
theorem Splits.of_gap_nil {line k v : List Char} (h : Splits line k [] v) : line = k ∧ v = [] := by
  have hkey : k = line := h.whole rfl
  have hline := h.line_eq
  rw [← hkey, List.append_nil] at hline
  exact ⟨hkey.symm, List.self_eq_append_right.mp hline⟩

/-- There are no other parts than those that the reader finds. -/
theorem Splits.splitEntry_eq {line k g v : List Char} (h : Splits line k g v) :
    splitEntry line = (k, v) := by
  induction k using pairInduction generalizing line with
  | nil =>
    cases g with
    | nil =>
      obtain ⟨rfl, rfl⟩ := h.of_gap_nil
      rfl
    | cons c g =>
      have hsep : isSeparator c = true := isSeparator_of_mem h.gap List.mem_cons_self
      rw [h.line_eq, List.nil_append, List.cons_append, splitEntry_separator _ hsep,
        ← List.cons_append, afterBlank_eq_of_longest h.gap h.longest]
  | backslash =>
    cases g with
    | nil =>
      obtain ⟨rfl, rfl⟩ := h.of_gap_nil
      rfl
    | cons c g => exact absurd escapesNext_backslash (h.not_escaped (List.cons_ne_nil c g))
  | pair c k ih =>
    have hline : line = '\\' :: c :: (k ++ g ++ v) := h.line_eq
    subst hline
    rw [splitEntry_escaped, ih (splits_pair_iff.mp h)]
  | plain c k hc ih =>
    have hline : line = c :: (k ++ g ++ v) := h.line_eq
    have hsep : isSeparator c = false := ((noSeparator_cons k hc).mp h.key).1
    subst hline
    rw [splitEntry_of_not_isSeparator _ hc hsep, ih ((splits_cons_iff hc hsep).mp h)]

/-- Every line has one key, one gap and one value, and the reader finds them: the line consists of them,
the key holds an equals sign, a colon or a blank only behind an odd number of backslashes, the gap is the
longest text of blanks, at most one mark, and blanks that follows the key, its first character is not
escaped, the value does not start with a blank, and the gap is empty only if the key is the whole line. -/
theorem splits_iff_splitEntry (line : List Char) :
    ∃ gap, ∀ k g v, Splits line k g v ↔
      k = (splitEntry line).1 ∧ g = gap ∧ v = (splitEntry line).2 := by
  obtain ⟨gap, hgap⟩ := exists_splits_splitEntry line
  refine ⟨gap, fun k g v => ⟨fun h => ?_, ?_⟩⟩
  · have hparts := h.splitEntry_eq
    rw [hparts] at hgap ⊢
    refine ⟨rfl, ?_, rfl⟩
    have hsame := h.line_eq.symm.trans hgap.line_eq
    rw [List.append_cancel_right_eq, List.append_cancel_left_eq] at hsame
    exact hsame
  · rintro ⟨rfl, rfl, rfl⟩
    exact hgap

-- Three backslashes escape the mark after them, and two escape no blank after them. Of two marks the
-- second one belongs to the value.
example : splitEntry "a\\\\\\=b\\\\ \t:=c".toList = ("a\\\\\\=b\\\\".toList, "=c".toList) := by
  decide

end RuleSteering.Properties
