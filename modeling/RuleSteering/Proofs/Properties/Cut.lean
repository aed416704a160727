import RuleSteering.Proofs.Properties.RoundTrip

/-!
# Keys that are cut at an odd blank

The line of a key with an odd blank is read as the line of another key, the part of it before the
blank, with the rest of the key in the value. So a map that is written and read can lose an entry to
another one.

* `getElem?_parse_render_iff`, of the lines that are read with the same key the last one counts;
* `mem_after_of_extends`, the line of a longer key comes after the line of each key that it starts
  with;
* `takeWhile_eq_iff`, how a key can be cut to another one;
* `mem_equals_rawValue`, what is left of a cut key holds the equals sign of its line, unless nothing
  but odd blanks is left.
-/

namespace RuleSteering

namespace Text

theorem unescape_escapeKey_append (s t : List Char) :
    unescape (escapeKey s ++ t) = s ++ unescape t := by
  induction s with
  | nil => rfl
  | cons c s ih =>
    rw [escapeKey_cons, List.append_assoc, unescape_escapeChar_append, ih, List.cons_append]

/-- The first part of a text up to a character without the property `p` is the whole text, or it is
followed by such a character. -/
theorem takeWhile_eq_iff {p : Char → Bool} {s t : List Char} :
    s.takeWhile p = t ↔
      (∀ c ∈ t, p c = true) ∧ (s = t ∨ ∃ c rest, p c = false ∧ s = t ++ c :: rest) := by
  constructor
  · rintro rfl
    refine ⟨fun c => List.mem_takeWhile_imp, ?_⟩
    have hsplit : s = s.takeWhile p ++ s.dropWhile p := List.takeWhile_append_dropWhile.symm
    cases hdrop : s.dropWhile p with
    | nil =>
      rw [hdrop, List.append_nil] at hsplit
      exact .inl hsplit
    | cons c rest =>
      have hc := List.head?_dropWhile_not p s
      rw [hdrop] at hsplit hc
      exact .inr ⟨c, rest, hc, hsplit⟩
  · rintro ⟨ht, rfl | ⟨c, rest, hc, rfl⟩⟩
    · exact List.takeWhile_eq_self_iff.mpr ht
    · rw [List.takeWhile_append_of_pos ht, List.takeWhile_cons_of_neg (by simp [hc]),
        List.append_nil]

end Text

namespace Properties

open Text

/-! ### The value of a cut key -/

/-- No mark is removed from the start of a written character. -/
theorem dropMark_escapeChar_append {c : Char} (s : List Char) :
    dropMark (escapeChar true c ++ s) = escapeChar true c ++ s := by
  have hplain {d : Char} (t : List Char) (h : d ≠ '=' ∧ d ≠ ':') : dropMark (d :: t) = d :: t := by
    simp [dropMark, h.1, h.2]
  rcases escapeChar_cases true c with ⟨d, hc, -⟩ | ⟨hc, hc'⟩
  · rw [hc]
    exact hplain _ (by decide)
  · rw [hc]
    exact hplain _ hc'.ne_mark

/-- Of a key that is cut, the odd blanks at the start of the rest are lost, and nothing else, unless
the rest holds nothing else. -/
theorem afterBlank_escapeKey_append {u : List Char} (v : List Char)
    (h : ∃ d ∈ u, isOddBlank d = false) :
    afterBlank (escapeKey u ++ '=' :: v) = escapeKey (u.dropWhile isOddBlank) ++ '=' :: v := by
  rw [afterBlank, trimStart_escapeKey_append u v (by decide)]
  cases hu : u.dropWhile isOddBlank with
  | nil =>
    obtain ⟨d, hd, hodd⟩ := h
    rw [List.dropWhile_eq_nil_iff.mp hu d hd] at hodd
    contradiction
  | cons c t =>
    have hc := List.head?_dropWhile_not isOddBlank u
    rw [hu] at hc
    obtain ⟨d, w, hd, hblank, -⟩ := isBlank_head_escapeChar hc
    rw [escapeKey_cons, List.append_assoc, dropMark_escapeChar_append, hd]
    exact trimStart_cons_of_not_isBlank _ hblank

/-- The value that is read after a cut key holds the equals sign of the line. -/
theorem mem_equals_rawValue {k u : List Char} {c : Char} (v : List Char)
    (hk : k.dropWhile (! isOddBlank ·) = c :: u) (hu : ∃ d ∈ u, isOddBlank d = false) :
    '=' ∈ unescape (rawValue k v) := by
  have hraw : rawValue k v = afterBlank (escapeKey u ++ '=' :: v) := by simp only [rawValue, hk]
  rw [hraw, afterBlank_escapeKey_append v hu, unescape_escapeKey_append,
    unescape_cons v (by decide)]
  exact List.mem_append_right _ List.mem_cons_self

/-! ### The line that counts -/

theorem lookup_reverse_eq_some_iff {es : List (String × String)} {k v : String} :
    es.reverse.lookup k = some v ↔
      ∃ before after, es = before ++ (k, v) :: after ∧ ∀ x ∈ after, x.1 ≠ k := by
  rw [List.lookup_eq_some_iff]
  constructor
  · rintro ⟨l₁, l₂, hl, hne⟩
    refine ⟨l₂.reverse, l₁.reverse, ?_, fun x hx => ?_⟩
    · rw [← List.reverse_reverse es, hl]
      simp
    · have hx' := hne x (List.mem_reverse.mp hx)
      exact fun heq => bne_iff_ne.mp hx' heq.symm
  · rintro ⟨before, after, rfl, hne⟩
    refine ⟨after.reverse, before.reverse, by simp, fun x hx => ?_⟩
    exact bne_iff_ne.mpr fun heq => hne x (List.mem_reverse.mp hx) heq.symm

/-- Of the lines of a written map that are read with the same key the last one counts. -/
theorem getElem?_parse_render_iff {p : Properties} {k v : String} :
    (parse p.render)[k]? = some v ↔
      ∃ before e after, p.toList = before ++ e :: after ∧ readBack e = (k, v) ∧
        ∀ x ∈ after, (readBack x).1 ≠ k := by
  rw [parse, entries_render, getElem?_ofList, lookup_reverse_eq_some_iff]
  constructor
  · rintro ⟨as, bs, hsplit, hbs⟩
    obtain ⟨before, rest, hp, -, hrest⟩ := List.map_eq_append_iff.mp hsplit
    obtain ⟨e, after, rfl, he, hafter⟩ := List.map_eq_cons_iff.mp hrest
    refine ⟨before, e, after, hp, he, fun x hx => hbs _ ?_⟩
    rw [← hafter]
    exact List.mem_map_of_mem hx
  · rintro ⟨before, e, after, hp, he, hafter⟩
    refine ⟨before.map readBack, after.map readBack, ?_, fun x hx => ?_⟩
    · rw [hp, List.map_append, List.map_cons, he]
    · obtain ⟨y, hy, rfl⟩ := List.mem_map.mp hx
      exact hafter y hy

/-- The line of a key comes before the line of every longer key that starts with it. -/
theorem mem_after_of_extends {p : Properties} {before after : List (String × String)}
    {e x : String × String} (hp : p.toList = before ++ e :: after) (hx : x ∈ p.toList) {c : Char}
    {rest : List Char} (hext : x.1.toList = e.1.toList ++ c :: rest) : x ∈ after := by
  have hlt : e.1 < x.1 := by
    show e.1.toList < x.1.toList
    have hmore : e.1.toList ++ [] < e.1.toList ++ c :: rest :=
      List.append_left_lt (List.nil_lt_cons c rest)
    rwa [List.append_nil, ← hext] at hmore
  rw [hp] at hx
  rcases List.mem_append.mp hx with hx | hx
  · -- the keys are in ascending order, so a key before the shorter one is less than it
    have hsorted := p.ordered_keys_toList
    rw [hp] at hsorted
    have hbefore := (List.pairwise_append.mp hsorted).2.2 x hx e List.mem_cons_self
    exact absurd (Text.compare_eq_lt_iff.mp hbefore) (String.lt_asymm hlt)
  · refine (List.mem_cons.mp hx).resolve_left ?_
    rintro rfl
    exact String.lt_irrefl _ hlt

end Properties

end RuleSteering
