import Mathlib.Data.List.TakeWhile
import RuleSteering.Properties
import RuleSteering.Proofs.Text.Hidden
import RuleSteering.Proofs.Text.Line
import RuleSteering.Proofs.Text.Order

/-!
# Reading what was written

A property map that is written and read again is the same map exactly if no key holds an odd blank
and no value starts with one (`parse_render_eq_self_iff`).

The reader is followed line by line. `readBack` is the entry that it finds in the line of an entry:

* the key loses the odd blanks at its start and ends before the next one (`readKey`), so no key that
  is read holds an odd blank;
* the value of a key without odd blanks loses the blanks at its start if the first one is odd
  (`readValue`); otherwise the rest of the key counts as part of the value.
-/

namespace RuleSteering.Properties

open Text

/-! ### The entry of a written line -/

theorem splitEntry_plain {c : Char} (s : List Char) (hb : c ≠ '\\') (hm : c ≠ '=' ∧ c ≠ ':')
    (hblank : isBlank c = false) :
    splitEntry (c :: s) = (c :: (splitEntry s).1, (splitEntry s).2) := by
  simp [splitEntry, hb, hm, hblank]

theorem splitEntry_blank {c : Char} (s : List Char) (h : isBlank c = true) :
    splitEntry (c :: s) = ([], afterBlank s) := by
  have hb : c ≠ '\\' := by
    rintro rfl
    exact absurd h (by decide)
  have hm : ¬ (c = '=' ∨ c = ':') := by
    rintro (rfl | rfl) <;> exact absurd h (by decide)
  simp [splitEntry, hb, hm, h]

theorem splitEntry_equals (s : List Char) : splitEntry ('=' :: s) = ([], trimStart s) := by
  simp [splitEntry]

/-- The written value of a line whose key is `k`: what follows the first odd blank of the key, or
what follows the equals sign if there is none. -/
def rawValue (k v : List Char) : List Char :=
  match k.dropWhile (! isOddBlank ·) with
  | [] => trimStart v
  | _ :: u => afterBlank (escapeKey u ++ '=' :: v)

/-- A written key is cut before its first odd blank. -/
theorem splitEntry_escapeKey_append (k v : List Char) :
    splitEntry (escapeKey k ++ '=' :: v) =
      (escapeKey (k.takeWhile (! isOddBlank ·)), rawValue k v) := by
  induction k with
  | nil => exact splitEntry_equals v
  | cons c k ih =>
    cases hodd : isOddBlank c with
    | true =>
      have htail : rawValue (c :: k) v = afterBlank (escapeKey k ++ '=' :: v) := by
        simp [rawValue, hodd]
      rw [htail, List.takeWhile_cons_of_neg (by simp [hodd]), escapeKey_cons,
        escapeChar_of_isOddBlank true hodd]
      exact splitEntry_blank _ (isBlank_of_isOddBlank hodd)
    | false =>
      have htail : rawValue (c :: k) v = rawValue k v := by simp [rawValue, hodd]
      rw [htail, List.takeWhile_cons_of_pos (by simp [hodd]), escapeKey_cons, escapeKey_cons]
      rcases escapeChar_cases true c with ⟨d, hc, -⟩ | ⟨hc, hplain⟩
      · rw [hc]
        show splitEntry ('\\' :: d :: (escapeKey k ++ '=' :: v)) = _
        rw [splitEntry_escaped, ih]
        rfl
      · have hblank := hplain.isBlank_eq_false (hplain.ne_space rfl) hodd
        rw [hc]
        show splitEntry (c :: (escapeKey k ++ '=' :: v)) = _
        rw [splitEntry_plain _ hplain.ne_backslash hplain.ne_mark hblank, ih]
        rfl

/-- A line that starts with a key, without the odd blanks at its start, is not skipped. -/
theorem isSkipped_escapeKey_append {k : List Char} (v : List Char)
    (h : ∀ c ∈ k.head?, isOddBlank c = false) : isSkipped (escapeKey k ++ '=' :: v) = false := by
  cases k with
  | nil => simp [isSkipped]
  | cons c k =>
    obtain ⟨d, w, hd, -, hhash, hbang⟩ := isBlank_head_escapeChar (h c rfl)
    rw [escapeKey_cons, hd]
    simp [isSkipped, hhash, hbang]

/-- The line of an entry, without its end. -/
def line (e : String × String) : List Char :=
  escapeKey e.1.toList ++ '=' :: escapeValue e.2.toList

/-- What is read of a key. -/
def readKey (k : List Char) : List Char :=
  (k.dropWhile isOddBlank).takeWhile (! isOddBlank ·)

/-- The entry that is read from the line of an entry. -/
def readBack (e : String × String) : String × String :=
  (String.ofList (readKey e.1.toList),
    String.ofList (unescape (rawValue (e.1.toList.dropWhile isOddBlank) (escapeValue e.2.toList))))

/-- Every line that is written holds an entry for the reader. -/
theorem entry?_line (e : String × String) : entry? (line e) = some (readBack e) := by
  have hhead : ∀ c ∈ (e.1.toList.dropWhile isOddBlank).head?, isOddBlank c = false := by
    intro c hc
    have h := List.head?_dropWhile_not isOddBlank e.1.toList
    rw [Option.mem_def.mp hc] at h
    exact h
  have htrim : trimStart (line e) =
      escapeKey (e.1.toList.dropWhile isOddBlank) ++ '=' :: escapeValue e.2.toList :=
    trimStart_escapeKey_append _ _ (by decide)
  simp only [ entry?, htrim, isSkipped_escapeKey_append _ hhead, splitEntry_escapeKey_append,
    unescape_escapeKey]
  rfl

/-- No key that is read from a written line holds an odd blank. -/
theorem not_odd_of_mem_readBack (e : String × String) :
    ∀ c ∈ (readBack e).1.toList, isOddBlank c = false := by
  intro c hc
  rw [readBack, String.toList_ofList, readKey] at hc
  simpa using List.mem_takeWhile_imp hc

/-- A key without odd blanks is read back, and of its value what `readValue` says. -/
theorem readBack_of_not_odd {e : String × String} (h : ∀ c ∈ e.1.toList, isOddBlank c = false) :
    readBack e = (e.1, String.ofList (readValue e.2.toList)) := by
  have hdrop : e.1.toList.dropWhile isOddBlank = e.1.toList := by
    cases hk : e.1.toList with
    | nil => rfl
    | cons c k =>
      refine List.dropWhile_cons_of_neg ?_
      rw [h c (by rw [hk]; exact List.mem_cons_self)]
      decide
  have htake : e.1.toList.takeWhile (! isOddBlank ·) = e.1.toList :=
    List.takeWhile_eq_self_iff.mpr fun c hc => by rw [h c hc]; rfl
  have hraw : rawValue e.1.toList (escapeValue e.2.toList) = trimStart (escapeValue e.2.toList) := by
    have hnil : e.1.toList.dropWhile (! isOddBlank ·) = [] :=
      List.dropWhile_eq_nil_iff.mpr fun c hc => by rw [h c hc]; rfl
    rw [rawValue, hnil]
  rw [readBack, readKey, hdrop, htake, hraw, unescape_trimStart_escapeValue, String.ofList_toList]

/-! ### Whole maps -/

theorem mem_of_getElem? {p : Properties} {k v : String} (h : p[k]? = some v) : k ∈ p := by
  rw [Std.ExtTreeMap.mem_iff_isSome_getElem?, h]
  rfl

theorem getElem?_ofList (pairs : List (String × String)) (k : String) :
    (Std.ExtTreeMap.ofList pairs : Properties)[k]? = pairs.reverse.lookup k := by
  rw [Std.ExtTreeMap.ofList_eq_insertMany_empty, Std.ExtTreeMap.getElem?_insertMany_list,
    List.lookup_eq_findSome?]
  simp [eq_comm (a := k)]

theorem not_mem_line {e : String × String} {d : Char} (hd : d ∈ controls) : d ∉ line e := by
  intro h
  rcases List.mem_append.mp h with h | h
  · exact (standsFor_escapeKey _).not_control d hd h
  · rcases List.mem_cons.mp h with rfl | h
    · exact absurd hd (by decide)
    · exact (standsFor_escapeValue _).not_control d hd h

/-- A map is written as the lines of its entries, in the order of its keys. -/
theorem lines_render (p : Properties) : lines p.render.toList = p.toList.map line := by
  have hflat : p.render.toList = (p.toList.map line).flatMap (· ++ ['\n']) := by
    rw [render, String.toList_ofList, List.flatMap_map]
    rfl
  rw [hflat]
  refine lines_flatMap fun l hl => ?_
  obtain ⟨e, -, rfl⟩ := List.mem_map.mp hl
  exact ⟨not_mem_line (by decide), not_mem_line (by decide)⟩

/-- The entries of a written map, in the order of its keys. -/
theorem entries_render (p : Properties) : entries p.render.toList = p.toList.map readBack := by
  have hread : entry? ∘ line = some ∘ readBack := funext entry?_line
  rw [entries, lines_render, List.filterMap_map, hread, List.filterMap_eq_map]

/-- No key that is read from a written map holds an odd blank. -/
theorem not_odd_of_mem_parse_render {p : Properties} {k : String} (h : k ∈ parse p.render) :
    ∀ c ∈ k.toList, isOddBlank c = false := by
  rw [parse, entries_render, Std.ExtTreeMap.mem_ofList] at h
  simp only [List.map_map, List.contains_iff_mem, List.mem_map] at h
  obtain ⟨e, -, rfl⟩ := h
  exact not_odd_of_mem_readBack e

/-- If no key holds an odd blank, the values are read back one by one. -/
theorem parse_render_of_not_odd {p : Properties}
    (h : ∀ k ∈ p, ∀ c ∈ k.toList, isOddBlank c = false) :
    parse p.render = p.map fun _ v => String.ofList (readValue v.toList) := by
  have hentries : entries p.render.toList =
      (p.map fun _ v => String.ofList (readValue v.toList)).toList := by
    rw [entries_render, Std.ExtTreeMap.toList_map]
    refine List.map_congr_left fun e he => readBack_of_not_odd (h e.1 ?_)
    exact mem_of_getElem? (Std.ExtTreeMap.mem_toList_iff_getElem?_eq_some.mp he)
  rw [parse, hentries, ofList_toList]

/-- An entry that can be written and read back: its key holds no odd blank and its value does not
start with one. -/
def Readable (k v : String) : Prop :=
  (∀ c ∈ k.toList, isOddBlank c = false) ∧ ∀ c ∈ v.toList.head?, isOddBlank c = false

/-- A value that is read back as it was does not start with an odd blank. -/
theorem ofList_readValue_eq_iff {v : String} :
    String.ofList (readValue v.toList) = v ↔ ∀ c ∈ v.toList.head?, isOddBlank c = false := by
  rw [← readValue_eq_self_iff]
  constructor
  · intro h
    rw [← String.toList_ofList (l := readValue v.toList), h]
  · intro h
    rw [h, String.ofList_toList]

theorem parse_render_iff (p : Properties) :
    parse p.render = p ↔ ∀ k v, p[k]? = some v → Readable k v := by
  constructor
  · intro h
    have hkeys : ∀ k ∈ p, ∀ c ∈ k.toList, isOddBlank c = false := by
      intro k hk
      rw [← h] at hk
      exact not_odd_of_mem_parse_render hk
    intro k v hv
    refine ⟨hkeys k (mem_of_getElem? hv), ofList_readValue_eq_iff.mp ?_⟩
    -- the map that is read holds under the key what is read of its value
    have hread := hv
    rw [← h, parse_render_of_not_odd hkeys, Std.ExtTreeMap.getElem?_map, hv] at hread
    exact Option.some.inj hread
  · intro h
    have hkeys : ∀ k ∈ p, ∀ c ∈ k.toList, isOddBlank c = false := fun k hk =>
      (h k p[k] (Std.ExtTreeMap.getElem?_eq_some_getElem hk)).1
    rw [parse_render_of_not_odd hkeys]
    refine Std.ExtTreeMap.ext_getElem? fun k => ?_
    rw [Std.ExtTreeMap.getElem?_map]
    cases hv : p[k]? with
    | none => rfl
    | some v => exact congrArg some (ofList_readValue_eq_iff.mpr (h k v hv).2)

/-- Writing a map and reading it gives the map back exactly if no key holds an odd blank and no
value starts with one. For a list of pairs, these are its keys and the last value of each. -/
theorem parse_render_eq_self_iff :
    (∀ p : Properties, parse p.render = p ↔ ∀ k v, p[k]? = some v → Readable k v) ∧
    ∀ pairs : List (String × String),
      parse (render (.ofList pairs)) = .ofList pairs ↔
        ∀ k v, pairs.reverse.lookup k = some v → Readable k v := by
  refine ⟨parse_render_iff, fun pairs => ?_⟩
  rw [parse_render_iff]
  simp only [getElem?_ofList]

end RuleSteering.Properties
