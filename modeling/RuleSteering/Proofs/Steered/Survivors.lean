import RuleSteering.Proofs.Properties.Cut
import RuleSteering.Proofs.Steered.Loaded
import RuleSteering.Proofs.Steered.Saved

/-!
# What survives a save to a text

Of the overrides of a strategy that is saved to a text and restored from it exactly those survive
that have a name without odd blanks and are not eclipsed by another one, and no override is invented
(`mem_overrides_ofText_savedText_iff`).

* `Eclipses`, the key of one override starts with the key of the other one and an odd blank;
* `ofPair?_readBack_of_odd`, the line of a name with an odd blank is read as no override: the equals
  sign of the line has become part of the value. It still takes the place of the line that it
  eclipses, because it comes later;
* `mem_filterMap_parse_savedText`, the overrides that are read from the text.
-/

namespace RuleSteering

open Text

namespace Override

/-! ### Values that hold an equals sign -/

/-- A value with an equals sign is no value of any field. -/
theorem ofPair?_of_mem_equals {pair : String × String} (h : '=' ∈ pair.2.toList) :
    ofPair? pair = none := by
  have htrim : '=' ∈ trim pair.2.toList := mem_trim_of_not_isBlank h (by decide)
  have hinteger (make : Int64 → Setting) :
      ∃ e, parseInteger pair.1 pair.2 make = .error e := by
    unfold parseInteger
    split
    · rename_i n hn
      rcases Decimal.isDigit_or_sign_of_read hn '=' htrim with hc | hc | hc <;>
        exact absurd hc (by decide)
    · exact ⟨_, rfl⟩
  have hflag : readBool? (trim pair.2.toList) = none := by
    have hlower : '=' ∈ (trim pair.2.toList).map Char.toLower :=
      List.mem_map.mpr ⟨'=', htrim, by decide⟩
    have hne {t : List Char} (ht : '=' ∉ t) : (trim pair.2.toList).map Char.toLower ≠ t := by
      rintro rfl
      exact ht hlower
    simp only [readBool?]
    rw [if_neg (hne (by decide)), if_neg (hne (by decide))]
  have hset (f : Field) : ∃ e, parseSetting pair.1 pair.2 f = .error e := by
    cases f with
    | factor => exact hinteger .factor
    | summand => exact hinteger .summand
    | disabled =>
      refine ⟨.invalidBool pair.1 pair.2, ?_⟩
      simp only [parseSetting, hflag]
  unfold ofPair? parse
  split
  · rfl
  · rename_i k hk
    obtain ⟨e, he⟩ := hset k.field
    simp only [he]
    rfl

/-! ### Names with odd blanks -/

/-- No written key starts with an odd blank. -/
theorem Key.dropWhile_isOddBlank_text (k : Key) :
    k.text.toList.dropWhile isOddBlank = k.text.toList := by
  have hscope : ∃ t, k.scope.text.toList = 'r' :: t := by cases k.scope <;> exact ⟨_, rfl⟩
  obtain ⟨t, ht⟩ := hscope
  rw [Key.toList_text, ht]
  exact List.dropWhile_cons_of_neg (by decide)

theorem Key.readKey_text (k : Key) :
    Properties.readKey k.text.toList = k.text.toList.takeWhile (! isOddBlank ·) := by
  rw [Properties.readKey, k.dropWhile_isOddBlank_text]

/-- A name with an odd blank cuts the key within the name, so the last dot is in the rest. -/
theorem Key.exists_dropWhile_text {k : Key} (h : ∃ c ∈ k.name.toList, isOddBlank c = true) :
    ∃ c u, k.text.toList.dropWhile (! isOddBlank ·) = c :: u ∧ '.' ∈ u := by
  have hscope : k.scope.text.toList.all (! isOddBlank ·) = true := by cases k.scope <;> decide
  cases hname : k.name.toList.dropWhile (! isOddBlank ·) with
  | nil =>
    obtain ⟨c, hc, hodd⟩ := h
    have hnot := List.dropWhile_eq_nil_iff.mp hname c hc
    simp [hodd] at hnot
  | cons c u =>
    refine ⟨c, u ++ '.' :: k.field.text.toList, ?_, by simp⟩
    rw [Key.toList_text, List.dropWhile_append_of_pos (List.all_eq_true.mp hscope),
      List.dropWhile_append, hname]
    rfl

/-- The line of an override whose name holds an odd blank is read as no override. -/
theorem ofPair?_readBack_of_odd {o : Override} (h : ∃ c ∈ o.name.toList, isOddBlank c = true) :
    ofPair? (Properties.readBack o.toPair) = none := by
  obtain ⟨c, u, hcut, hdot⟩ := Key.exists_dropWhile_text (k := o.key) h
  refine ofPair?_of_mem_equals ?_
  show '=' ∈ (String.ofList (unescape (Properties.rawValue
    (o.key.text.toList.dropWhile isOddBlank) (escapeValue o.setting.text.toList)))).toList
  rw [String.toList_ofList, Key.dropWhile_isOddBlank_text]
  exact Properties.mem_equals_rawValue _ hcut ⟨'.', hdot, by decide⟩

/-- The line of any other override is read as it was written. -/
theorem readBack_toPair {o : Override} (h : ∀ c ∈ o.name.toList, isOddBlank c = false) :
    Properties.readBack o.toPair = o.toPair := by
  obtain ⟨hkey, hvalue⟩ := readable_toPair h
  rw [Properties.readBack_of_not_odd hkey, readValue_eq_self_iff.mpr hvalue, String.ofList_toList]

/-- The key of the override `p` starts with the key of `o` followed by an odd blank. -/
def Eclipses (p o : Override) : Prop :=
  ∃ c rest, isOddBlank c = true ∧ p.key.text.toList = o.key.text.toList ++ c :: rest

/-- A line is read with the key of an override only if it is the line of this override, or that of
one that eclipses it. -/
theorem eq_or_eclipses_of_readBack {o p : Override}
    (h : (Properties.readBack p.toPair).1 = o.key.text) : p.key = o.key ∨ p.Eclipses o := by
  have hcut : p.key.text.toList.takeWhile (! isOddBlank ·) = o.key.text.toList := by
    rw [← Key.readKey_text, ← h]
    exact (String.toList_ofList).symm
  rcases (takeWhile_eq_iff.mp hcut).2 with heq | ⟨c, rest, hc, heq⟩
  · exact .inl (Key.text_injective (String.toList_injective heq))
  · exact .inr ⟨c, rest, by simpa using hc, heq⟩

/-- The line of an override that eclipses one without odd blanks is read with the key of that one. -/
theorem Eclipses.fst_readBack {o p : Override} (h : p.Eclipses o)
    (ho : ∀ c ∈ o.name.toList, isOddBlank c = false) :
    (Properties.readBack p.toPair).1 = o.key.text := by
  obtain ⟨c, rest, hc, heq⟩ := h
  have hcut : p.key.text.toList.takeWhile (! isOddBlank ·) = o.key.text.toList := by
    refine takeWhile_eq_iff.mpr ⟨fun d hd => ?_, .inr ⟨c, rest, by simp [hc], heq⟩⟩
    rw [Key.not_odd_of_mem_text ho d hd]
    rfl
  show String.ofList (Properties.readKey p.key.text.toList) = o.key.text
  rw [Key.readKey_text, hcut, String.ofList_toList]

end Override

namespace Steered

open Override

variable {S S' : Type}

/-! ### The overrides that are read -/

/-- From the saved text exactly the overrides are read that have a name without odd blanks and are
not eclipsed. -/
theorem mem_filterMap_parse_savedText {s : Steered S} {o : Override} :
    o ∈ (Properties.parse s.savedText).toList.filterMap ofPair? ↔
      o ∈ s.snapshot.overrides ∧ o.name ≠ "" ∧ (∀ c ∈ o.name.toList, isOddBlank c = false) ∧
        ∀ p ∈ s.snapshot.overrides, ¬ p.Eclipses o := by
  have hheld {p : Override} : p ∈ s.snapshot.overrides ↔ p ∈ s.storedOverrides := by
    rw [Snapshot.mem_overrides, mem_storedOverrides]
  have hline {p : Override} (hp : p ∈ s.storedOverrides) : p.toPair ∈ (s.store ∅).toList :=
    mem_toList_store.mpr ⟨p, hp, rfl⟩
  simp only [hheld, List.mem_filterMap, savedText]
  constructor
  · rintro ⟨⟨k, v⟩, hkv, ho⟩
    rw [Std.ExtTreeMap.mem_toList_iff_getElem?_eq_some, Properties.getElem?_parse_render_iff] at hkv
    obtain ⟨before, e, after, hsplit, hread, hlast⟩ := hkv
    have hmem : e ∈ (s.store ∅).toList := by simp [hsplit]
    obtain ⟨q, hq, rfl⟩ := mem_toList_store.mp hmem
    rw [← hread] at ho
    -- a line that is read as an override belongs to a name without odd blanks
    have hodd : ∀ c ∈ q.name.toList, isOddBlank c = false := by
      intro c hc
      refine Bool.eq_false_iff.mpr fun hc' => ?_
      rw [ofPair?_readBack_of_odd ⟨c, hc, hc'⟩] at ho
      contradiction
    rw [readBack_toPair hodd, ofPair?_toPair] at ho
    split at ho
    · contradiction
    · rename_i hname
      obtain rfl := Option.some.inj ho
      refine ⟨hq, hname, hodd, fun p hp he => ?_⟩
      have hk : k = q.key.text := by
        rw [readBack_toPair hodd] at hread
        exact (congrArg Prod.fst hread).symm
      have hcut : (Properties.readBack p.toPair).1 = k := by rw [hk, he.fst_readBack hodd]
      obtain ⟨c, rest, -, hext⟩ := he
      exact hlast p.toPair (Properties.mem_after_of_extends hsplit (hline hp) hext) hcut
  · rintro ⟨ho, hname, hodd, hnot⟩
    obtain ⟨before, after, hsplit⟩ := List.append_of_mem (hline ho)
    refine ⟨o.toPair, ?_, ?_⟩
    · show (o.key.text, o.setting.text) ∈ _
      rw [Std.ExtTreeMap.mem_toList_iff_getElem?_eq_some, Properties.getElem?_parse_render_iff]
      refine ⟨before, o.toPair, after, hsplit, readBack_toPair hodd, fun x hx hkey => ?_⟩
      have hmem : x ∈ (s.store ∅).toList := by simp [hsplit, hx]
      obtain ⟨p, hp, rfl⟩ := mem_toList_store.mp hmem
      rcases eq_or_eclipses_of_readBack hkey with heq | he
      · -- no key has two lines
        have hdistinct := Properties.nodup_keys_toList (s.store ∅)
        rw [hsplit, List.map_append, List.map_cons] at hdistinct
        refine (List.nodup_cons.mp (List.nodup_append.mp hdistinct).2.1).1 ?_
        refine List.mem_map.mpr ⟨p.toPair, hx, ?_⟩
        show p.key.text = o.key.text
        rw [heq]
      · exact hnot p hp he
    · rw [ofPair?_toPair, if_neg hname]

/-- An override survives being saved to a text exactly if it has a name without odd blanks and no
other override has a key that starts with its key and an odd blank. The survivors are listed once
and counted when the text is loaded, and under each key the restored strategy holds nothing but what
was held before. -/
theorem mem_overrides_ofText_savedText_iff (s : Steered S) (base : S') :
    let t := ofText base s.savedText
    (∀ o, o ∈ t.snapshot.overrides ↔
      o ∈ s.snapshot.overrides ∧ o.name ≠ "" ∧ (∀ c ∈ o.name.toList, isOddBlank c = false) ∧
        ∀ p ∈ s.snapshot.overrides, ¬ p.Eclipses o) ∧
      t.snapshot.overrides.Nodup ∧
      ((wrap base).load (Properties.parse s.savedText).toList).1 = t.snapshot.overrides.length ∧
      ∀ k x, t.snapshot.get? k = some x → s.snapshot.get? k = some x := by
  intro t
  have hkeys := Properties.nodup_keys_toList (Properties.parse s.savedText)
  have hkept : ∀ o ∈ (Properties.parse s.savedText).toList.filterMap ofPair?,
      o.setting.kept = some o.setting := fun o ho =>
    Snapshot.kept_of_get? (Snapshot.mem_overrides.mp (mem_filterMap_parse_savedText.mp ho).1)
  have hmem (o : Override) : o ∈ t.snapshot.overrides ↔
      o ∈ s.snapshot.overrides ∧ o.name ≠ "" ∧ (∀ c ∈ o.name.toList, isOddBlank c = false) ∧
        ∀ p ∈ s.snapshot.overrides, ¬ p.Eclipses o := by
    rw [← mem_filterMap_parse_savedText]
    exact (overrides_load_perm base hkeys hkept).mem_iff
  refine ⟨hmem, Snapshot.nodup_overrides _, fst_load base hkeys hkept, fun k x hx => ?_⟩
  have hkey := Snapshot.key_of_get? hx
  have hheld : (⟨k.scope, k.name, x⟩ : Override) ∈ t.snapshot.overrides := by
    rw [Snapshot.mem_overrides, hkey]
    exact hx
  have hbefore := Snapshot.mem_overrides.mp ((hmem _).mp hheld).1
  rwa [hkey] at hbefore

/-- A name with an odd blank can take a healthy override with it. -/
example :
    let s := (wrap (⟨.top⟩ : Indifferent Cost)).run [.set ⟨.rule, "and", .factor 2⟩,
      .set ⟨.rule, "and.factor\u00a0left", .disabled true⟩, .set ⟨.rule, "and", .summand 3⟩]
    (ofText (⟨.top⟩ : Indifferent Cost) s.savedText).snapshot.overrides =
      [⟨.rule, "and", .summand 3⟩] := by
  decide +kernel

end Steered

end RuleSteering
