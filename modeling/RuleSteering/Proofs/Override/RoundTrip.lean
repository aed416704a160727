import RuleSteering.Override
import RuleSteering.Proofs.Override.Grammar
import RuleSteering.Proofs.Text.Decimal

/-!
# Overrides are read back

An override is written as a pair of texts, and read back from it unless its name is empty
(`ofPair?_toPair`). What the name holds otherwise makes no difference: the scope is cut off at the
front and the field at the last dot.

* `parseSetting_text`, a written value is read back, whatever its key; `parse_toPair`, the answer of
  the reader with its fault;
* `text_key_of_ofPair?`, no override is read but from the text of its key;
* `ofPair?_inj_on`, `nodup_filterMap_ofPair?`, from pairs with different keys different overrides.
-/

namespace RuleSteering.Override

/-! ### Values -/

theorem parseInteger_write (key : String) (n : Int64) (make : Int64 → Setting) :
    parseInteger key (String.ofList (Text.Decimal.write n)) make = .ok (make n) := by
  rw [parseInteger, String.toList_ofList, Text.Decimal.trim_write, Text.Decimal.read_write]

/-- A written value is read back as a value of its field. -/
theorem parseSetting_text (key : String) (x : Setting) :
    parseSetting key x.text x.field = .ok x := by
  cases x with
  | factor n => exact parseInteger_write key n .factor
  | summand n => exact parseInteger_write key n .summand
  | disabled b => cases b <;> rfl

/-! ### Pairs -/

/-- A written override is read back, unless its name is empty. -/
theorem parse_toPair (o : Override) :
    parse o.toPair.1 o.toPair.2 =
      if o.name = "" then .error (.emptyName o.key.text) else .ok o := by
  have hset : parseSetting o.key.text o.setting.text o.key.field = .ok o.setting :=
    parseSetting_text o.key.text o.setting
  show parse o.key.text o.setting.text = _
  rw [parse, Key.parse_text, show o.key.name = o.name from rfl]
  by_cases hname : o.name = ""
  · rw [if_pos hname, if_pos hname]
  · rw [if_neg hname, if_neg hname]
    simp only [hset]
    rfl

theorem ofPair?_toPair (o : Override) :
    ofPair? o.toPair = if o.name = "" then none else some o := by
  rw [ofPair?, parse_toPair]
  split <;> rfl

/-- What is read as a value of a field is a setting of this field. -/
theorem field_of_parseSetting {key value : String} {f : Field} {x : Setting}
    (h : parseSetting key value f = .ok x) : x.field = f := by
  have hinteger {make : Int64 → Setting} (hmake : ∀ n, (make n).field = f)
      (h : parseInteger key value make = .ok x) : x.field = f := by
    unfold parseInteger at h
    split at h
    · obtain rfl := Except.ok.inj h
      exact hmake _
    · contradiction
  cases f with
  | factor => exact hinteger (fun _ => rfl) h
  | summand => exact hinteger (fun _ => rfl) h
  | disabled =>
    simp only [parseSetting] at h
    split at h
    · obtain rfl := Except.ok.inj h
      rfl
    · contradiction

/-- An override is read only under the text of its key. -/
theorem text_key_of_ofPair? {pair : String × String} {o : Override}
    (h : ofPair? pair = some o) : o.key.text = pair.1 := by
  unfold ofPair? parse at h
  split at h
  · contradiction
  · rename_i k hk
    split at h
    · contradiction
    · rename_i x hx
      obtain rfl := Option.some.inj h
      rw [key, field_of_parseSetting hx]
      exact Key.text_of_parse hk

/-- No override is read that has an empty name. -/
theorem name_ne_empty_of_ofPair? {pair : String × String} {o : Override}
    (h : ofPair? pair = some o) : o.name ≠ "" := by
  intro hname
  have hkey : Key.parse pair.1 = .error (.emptyName o.key.text) := by
    rw [← text_key_of_ofPair? h, Key.parse_text]
    exact if_pos hname
  rw [ofPair?, parse, hkey] at h
  contradiction

/-- If no text of a key is given twice, neither is a key. -/
theorem ofPair?_inj_on {pairs : List (String × String)} (hpairs : (pairs.map Prod.fst).Nodup)
    {o p : Override} (ho : o ∈ pairs.filterMap ofPair?) (hp : p ∈ pairs.filterMap ofPair?)
    (hkey : o.key = p.key) : o = p := by
  obtain ⟨a, ha, hao⟩ := List.mem_filterMap.mp ho
  obtain ⟨b, hb, hbp⟩ := List.mem_filterMap.mp hp
  have hfst : a.1 = b.1 := by
    rw [← text_key_of_ofPair? hao, ← text_key_of_ofPair? hbp, hkey]
  obtain rfl := List.inj_on_of_nodup_map hpairs ha hb hfst
  exact Option.some.inj (hao.symm.trans hbp)

/-- Nor is an override read twice. -/
theorem nodup_filterMap_ofPair? {pairs : List (String × String)}
    (hpairs : (pairs.map Prod.fst).Nodup) : (pairs.filterMap ofPair?).Nodup := by
  refine List.Pairwise.filterMap ofPair? (fun a b hne o ho p hp hop => hne ?_)
    (List.pairwise_map.mp hpairs)
  rw [← text_key_of_ofPair? ho, ← text_key_of_ofPair? hp, hop]

end RuleSteering.Override
