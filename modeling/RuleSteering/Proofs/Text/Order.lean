import Mathlib.Data.List.Nodup
import Mathlib.Data.List.Perm.Subperm
import Mathlib.Data.String.Basic
import Mathlib.Tactic.SplitIfs
import Mathlib.Tactic.Tauto
import Std.Data.ExtTreeMap
import Std.Data.ExtTreeSet

/-!
# The order of texts

Texts are ordered by their characters, which is the order of their bytes in UTF-8 as well
(`utf8_lt_utf8_iff`): the first byte tells how many follow and so which of two characters is greater, unless
both take the same number of bytes, and then the bytes are digits in base 64.

* `utf8`, the bytes of a text; `utf8EncodeChar_append_lt`, one character;
* `Ascending`, texts in strictly ascending order. Sets of texts and tables are listed so (`ascending_toList`,
  `ascending_fst_toList`), and what is listed so is the list of its set or table (`toList_ofList_names`,
  `toList_ofList_entries`).
-/

namespace RuleSteering.Text

/-! ### Bytes -/

/-- The bytes of a text in UTF-8. -/
def utf8 (s : String) : List UInt8 :=
  s.toUTF8.data.toList

theorem utf8_eq_flatMap (s : String) : utf8 s = s.toList.flatMap String.utf8EncodeChar := by
  rw [utf8, String.toUTF8_eq_toByteArray, ← String.utf8Encode_toList, List.utf8Encode,
    List.data_toByteArray]

theorem ofNat_cons_lt_iff {m n : Nat} (hm : m < 256) (hn : n < 256) {x y : List UInt8} :
    UInt8.ofNat m :: x < UInt8.ofNat n :: y ↔ m < n ∨ m = n ∧ x < y := by
  rw [List.cons_lt_cons_iff, UInt8.lt_iff_toNat_lt, ← UInt8.toNat_inj, UInt8.toNat_ofNat_of_lt' hm,
    UInt8.toNat_ofNat_of_lt' hn]

/-- Of two numbers the smaller one has the smaller digit in base 64 where they first differ. -/
theorem digits_lt {m n : Nat} (h : m < n) :
    m / 262144 < n / 262144 ∨ m / 262144 = n / 262144 ∧
      (m / 4096 % 64 < n / 4096 % 64 ∨ m / 4096 % 64 = n / 4096 % 64 ∧
        (m / 64 % 64 < n / 64 % 64 ∨ m / 64 % 64 = n / 64 % 64 ∧ m % 64 < n % 64)) := by
  have hdigit (a b : Nat) : a < b ↔ a / 64 < b / 64 ∨ a / 64 = b / 64 ∧ a % 64 < b % 64 := by omega
  rw [hdigit, hdigit (m / 64), hdigit (m / 64 / 64)] at h
  omega

/-- The bytes of the smaller one of two characters come first, whatever follows them. -/
theorem utf8EncodeChar_append_lt {c d : Char} (h : c < d) (x y : List UInt8) :
    String.utf8EncodeChar c ++ x < String.utf8EncodeChar d ++ y := by
  have hlt : c.val.toNat < d.val.toNat := UInt32.lt_iff_toNat_lt.mp h
  have hmax : d.val.toNat < 0x110000 := by
    have hvalid := d.valid
    simp only [UInt32.isValidChar, Nat.isValidChar] at hvalid
    omega
  by_cases hfour : 0xffff < c.val.toNat
  · have hdigits := digits_lt hlt
    rw [String.utf8EncodeChar, if_neg (by omega), if_neg (by omega), if_neg (by omega),
      String.utf8EncodeChar, if_neg (by omega), if_neg (by omega), if_neg (by omega)]
    simp (disch := omega) only [List.cons_append, ofNat_cons_lt_iff, Nat.add_lt_add_iff_right,
      Nat.add_right_cancel_iff, Nat.mod_eq_of_lt]
    tauto
  · -- with fewer bytes there are few enough digits to decide every pair of lengths at once
    simp only [String.utf8EncodeChar]
    split_ifs
    all_goals
      simp (disch := omega) only [List.cons_append, List.nil_append, ofNat_cons_lt_iff]
      omega

theorem flatMap_utf8EncodeChar_lt {l m : List Char} (h : l < m) :
    l.flatMap String.utf8EncodeChar < m.flatMap String.utf8EncodeChar := by
  induction h with
  | @nil c m =>
    obtain ⟨b, bs, hb⟩ := List.exists_cons_of_ne_nil (String.utf8EncodeChar_ne_nil (c := c))
    rw [List.flatMap_cons, hb]
    exact List.nil_lt_cons b _
  | rel h => exact utf8EncodeChar_append_lt h _ _
  | cons _ ih => exact List.append_left_lt ih

/-- Texts are ordered as their bytes are. -/
theorem utf8_lt_utf8_iff {s t : String} : utf8 s < utf8 t ↔ s < t := by
  have hmono {s t : String} (h : s < t) : utf8 s < utf8 t := by
    rw [utf8_eq_flatMap, utf8_eq_flatMap]
    exact flatMap_utf8EncodeChar_lt h
  refine ⟨fun h => ?_, hmono⟩
  rcases lt_trichotomy s t with hlt | rfl | hgt
  · exact hlt
  · exact absurd h (List.lt_irrefl _)
  · exact absurd h (List.lt_asymm (hmono hgt))

/-! ### Texts in ascending order -/

/-- The texts are in strictly ascending order, so that none of them is repeated. -/
def Ascending (names : List String) : Prop :=
  names.Pairwise (· < ·)

instance (names : List String) : Decidable (Ascending names) :=
  inferInstanceAs (Decidable (names.Pairwise (· < ·)))

theorem ascending_iff_utf8 {names : List String} :
    Ascending names ↔ names.Pairwise fun s t => utf8 s < utf8 t := by
  simp only [utf8_lt_utf8_iff]
  rfl

theorem compare_eq_lt_iff {s t : String} : compare s t = .lt ↔ s < t :=
  compareOfLessAndEq_eq_lt

theorem compare_ne_eq_of_lt {s t : String} (h : s < t) : ¬ compare s t = .eq := by
  rw [compare_eq_lt_iff.mpr h]
  decide

theorem Ascending.nodup {names : List String} (h : Ascending names) : names.Nodup := by
  refine List.Pairwise.imp (fun {s t} hlt => ?_) h
  rintro rfl
  exact String.lt_irrefl _ hlt

/-- Lists in ascending order with the same members are equal. -/
theorem eq_of_ascending_map {α : Type} {f : α → String} {l m : List α} (hl : Ascending (l.map f))
    (hm : Ascending (m.map f)) (h : l.Perm m) : l = m := by
  have hsorted {l : List α} (hl : Ascending (l.map f)) : l.Pairwise fun a b => f a < f b :=
    List.pairwise_map.mp hl
  exact h.eq_of_pairwise (fun _ _ _ _ hlt hgt => absurd hgt (String.lt_asymm hlt)) (hsorted hl)
    (hsorted hm)

theorem Ascending.eq_of_mem_iff {l m : List String} (hl : Ascending l) (hm : Ascending m)
    (h : ∀ name, name ∈ l ↔ name ∈ m) : l = m := by
  have hperm : l.Perm m := (List.perm_ext_iff_of_nodup hl.nodup hm.nodup).mpr h
  rw [← List.map_id l] at hl
  rw [← List.map_id m] at hm
  exact eq_of_ascending_map hl hm hperm

/-- A set of texts is listed in ascending order. -/
theorem ascending_toList (names : Std.ExtTreeSet String) : Ascending names.toList :=
  Std.ExtTreeSet.ordered_toList.imp compare_eq_lt_iff.mp

theorem ofList_toList_names (names : Std.ExtTreeSet String) :
    Std.ExtTreeSet.ofList names.toList = names := by
  refine Std.ExtTreeSet.ext_mem fun name => ?_
  rw [Std.ExtTreeSet.mem_ofList, List.contains_iff_mem, Std.ExtTreeSet.mem_toList]

theorem toList_ofList_names {names : List String} (h : Ascending names) :
    (Std.ExtTreeSet.ofList names).toList = names := by
  refine (ascending_toList _).eq_of_mem_iff h fun name => ?_
  rw [Std.ExtTreeSet.mem_toList, Std.ExtTreeSet.mem_ofList, List.contains_iff_mem]

section Table

variable {α : Type}

/-- A table is listed in ascending order of its keys. -/
theorem ascending_fst_toList (m : Std.ExtTreeMap String α) : Ascending (m.toList.map Prod.fst) :=
  List.pairwise_map.mpr (Std.ExtTreeMap.ordered_keys_toList.imp compare_eq_lt_iff.mp)

theorem ofList_toList (m : Std.ExtTreeMap String α) : Std.ExtTreeMap.ofList m.toList = m := by
  refine Std.ExtTreeMap.ext_getElem? fun k => ?_
  cases h : m[k]? with
  | some v =>
    exact Std.ExtTreeMap.getElem?_ofList_of_mem Std.ReflCmp.compare_self
      Std.ExtTreeMap.distinct_keys_toList (Std.ExtTreeMap.mem_toList_iff_getElem?_eq_some.mpr h)
  | none =>
    refine Std.ExtTreeMap.getElem?_ofList_of_contains_eq_false ?_
    rw [Std.ExtTreeMap.map_fst_toList_eq_keys, Bool.eq_false_iff]
    intro hk
    rw [List.contains_iff_mem, Std.ExtTreeMap.mem_keys, Std.ExtTreeMap.mem_iff_isSome_getElem?, h] at hk
    contradiction

theorem toList_ofList_entries {entries : List (String × α)} (h : Ascending (entries.map Prod.fst)) :
    (Std.ExtTreeMap.ofList entries).toList = entries := by
  have hdistinct : entries.Pairwise fun a b => ¬ compare a.1 b.1 = .eq :=
    (List.pairwise_map.mp h).imp compare_ne_eq_of_lt
  have hsub : entries ⊆ (Std.ExtTreeMap.ofList entries).toList := fun e he =>
    Std.ExtTreeMap.mem_toList_iff_getElem?_eq_some.mpr
      (Std.ExtTreeMap.getElem?_ofList_of_mem Std.ReflCmp.compare_self hdistinct he)
  have hperm : entries.Perm (Std.ExtTreeMap.ofList entries).toList := by
    refine (List.subperm_of_subset (List.Nodup.of_map _ h.nodup) hsub).perm_of_length_le ?_
    rw [Std.ExtTreeMap.length_toList, Std.ExtTreeMap.size_ofList hdistinct]
  exact (eq_of_ascending_map h (ascending_fst_toList _) hperm).symm

end Table

end RuleSteering.Text
