import Mathlib.Data.List.Forall2
import RuleSteering.Proofs.Override.RoundTrip

/-!
# Which values are read

The value of a key is trimmed. A factor or a summand is read from what is left exactly if this is an
integer, and a disabled flag if it is one of two words; the fault of any other value says which key
and value it is about, and what is wrong with the integer
(`parse_value_eq_ok_iff_and_eq_error_iff`).

* `SameUpToCase`, a text is a word up to the case of its letters;
* `parse_eq_ok_iff`, `parse_eq_error_iff`, under a key that can be read the value decides.
-/

namespace RuleSteering.Override

open Text.Decimal (Denotes HasFlaw Flaw)

/-! ### Words in any case -/

/-- The text is the word, except that some of its letters may be capital ones. -/
def SameUpToCase (s word : List Char) : Prop :=
  List.Forall₂ (fun c d => c = d ∨ c = d.toUpper) s word

theorem toLower_eq_iff {c d : Char} (hd : d.isLower = true) :
    c.toLower = d ↔ c = d ∨ c = d.toUpper := by
  have hletter : 'a'.val ≤ d.val ∧ d.val ≤ 'z'.val :=
    (Bool.and_eq_true_iff.mp hd).imp of_decide_eq_true of_decide_eq_true
  have hlow : 97 ≤ d.val.toNat := UInt32.le_iff_toNat_le.mp hletter.1
  have hhigh : d.val.toNat ≤ 122 := UInt32.le_iff_toNat_le.mp hletter.2
  have hupper : d.toUpper.val.toNat = d.val.toNat - 32 := by
    unfold Char.toUpper
    rw [dif_pos hletter, UInt32.toNat_add, show ('A'.val - 'a'.val).toNat = 4294967264 from rfl]
    omega
  simp only [Char.ext_iff, ← UInt32.toNat_inj, hupper]
  unfold Char.toLower
  split
  · rename_i hc
    have hlow' : 65 ≤ c.val.toNat := UInt32.le_iff_toNat_le.mp hc.1
    have hhigh' : c.val.toNat ≤ 90 := UInt32.le_iff_toNat_le.mp hc.2
    rw [UInt32.toNat_add, show ('a'.val - 'A'.val).toNat = 32 from rfl]
    omega
  · rename_i hc
    have hcapital : ¬ (65 ≤ c.val.toNat ∧ c.val.toNat ≤ 90) := fun h =>
      hc ⟨UInt32.le_iff_toNat_le.mpr h.1, UInt32.le_iff_toNat_le.mpr h.2⟩
    omega

theorem map_toLower_eq_iff {s word : List Char} (h : ∀ d ∈ word, d.isLower = true) :
    s.map Char.toLower = word ↔ SameUpToCase s word := by
  unfold SameUpToCase
  induction word generalizing s with
  | nil => simp
  | cons d word ih =>
    cases s with
    | nil => simp
    | cons c s =>
      rw [List.map_cons, List.cons.injEq, List.forall₂_cons, toLower_eq_iff (h d List.mem_cons_self),
        ih fun x hx => h x (List.mem_cons_of_mem _ hx)]

theorem readBool?_eq_some_iff {s : List Char} {b : Bool} :
    readBool? s = some b ↔ SameUpToCase s (toString b).toList := by
  have hlower : ∀ d ∈ (toString b).toList, d.isLower = true :=
    List.all_eq_true.mp (by cases b <;> decide)
  rw [← map_toLower_eq_iff hlower, readBool?]
  split
  · rename_i htrue
    rw [htrue]
    cases b <;> decide
  · rename_i htrue
    split
    · rename_i hfalse
      rw [hfalse]
      cases b <;> decide
    · rename_i hfalse
      refine iff_of_false (by simp) ?_
      cases b with
      | true => exact htrue
      | false => exact hfalse

theorem readBool?_eq_none_iff {s : List Char} :
    readBool? s = none ↔ ∀ b : Bool, ¬ SameUpToCase s (toString b).toList := by
  simp only [← readBool?_eq_some_iff, Option.eq_none_iff_forall_ne_some]

/-! ### Values under a key -/

variable {key value : String} {k : Key}

theorem parse_of_key (hk : Key.parse key = .ok k) :
    parse key value = (parseSetting key value k.field).map (Override.mk k.scope k.name) := by
  rw [parse, hk]
  dsimp only
  cases parseSetting key value k.field <;> rfl

/-- Under a key that can be read only the value can be at fault. -/
theorem parse_eq_error_iff (hk : Key.parse key = .ok k) {e : Error} :
    parse key value = .error e ↔ parseSetting key value k.field = .error e := by
  rw [parse_of_key hk]
  cases parseSetting key value k.field <;> simp [Except.map]

theorem parse_eq_ok_iff (hk : Key.parse key = .ok k) {o : Override} :
    parse key value = .ok o ↔ o.key = k ∧ parseSetting key value k.field = .ok o.setting := by
  rw [parse_of_key hk]
  cases hx : parseSetting key value k.field with
  | error e => simp [Except.map]
  | ok x =>
    have hfield := field_of_parseSetting hx
    obtain ⟨scope, name, y⟩ := o
    obtain ⟨scope', name', field⟩ := k
    simp only [Except.map, Except.ok.injEq, Override.mk.injEq, Override.key, Key.mk.injEq] at *
    constructor
    · rintro ⟨rfl, rfl, rfl⟩
      exact ⟨⟨rfl, rfl, hfield⟩, rfl⟩
    · rintro ⟨⟨rfl, rfl, -⟩, rfl⟩
      exact ⟨rfl, rfl, rfl⟩

theorem parseInteger_eq_ok_iff {make : Int64 → Setting} {x : Setting} :
    parseInteger key value make = .ok x ↔
      ∃ n, x = make n ∧ Denotes (Text.trim value.toList) n.toInt := by
  simp only [← Text.Decimal.read_eq_ok_iff, parseInteger]
  cases Text.Decimal.read (Text.trim value.toList) <;> simp [eq_comm]

/-- A factor or a summand is read from an integer. -/
theorem parseSetting_integer_eq_ok_iff {x : Setting} (hx : x.field ≠ .disabled) :
    parseSetting key value x.field = .ok x ↔
      ∃ n, (x = .factor n ∨ x = .summand n) ∧ Denotes (Text.trim value.toList) n.toInt := by
  cases x with
  | factor m => simp [parseSetting, parseInteger_eq_ok_iff]
  | summand m => simp [parseSetting, parseInteger_eq_ok_iff]
  | disabled b => exact absurd rfl hx

/-- Any other value is at fault for what is wrong with the integer. -/
theorem parseSetting_integer_eq_error_iff {field : Field} (hfield : field ≠ .disabled) {e : Error} :
    parseSetting key value field = .error e ↔
      ∃ flaw, e = .invalidInteger key value flaw ∧ HasFlaw (Text.trim value.toList) flaw := by
  have hinteger (make : Int64 → Setting) : parseInteger key value make = .error e ↔
      ∃ flaw, e = .invalidInteger key value flaw ∧ HasFlaw (Text.trim value.toList) flaw := by
    simp only [← Text.Decimal.read_eq_error_iff, parseInteger]
    cases Text.Decimal.read (Text.trim value.toList) <;> simp [eq_comm]
  cases field with
  | factor => exact hinteger .factor
  | summand => exact hinteger .summand
  | disabled => exact absurd rfl hfield

/-- A flag is read from its word. -/
theorem parseSetting_disabled_eq_ok_iff {x : Setting} :
    parseSetting key value .disabled = .ok x ↔
      ∃ b : Bool, x = .disabled b ∧ SameUpToCase (Text.trim value.toList) (toString b).toList := by
  simp only [← readBool?_eq_some_iff, parseSetting]
  cases readBool? (Text.trim value.toList) <;> simp [eq_comm]

theorem parseSetting_disabled_eq_error_iff {e : Error} :
    parseSetting key value .disabled = .error e ↔ e = .invalidBool key value ∧
      ∀ b : Bool, ¬ SameUpToCase (Text.trim value.toList) (toString b).toList := by
  rw [← readBool?_eq_none_iff, parseSetting]
  cases readBool? (Text.trim value.toList) <;> simp [eq_comm]

/-- For every key that can be read and every value, with the blanks at its ends taken off. A factor or
a summand is read exactly from an integer of 64 bits, and is this integer; any other value is an
invalid integer, for the first thing that is wrong with it, which is that it is empty only if it is. A
disabled flag is read exactly from `true` and `false` in any case; any other value is an invalid flag.
And every override is read back from its pair, unless it has an empty name, which is its fault then. -/
theorem parse_value_eq_ok_iff_and_eq_error_iff :
    (∀ (key value : String) (k : Key), Key.parse key = .ok k →
      let t := Text.trim value.toList
      Text.IsTrimmed value.toList t ∧
        (k.field ≠ .disabled →
          (∀ o, parse key value = .ok o ↔ o.key = k ∧
            ∃ n, (o.setting = .factor n ∨ o.setting = .summand n) ∧ Denotes t n.toInt) ∧
          (∀ e, parse key value = .error e ↔
            ∃ flaw, e = .invalidInteger key value flaw ∧ HasFlaw t flaw) ∧
          (parse key value = .error (.invalidInteger key value .empty) ↔ t = [])) ∧
        (k.field = .disabled →
          (∀ o, parse key value = .ok o ↔ o.key = k ∧
            ∃ b : Bool, o.setting = .disabled b ∧ SameUpToCase t (toString b).toList) ∧
          (∀ e, parse key value = .error e ↔ e = .invalidBool key value ∧
            ∀ b : Bool, ¬ SameUpToCase t (toString b).toList))) ∧
      ∀ o, (parse o.toPair.1 o.toPair.2 = .ok o ↔ o.name ≠ "") ∧
        (o.name = "" → parse o.toPair.1 o.toPair.2 = .error (.emptyName o.toPair.1)) := by
  constructor
  · intro key value k hk t
    refine ⟨Text.isTrimmed_trim _, fun hfield => ?_, fun hfield => ?_⟩
    · have herror (e : Error) : parse key value = .error e ↔
          ∃ flaw, e = .invalidInteger key value flaw ∧ HasFlaw t flaw := by
        rw [parse_eq_error_iff hk]
        exact parseSetting_integer_eq_error_iff hfield
      refine ⟨fun o => ?_, herror, ?_⟩
      · rw [parse_eq_ok_iff hk]
        refine and_congr_right ?_
        rintro rfl
        exact parseSetting_integer_eq_ok_iff hfield
      · rw [herror, ← Text.Decimal.hasFlaw_empty_iff]
        simp
    · refine ⟨fun o => ?_, fun e => ?_⟩
      · rw [parse_eq_ok_iff hk, hfield]
        exact and_congr_right fun _ => parseSetting_disabled_eq_ok_iff
      · rw [parse_eq_error_iff hk, hfield]
        exact parseSetting_disabled_eq_error_iff
  · intro o
    rw [parse_toPair]
    by_cases hname : o.name = ""
    · rw [if_pos hname]
      exact ⟨iff_of_false (by simp) (not_not.mpr hname), fun _ => rfl⟩
    · rw [if_neg hname]
      exact ⟨iff_of_true rfl hname, fun h => absurd h hname⟩

/-- The number leaves the range before the letter is met, and so it is too small; with zeros in front
and blanks around it an integer is read, and with no name no pair is. -/
theorem parse_value_of_two_flaws :
    let key := "ruleset.java.lang.summand"
    Key.parse key = .ok ⟨.group, "java.lang", .summand⟩ ∧
      HasFlaw (Text.trim "-9223372036854775809x".toList) .tooSmall ∧
      parse key "\t+007 " = .ok ⟨.group, "java.lang", .summand 7⟩ ∧
      parse "rule..factor" "3" = .error (.emptyName "rule..factor") := by
  intro key
  have hk : Key.parse key = .ok ⟨.group, "java.lang", .summand⟩ := by decide +kernel
  obtain ⟨hvalue, hpair⟩ := parse_value_eq_ok_iff_and_eq_error_iff
  obtain ⟨-, hflawed, -⟩ := hvalue key "-9223372036854775809x" _ hk
  obtain ⟨-, hinteger, -⟩ := hvalue key "\t+007 " _ hk
  obtain ⟨-, herror, -⟩ := hflawed (by decide)
  obtain ⟨hok, -⟩ := hinteger (by decide)
  refine ⟨hk, ?_, ?_, (hpair ⟨.rule, "", .factor 3⟩).2 rfl⟩
  · have hparse : parse key "-9223372036854775809x" =
        .error (.invalidInteger key "-9223372036854775809x" .tooSmall) := by decide +kernel
    obtain ⟨flaw, hflaw, hhas⟩ := (herror _).mp hparse
    obtain rfl : Flaw.tooSmall = flaw := (Error.invalidInteger.inj hflaw).2.2
    exact hhas
  · have hdenotes : Denotes (Text.trim "\t+007 ".toList) (7 : Int64).toInt :=
      ⟨by decide +kernel, List.all_eq_true.mp (by decide +kernel), by decide +kernel⟩
    exact (hok _).mpr ⟨rfl, 7, .inr rfl, hdenotes⟩

end RuleSteering.Override
