import Mathlib.Data.Nat.Digits.Lemmas
import RuleSteering.Text.Escape

/-!
# What escapes stand for

The reader of escapes decodes a text from left to right by a list of rules (`Decodes`). The rules leave
open which characters after `\u` name a character. Four hexadecimal digits do, but the reader also takes
fewer of them at the end of a text, and digits after a plus sign (`decodes_iff_and_strictly_iff`).

* `hexNumber`, the number of hexadecimal digits;
* `NamesStrictly` and `NamesLoosely`, what names a character by the format and for the reader;
  `IsLoose`, where they differ;
* `unicodeGroups`, the characters that are taken after each `\u` of a text;
* `decodes_unescape` and `Decodes.eq_unescape`, the reader's text is what the rules lead to;
  `Decodes.length_unescape_le`, by the strict rules no text is shorter.
-/

namespace RuleSteering.Text

/-! ### Hexadecimal numbers -/

/-- The digits of base sixteen, each at the place of its value. -/
def hexDigits : List Char := "0123456789abcdef".toList

/-- The number that hexadecimal digits of either case are in base sixteen. -/
def hexNumber (h : List Char) : Nat :=
  Nat.ofDigits 16 (h.reverse.map fun c => hexDigits.idxOf c.toLower)

theorem hexNumber_cons (c : Char) (h : List Char) :
    hexNumber (c :: h) = 16 ^ h.length * hexDigits.idxOf c.toLower + hexNumber h := by
  simp [hexNumber, Nat.ofDigits_append, Nat.add_comm]

theorem isHexDigit_iff {c : Char} : c.isHexDigit = true ↔
    ('0' ≤ c ∧ c ≤ '9') ∨ ('a' ≤ c ∧ c ≤ 'f') ∨ ('A' ≤ c ∧ c ≤ 'F') := by
  simp [Char.isHexDigit, Char.isDigit, Char.le_def, or_assoc]

/-- The reader knows the value of every hexadecimal digit. -/
theorem hexDigit?_of_isHexDigit {c : Char} (h : c.isHexDigit = true) :
    hexDigit? c = some (hexDigits.idxOf c.toLower) ∧ hexDigits.idxOf c.toLower < 16 := by
  -- the digits are among the first characters, which can be tried one by one
  have hall : ∀ n < 128, (Char.ofNat n).isHexDigit = true →
      hexDigit? (Char.ofNat n) = some (hexDigits.idxOf (Char.ofNat n).toLower) ∧
        hexDigits.idxOf (Char.ofNat n).toLower < 16 := by decide +kernel
  have hbelow {d : Char} (hle : c ≤ d) (hd : d.toNat < 128) : c.toNat < 128 :=
    Nat.lt_of_le_of_lt (UInt32.le_iff_toNat_le.mp hle) hd
  have hc : c.toNat < 128 := by
    rcases isHexDigit_iff.mp h with hle | hle | hle <;> exact hbelow hle.2 (by decide)
  have hdigit := hall c.toNat hc
  rw [Char.ofNat_toNat] at hdigit
  exact hdigit h

theorem hexDigit?_of_not_isHexDigit {c : Char} (h : c.isHexDigit = false) : hexDigit? c = none := by
  rw [← Bool.not_eq_true, isHexDigit_iff, not_or, not_or] at h
  rw [hexDigit?, if_neg h.1, if_neg h.2.1, if_neg h.2.2]

theorem hexNumber?_eq_some_iff {m n : Nat} {h : List Char} :
    hexNumber? m h = some n ↔
      (∀ c ∈ h, c.isHexDigit = true) ∧ 16 ^ h.length * m + hexNumber h = n := by
  induction h generalizing m with
  | nil => simp [hexNumber?, hexNumber]
  | cons c h ih =>
    cases hc : c.isHexDigit with
    | false => simp [hexNumber?, hexDigit?_of_not_isHexDigit hc, hc]
    | true =>
      have hnumber : 16 ^ h.length * (16 * m + hexDigits.idxOf c.toLower) + hexNumber h =
          16 ^ (c :: h).length * m + hexNumber (c :: h) := by
        rw [hexNumber_cons, List.length_cons, pow_succ, Nat.mul_add, Nat.mul_assoc, Nat.add_assoc]
      rw [hexNumber?, (hexDigit?_of_isHexDigit hc).1, Option.bind_some, ih, hnumber,
        List.forall_mem_cons, and_iff_right hc]

theorem hexNumber_lt {h : List Char} (hdigits : ∀ c ∈ h, c.isHexDigit = true) :
    hexNumber h < 16 ^ h.length := by
  induction h with
  | nil => simp [hexNumber]
  | cons c h ih =>
    obtain ⟨hc, hrest⟩ := List.forall_mem_cons.mp hdigits
    have hlast := (hexDigit?_of_isHexDigit hc).2
    rw [hexNumber_cons, List.length_cons, pow_succ]
    calc 16 ^ h.length * hexDigits.idxOf c.toLower + hexNumber h
        < 16 ^ h.length * hexDigits.idxOf c.toLower + 16 ^ h.length := Nat.add_lt_add_left (ih hrest) _
      _ = 16 ^ h.length * (hexDigits.idxOf c.toLower + 1) := (Nat.mul_succ _ _).symm
      _ ≤ 16 ^ h.length * 16 := Nat.mul_le_mul_left _ hlast

/-! ### Names of characters -/

/-- The characters are four hexadecimal digits, and their number is that of the character `c`. -/
def NamesStrictly (h : List Char) (c : Char) : Prop :=
  h.length = 4 ∧ (∀ x ∈ h, x.isHexDigit = true) ∧ hexNumber h = c.toNat

/-- The characters are hexadecimal digits, at least one, that may stand after a plus sign, and their
number is that of the character `c`. -/
def NamesLoosely (h : List Char) (c : Char) : Prop :=
  ∃ ds, (h = ds ∨ h = '+' :: ds) ∧ ds ≠ [] ∧ (∀ x ∈ ds, x.isHexDigit = true) ∧ hexNumber ds = c.toNat

/-- The characters are hexadecimal digits, but fewer than four, or such digits after a plus sign. -/
def IsLoose (h : List Char) : Prop :=
  ∃ ds, ((h = ds ∧ ds.length < 4) ∨ h = '+' :: ds) ∧ ds ≠ [] ∧ ∀ x ∈ ds, x.isHexDigit = true

/-- A number of a character is that of no surrogate. -/
theorem scalar?_eq_some_iff {n : Nat} {c : Char} : scalar? n = some c ↔ n = c.toNat := by
  unfold scalar?
  split
  · rename_i hvalid
    have hnumber : (Char.ofNat n).toNat = n := by
      rw [Char.ofNat, dif_pos hvalid]
      rfl
    rw [Option.some.injEq]
    constructor
    · rintro rfl
      exact hnumber.symm
    · rintro rfl
      exact Char.ofNat_toNat c
  · rename_i hvalid
    refine iff_of_false (by simp) ?_
    rintro rfl
    exact hvalid c.valid

theorem codePoint?_eq_some_iff {h : List Char} {n : Nat} : codePoint? h = some n ↔
    ∃ ds, (h = ds ∨ h = '+' :: ds) ∧ ds ≠ [] ∧ (∀ x ∈ ds, x.isHexDigit = true) ∧
      hexNumber ds = n := by
  have hplus : '+'.isHexDigit = false := by decide
  unfold codePoint?
  split
  · simp
  · simp [hplus]
  · rename_i s hs
    have hs : s ≠ [] := hs
    simp [hexNumber?_eq_some_iff, hplus, hs]
  · rename_i hnil _ hsign
    have hnil : h ≠ [] := hnil
    have hsign (ds : List Char) : h ≠ '+' :: ds := hsign ds
    simp [hexNumber?_eq_some_iff, hnil, hsign]

theorem namesLoosely_iff {h : List Char} {c : Char} :
    NamesLoosely h c ↔ (codePoint? h).bind scalar? = some c := by
  simp only [Option.bind_eq_some_iff, scalar?_eq_some_iff, exists_eq_right, codePoint?_eq_some_iff,
    NamesLoosely]

theorem unicodeEscape_of_namesLoosely {h : List Char} {c : Char} (hc : NamesLoosely h c) :
    unicodeEscape h = [c] := by
  rw [unicodeEscape, namesLoosely_iff.mp hc]

theorem unicodeEscape_of_not_namesLoosely {h : List Char} (hc : ∀ c, ¬ NamesLoosely h c) :
    unicodeEscape h = '\\' :: 'u' :: h := by
  have hnone : (codePoint? h).bind scalar? = none :=
    Option.eq_none_iff_forall_ne_some.mpr fun c => mt namesLoosely_iff.mpr (hc c)
  rw [unicodeEscape, hnone]

/-- Unless they are loose, the characters name the same character for both. -/
theorem namesStrictly_iff_of_not_isLoose {h : List Char} (hlen : h.length ≤ 4) (hh : ¬ IsLoose h)
    {c : Char} : NamesStrictly h c ↔ NamesLoosely h c := by
  constructor
  · rintro ⟨hfour, hdigits, hnumber⟩
    refine ⟨h, .inl rfl, ?_, hdigits, hnumber⟩
    rintro rfl
    contradiction
  · rintro ⟨ds, rfl | rfl, hne, hdigits, hnumber⟩
    · have hfour : ¬ h.length < 4 := fun hlt => hh ⟨h, .inl ⟨rfl, hlt⟩, hne, hdigits⟩
      exact ⟨by omega, hdigits, hnumber⟩
    · exact absurd ⟨ds, .inr rfl, hne, hdigits⟩ hh

/-- Loose characters name a character, but not strictly. -/
theorem exists_namesLoosely_of_isLoose {h : List Char} (hlen : h.length ≤ 4) (hh : IsLoose h) :
    (∃ c, NamesLoosely h c) ∧ ∀ c, ¬ NamesStrictly h c := by
  obtain ⟨ds, hds, hne, hdigits⟩ := hh
  have hshort : ds.length ≤ 3 := by
    rcases hds with ⟨-, hlt⟩ | rfl
    · omega
    · exact Nat.le_of_succ_le_succ hlen
  -- three digits are too few for a surrogate
  have hsmall : hexNumber ds < 16 ^ 3 :=
    Nat.lt_of_lt_of_le (hexNumber_lt hdigits) (Nat.pow_le_pow_right (by decide) hshort)
  have hvalid : (hexNumber ds).isValidChar := .inl (by omega)
  refine ⟨⟨Char.ofNat (hexNumber ds), ds, hds.imp_left And.left, hne, hdigits, ?_⟩, ?_⟩
  · exact scalar?_eq_some_iff.mp (if_pos hvalid)
  · rintro c ⟨hfour, hall, -⟩
    rcases hds with ⟨rfl, hlt⟩ | rfl
    · omega
    · exact absurd (hall '+' List.mem_cons_self) (by decide)

/-! ### Decoding -/

/-- The characters that stand for a control character after a backslash. -/
def controlLetters : List (Char × Char) :=
  [('t', '\t'), ('n', '\n'), ('r', '\r'), ('f', '\x0c')]

/-- A text is decoded from left to right by these rules, where `Names h c` says that the characters `h`
after `\u` name the character `c`. No more than four characters are taken after `\u`. -/
inductive Decodes (Names : List Char → Char → Prop) : List Char → List Char → Prop
  | nil : Decodes Names [] []
  | backslash : Decodes Names ['\\'] []
  | plain {c : Char} {s t : List Char} (hc : c ≠ '\\') (hs : Decodes Names s t) :
      Decodes Names (c :: s) (c :: t)
  | control {c d : Char} {s t : List Char} (hc : (c, d) ∈ controlLetters) (hs : Decodes Names s t) :
      Decodes Names ('\\' :: c :: s) (d :: t)
  | escaped {c : Char} {s t : List Char} (hu : c ≠ 'u') (hc : ∀ d, (c, d) ∉ controlLetters)
      (hs : Decodes Names s t) : Decodes Names ('\\' :: c :: s) (c :: t)
  | named {c : Char} {s t : List Char} (hc : Names (s.take 4) c) (hs : Decodes Names (s.drop 4) t) :
      Decodes Names ('\\' :: 'u' :: s) (c :: t)
  | unnamed {s t : List Char} (hc : ∀ c, ¬ Names (s.take 4) c) (hs : Decodes Names (s.drop 4) t) :
      Decodes Names ('\\' :: 'u' :: s) ('\\' :: 'u' :: s.take 4 ++ t)

/-- The characters that are taken after each `\u` of a text. -/
def unicodeGroups : List Char → List (List Char)
  | [] => []
  | ['\\'] => []
  | '\\' :: 'u' :: a :: b :: c :: d :: s => [a, b, c, d] :: unicodeGroups s
  | '\\' :: 'u' :: h => [h]
  | '\\' :: _ :: s => unicodeGroups s
  | _ :: s => unicodeGroups s

theorem unicodeGroups_cons {c : Char} (s : List Char) (h : c ≠ '\\') :
    unicodeGroups (c :: s) = unicodeGroups s := by
  simp [unicodeGroups, h]

theorem unicodeGroups_escaped {c : Char} (s : List Char) (h : c ≠ 'u') :
    unicodeGroups ('\\' :: c :: s) = unicodeGroups s := by
  simp [unicodeGroups, h]

theorem unicodeGroups_unicode (s : List Char) :
    unicodeGroups ('\\' :: 'u' :: s) = s.take 4 :: unicodeGroups (s.drop 4) := by
  match s with
  | [] | [_] | [_, _] | [_, _, _] => rfl
  | _ :: _ :: _ :: _ :: _ => rfl

theorem unescape_unicode (s : List Char) :
    unescape ('\\' :: 'u' :: s) = unicodeEscape (s.take 4) ++ unescape (s.drop 4) := by
  match s with
  | [] | [_] | [_, _] | [_, _, _] => simp [unescape]
  | _ :: _ :: _ :: _ :: _ => rfl

/-- What holds of a text if it holds of what is left of it after its first escape or character. -/
@[elab_as_elim] theorem escapeInduction {P : List Char → Prop} (nil : P []) (backslash : P ['\\'])
    (plain : ∀ c s, c ≠ '\\' → P s → P (c :: s))
    (escaped : ∀ c s, c ≠ 'u' → P s → P ('\\' :: c :: s))
    (unicode : ∀ s, P (s.drop 4) → P ('\\' :: 'u' :: s)) (s : List Char) : P s := by
  induction hlen : s.length using Nat.strong_induction_on generalizing s with
  | h n ih =>
    subst hlen
    have rest (r : List Char) (hr : r.length < s.length) : P r := ih r.length hr r rfl
    cases s with
    | nil => exact nil
    | cons c s =>
      by_cases hc : c = '\\'
      · subst hc
        cases s with
        | nil => exact backslash
        | cons c s =>
          by_cases hu : c = 'u'
          · subst hu
            exact unicode s (rest _ (by simp; omega))
          · exact escaped c s hu (rest s (by simp))
      · exact plain c s hc (rest s (by simp))

theorem length_le_of_mem_unicodeGroups {s h : List Char} (hh : h ∈ unicodeGroups s) :
    h.length ≤ 4 := by
  induction s using escapeInduction with
  | nil => contradiction
  | backslash => contradiction
  | plain c s hc ih => exact ih (unicodeGroups_cons s hc ▸ hh)
  | escaped c s hu ih => exact ih (unicodeGroups_escaped s hu ▸ hh)
  | unicode s ih =>
    rw [unicodeGroups_unicode] at hh
    rcases List.mem_cons.mp hh with rfl | hh
    · exact List.length_take_le 4 s
    · exact ih hh

theorem escapedChar_of_mem {c d : Char} (h : (c, d) ∈ controlLetters) :
    escapedChar c = d ∧ c ≠ 'u' := by
  simp only [controlLetters, List.mem_cons, Prod.mk.injEq, List.not_mem_nil, or_false] at h
  rcases h with ⟨rfl, rfl⟩ | ⟨rfl, rfl⟩ | ⟨rfl, rfl⟩ | ⟨rfl, rfl⟩ <;> decide

theorem escapedChar_of_not_mem {c : Char} (h : ∀ d, (c, d) ∉ controlLetters) :
    escapedChar c = c := by
  have hne {x d : Char} (hx : (x, d) ∈ controlLetters) : c ≠ x := by
    rintro rfl
    exact h d hx
  rw [escapedChar, if_neg (hne (d := '\t') (by decide)), if_neg (hne (d := '\n') (by decide)),
    if_neg (hne (d := '\r') (by decide)), if_neg (hne (d := '\x0c') (by decide))]

/-- The reader decodes a text by the rules if it agrees on what names a character with them. -/
theorem decodes_unescape {Names : List Char → Char → Prop} {s : List Char}
    (hnames : ∀ h ∈ unicodeGroups s, ∀ c, Names h c ↔ NamesLoosely h c) :
    Decodes Names s (unescape s) := by
  induction s using escapeInduction with
  | nil => exact .nil
  | backslash => exact .backslash
  | plain c s hc ih =>
    rw [unicodeGroups_cons s hc] at hnames
    rw [unescape_cons s hc]
    exact .plain hc (ih hnames)
  | escaped c s hu ih =>
    rw [unicodeGroups_escaped s hu] at hnames
    rw [unescape_escaped s hu]
    by_cases hc : ∃ d, (c, d) ∈ controlLetters
    · obtain ⟨d, hd⟩ := hc
      rw [(escapedChar_of_mem hd).1]
      exact .control hd (ih hnames)
    · have hc := not_exists.mp hc
      rw [escapedChar_of_not_mem hc]
      exact .escaped hu hc (ih hnames)
  | unicode s ih =>
    rw [unicodeGroups_unicode, List.forall_mem_cons] at hnames
    obtain ⟨hgroup, hrest⟩ := hnames
    rw [unescape_unicode]
    by_cases hc : ∃ c, NamesLoosely (s.take 4) c
    · obtain ⟨c, hc⟩ := hc
      rw [unicodeEscape_of_namesLoosely hc]
      exact .named ((hgroup c).mpr hc) (ih hrest)
    · have hc := not_exists.mp hc
      rw [unicodeEscape_of_not_namesLoosely hc]
      exact .unnamed (fun c => mt (hgroup c).mp (hc c)) (ih hrest)

/-- The reader's text is the only one that the rules allow if they let characters be named loosely. -/
theorem Decodes.eq_unescape {s t : List Char} (h : Decodes NamesLoosely s t) : t = unescape s := by
  induction h with
  | nil => rfl
  | backslash => rfl
  | plain hc _ ih => rw [unescape_cons _ hc, ih]
  | control hc _ ih =>
    obtain ⟨hreads, hu⟩ := escapedChar_of_mem hc
    rw [unescape_escaped _ hu, hreads, ih]
  | escaped hu hc _ ih => rw [unescape_escaped _ hu, escapedChar_of_not_mem hc, ih]
  | named hc _ ih => rw [unescape_unicode, unicodeEscape_of_namesLoosely hc, ih]; rfl
  | unnamed hc _ ih => rw [unescape_unicode, unicodeEscape_of_not_namesLoosely hc, ih]

/-- By the strict rules no text becomes shorter than by the reader, and a longer one if characters are
named loosely in it. -/
theorem Decodes.length_unescape_le {s t : List Char} (h : Decodes NamesStrictly s t) :
    (unescape s).length ≤ t.length ∧
      ((∃ g ∈ unicodeGroups s, IsLoose g) → (unescape s).length < t.length) := by
  induction h with
  | nil => simp [unicodeGroups]
  | backslash => simp [unicodeGroups]
  | plain hc _ ih =>
    rw [unescape_cons _ hc, unicodeGroups_cons _ hc]
    simpa using ih
  | control hc _ ih =>
    have hu := (escapedChar_of_mem hc).2
    rw [unescape_escaped _ hu, unicodeGroups_escaped _ hu]
    simpa using ih
  | escaped hu _ _ ih =>
    rw [unescape_escaped _ hu, unicodeGroups_escaped _ hu]
    simpa using ih
  | @named c s t hc _ ih =>
    have hlen := List.length_take_le 4 s
    have hstrict : ¬ IsLoose (s.take 4) := fun hloose =>
      (exists_namesLoosely_of_isLoose hlen hloose).2 c hc
    rw [unescape_unicode, unicodeGroups_unicode, List.exists_mem_cons_iff, or_iff_right hstrict,
      unicodeEscape_of_namesLoosely ((namesStrictly_iff_of_not_isLoose hlen hstrict).mp hc)]
    simpa using ih
  | @unnamed s t hc _ ih =>
    have hlen := List.length_take_le 4 s
    rw [unescape_unicode, unicodeGroups_unicode, List.exists_mem_cons_iff]
    by_cases hloose : IsLoose (s.take 4)
    · obtain ⟨d, hd⟩ := (exists_namesLoosely_of_isLoose hlen hloose).1
      rw [unicodeEscape_of_namesLoosely hd]
      simp
      omega
    · have hnot : ∀ c, ¬ NamesLoosely (s.take 4) c := fun c h =>
        hc c ((namesStrictly_iff_of_not_isLoose hlen hloose).mpr h)
      rw [unicodeEscape_of_not_namesLoosely hnot, or_iff_right hloose]
      simpa using ih

/-- The reader keeps to the strict rules exactly if no characters are named loosely. -/
theorem decodes_strictly_unescape_iff {s : List Char} :
    Decodes NamesStrictly s (unescape s) ↔ ∀ g ∈ unicodeGroups s, ¬ IsLoose g := by
  constructor
  · intro h g hg hloose
    exact absurd (h.length_unescape_le.2 ⟨g, hg, hloose⟩) (lt_irrefl _)
  · intro h
    exact decodes_unescape fun g hg c =>
      namesStrictly_iff_of_not_isLoose (length_le_of_mem_unicodeGroups hg) (h g hg)

/-- The rules, if they let characters be named loosely, allow the reader's text and no other. If they are
strict, they allow it exactly if what is taken after a `\u`, four characters or all that are left, is
nowhere less than four hexadecimal digits, nor a plus sign with such digits after it. -/
theorem decodes_iff_and_strictly_iff (s : List Char) :
    (∀ t, Decodes NamesLoosely s t ↔ t = unescape s) ∧
      (Decodes NamesStrictly s (unescape s) ↔ ∀ g ∈ unicodeGroups s, ¬ IsLoose g) := by
  refine ⟨fun t => ⟨Decodes.eq_unescape, ?_⟩, decodes_strictly_unescape_iff⟩
  rintro rfl
  exact decodes_unescape fun _ _ _ => Iff.rfl

/-- Two digits at the end of a text, and three after a plus sign, are read as a letter. By the strict
rules they stay as they are written. -/
theorem not_decodes_strictly_unescape :
    let short := "\\u41".toList
    let signed := "\\u+041".toList
    unescape short = ['A'] ∧ Decodes NamesStrictly short short ∧
      unescape signed = ['A'] ∧ Decodes NamesStrictly signed signed ∧
      ¬ ∀ s, Decodes NamesStrictly s (unescape s) := by
  intro short signed
  have hshort : ∀ c, ¬ NamesStrictly ['4', '1'] c := fun c h => absurd h.1 (by decide)
  have hsigned : ∀ c, ¬ NamesStrictly ['+', '0', '4', '1'] c := fun c h =>
    absurd (h.2.1 '+' List.mem_cons_self) (by decide)
  refine ⟨by decide, .unnamed (s := ['4', '1']) hshort .nil, by decide,
    .unnamed (s := ['+', '0', '4', '1']) hsigned .nil, fun h => ?_⟩
  have hdigits : ∀ x ∈ ['4', '1'], x.isHexDigit = true := List.all_eq_true.mp rfl
  have hloose : IsLoose ['4', '1'] := ⟨_, .inl ⟨rfl, by decide⟩, by decide, hdigits⟩
  exact decodes_strictly_unescape_iff.mp (h short) _ List.mem_cons_self hloose

end RuleSteering.Text
