import RuleSteering.Proofs.Sequence
import RuleSteering.Proofs.Text.Blank
import RuleSteering.Text.Decimal

/-!
# Which texts are integers

A text is a 64-bit integer if after an optional sign it holds digits, at least one, whose number
with this sign is in the range (`read_eq_ok_iff`). In every other text the reader finds the first
thing that is wrong (`read_eq_error_iff`). Every integer is written as a text that is read as this
integer, the ends of the range included (`read_write`).

* `splitSign`, the sign of a text and what follows it; `value`, the number of digits with a sign;
* `Denotes`, the text is an integer;
* `Breaks`, what is wrong with a character after some digits; `FirstBreak`, it is the first one
  with which anything is wrong; `HasFlaw`, what is wrong with a text;
* `readDigits_value_cons`, one step of the reader, whose number is at all times the value of the
  digits so far. The value moves away from zero, so that it cannot come back into the range;
* `trim_write`, a written integer holds no blanks that could be trimmed.
-/

namespace RuleSteering.Text.Decimal

/-! ### Signs and digits -/

/-- Whether there is a minus sign at the front of a text, and the text without its sign. -/
def splitSign : List Char → Bool × List Char
  | '+' :: s => (false, s)
  | '-' :: s => (true, s)
  | s => (false, s)

/-- The number that digits are in base ten, with the sign that stands before them. -/
def value (negative : Bool) (ds : List Char) : Int :=
  if negative then -(Nat.ofDigitChars 10 ds 0 : Int) else Nat.ofDigitChars 10 ds 0

/-- The number has 64 bits. -/
def InRange (n : Int) : Prop := Int64.minValue.toInt ≤ n ∧ n ≤ Int64.maxValue.toInt

theorem inRange_toInt (n : Int64) : InRange n.toInt :=
  ⟨Int64.minValue_le_toInt n, Int64.toInt_le n⟩

@[simp] theorem value_nil (negative : Bool) : value negative [] = 0 := by
  cases negative <;> rfl

/-- One more digit is read after those that make up the number so far. -/
theorem extend_value (negative : Bool) (ds : List Char) (c : Char) :
    extend negative (value negative ds) c = value negative (ds ++ [c]) := by
  have hval : Nat.ofDigitChars 10 (ds ++ [c]) 0 =
      10 * Nat.ofDigitChars 10 ds 0 + (c.toNat - '0'.toNat) := by
    rw [Nat.ofDigitChars_append, Nat.ofDigitChars_cons, Nat.ofDigitChars_nil]
  rw [extend, value, value, hval]
  cases negative <;> simp only [Bool.false_eq_true, if_false, if_true] <;> omega

/-- If the number is in the range, so is the number of its first digits. -/
theorem inRange_value_of_append {negative : Bool} {ds es : List Char}
    (h : InRange (value negative (ds ++ es))) : InRange (value negative ds) := by
  have hle : Nat.ofDigitChars 10 ds 0 ≤ Nat.ofDigitChars 10 (ds ++ es) 0 := by
    rw [Nat.ofDigitChars_append, Nat.ofDigitChars_eq_ofDigitChars_zero (l := es)]
    exact Nat.le_add_right_of_le (Nat.le_mul_of_pos_left _ (Nat.pow_pos (Nat.succ_pos 9)))
  have hmin : Int64.minValue.toInt ≤ 0 := by decide
  have hmax : 0 ≤ Int64.maxValue.toInt := by decide
  unfold InRange value at *
  cases negative <;> simp only [Bool.false_eq_true, if_false, if_true] at * <;> omega

/-! ### What can be wrong -/

/-- What is wrong with the character `c` after the digits `ds`: it is no digit, or with it the number
leaves the range on the side of its sign. -/
def Breaks (negative : Bool) (ds : List Char) (c : Char) : Flaw → Prop
  | .empty => False
  | .invalidDigit => c.isDigit = false
  | .tooLarge => c.isDigit = true ∧ negative = false ∧
      Int64.maxValue.toInt < value negative (ds ++ [c])
  | .tooSmall => c.isDigit = true ∧ negative = true ∧
      value negative (ds ++ [c]) < Int64.minValue.toInt

/-- What is wrong with the first character of `s` with which anything is wrong, if the digits `ds`
stand before `s`. -/
def FirstBreak (negative : Bool) (ds s : List Char) (flaw : Flaw) : Prop :=
  ∃ es c rest, s = es ++ c :: rest ∧ Breaks negative (ds ++ es) c flaw ∧
    ¬ ∃ fs d gs, es = fs ++ d :: gs ∧ ∃ other, Breaks negative (ds ++ fs) d other

theorem not_firstBreak_nil {negative : Bool} {ds : List Char} {flaw : Flaw} :
    ¬ FirstBreak negative ds [] flaw := by
  rintro ⟨es, c, rest, h, -⟩
  simp at h

theorem firstBreak_cons {negative : Bool} {ds s : List Char} {c : Char} {flaw : Flaw} :
    FirstBreak negative ds (c :: s) flaw ↔ Breaks negative ds c flaw ∨
      (¬ ∃ other, Breaks negative ds c other) ∧ FirstBreak negative (ds ++ [c]) s flaw := by
  have hnil : ¬ ∃ fs d gs, ([] : List Char) = fs ++ d :: gs ∧
      ∃ other, Breaks negative (ds ++ fs) d other := by simp
  unfold FirstBreak
  rw [exists_split_cons]
  simp only [exists_split_cons, hnil, List.append_nil, List.append_assoc, List.singleton_append,
    not_or, not_false_eq_true, and_true]
  simp only [and_left_comm (b := ¬ ∃ other, Breaks negative ds c other), exists_and_left]

/-- Nothing is wrong with a digit with which the number stays in the range. -/
theorem not_breaks_iff {negative : Bool} {ds : List Char} {c : Char} :
    (¬ ∃ flaw, Breaks negative ds c flaw) ↔
      c.isDigit = true ∧ InRange (value negative (ds ++ [c])) := by
  have hmin : Int64.minValue.toInt ≤ 0 := by decide
  have hmax : 0 ≤ Int64.maxValue.toInt := by decide
  constructor
  · intro h
    have hdigit : c.isDigit = true := by
      cases hc : c.isDigit with
      | true => rfl
      | false => exact absurd ⟨.invalidDigit, hc⟩ h
    cases negative with
    | false =>
      have hnonneg : 0 ≤ value false (ds ++ [c]) := Int.natCast_nonneg _
      have hlarge : ¬ Int64.maxValue.toInt < value false (ds ++ [c]) := fun hlt =>
        h ⟨.tooLarge, hdigit, rfl, hlt⟩
      exact ⟨hdigit, by omega, by omega⟩
    | true =>
      have hnonpos : value true (ds ++ [c]) ≤ 0 := Int.neg_nonpos_of_nonneg (Int.natCast_nonneg _)
      have hsmall : ¬ value true (ds ++ [c]) < Int64.minValue.toInt := fun hlt =>
        h ⟨.tooSmall, hdigit, rfl, hlt⟩
      exact ⟨hdigit, by omega, by omega⟩
  · rintro ⟨hdigit, hrange⟩ ⟨flaw, h⟩
    unfold InRange at hrange
    cases flaw with
    | empty => exact h
    | invalidDigit => exact absurd (hdigit.symm.trans h) (by decide)
    | tooLarge => exact absurd h.2.2 (by omega)
    | tooSmall => exact absurd h.2.2 (by omega)

/-! ### Reading digits -/

theorem readDigits_of_isDigit {negative : Bool} {ds : List Char} {c : Char} (s : List Char)
    (hdigit : c.isDigit = true) :
    readDigits negative (value negative ds) (c :: s) =
      if Int64.maxValue.toInt < value negative (ds ++ [c]) then .error .tooLarge
      else if value negative (ds ++ [c]) < Int64.minValue.toInt then .error .tooSmall
      else readDigits negative (value negative (ds ++ [c])) s := by
  simp only [readDigits, hdigit, if_true, extend_value]

/-- The reader stops at a character with which something is wrong. -/
theorem readDigits_of_breaks {negative : Bool} {ds : List Char} {c : Char} {flaw : Flaw}
    (s : List Char) (h : Breaks negative ds c flaw) :
    readDigits negative (value negative ds) (c :: s) = .error flaw := by
  have hle : Int64.minValue.toInt ≤ Int64.maxValue.toInt := by decide
  cases flaw with
  | empty => exact h.elim
  | invalidDigit => exact readDigits_of_not_isDigit negative _ s h
  | tooLarge => rw [readDigits_of_isDigit s h.1, if_pos h.2.2]
  | tooSmall =>
    have hsmall := h.2.2
    rw [readDigits_of_isDigit s h.1, if_neg (by omega), if_pos hsmall]

/-- It goes on if nothing is wrong. -/
theorem readDigits_of_not_breaks {negative : Bool} {ds : List Char} {c : Char} (s : List Char)
    (h : ¬ ∃ flaw, Breaks negative ds c flaw) :
    readDigits negative (value negative ds) (c :: s) =
      readDigits negative (value negative (ds ++ [c])) s := by
  obtain ⟨hdigit, hmin, hmax⟩ := not_breaks_iff.mp h
  rw [readDigits_of_isDigit s hdigit, if_neg (by omega), if_neg (by omega)]

theorem readDigits_eq_error_iff {negative : Bool} {ds s : List Char} {flaw : Flaw} :
    readDigits negative (value negative ds) s = .error flaw ↔ FirstBreak negative ds s flaw := by
  induction s generalizing ds with
  | nil => simp [not_firstBreak_nil]
  | cons c s ih =>
    rw [firstBreak_cons]
    by_cases h : ∃ other, Breaks negative ds c other
    · obtain ⟨other, hother⟩ := h
      rw [readDigits_of_breaks s hother]
      constructor
      · intro heq
        obtain rfl := Except.error.inj heq
        exact .inl hother
      · rintro (hflaw | ⟨hnone, -⟩)
        · -- at one character only one thing can be wrong
          rw [← readDigits_of_breaks s hother, readDigits_of_breaks s hflaw]
        · exact absurd ⟨other, hother⟩ hnone
    · rw [readDigits_of_not_breaks s h, ih]
      constructor
      · exact fun hfirst => .inr ⟨h, hfirst⟩
      · rintro (hflaw | ⟨-, hfirst⟩)
        · exact absurd ⟨flaw, hflaw⟩ h
        · exact hfirst

theorem readDigits_eq_ok_iff {negative : Bool} {ds s : List Char} {n : Int64}
    (hds : InRange (value negative ds)) :
    readDigits negative (value negative ds) s = .ok n ↔
      (∀ c ∈ s, c.isDigit = true) ∧ value negative (ds ++ s) = n.toInt := by
  induction s generalizing ds with
  | nil =>
    have hvalue : (Int64.ofInt (value negative ds)).toInt = value negative ds :=
      Int64.toInt_ofInt_of_le hds.1 (Int.lt_add_one_of_le hds.2)
    rw [readDigits_nil, Except.ok.injEq, ← Int64.toInt_inj, hvalue, List.append_nil]
    simp
  | cons c s ih =>
    by_cases h : ∃ other, Breaks negative ds c other
    · obtain ⟨other, hother⟩ := h
      rw [readDigits_of_breaks s hother]
      refine ⟨fun heq => by contradiction, ?_⟩
      rintro ⟨hdigits, hvalue⟩
      -- a number that has left the range does not come back
      have hrange : InRange (value negative (ds ++ [c] ++ s)) := by
        rw [List.append_assoc, List.singleton_append, hvalue]
        exact inRange_toInt n
      exact absurd ⟨other, hother⟩ (not_breaks_iff.mpr
        ⟨hdigits c List.mem_cons_self, inRange_value_of_append hrange⟩)
    · obtain ⟨hdigit, hrange⟩ := not_breaks_iff.mp h
      rw [readDigits_of_not_breaks s h, ih hrange, List.forall_mem_cons, List.append_assoc,
        List.singleton_append]
      simp [hdigit]

/-! ### Reading integers -/

/-- The text is an integer: digits, at least one, after a sign that may be missing. -/
structure Denotes (s : List Char) (n : Int) : Prop where
  ne_nil : (splitSign s).2 ≠ []
  isDigit : ∀ c ∈ (splitSign s).2, c.isDigit = true
  value_eq : value (splitSign s).1 (splitSign s).2 = n

/-- What is wrong with a text: there is none, a sign stands alone, or one of the characters after the
sign is the first with which something is wrong. -/
inductive HasFlaw (s : List Char) : Flaw → Prop
  | empty (h : s = []) : HasFlaw s .empty
  | signAlone (hs : s ≠ []) (h : (splitSign s).2 = []) : HasFlaw s .invalidDigit
  | digit {flaw : Flaw} (h : FirstBreak (splitSign s).1 [] (splitSign s).2 flaw) : HasFlaw s flaw

/-- Only an empty text is found empty. -/
theorem hasFlaw_empty_iff {s : List Char} : HasFlaw s .empty ↔ s = [] := by
  constructor
  · intro h
    cases h with
    | empty h => exact h
    | digit h =>
      obtain ⟨_, _, _, -, hbreaks, -⟩ := h
      exact hbreaks.elim
  · exact .empty

theorem read_of_splitSign_ne_nil {s : List Char} (h : (splitSign s).2 ≠ []) :
    read s = readDigits (splitSign s).1 (value (splitSign s).1 []) (splitSign s).2 := by
  rw [value_nil]
  fun_cases read s <;> simp_all [splitSign]

theorem read_of_sign_alone {s : List Char} (hs : s ≠ []) (h : (splitSign s).2 = []) :
    read s = .error .invalidDigit := by
  fun_cases read s <;> simp_all [splitSign]

/-- A text is read as the integer that it is. -/
theorem read_eq_ok_iff {s : List Char} {n : Int64} : read s = .ok n ↔ Denotes s n.toInt := by
  have hzero (negative : Bool) : InRange (value negative []) := by
    rw [value_nil]
    exact inRange_toInt 0
  by_cases h : (splitSign s).2 = []
  · have hread : ¬ read s = .ok n := by
      by_cases hs : s = []
      · simp [hs]
      · simp [read_of_sign_alone hs h]
    exact iff_of_false hread fun hden => hden.ne_nil h
  · rw [read_of_splitSign_ne_nil h, readDigits_eq_ok_iff (hzero _), List.nil_append]
    exact ⟨fun hs => ⟨h, hs.1, hs.2⟩, fun hden => ⟨hden.isDigit, hden.value_eq⟩⟩

/-- In a text that is no integer the first thing that is wrong is found. -/
theorem read_eq_error_iff {s : List Char} {flaw : Flaw} : read s = .error flaw ↔ HasFlaw s flaw := by
  by_cases hs : s = []
  · subst hs
    rw [read_nil, Except.error.injEq]
    constructor
    · rintro rfl
      exact .empty rfl
    · intro h
      cases h with
      | empty _ => rfl
      | signAlone hs _ => exact absurd rfl hs
      | digit h => exact absurd h not_firstBreak_nil
  · by_cases hsign : (splitSign s).2 = []
    · rw [read_of_sign_alone hs hsign, Except.error.injEq]
      constructor
      · rintro rfl
        exact .signAlone hs hsign
      · intro h
        cases h with
        | empty h => exact absurd h hs
        | signAlone _ _ => rfl
        | digit h =>
          rw [hsign] at h
          exact absurd h not_firstBreak_nil
    · rw [read_of_splitSign_ne_nil hsign, readDigits_eq_error_iff]
      constructor
      · exact .digit
      · intro h
        cases h with
        | empty h => exact absurd h hs
        | signAlone _ h => exact absurd h hsign
        | digit h => exact h

/-- What is read as an integer holds nothing but digits and a sign. -/
theorem isDigit_or_sign_of_read {s : List Char} {n : Int64} (h : read s = .ok n) :
    ∀ c ∈ s, c.isDigit = true ∨ c = '+' ∨ c = '-' := by
  intro c hc
  have hrest : c ∈ (splitSign s).2 ∨ c = '+' ∨ c = '-' := by
    unfold splitSign
    split
    · exact (List.mem_cons.mp hc).symm.imp_right .inl
    · exact (List.mem_cons.mp hc).symm.imp_right .inr
    · exact .inl hc
  exact hrest.imp_left ((read_eq_ok_iff.mp h).isDigit c)

/-! ### Written integers -/

/-- A digit is neither a sign nor blank. -/
theorem not_sign_of_isDigit {c : Char} (h : c.isDigit = true) :
    c ≠ '+' ∧ c ≠ '-' ∧ isBlank c = false := by
  refine ⟨?_, ?_, ?_⟩
  · rintro rfl
    contradiction
  · rintro rfl
    contradiction
  · simp only [Char.isDigit, Bool.and_eq_true, decide_eq_true_eq] at h
    have hlow : 48 ≤ c.toNat := UInt32.le_iff_toNat_le.mp h.1
    have hhigh : c.toNat ≤ 57 := UInt32.le_iff_toNat_le.mp h.2
    simp only [isBlank, Bool.or_eq_false_iff, Bool.and_eq_false_iff, decide_eq_false_iff_not,
      beq_eq_false_iff_ne]
    omega

theorem isDigit_of_mem_toDigits {m : Nat} {c : Char} (h : c ∈ Nat.toDigits 10 m) :
    c.isDigit = true :=
  Nat.isDigit_of_mem_toDigits (by decide) (by decide) h

/-- Digits do not start with a sign. -/
theorem splitSign_toDigits (m : Nat) : splitSign (Nat.toDigits 10 m) = (false, Nat.toDigits 10 m) := by
  unfold splitSign
  split
  · rename_i s hs
    have hplus := isDigit_of_mem_toDigits (m := m) (c := '+') (by simp [hs])
    exact absurd hplus (by decide)
  · rename_i s hs
    have hminus := isDigit_of_mem_toDigits (m := m) (c := '-') (by simp [hs])
    exact absurd hminus (by decide)
  · rfl

theorem denotes_write (n : Int64) : Denotes (write n) n.toInt := by
  unfold write
  split
  · have hvalue : value true (Nat.toDigits 10 n.toInt.natAbs) = n.toInt := by
      rw [value, if_pos rfl, Nat.ofDigitChars_ten_toDigits]
      omega
    exact ⟨Nat.toDigits_ne_nil, fun c hc => isDigit_of_mem_toDigits hc, hvalue⟩
  · have hvalue : value false (Nat.toDigits 10 n.toInt.natAbs) = n.toInt := by
      rw [value, if_neg Bool.false_ne_true, Nat.ofDigitChars_ten_toDigits]
      omega
    constructor <;> rw [splitSign_toDigits]
    · exact Nat.toDigits_ne_nil
    · exact fun c hc => isDigit_of_mem_toDigits hc
    · exact hvalue

/-- Every integer is read back. -/
theorem read_write (n : Int64) : read (write n) = .ok n :=
  read_eq_ok_iff.mpr (denotes_write n)

theorem not_isBlank_of_mem_write {n : Int64} {c : Char} (h : c ∈ write n) : isBlank c = false := by
  unfold write at h
  split at h
  · rcases List.mem_cons.mp h with rfl | h
    · decide
    · exact (not_sign_of_isDigit (isDigit_of_mem_toDigits h)).2.2
  · exact (not_sign_of_isDigit (isDigit_of_mem_toDigits h)).2.2

theorem trim_write (n : Int64) : trim (write n) = write n :=
  trim_of_not_isBlank fun _ => not_isBlank_of_mem_write

end RuleSteering.Text.Decimal
