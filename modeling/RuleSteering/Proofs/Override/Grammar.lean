import Mathlib.Data.List.Nodup
import Mathlib.Tactic.SplitIfs
import RuleSteering.Override.Key

/-!
# The grammar of keys

A text is read as a key exactly if the key has a name and is written as this text. In every other
text the reader finds one fault, the first of four (`parse_eq_ok_iff_and_eq_error_iff`).

* `Key.Reading`, what a text is read as: the one way to be a key and the four ways to be none, each
  said by the shape of the text;
* `reading_parse`, the answer of the reader is one of these; `parse_eq_iff`, and it is the only one;
* `parse_text`, `text_of_parse`, `text_injective`, printing and reading keys are inverse to each
  other.
-/

namespace RuleSteering.Override

theorem Field.ofText?_eq_some_iff {s : List Char} {f : Field} :
    Field.ofText? s = some f ↔ s = f.text.toList := by
  constructor
  · intro h
    unfold Field.ofText? at h
    split_ifs at h with hs hs hs <;> obtain rfl := Option.some.inj h <;> exact hs
  · rintro rfl
    exact Field.ofText?_text f

namespace Key

/-! ### The parts of a key -/

theorem splitScope?_append (scope : Scope) (s : List Char) :
    splitScope? (scope.text.toList ++ s) = some (scope, s) := by
  cases scope <;> rfl

theorem eq_of_splitScope? {s rest : List Char} {scope : Scope}
    (h : splitScope? s = some (scope, rest)) : s = scope.text.toList ++ rest := by
  unfold splitScope? at h
  split at h
  · rename_i t hprefix
    obtain ⟨rfl, rfl⟩ := Prod.mk.inj (Option.some.inj h)
    exact (List.isPrefixOf?_eq_some_iff_append_eq.mp hprefix).symm
  · obtain ⟨t, hprefix, heq⟩ := Option.map_eq_some_iff.mp h
    obtain ⟨rfl, rfl⟩ := Prod.mk.inj heq
    exact (List.isPrefixOf?_eq_some_iff_append_eq.mp hprefix).symm

theorem not_mem_fieldText (f : Field) : '.' ∉ f.text.toList := by
  cases f <;> decide

/-- A text is split at its last dot: what follows it holds none. -/
theorem splitLastDot?_eq_some_iff {s a b : List Char} :
    splitLastDot? s = some (a, b) ↔ s = a ++ '.' :: b ∧ '.' ∉ b := by
  constructor
  · intro h
    induction s generalizing a with
    | nil => contradiction
    | cons c s ih =>
      cases hs : splitLastDot? s with
      | some p =>
        simp only [splitLastDot?, hs, Option.some.injEq, Prod.mk.injEq] at h
        obtain ⟨rfl, rfl⟩ := h
        obtain ⟨hsplit, hdot⟩ := ih hs
        exact ⟨by rw [List.cons_append, ← hsplit], hdot⟩
      | none =>
        simp only [splitLastDot?, hs] at h
        split at h
        · rename_i hc
          obtain ⟨rfl, rfl⟩ := Prod.mk.inj (Option.some.inj h)
          exact ⟨by rw [hc, List.nil_append], splitLastDot?_eq_none_iff.mp hs⟩
        · contradiction
  · rintro ⟨rfl, hdot⟩
    exact splitLastDot?_append a hdot

/-! ### What a text is read as -/

/-- What a text is read as: a key with a name, or the fault of a text that is none. -/
inductive Reading (s : String) : Except Error Key → Prop
  /-- No scope stands at the front of the text. -/
  | unknownScope (h : ∀ (scope : Scope) (rest : String), s ≠ scope.text ++ rest) :
      Reading s (.error (.unknownScope s))
  /-- After the scope there is no dot. -/
  | missingField (scope : Scope) (rest : String) (h : s = scope.text ++ rest)
      (hdot : '.' ∉ rest.toList) : Reading s (.error (.missingField s))
  /-- After the last dot there is no field. -/
  | unknownField (scope : Scope) (name field : String)
      (h : s = scope.text ++ name ++ "." ++ field) (hdot : '.' ∉ field.toList)
      (hfield : ∀ f : Field, field ≠ f.text) : Reading s (.error (.unknownField s field))
  /-- Between the scope and the last dot there is nothing. -/
  | emptyName (scope : Scope) (f : Field) (h : s = scope.text ++ "." ++ f.text) :
      Reading s (.error (.emptyName s))
  | key (k : Key) (h : s = k.text) (hname : k.name ≠ "") : Reading s (.ok k)

theorem parse_append (scope : Scope) (rest : String) :
    parse (scope.text ++ rest) = parseRest (scope.text ++ rest) scope rest.toList := by
  rw [parse, String.toList_append, splitScope?_append]

/-- The name is what lies between the scope and the last dot. -/
theorem parse_parts (scope : Scope) (name : String) {field : String} (hdot : '.' ∉ field.toList) :
    parse (scope.text ++ name ++ "." ++ field) =
      match Field.ofText? field.toList with
      | none => .error (.unknownField (scope.text ++ name ++ "." ++ field) field)
      | some f =>
        if name = "" then .error (.emptyName (scope.text ++ name ++ "." ++ field))
        else .ok ⟨scope, name, f⟩ := by
  have hrest : (name ++ "." ++ field).toList = name.toList ++ '.' :: field.toList := by simp
  have hparts : scope.text ++ (name ++ "." ++ field) = scope.text ++ name ++ "." ++ field := by
    simp only [String.append_assoc]
  rw [← hparts, parse_append, parseRest, hrest, splitLastDot?_append _ hdot]
  dsimp only
  cases Field.ofText? field.toList with
  | none => simp only [String.ofList_toList]
  | some f => simp only [String.toList_eq_nil_iff, String.ofList_toList]

/-- Every text has one of the shapes. -/
theorem reading_parse (s : String) : Reading s (parse s) := by
  cases hscope : splitScope? s.toList with
  | none =>
    rw [parse, hscope]
    refine .unknownScope fun scope rest h => ?_
    rw [h, String.toList_append, splitScope?_append] at hscope
    contradiction
  | some p =>
    obtain ⟨scope, cs⟩ := p
    obtain ⟨rest, rfl⟩ : ∃ t : String, t.toList = cs := ⟨_, String.toList_ofList⟩
    obtain rfl : s = scope.text ++ rest :=
      String.toList_injective (by rw [eq_of_splitScope? hscope, String.toList_append])
    cases hlast : splitLastDot? rest.toList with
    | none =>
      rw [parse_append, parseRest, hlast]
      exact .missingField scope rest rfl (splitLastDot?_eq_none_iff.mp hlast)
    | some q =>
      obtain ⟨as, bs⟩ := q
      obtain ⟨name, rfl⟩ : ∃ t : String, t.toList = as := ⟨_, String.toList_ofList⟩
      obtain ⟨field, rfl⟩ : ∃ t : String, t.toList = bs := ⟨_, String.toList_ofList⟩
      obtain ⟨hrest, hdot⟩ := splitLastDot?_eq_some_iff.mp hlast
      have hparts : scope.text ++ rest = scope.text ++ name ++ "." ++ field :=
        String.toList_injective (by simp [hrest])
      rw [hparts, parse_parts _ _ hdot]
      cases hfield : Field.ofText? field.toList with
      | none =>
        refine .unknownField scope name field rfl hdot fun f hf => ?_
        rw [hf, Field.ofText?_text] at hfield
        contradiction
      | some f =>
        obtain rfl : field = f.text := String.toList_injective (Field.ofText?_eq_some_iff.mp hfield)
        dsimp only
        split
        · rename_i hname
          exact .emptyName scope f (by rw [hname, String.append_empty])
        · rename_i hname
          exact .key ⟨scope, name, f⟩ rfl hname

theorem parse_of_reading {s : String} {r : Except Error Key} (h : Reading s r) : parse s = r := by
  cases h with
  | unknownScope h =>
    rw [parse]
    split
    · rfl
    · rename_i scope rest hscope
      refine absurd (String.toList_injective ?_) (h scope (String.ofList rest))
      rw [eq_of_splitScope? hscope, String.toList_append, String.toList_ofList]
  | missingField scope rest h hdot =>
    rw [h, parse_append, parseRest, splitLastDot?_eq_none_iff.mpr hdot]
  | unknownField scope name field h hdot hfield =>
    have hnone : Field.ofText? field.toList = none := by
      refine Option.eq_none_iff_forall_ne_some.mpr fun f hf => hfield f ?_
      exact String.toList_injective (Field.ofText?_eq_some_iff.mp hf)
    rw [h, parse_parts _ _ hdot, hnone]
  | emptyName scope f h =>
    have hparts : s = scope.text ++ "" ++ "." ++ f.text := by rw [h, String.append_empty]
    rw [hparts, parse_parts _ _ (not_mem_fieldText f), Field.ofText?_text]
    rfl
  | key k h hname =>
    rw [h, text, parse_parts _ _ (not_mem_fieldText k.field), Field.ofText?_text]
    exact if_neg hname

/-- The shape of a text decides what is read from it. -/
theorem parse_eq_iff {s : String} {r : Except Error Key} : parse s = r ↔ Reading s r :=
  ⟨fun h => h ▸ reading_parse s, parse_of_reading⟩

/-! ### Reading what was written -/

/-- A written key is read back, unless its name is empty. -/
theorem parse_text (k : Key) :
    parse k.text = if k.name = "" then .error (.emptyName k.text) else .ok k := by
  rw [text, parse_parts _ _ (not_mem_fieldText k.field), Field.ofText?_text]

/-- A key is read only from the text that it is written as. -/
theorem text_of_parse {s : String} {k : Key} (h : parse s = .ok k) : k.text = s := by
  cases parse_eq_iff.mp h with
  | key _ hs _ => exact hs.symm

theorem toList_text (k : Key) :
    k.text.toList = k.scope.text.toList ++ (k.name.toList ++ '.' :: k.field.text.toList) := by
  simp [text]

/-- Two keys are never written alike. -/
theorem text_injective {k l : Key} (h : k.text = l.text) : k = l := by
  have hlist := congrArg String.toList h
  -- the scope is read off the front, the field behind the last dot, and the name is what is left
  rw [toList_text, toList_text] at hlist
  have hscope := congrArg splitScope? hlist
  rw [splitScope?_append, splitScope?_append] at hscope
  simp only [Option.some.injEq, Prod.mk.injEq] at hscope
  have hdot := congrArg splitLastDot? hscope.2
  rw [splitLastDot?_append _ (not_mem_fieldText k.field),
    splitLastDot?_append _ (not_mem_fieldText l.field)] at hdot
  simp only [Option.some.injEq, Prod.mk.injEq] at hdot
  have hfield := congrArg Field.ofText? hdot.2
  rw [Field.ofText?_text, Field.ofText?_text] at hfield
  obtain ⟨scope, name, field⟩ := k
  obtain ⟨scope', name', field'⟩ := l
  rw [Key.mk.injEq]
  exact ⟨hscope.1, String.toList_injective hdot.1, Option.some.inj hfield⟩

/-! ### The grammar -/

theorem reading_ok_iff {s : String} {k : Key} : Reading s (.ok k) ↔ k.name ≠ "" ∧ s = k.text := by
  constructor
  · intro h
    cases h with
    | key _ hs hname => exact ⟨hname, hs⟩
  · rintro ⟨hname, hs⟩
    exact .key k hs hname

theorem reading_unknownScope_iff {s : String} :
    Reading s (.error (.unknownScope s)) ↔ ∀ rest, s ≠ "rule." ++ rest ∧ s ≠ "ruleset." ++ rest := by
  constructor
  · intro h rest
    cases h with
    | unknownScope h => exact ⟨h .rule rest, h .group rest⟩
  · intro h
    refine .unknownScope fun scope rest => ?_
    cases scope with
    | rule => exact (h rest).1
    | group => exact (h rest).2

theorem reading_missingField_iff {s : String} :
    Reading s (.error (.missingField s)) ↔
      ∃ (scope : Scope) (rest : String), s = scope.text ++ rest ∧ '.' ∉ rest.toList := by
  constructor
  · intro h
    cases h with
    | missingField scope rest hs hdot => exact ⟨scope, rest, hs, hdot⟩
  · rintro ⟨scope, rest, hs, hdot⟩
    exact .missingField scope rest hs hdot

theorem reading_unknownField_iff {s field : String} :
    Reading s (.error (.unknownField s field)) ↔
      ∃ (scope : Scope) (name : String), s = scope.text ++ name ++ "." ++ field ∧
        '.' ∉ field.toList ∧ field ≠ "factor" ∧ field ≠ "summand" ∧ field ≠ "disabled" := by
  constructor
  · intro h
    cases h with
    | unknownField scope name _ hs hdot hfield =>
      exact ⟨scope, name, hs, hdot, hfield .factor, hfield .summand, hfield .disabled⟩
  · rintro ⟨scope, name, hs, hdot, hfactor, hsummand, hdisabled⟩
    refine .unknownField scope name field hs hdot fun f => ?_
    cases f with
    | factor => exact hfactor
    | summand => exact hsummand
    | disabled => exact hdisabled

theorem reading_emptyName_iff {s : String} :
    Reading s (.error (.emptyName s)) ↔
      ∃ (scope : Scope) (f : Field), s = scope.text ++ "." ++ f.text := by
  constructor
  · intro h
    cases h with
    | emptyName scope f hs => exact ⟨scope, f, hs⟩
  · rintro ⟨scope, f, hs⟩
    exact .emptyName scope f hs

/-- A text is read as a key exactly if the key has a name and is written as this text. In every other
text one fault is found: it starts with no scope; no dot follows the scope; what follows the last dot
is no field, and is named in the fault; or nothing stands between the scope and the dot of a field. -/
theorem parse_eq_ok_iff_and_eq_error_iff (s : String) :
    (∀ k, parse s = .ok k ↔ k.name ≠ "" ∧ s = k.text) ∧
      (parse s = .error (.unknownScope s) ↔ ∀ rest, s ≠ "rule." ++ rest ∧ s ≠ "ruleset." ++ rest) ∧
      (parse s = .error (.missingField s) ↔
        ∃ (scope : Scope) (rest : String), s = scope.text ++ rest ∧ '.' ∉ rest.toList) ∧
      (∀ field, parse s = .error (.unknownField s field) ↔
        ∃ (scope : Scope) (name : String), s = scope.text ++ name ++ "." ++ field ∧
          '.' ∉ field.toList ∧ field ≠ "factor" ∧ field ≠ "summand" ∧ field ≠ "disabled") ∧
      (parse s = .error (.emptyName s) ↔
        ∃ (scope : Scope) (f : Field), s = scope.text ++ "." ++ f.text) ∧
      ((∃ k, parse s = .ok k) ∨ parse s = .error (.unknownScope s) ∨
        parse s = .error (.missingField s) ∨ (∃ field, parse s = .error (.unknownField s field)) ∨
        parse s = .error (.emptyName s)) := by
  have hone := reading_parse s
  simp only [parse_eq_iff]
  refine ⟨fun k => reading_ok_iff, reading_unknownScope_iff, reading_missingField_iff,
    fun field => reading_unknownField_iff, reading_emptyName_iff, ?_⟩
  generalize parse s = r at hone
  cases hone with
  | key k hs hname => exact .inl ⟨k, .key k hs hname⟩
  | unknownScope h => exact .inr (.inl (.unknownScope h))
  | missingField scope rest hs hdot => exact .inr (.inr (.inl (.missingField scope rest hs hdot)))
  | unknownField scope name field hs hdot hfield =>
    exact .inr (.inr (.inr (.inl ⟨field, .unknownField scope name field hs hdot hfield⟩)))
  | emptyName scope f hs => exact .inr (.inr (.inr (.inr (.emptyName scope f hs))))

/-- An unknown field is found before an empty name, and the scope ends at its own dot. -/
example : parse "rule..weight" = .error (.unknownField "rule..weight" "weight") ∧
    parse "ruleset.rule.a.factor" = .ok ⟨.group, "rule.a", .factor⟩ := by decide +kernel

end Key

end RuleSteering.Override
