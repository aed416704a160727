import Mathlib.Tactic.Tauto
import RuleSteering.Proofs.Sequence
import RuleSteering.Proofs.Snapshot.Lookup

/-!
# Loading is a merge

What is loaded is merged into what is overridden already: of the well-formed pairs about a key the
last one wins, a key that none of them is about keeps what it holds, and malformed pairs leave no
trace (`load_merges`).

* `Unaddressed`, no well-formed pair of a list is about a key; `ReadLast`, an override is read from
  the last one that is;
* `get?_snapshot_putAll_filterMap`, what a key holds after the pairs of a list have been read;
* `load_eq_of_filter_eq`, lists with the same well-formed pairs in the same order are loaded alike.
-/

namespace RuleSteering

namespace Override

/-- The pair of texts is read as an override. -/
def isWellFormed (pair : String × String) : Bool :=
  match parse pair.1 pair.2 with
  | .ok _ => true
  | .error _ => false

theorem isSome_ofPair? (pair : String × String) : (ofPair? pair).isSome = isWellFormed pair := by
  unfold ofPair? isWellFormed
  cases parse pair.1 pair.2 <;> rfl

/-- No well-formed pair of the list is about the key. -/
def Unaddressed (pairs : List (String × String)) (k : Key) : Prop :=
  ∀ o ∈ pairs.filterMap ofPair?, o.key ≠ k

instance (pairs : List (String × String)) (k : Key) : Decidable (Unaddressed pairs k) :=
  inferInstanceAs (Decidable (∀ o ∈ pairs.filterMap ofPair?, o.key ≠ k))

/-- The override is read from a pair of the list, and no well-formed pair after it is about the same
key. -/
def ReadLast (pairs : List (String × String)) (o : Override) : Prop :=
  ∃ before pair after, pairs = before ++ pair :: after ∧ ofPair? pair = some o ∧
    Unaddressed after o.key

theorem not_readLast_nil (o : Override) : ¬ ReadLast [] o := by
  rintro ⟨before, pair, after, h, -⟩
  simp at h

theorem readLast_cons {pair : String × String} {pairs : List (String × String)} {o : Override} :
    ReadLast (pair :: pairs) o ↔
      (ofPair? pair = some o ∧ Unaddressed pairs o.key) ∨ ReadLast pairs o :=
  exists_split_cons

theorem unaddressed_cons {pair : String × String} {pairs : List (String × String)} {k : Key} :
    Unaddressed (pair :: pairs) k ↔ (∀ o, ofPair? pair = some o → o.key ≠ k) ∧ Unaddressed pairs k := by
  cases hp : ofPair? pair with
  | none => simp [Unaddressed, hp]
  | some o => simp [Unaddressed, hp]

end Override

open Override

namespace Steered

variable {S : Type}

/-- After the pairs of a list have been read, a key holds what the last pair about it leaves, and what
it held before if there is none. -/
theorem get?_snapshot_putAll_filterMap (s : Steered S) (pairs : List (String × String))
    (o : Override) :
    (s.putAll (pairs.filterMap ofPair?)).snapshot.get? o.key = some o.setting ↔
      (ReadLast pairs o ∧ o.setting ≠ .disabled false) ∨
        (Unaddressed pairs o.key ∧ s.snapshot.get? o.key = some o.setting) := by
  induction pairs generalizing s with
  | nil => simp [not_readLast_nil, Unaddressed]
  | cons pair pairs ih =>
    rw [readLast_cons, unaddressed_cons]
    cases hp : ofPair? pair with
    | none =>
      rw [List.filterMap_cons_none hp, ih]
      simp
    | some p =>
      rw [List.filterMap_cons_some hp, putAll_cons, ih, get?_snapshot_put]
      by_cases hkey : o.key = p.key
      · -- the pair is about the key, so it counts if no later one is
        have hset : p.setting = o.setting ↔ p = o :=
          ⟨eq_of_key_of_setting hkey.symm, fun h => by rw [h]⟩
        rw [if_pos hkey, Setting.kept_eq_some_iff, hset]
        simp only [Option.some.injEq, ne_eq, forall_eq', hkey.symm, not_true_eq_false, false_and,
          or_false]
        tauto
      · have hne : p ≠ o := fun h => hkey (by rw [h])
        simp [hkey, hne, Ne.symm hkey]

/-- Lists with the same well-formed pairs in the same order are loaded alike. -/
theorem load_eq_of_filter_eq (s : Steered S) {pairs pairs' : List (String × String)}
    (h : pairs'.filter isWellFormed = pairs.filter isWellFormed) : s.load pairs' = s.load pairs := by
  have hread (l : List (String × String)) :
      (l.filter isWellFormed).filterMap ofPair? = l.filterMap ofPair? := by
    have hfun : (fun pair => if isWellFormed pair = true then ofPair? pair else none) = ofPair? := by
      funext pair
      rw [← isSome_ofPair?]
      cases ofPair? pair <;> rfl
    rw [List.filterMap_filter, hfun]
  have hsame : pairs'.filterMap ofPair? = pairs.filterMap ofPair? := by
    rw [← hread pairs', h, hread]
  simp only [load, hsame]

/-- The well-formed pairs are counted. -/
theorem fst_load_eq_countP (s : Steered S) (pairs : List (String × String)) :
    (s.load pairs).1 = pairs.countP isWellFormed := by
  show (pairs.filterMap ofPair?).length = _
  rw [List.length_filterMap_eq_countP]
  simp only [isSome_ofPair?]

/-- Whatever is overridden already, and whatever pairs are loaded: a factor or a summand is afterwards
the one of the last well-formed pair about it, or the earlier one if there is none, and a rule or a
group is disabled by an edit if the last well-formed pair about its flag says so, or if it was and
there is none. The well-formed pairs are counted. Malformed pairs, wherever they stand in the list and
however many they are, change neither the count nor anything about the strategy. -/
theorem load_merges (s : Steered S) (pairs : List (String × String)) :
    let t := (s.load pairs).2
    (∀ scope name n, (t.snapshot.table scope).factors[name]? = some n ↔
        ReadLast pairs ⟨scope, name, .factor n⟩ ∨ (Unaddressed pairs ⟨scope, name, .factor⟩ ∧
          (s.snapshot.table scope).factors[name]? = some n)) ∧
      (∀ scope name n, (t.snapshot.table scope).summands[name]? = some n ↔
        ReadLast pairs ⟨scope, name, .summand n⟩ ∨ (Unaddressed pairs ⟨scope, name, .summand⟩ ∧
          (s.snapshot.table scope).summands[name]? = some n)) ∧
      (∀ scope name, name ∈ t.snapshot.disabled scope ↔
        ReadLast pairs ⟨scope, name, .disabled true⟩ ∨ (Unaddressed pairs ⟨scope, name, .disabled⟩ ∧
          name ∈ s.snapshot.disabled scope)) ∧
      (s.load pairs).1 = pairs.countP isWellFormed ∧
      s.load (pairs.filter isWellFormed) = s.load pairs ∧
      ∀ pairs', pairs'.filter isWellFormed = pairs.filter isWellFormed →
        s.load pairs' = s.load pairs := by
  intro t
  have hget (o : Override) (hkept : o.setting ≠ .disabled false) :
      t.snapshot.get? o.key = some o.setting ↔ ReadLast pairs o ∨
        (Unaddressed pairs o.key ∧ s.snapshot.get? o.key = some o.setting) := by
    have hiff := get?_snapshot_putAll_filterMap { s with configured := true } pairs o
    rwa [and_iff_left hkept] at hiff
  refine ⟨fun scope name n => ?_, fun scope name n => ?_, fun scope name => ?_,
    fst_load_eq_countP s pairs, load_eq_of_filter_eq s (by simp), fun pairs' h =>
      load_eq_of_filter_eq s h⟩
  · have h := hget ⟨scope, name, .factor n⟩ (by simp)
    simpa [Snapshot.get?, key] using h
  · have h := hget ⟨scope, name, .summand n⟩ (by simp)
    simpa [Snapshot.get?, key] using h
  · have h := hget ⟨scope, name, .disabled true⟩ (by simp)
    simpa [Snapshot.get?, key, Snapshot.flag?_eq_some_iff] using h

/-- Of the pairs about a factor the last one that can be read wins, though a malformed one follows; what
the list is not about is left as it was, and so are the remembered names. -/
theorem load_merges_of_malformed :
    let s := (wrap (⟨.top⟩ : Indifferent Cost)).run [.set ⟨.group, "alpha", .disabled true⟩,
      .offer ⟨"andLeft", some ["alpha"]⟩, .set ⟨.rule, "or.right", .factor 5⟩,
      .set ⟨.rule, "cut", .disabled true⟩]
    let wellFormed := [("rule.andLeft.factor", "2"), ("rule.andLeft.factor", " +3 "),
      ("ruleset.alpha.disabled", "TRUE")]
    let pairs := [("rule.andLeft.factor", "2"), ("strategy.timeout", "10"),
      ("rule.andLeft.factor", " +3 "), ("rule.andLeft.factor", "4.0"),
      ("ruleset.alpha.disabled", "TRUE"), ("ruleset.alpha.disabled", "no"), ("rule..factor", "2")]
    let t := (s.load pairs).2
    (t.snapshot.table .rule).factors["andLeft"]? = some 3 ∧
      (t.snapshot.table .rule).factors["or.right"]? = some 5 ∧
      "cut" ∈ t.snapshot.disabled .rule ∧ "alpha" ∈ t.snapshot.disabled .group ∧
      (s.load pairs).1 = 3 ∧ s.load wellFormed = s.load pairs ∧ "andLeft" ∈ t.gate.remembered := by
  intro s wellFormed pairs t
  obtain ⟨hfactors, -, hdisabled, hcount, -, hsame⟩ := load_merges s pairs
  have hlast : ReadLast pairs ⟨.rule, "andLeft", .factor 3⟩ :=
    ⟨pairs.take 2, _, pairs.drop 3, rfl, by decide +kernel, by decide +kernel⟩
  have hgroup : ReadLast pairs ⟨.group, "alpha", .disabled true⟩ :=
    ⟨pairs.take 4, _, pairs.drop 5, rfl, by decide +kernel, by decide +kernel⟩
  refine ⟨(hfactors ..).mpr (.inl hlast), (hfactors ..).mpr (.inr ⟨by decide +kernel, ?_⟩),
    (hdisabled ..).mpr (.inr ⟨by decide +kernel, ?_⟩), (hdisabled ..).mpr (.inl hgroup),
    hcount.trans (by decide +kernel), hsame wellFormed (by decide +kernel), by decide +kernel⟩
  · decide +kernel
  · decide +kernel

end Steered

end RuleSteering
