import RuleSteering.Proofs.Steered.Loaded
import RuleSteering.Proofs.Steered.Remembering
import RuleSteering.Proofs.Steered.Stored

/-!
# A strategy that is restored from its own export

A fresh strategy around the same base loads what another one has exported. It holds the same
overrides, except those with an empty name, and remembers nothing.

What the other one remembers makes no difference from then on: if no name is empty and the groups of
a candidate depend on nothing but its name, both give the same answers (`restored_run`).

* `answers`, the answers to a sequence of candidates;
* `Agree`, strategies that differ at most in what they remember, and remember nothing without a
  reason; `Agree.admits`, they give the same answer and still agree.
-/

namespace RuleSteering.Steered

open Override

variable {S C : Type} [Strategy S C]

/-! ### Strategies that differ in what they remember -/

/-- The answers to a sequence of candidates, each asked for after the one before it. -/
def answers (s : Steered S) : List Candidate → List Bool
  | [] => []
  | c :: cs => (s.admits c).1 :: (s.admits c).2.answers cs

/-- The strategies have the same base and the same disabled rules and groups. What they remember may
be different, but every remembered name is justified. -/
structure Agree (G : GroupsOf) (s t : Steered S) : Prop where
  base : s.base = t.base
  explicitRules : s.gate.explicitRules = t.gate.explicitRules
  groups : s.gate.groups = t.gate.groups
  justified_left : s.gate.Justified G
  justified_right : t.gate.Justified G

namespace Agree

variable {G : GroupsOf} {s t : Steered S} {c : Candidate}

theorem rejects_eq (h : Agree G s t) (hc : c.CarriesGroups G) :
    s.gate.rejects c = t.gate.rejects c := by
  rw [Bool.eq_iff_iff, h.justified_left.rejects_iff hc, h.justified_right.rejects_iff hc,
    h.explicitRules, h.groups]

/-- Both strategies give the same answer, and they agree after it. -/
theorem admits (h : Agree G s t) (hc : c.CarriesGroups G) :
    (s.admits c).1 = (t.admits c).1 ∧ Agree G (s.admits c).2 (t.admits c).2 := by
  cases ht : t.gate.rejects c with
  | true =>
    have hs : s.gate.rejects c = true := (h.rejects_eq hc).trans ht
    rw [admits_of_rejects hs, admits_of_rejects ht]
    refine ⟨rfl, h.base, ?_, ?_, h.justified_left.after hc, h.justified_right.after hc⟩
    · simp only [Gate.explicitRules_after, h.explicitRules]
    · simp only [Gate.groups_after, h.groups]
  | false =>
    have hs : s.gate.rejects c = false := (h.rejects_eq hc).trans ht
    rw [admits_of_not_rejects hs, admits_of_not_rejects ht, h.base]
    exact ⟨rfl, rfl, h.explicitRules, h.groups, h.justified_left, h.justified_right⟩

/-- Both strategies give the same answers to every sequence of candidates. -/
theorem answers_eq (h : Agree G s t) {cs : List Candidate}
    (hcs : ∀ c ∈ cs, c.CarriesGroups G) : s.answers cs = t.answers cs := by
  induction cs generalizing s t with
  | nil => rfl
  | cons c cs ih =>
    obtain ⟨hanswer, hagree⟩ := h.admits (hcs c List.mem_cons_self)
    rw [answers, answers, hanswer, ih hagree fun x hx => hcs x (List.mem_cons_of_mem _ hx)]

end Agree

/-! ### The restored strategy -/

theorem configured_load (s : Steered S) (pairs : List (String × String)) :
    (s.load pairs).2.configured = true :=
  configured_putAll { s with configured := true } _

theorem base_load (s : Steered S) (pairs : List (String × String)) :
    (s.load pairs).2.base = s.base :=
  base_putAll { s with configured := true } _

/-- The export of a strategy is counted by the overrides with a name. -/
theorem fst_load_store {S' : Type} (s : Steered S) (base : S') :
    ((wrap base).load (s.store ∅).toList).1 = s.snapshot.named.overrides.length := by
  rw [← snapshot_load_store s base]
  refine fst_load base (Properties.nodup_keys_toList _) fun o ho => ?_
  exact Snapshot.kept_of_get? (mem_filterMap_store.mp ho)

/-- A strategy with any history is restored from its own export without the overrides with an empty
name, which do not count; the restored one is configured and remembers nothing. If no name is empty,
both assign the same costs, whatever the base assigns. If moreover all candidates carry the groups
of their rules, both give the same answers from then on. -/
theorem restored_run [CostDomain C] (base : S) (acts : List Action) :
    let s := (wrap base).run acts
    let t := ((wrap s.base).load (s.store ∅).toList).2
    t.snapshot = s.snapshot.named ∧
      ((wrap s.base).load (s.store ∅).toList).1 = s.snapshot.named.overrides.length ∧
      t.gate.remembered = ∅ ∧ t.configured = true ∧
      ((∀ o ∈ s.snapshot.overrides, o.name ≠ "") →
        (∀ c, t.cost c = s.cost c) ∧
        (∀ {D : Type} [CostDomain D] (c : Candidate) (cost : D),
          t.adjustments.adjust c cost = s.adjustments.adjust c cost) ∧
        ∀ G : GroupsOf, (∀ a ∈ acts, a.Offers (Candidate.CarriesGroups G)) →
          ∀ cs : List Candidate, (∀ c ∈ cs, c.CarriesGroups G) → t.answers cs = s.answers cs) := by
  intro s t
  have hsnap : t.snapshot = s.snapshot.named := snapshot_load_store s s.base
  have hremembered : t.gate.remembered = ∅ := remembered_load s.base _
  refine ⟨hsnap, fst_load_store s s.base, hremembered, configured_load _ _, fun hnames => ?_⟩
  have hsame : t.snapshot = s.snapshot := hsnap.trans (Snapshot.named_eq_self_iff.mpr hnames)
  have hbase : t.base = s.base := base_load _ _
  have hadjustments : t.adjustments = s.adjustments := congrArg Snapshot.adjustments hsame
  refine ⟨fun c => by rw [cost, cost, hbase, hadjustments], fun c cost => by rw [hadjustments],
    fun G hacts cs hcs => ?_⟩
  have hagree : Agree G t s :=
    { base := hbase
      explicitRules := congrArg Snapshot.disabledRules hsame
      groups := congrArg Snapshot.disabledGroups hsame
      justified_left := by
        intro name hn
        rw [hremembered] at hn
        exact absurd hn Std.ExtTreeSet.not_mem_empty
      justified_right := (Gate.Justified.kept G).gate_run (Gate.Justified.kept G).empty hacts }
  exact hagree.answers_eq hcs

/-- A name that only the first strategy remembers is turned away by both. -/
theorem restored_run_of_remembered :
    let G : GroupsOf := fun name => if name = "andLeft" then some ["alpha"] else none
    let acts : List Action := [.set ⟨.group, "alpha", .disabled true⟩,
      .offer ⟨"andLeft", some ["alpha"]⟩, .set ⟨.rule, "or.right", .factor (-2)⟩]
    let cs : List Candidate := [⟨"andLeft", some ["alpha"]⟩, ⟨"or.right", none⟩]
    let s := (wrap (⟨.finite 3⟩ : Indifferent Cost)).run acts
    let t := ((wrap s.base).load (s.store ∅).toList).2
    (∀ o ∈ s.snapshot.overrides, o.name ≠ "") ∧
      (∀ a ∈ acts, a.Offers (Candidate.CarriesGroups G)) ∧ (∀ c ∈ cs, c.CarriesGroups G) ∧
      "andLeft" ∈ s.gate.remembered ∧ t.gate.remembered = ∅ ∧
      t.answers cs = s.answers cs ∧ s.answers cs = [false, true] ∧
      t.cost ⟨"or.right", none⟩ = s.cost ⟨"or.right", none⟩ ∧
      s.cost ⟨"or.right", none⟩ = .finite (-6) := by
  intro G acts cs s t
  have hnames : ∀ o ∈ s.snapshot.overrides, o.name ≠ "" := by decide +kernel
  have hacts : ∀ a ∈ acts, a.Offers (Candidate.CarriesGroups G) := by
    intro a ha
    simp only [acts, List.mem_cons, List.not_mem_nil, or_false] at ha
    rcases ha with rfl | rfl | rfl
    · trivial
    · rfl
    · trivial
  have hcs : ∀ c ∈ cs, c.CarriesGroups G := by
    intro c hc
    simp only [cs, List.mem_cons, List.not_mem_nil, or_false] at hc
    rcases hc with rfl | rfl <;> rfl
  obtain ⟨-, -, hremembered, -, hsame⟩ := restored_run (⟨.finite 3⟩ : Indifferent Cost) acts
  obtain ⟨hcost, -, hanswers⟩ := hsame hnames
  exact ⟨hnames, hacts, hcs, by decide +kernel, hremembered, hanswers G hacts cs hcs,
    by decide +kernel, hcost _, by decide +kernel⟩

end RuleSteering.Steered
