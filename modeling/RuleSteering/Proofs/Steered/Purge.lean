import RuleSteering.Proofs.Steered.Lifecycle

/-!
# Using a strategy leaves no trace in its configuration

To offer candidates, to ask for costs and to look at rows changes nothing of what is configured, now
or later: if all of it is deleted from a history, every step that is left loads as many overrides and
leaves the same configuration to be seen (`log_eq_log_edits`).

* `View`, what is seen of a configuration; `log`, what is seen in the course of a history;
* `Action.edits`, the actions that configure the strategy; the others use it;
* `SameSettings`, strategies with the same overrides. What they remember and what their bases have
  become may be different. Using one of them keeps this (`SameSettings.use_left`), and so does an edit
  of both (`SameSettings.edit`).

The rows of rules are left out. They are compared with the effective flag, which shows the names that
are remembered.
-/

namespace RuleSteering.Steered

open Override

variable {S C : Type}

/-! ### What is seen of a configuration -/

/-- What there is to be seen of a configuration: what is exported, be it as a snapshot or into a
property map, what is disabled by an edit, and the flag. -/
structure View where
  snapshot : Snapshot
  stored : Properties → Properties
  disabledRules : Std.ExtTreeSet String
  disabledGroups : Std.ExtTreeSet String
  configured : Bool

/-- What is seen of the configuration of a strategy. -/
def view (s : Steered S) : View where
  snapshot := s.snapshot
  stored := s.store
  disabledRules := s.gate.explicitRules
  disabledGroups := s.gate.groups
  configured := s.configured

/-- The action configures the strategy, if only by the row of a rule or a group. -/
def Action.edits : Action → Bool
  | .load _ => true
  | .restore _ => true
  | .set _ => true
  | .writeRuleRow _ => true
  | .writeGroupRow _ => true
  | .reset => true
  | _ => false

/-- How many overrides an action loads, if it loads any. -/
def loaded? (s : Steered S) : Action → Option Nat
  | .load pairs => some (s.load pairs).1
  | _ => none

/-! ### Strategies with the same settings -/

/-- The strategies have the same overrides, and both are configured or none is. -/
structure SameSettings (s t : Steered S) : Prop where
  snapshot : s.snapshot = t.snapshot
  configured : s.configured = t.configured

namespace SameSettings

variable {s t : Steered S}

/-- The exported map holds nothing but what the snapshot holds. -/
theorem store_eq (h : SameSettings s t) (into : Properties) : s.store into = t.store into := by
  have hadjustments : s.adjustments = t.adjustments := congrArg Snapshot.adjustments h.snapshot
  have hrules : s.gate.explicitRules = t.gate.explicitRules :=
    congrArg Snapshot.disabledRules h.snapshot
  have hgroups : s.gate.groups = t.gate.groups := congrArg Snapshot.disabledGroups h.snapshot
  simp only [store, Gate.overrides, hadjustments, hrules, hgroups]

theorem view_eq (h : SameSettings s t) : s.view = t.view := by
  rw [view, view, View.mk.injEq]
  exact ⟨h.snapshot, funext h.store_eq, congrArg Snapshot.disabledRules h.snapshot,
    congrArg Snapshot.disabledGroups h.snapshot, h.configured⟩

/-- The same overrides are handed over to both. -/
theorem putAll (h : SameSettings s t) (os : List Override) :
    SameSettings (s.putAll os) (t.putAll os) where
  snapshot := Snapshot.ext_get? fun k => get?_snapshot_putAll_congr (by rw [h.snapshot]) os
  configured := by rw [configured_putAll, configured_putAll, h.configured]

/-- Whether a strategy counts as configured makes no difference to what is overridden. -/
theorem set_configured (h : SameSettings s t) :
    SameSettings { s with configured := true } { t with configured := true } where
  snapshot := h.snapshot
  configured := rfl

theorem groupRow_eq (h : SameSettings s t) (group : String) : s.groupRow group = t.groupRow group :=
  groupRow_congr fun f => by rw [h.snapshot]

theorem setAll (h : SameSettings s t) (scope : Scope) (name : String) (xs : List Setting) :
    SameSettings (s.setAll scope name xs) (t.setAll scope name xs) := by
  induction xs generalizing s t with
  | nil => exact h
  | cons x xs ih => exact ih (h.set_configured.putAll [⟨scope, name, x⟩])

variable [Strategy S C]

/-- The same edit of both, except the row of a rule, loads as many overrides and leaves both with the
same settings. -/
theorem edit (h : SameSettings s t) {a : Action} (hedit : a.edits = true)
    (hrow : ∀ r, a ≠ .writeRuleRow r) :
    s.loaded? a = t.loaded? a ∧ SameSettings (s.step a) (t.step a) := by
  cases a with
  | load pairs => exact ⟨rfl, h.set_configured.putAll _⟩
  | restore snapshot => exact ⟨rfl, h.set_configured.putAll _⟩
  | set o => exact ⟨rfl, h.set_configured.putAll [o]⟩
  | writeRuleRow r => exact absurd rfl (hrow r)
  | writeGroupRow r =>
    refine ⟨rfl, ?_⟩
    rw [step, step, writeGroupRow, writeGroupRow, h.groupRow_eq]
    exact h.setAll .group r.key _
  | reset => exact ⟨rfl, rfl, rfl⟩
  | offer c | price c | showRuleRows names | showGroupRows names => contradiction

/-- An action that is no edit leaves the settings as they are. -/
theorem use_left (h : SameSettings s t) {a : Action} (huse : a.edits = false) :
    SameSettings (s.step a) t := by
  cases a with
  | offer c => exact ⟨(snapshot_admits s c).trans h.snapshot, (configured_admits s c).trans h.configured⟩
  | price c | showRuleRows names | showGroupRows names => exact h
  | load pairs | restore snapshot | set o | writeRuleRow r | writeGroupRow r | reset => contradiction

end SameSettings

/-! ### Histories without use -/

variable [Strategy S C]

/-- What is seen in the course of a history: after each edit, how many overrides it has loaded and
what there is to be seen of the configuration. -/
def log (s : Steered S) : List Action → List (Option Nat × View)
  | [] => []
  | a :: acts =>
    if a.edits then (s.loaded? a, (s.step a).view) :: (s.step a).log acts
    else (s.step a).log acts

theorem SameSettings.log_filter_edits {s t : Steered S} (h : SameSettings s t) {acts : List Action}
    (hrows : ∀ r, .writeRuleRow r ∉ acts) : s.log acts = t.log (acts.filter Action.edits) := by
  induction acts generalizing s t with
  | nil => rfl
  | cons a acts ih =>
    have hrest : ∀ r, .writeRuleRow r ∉ acts := fun r hr => hrows r (List.mem_cons_of_mem a hr)
    cases hedits : a.edits with
    | true =>
      have hrow : ∀ r, a ≠ .writeRuleRow r := fun r heq => hrows r (heq ▸ List.mem_cons_self)
      obtain ⟨hloaded, hstep⟩ := h.edit hedits hrow
      rw [List.filter_cons_of_pos hedits, log, log, if_pos hedits, if_pos hedits, hloaded,
        hstep.view_eq, ih hstep hrest]
    | false =>
      have hnot : ¬ a.edits = true := by simp [hedits]
      rw [List.filter_cons_of_neg hnot, log, if_neg hnot, ih (h.use_left hedits) hrest]

/-- If everything that only uses a strategy is deleted from a history, every edit that is left loads
as many overrides as before, and after it the same configuration is to be seen. -/
theorem log_eq_log_edits (s : Steered S) {acts : List Action} (hrows : ∀ r, .writeRuleRow r ∉ acts) :
    s.log acts = s.log (acts.filter Action.edits) :=
  SameSettings.log_filter_edits ⟨rfl, rfl⟩ hrows

/-- A name that was remembered becomes explicit and stays so when its group is enabled, and another
one is forgotten. None of this depends on the candidates that were offered. -/
theorem log_eq_of_promoted :
    let s := wrap (⟨.top⟩ : Indifferent Cost)
    let acts : List Action := [.set ⟨.group, "alpha", .disabled true⟩,
      .offer ⟨"andLeft", some ["alpha"]⟩, .offer ⟨"orRight", some ["alpha"]⟩,
      .set ⟨.rule, "andLeft", .disabled true⟩, .showRuleRows ["orRight"], .price ⟨"orRight", none⟩,
      .load [("ruleset.alpha.disabled", "false"), ("rule.andLeft", "1")]]
    let edits : List Action := [.set ⟨.group, "alpha", .disabled true⟩,
      .set ⟨.rule, "andLeft", .disabled true⟩,
      .load [("ruleset.alpha.disabled", "false"), ("rule.andLeft", "1")]]
    (∀ r, .writeRuleRow r ∉ acts) ∧ s.log acts = s.log edits ∧
      "orRight" ∈ (s.run (acts.take 3)).gate.remembered ∧
      "orRight" ∉ (s.run acts).gate.disabled ∧ "andLeft" ∈ (s.run acts).gate.disabled := by
  intro s acts edits
  have hrows : ∀ r, .writeRuleRow r ∉ acts := by
    intro r
    simp [acts]
  exact ⟨hrows, log_eq_log_edits s hrows, by decide +kernel, by decide +kernel, by decide +kernel⟩

-- The row of a rule does depend on them: it finds the name disabled already.
example :
    let s := wrap (⟨.top⟩ : Indifferent Cost)
    let acts : List Action := [.set ⟨.group, "alpha", .disabled true⟩,
      .offer ⟨"andLeft", some ["alpha"]⟩, .writeRuleRow ⟨"andLeft", 1, 0, true⟩]
    "andLeft" ∉ (s.run acts).gate.explicitRules ∧
      "andLeft" ∈ (s.run (acts.filter Action.edits)).gate.explicitRules := by
  decide +kernel

end RuleSteering.Steered
