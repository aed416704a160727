import RuleSteering.Proofs.Inquiry
import RuleSteering.Proofs.Steered.RowWrite

/-!
# When a strategy is configured

A strategy is configured exactly if something has been loaded or edited since the beginning or since
the last reset; a row counts only if it differs from the effective row at that moment. A strategy
that is not configured behaves like its base (`configured_run_iff_and_transparent`).

* `Configures`, the actions that leave the strategy configured;
* `Pristine`, what a strategy is that is not configured: its base, wrapped without any overrides.
  Every action keeps this (`Pristine.step`);
* `transcript_wrap`, a strategy without overrides answers like its base.
-/

namespace RuleSteering

/-- Tables without entries leave every cost alone. -/
@[simp] theorem Adjustments.adjust_empty {C : Type} [CostDomain C] (c : Candidate) (cost : C) :
    (∅ : Adjustments).adjust c cost = cost := rfl

/-- Rows with the same key differ by no setting only if they are equal. -/
theorem Row.changes_eq_nil_iff {old new : Row} (hkey : old.key = new.key) :
    old.changes new = [] ↔ old = new := by
  obtain ⟨key, f, n, d⟩ := old
  obtain ⟨key', f', n', d'⟩ := new
  have hkey : key = key' := hkey
  simp [changes, hkey]

namespace Steered

variable {S C : Type}

/-! ### The flag after an action -/

theorem configured_setAll (s : Steered S) (scope : Override.Scope) (name : String)
    (xs : List Override.Setting) :
    (s.setAll scope name xs).configured = true ↔ s.configured = true ∨ xs ≠ [] := by
  induction xs generalizing s with
  | nil => simp
  | cons x xs ih =>
    have hset : (s.set ⟨scope, name, x⟩).configured = true := configured_put _ _
    rw [setAll_cons, ih]
    simp [hset]

theorem configured_writeRuleRow (s : Steered S) (r : Row) :
    (s.writeRuleRow r).configured = true ↔ s.configured = true ∨ r ≠ s.ruleRow r.key := by
  rw [writeRuleRow, configured_setAll, ne_eq, Row.changes_eq_nil_iff (s.key_ruleRow r.key),
    ne_eq, eq_comm (a := r)]

theorem configured_writeGroupRow (s : Steered S) (r : Row) :
    (s.writeGroupRow r).configured = true ↔ s.configured = true ∨ r ≠ s.groupRow r.key := by
  rw [writeGroupRow, configured_setAll, ne_eq, Row.changes_eq_nil_iff (s.key_groupRow r.key),
    ne_eq, eq_comm (a := r)]

/-- The action leaves the strategy configured: it loads or edits something, or it writes a row that
differs from the effective one. -/
def Configures (s : Steered S) : Action → Prop
  | .load _ => True
  | .restore _ => True
  | .set _ => True
  | .writeRuleRow r => r ≠ s.ruleRow r.key
  | .writeGroupRow r => r ≠ s.groupRow r.key
  | _ => False

variable [Strategy S C]

@[simp] theorem configured_admits (s : Steered S) (c : Candidate) :
    (s.admits c).2.configured = s.configured := by
  unfold admits
  split <;> rfl

theorem configured_step {s : Steered S} {a : Action} :
    (s.step a).configured = true ↔ s.Configures a ∨ (s.configured = true ∧ a ≠ .reset) := by
  cases a with
  | load pairs => simp [step, load, Configures]
  | restore snapshot => simp [step, restore, Configures]
  | set o => simp [step, set, Configures]
  | writeRuleRow r => simp [step, configured_writeRuleRow, Configures, or_comm]
  | writeGroupRow r => simp [step, configured_writeGroupRow, Configures, or_comm]
  | reset => simp [step, reset, wrap, Configures]
  | offer c => simp [step, Configures]
  | price c => simp [step, Configures]
  | showRuleRows names => simp [step, Configures]
  | showGroupRows names => simp [step, Configures]

/-- After a history a strategy is configured if an action has left it so and no reset came later, or
if it was before and there was no reset at all. -/
theorem configured_run {s : Steered S} {acts : List Action} :
    (s.run acts).configured = true ↔
      (∃ before a after, acts = before ++ a :: after ∧
        (s.run before).Configures a ∧ .reset ∉ after) ∨
      (s.configured = true ∧ .reset ∉ acts) :=
  foldl_iff_of_step (P := fun t : Steered S => t.configured = true) fun _ _ => configured_step

/-! ### A strategy that is not configured -/

/-- Unless the strategy is configured, nothing is overridden and nothing is remembered. -/
def Pristine (s : Steered S) : Prop := s.configured = false → s = wrap s.base

theorem pristine_wrap (base : S) : (wrap base).Pristine := fun _ => rfl

/-- Without overrides the base strategy gives the answer. -/
theorem admits_wrap (base : S) (c : Candidate) :
    (wrap base).admits c = ((Strategy.admits base c).1, wrap (Strategy.admits base c).2) := by
  have hrejects : (wrap base).gate.rejects c = false := by
    simp [wrap, Gate.rejects, Gate.groupDisabled, show (∅ : Gate).disabled = ∅ from rfl,
      show (∅ : Gate).groups = ∅ from rfl]
  have hafter := Gate.after_eq_of_not_rejects hrejects
  simp only [admits, hrejects, hafter]
  rfl

theorem Pristine.step {s : Steered S} (h : s.Pristine) (a : Action) : (s.step a).Pristine := by
  intro hflag
  have hconfigures : ¬ s.Configures a := by
    intro ha
    have hset : (s.step a).configured = true := configured_step.mpr (.inl ha)
    rw [hflag] at hset
    contradiction
  cases a with
  | load pairs | restore snapshot | set o => exact absurd trivial hconfigures
  | writeRuleRow r =>
    have hrow : r = s.ruleRow r.key := Classical.not_not.mp hconfigures
    have hsame : s.writeRuleRow r = s := by
      rw [hrow]
      exact s.writeRuleRow_ruleRow r.key
    simp only [Steered.step, hsame] at hflag ⊢
    exact h hflag
  | writeGroupRow r =>
    have hrow : r = s.groupRow r.key := Classical.not_not.mp hconfigures
    have hsame : s.writeGroupRow r = s := by
      rw [hrow]
      exact s.writeGroupRow_groupRow r.key
    simp only [Steered.step, hsame] at hflag ⊢
    exact h hflag
  | reset => rfl
  | offer c =>
    simp only [Steered.step, configured_admits] at hflag ⊢
    rw [h hflag, admits_wrap]
    rfl
  | price c | showRuleRows names | showGroupRows names => exact h hflag

theorem Pristine.run {s : Steered S} (h : s.Pristine) (acts : List Action) :
    (s.run acts).Pristine := by
  induction acts generalizing s with
  | nil => exact h
  | cons a acts ih => exact ih (h.step a)

/-- A strategy without overrides gives the answers of its base, and remains without overrides. -/
theorem transcript_wrap [CostDomain C] (base : S) (qs : List Question) :
    transcript respond (wrap base) qs =
      ((transcript respond base qs).1, wrap (transcript respond base qs).2) := by
  have hstep {s : Steered S} {t : S} (h : s = wrap t) (q : Question) :
      (respond s q).1 = (respond t q).1 ∧ (respond s q).2 = wrap (respond t q).2 := by
    subst h
    cases q with
    | admission c =>
      show (Answer.admitted ((wrap t).admits c).1 = _ ∧ ((wrap t).admits c).2 = _)
      rw [admits_wrap]
      exact ⟨rfl, rfl⟩
    | cost c =>
      have hcost : (wrap t).cost c = Strategy.cost t c := Adjustments.adjust_empty c _
      exact ⟨congrArg Answer.cost hcost, rfl⟩
  obtain ⟨hanswers, hlast⟩ := transcript_of_related (R := fun s t => s = wrap t) hstep rfl qs
  exact Prod.ext hanswers hlast

/-- After any history a strategy is configured exactly if since the beginning or since the last reset
something was loaded or edited, or a row was written that differed from the effective one. If it is
not, nothing is overridden and nothing is remembered. To all questions from then on it gives the
answers of its base, which becomes what it would have become by the questions alone, and the
strategy still is not configured and remembers nothing. -/
theorem configured_run_iff_and_transparent [CostDomain C] (base : S) (acts : List Action) :
    let s := (wrap base).run acts
    (s.configured = true ↔ ∃ before a after, acts = before ++ a :: after ∧
        ((wrap base).run before).Configures a ∧ .reset ∉ after) ∧
      (s.configured = false → s.snapshot = ∅ ∧ s.gate.remembered = ∅ ∧
        ∀ qs : List Question,
          let t := (transcript respond s qs).2
          (transcript respond s qs).1 = (transcript respond s.base qs).1 ∧
            t.base = (transcript respond s.base qs).2 ∧
            t.configured = false ∧ t.gate.remembered = ∅) := by
  intro s
  refine ⟨?_, fun hflag => ?_⟩
  · rw [configured_run]
    simp [wrap]
  · have hwrap : s = wrap s.base := (pristine_wrap base).run acts hflag
    rw [hwrap]
    refine ⟨rfl, rfl, fun qs => ?_⟩
    rw [transcript_wrap]
    exact ⟨rfl, rfl, rfl, rfl⟩

/-- A candidate that was turned away before the reset is handed to the base after it, also if the row
of its rule has been written back in between; an edited row ends this. -/
theorem transparent_of_reset :
    let c : Candidate := ⟨"andLeft", some ["alpha"]⟩
    let base : Recorder (Indifferent Cost) := { strategy := ⟨.finite 3⟩ }
    let acts : List Action := [.set ⟨.group, "alpha", .disabled true⟩, .offer c, .reset,
      .writeRuleRow ⟨"andLeft", 1, 0, false⟩]
    let s := (wrap base).run acts
    let edited := (wrap base).run (acts ++ [.writeGroupRow ⟨"alpha", 2, 0, false⟩])
    s.configured = false ∧ s.snapshot = ∅ ∧
      (transcript respond s [.admission c, .cost c]).1 = [.admitted true, .cost (.finite 3)] ∧
      (transcript respond s [.admission c, .cost c]).2.base.asked = [c] ∧
      edited.configured = true := by
  intro c base acts s edited
  obtain ⟨-, htransparent⟩ := configured_run_iff_and_transparent base acts
  obtain ⟨hsnapshot, -, hquestions⟩ := htransparent (by decide)
  obtain ⟨hanswers, hbase, -⟩ := hquestions [.admission c, .cost c]
  obtain ⟨hiff, -⟩ := configured_run_iff_and_transparent base
    (acts ++ [.writeGroupRow ⟨"alpha", 2, 0, false⟩])
  have hrow : ((wrap base).run acts).Configures (.writeGroupRow ⟨"alpha", 2, 0, false⟩) := by
    show (⟨"alpha", 2, 0, false⟩ : Row) ≠ _
    decide
  refine ⟨by decide, hsnapshot, hanswers.trans rfl, ?_, hiff.mpr ⟨acts, _, [], rfl, hrow, by simp⟩⟩
  rw [hbase]
  rfl

end Steered

end RuleSteering
