import RuleSteering.Proofs.Gate.Sets
import RuleSteering.Proofs.Sequence

/-!
# What a gate remembers after a history

A name is remembered exactly if a candidate with this name was turned away for one of its groups,
and no event since then has made the gate drop the name (`mem_remembered_run_iff`). The groups that
come with a name may be others in each question.

* `cause?`, the group that a candidate is turned away for;
* `Event.Drops`, the events that make a gate drop a remembered name, and `Spares`, a history
  without such an event;
* `mem_remembered_step`, what one event does to the remembered names, and `mem_remembered_run`,
  what a history does to them.
-/

namespace RuleSteering.Gate

/-! ### The cause of a rejection -/

/-- The group that a candidate is turned away for: the first of its groups that is disabled. -/
def cause? (g : Gate) (c : Candidate) : Option String :=
  c.groupList.find? (· ∈ g.groups)

theorem mem_groups_of_cause? {g : Gate} {c : Candidate} {group : String}
    (h : g.cause? c = some group) : group ∈ g.groups := by
  have hfound := List.find?_some h
  exact of_decide_eq_true hfound

/-- A candidate that is turned away, but not by its name, is turned away for a group. -/
theorem exists_cause? {g : Gate} {c : Candidate} (hname : c.name ∉ g.disabled)
    (h : g.rejects c = true) : ∃ group, g.cause? c = some group := by
  simp only [rejects, Bool.or_eq_true, decide_eq_true_eq, groupDisabled] at h
  exact Option.isSome_iff_exists.mp (List.find?_isSome.mpr (List.any_eq_true.mp
    (h.resolve_left hname)))

/-! ### Events that drop a name -/

/-- The event makes the gate drop a name that it remembers: it is an edit of this rule, it enables
a disabled group, or it clears the gate. -/
def Event.Drops (g : Gate) (name : String) : Event → Prop
  | .ask _ => False
  | .setRule n _ => n = name
  | .setGroup group b => b = false ∧ group ∈ g.groups
  | .set o => (o.scope = .rule ∧ o.setting.field = .disabled ∧ o.name = name) ∨
      (o.scope = .group ∧ o.setting = .disabled false ∧ o.name ∈ g.groups)
  | .clear => True

instance (g : Gate) (name : String) : (e : Event) → Decidable (e.Drops g name)
  | .ask _ => isFalse id
  | .setRule n _ => inferInstanceAs (Decidable (n = name))
  | .setGroup group b => inferInstanceAs (Decidable (b = false ∧ group ∈ g.groups))
  | .set o => inferInstanceAs (Decidable
      ((o.scope = .rule ∧ o.setting.field = .disabled ∧ o.name = name) ∨
        (o.scope = .group ∧ o.setting = .disabled false ∧ o.name ∈ g.groups)))
  | .clear => isTrue trivial

/-- No event of the history makes the gate drop the name. -/
def Spares (g : Gate) (name : String) (es : List Event) : Prop :=
  ∀ before e after, es = before ++ e :: after → ¬ e.Drops (g.run before) name

theorem spares_nil (g : Gate) (name : String) : g.Spares name [] := by
  intro before e after h
  simp at h

theorem spares_cons {g : Gate} {name : String} {e : Event} {es : List Event} :
    g.Spares name (e :: es) ↔ ¬ e.Drops g name ∧ (g.step e).Spares name es :=
  forall_split_cons

instance decidableSpares (name : String) :
    (g : Gate) → (es : List Event) → Decidable (g.Spares name es)
  | g, [] => isTrue (spares_nil g name)
  | g, e :: es =>
    have := decidableSpares name (g.step e) es
    decidable_of_iff _ spares_cons.symm

/-! ### One event -/

/-- A name is remembered after an event if it was and the event does not drop it, or if a candidate
with this name has just been turned away for its group. -/
theorem mem_remembered_step {g : Gate} {e : Event} {name : String} :
    name ∈ (g.step e).remembered ↔ (name ∈ g.remembered ∧ ¬ e.Drops g name) ∨
      ∃ c, e = .ask c ∧ c.name = name ∧ name ∉ g.disabled ∧ g.rejects c = true := by
  cases e with
  | ask c =>
    rw [step, mem_remembered_after]
    simp [Event.Drops, eq_comm (a := name)]
  | setRule n b =>
    rw [step, mem_remembered_setRule]
    simp [Event.Drops, and_comm, eq_comm (a := name)]
  | setGroup group b =>
    rw [step, mem_remembered_setGroup]
    simp [Event.Drops]
  | set o =>
    obtain ⟨scope, n, x⟩ := o
    cases x with
    | factor m | summand m => cases scope <;> simp [step, set, set?, Event.Drops]
    | disabled b =>
      cases scope with
      | rule =>
        show name ∈ (g.setRule n b).remembered ↔ _
        rw [mem_remembered_setRule]
        simp [Event.Drops, and_comm, eq_comm (a := name)]
      | group =>
        show name ∈ (g.setGroup n b).remembered ↔ _
        rw [mem_remembered_setGroup]
        simp [Event.Drops]
  | clear => simp [step, Event.Drops, show (∅ : Gate).remembered = ∅ from rfl]

/-- A disabled group stays disabled as long as no remembered name is dropped. -/
theorem mem_groups_step {g : Gate} {e : Event} {name group : String} (he : ¬ e.Drops g name)
    (h : group ∈ g.groups) : group ∈ (g.step e).groups := by
  have hset {x : String} {b : Bool} (hx : ¬ (b = false ∧ x ∈ g.groups)) :
      group ∈ (g.setGroup x b).groups := by
    rw [mem_groups_setGroup]
    split
    · rename_i heq
      cases b with
      | true => rfl
      | false => exact absurd ⟨rfl, heq ▸ h⟩ hx
    · exact h
  cases e with
  | ask c => rwa [step, groups_after]
  | setRule n b => rwa [step, groups_setRule]
  | setGroup x b => exact hset he
  | set o =>
    obtain ⟨scope, n, x⟩ := o
    cases x with
    | factor m | summand m => cases scope <;> exact h
    | disabled b =>
      cases scope with
      | rule =>
        show group ∈ (g.setRule n b).groups
        rwa [groups_setRule]
      | group => exact hset fun hx => he (.inr ⟨rfl, by rw [hx.1], hx.2⟩)
  | clear => exact absurd trivial he

/-! ### Histories -/

theorem mem_groups_run {g : Gate} {es : List Event} {name group : String} (hes : g.Spares name es)
    (h : group ∈ g.groups) : group ∈ (g.run es).groups := by
  induction es generalizing g with
  | nil => exact h
  | cons e es ih =>
    obtain ⟨he, hes⟩ := spares_cons.mp hes
    exact ih hes (mem_groups_step he h)

/-- In the history `es` of the gate `g` the candidate `c` with the given name is turned away after
the events `before`, and none of the events `after` it makes the gate drop the name. -/
structure TurnedAway (g : Gate) (es : List Event) (name : String) (before : List Event)
    (c : Candidate) (after : List Event) : Prop where
  eq_append : es = before ++ .ask c :: after
  name_eq : c.name = name
  rejects : (g.run before).rejects c = true
  spares : (g.run (before ++ [.ask c])).Spares name after

/-- The candidate is the subject of the first event or of a later one. -/
theorem exists_turnedAway_cons {g : Gate} {e : Event} {es : List Event} {name : String} :
    (∃ before c after, g.TurnedAway (e :: es) name before c after ∧
        name ∉ (g.run before).disabled) ↔
      ((∃ c, e = .ask c ∧ c.name = name ∧ name ∉ g.disabled ∧ g.rejects c = true) ∧
          (g.step e).Spares name es) ∨
        ∃ before c after, (g.step e).TurnedAway es name before c after ∧
          name ∉ ((g.step e).run before).disabled := by
  constructor
  · rintro ⟨before, c, after, ⟨hes, hname, hrejects, hspares⟩, hnot⟩
    cases before with
    | nil =>
      obtain ⟨rfl, rfl⟩ := List.cons.inj hes
      exact .inl ⟨⟨c, rfl, hname, hnot, hrejects⟩, hspares⟩
    | cons x before =>
      obtain ⟨rfl, htail⟩ := List.cons.inj hes
      exact .inr ⟨before, c, after, ⟨htail, hname, hrejects, hspares⟩, hnot⟩
  · rintro (⟨⟨c, rfl, hname, hnot, hrejects⟩, hspares⟩ |
      ⟨before, c, after, ⟨hes, hname, hrejects, hspares⟩, hnot⟩)
    · exact ⟨[], c, es, ⟨rfl, hname, hrejects, hspares⟩, hnot⟩
    · exact ⟨e :: before, c, after, ⟨by rw [hes]; rfl, hname, hrejects, hspares⟩, hnot⟩

/-- A name is remembered after a history if it was before and is spared, or if a candidate with this
name was turned away for its group in between and the name is spared since then. -/
theorem mem_remembered_run {g : Gate} {es : List Event} {name : String} :
    name ∈ (g.run es).remembered ↔ (name ∈ g.remembered ∧ g.Spares name es) ∨
      ∃ before c after, g.TurnedAway es name before c after ∧ name ∉ (g.run before).disabled := by
  induction es generalizing g with
  | nil =>
    have hnone : ¬ ∃ before c after, g.TurnedAway [] name before c after ∧
        name ∉ (g.run before).disabled := by
      rintro ⟨before, c, after, h, -⟩
      simpa using h.eq_append
    rw [or_iff_left hnone]
    exact (and_iff_left (spares_nil g name)).symm
  | cons e es ih =>
    rw [run_cons, ih, mem_remembered_step, spares_cons, exists_turnedAway_cons, or_and_right,
      or_assoc, and_assoc]

namespace TurnedAway

variable {g : Gate} {es : List Event} {name : String} {before : List Event} {c : Candidate}
  {after : List Event}

/-- The gate has seen the candidate in between. -/
theorem run_eq (h : g.TurnedAway es name before c after) :
    g.run es = ((g.run before).after c).run after := by
  rw [h.eq_append, run_append, run_cons, step]

theorem spares_after (h : g.TurnedAway es name before c after) :
    ((g.run before).after c).Spares name after := by
  have hspares := h.spares
  rwa [run_append] at hspares

/-- If a candidate was turned away, its name was not disabled by an edit, and the name is spared
since then, it is remembered. -/
theorem mem_remembered (h : g.TurnedAway es name before c after)
    (hnot : name ∉ (g.run before).explicitRules) : name ∈ (g.run es).remembered := by
  have hask : name ∈ ((g.run before).after c).remembered := by
    rw [mem_remembered_after]
    by_cases hd : name ∈ (g.run before).disabled
    · exact .inl (Classical.byContradiction fun hr => hnot (mem_explicitRules.mpr ⟨hd, hr⟩))
    · exact .inr ⟨h.name_eq.symm, hd, h.rejects⟩
  rw [h.run_eq, mem_remembered_run]
  exact .inl ⟨hask, h.spares_after⟩

/-- A group that was disabled when the candidate was turned away is still disabled. -/
theorem mem_groups (h : g.TurnedAway es name before c after) {group : String}
    (hgroup : group ∈ (g.run before).groups) : group ∈ (g.run es).groups := by
  rw [h.run_eq]
  refine mem_groups_run h.spares_after ?_
  rwa [groups_after]

end TurnedAway

/-- A gate that started empty remembers a name exactly if a candidate with this name was turned away
while the name was not disabled, be it at all or only by an edit, and no event has dropped the name
since then. The group that this candidate was turned away for is still disabled. Whatever groups a
candidate with a remembered name carries, it is turned away. -/
theorem mem_remembered_run_iff (es : List Event) (name : String) :
    let g := run ∅ es
    (name ∈ g.remembered ↔ ∃ before c after, TurnedAway ∅ es name before c after ∧
        name ∉ (run ∅ before).disabled) ∧
      (name ∈ g.remembered ↔ ∃ before c after, TurnedAway ∅ es name before c after ∧
        name ∉ (run ∅ before).explicitRules) ∧
      (∀ before c after, TurnedAway ∅ es name before c after → name ∉ (run ∅ before).disabled →
        ∃ group, (run ∅ before).cause? c = some group ∧ group ∈ g.groups) ∧
      (name ∈ g.remembered → ∀ groups, g.rejects ⟨name, groups⟩ = true) := by
  intro g
  have hiff : name ∈ g.remembered ↔ ∃ before c after, TurnedAway ∅ es name before c after ∧
      name ∉ (run ∅ before).disabled := by
    have hempty : name ∉ (∅ : Gate).remembered := Std.ExtTreeSet.not_mem_empty
    rw [mem_remembered_run]
    simp [hempty]
  refine ⟨hiff, ⟨fun h => ?_, ?_⟩, fun before c after h hnot => ?_, fun h groups => ?_⟩
  · obtain ⟨before, c, after, h, hnot⟩ := hiff.mp h
    exact ⟨before, c, after, h, fun he => hnot (mem_explicitRules.mp he).1⟩
  · rintro ⟨before, c, after, h, hnot⟩
    exact h.mem_remembered hnot
  · obtain ⟨group, hgroup⟩ := exists_cause? (h.name_eq ▸ hnot) h.rejects
    exact ⟨group, hgroup, h.mem_groups (mem_groups_of_cause? hgroup)⟩
  · have hd : name ∈ g.disabled := wellFormed_run es name h
    simp [rejects, hd]

/-- Enabling a group makes the gate drop a name that was turned away for another group, and the next
candidate is remembered again, whatever groups it is offered with later. -/
theorem mem_remembered_run_of_drop :
    let before : List Event := [.setGroup "alpha" true, .setGroup "beta" true,
      .ask ⟨"orRight", some ["alpha"]⟩, .setGroup "beta" false]
    let c : Candidate := ⟨"andLeft", some ["gamma", "alpha"]⟩
    let after : List Event := [.set ⟨.rule, "andLeft", .factor 2⟩, .ask ⟨"andLeft", some ["gamma"]⟩,
      .setRule "orRight" false, .setGroup "beta" false]
    let es := before ++ .ask c :: after
    TurnedAway ∅ es "andLeft" before c after ∧ "andLeft" ∉ (run ∅ before).disabled ∧
      "orRight" ∉ (run ∅ before).remembered ∧ "andLeft" ∈ (run ∅ es).remembered ∧
      (∃ group, (run ∅ before).cause? c = some group ∧ group ∈ (run ∅ es).groups) ∧
      (run ∅ es).rejects ⟨"andLeft", none⟩ = true := by
  intro before c after es
  have hturned : TurnedAway ∅ es "andLeft" before c after :=
    ⟨rfl, rfl, by decide +kernel, by decide +kernel⟩
  have hnot : "andLeft" ∉ (run ∅ before).disabled := by decide +kernel
  obtain ⟨hiff, -, hcause, hrejects⟩ := mem_remembered_run_iff es "andLeft"
  have hmem := hiff.mpr ⟨before, c, after, hturned, hnot⟩
  exact ⟨hturned, hnot, by decide +kernel, hmem, hcause before c after hturned hnot,
    hrejects hmem none⟩

end RuleSteering.Gate
