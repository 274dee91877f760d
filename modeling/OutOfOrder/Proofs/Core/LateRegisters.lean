import OutOfOrder.Proofs.Core.Ownership

/-!
# Registers that are taken late

With late allocation an operation takes its register when it is reported
executing, and its commit gives back what it holds by then. Nothing orders the
two, but each only moves a register between the free ones and an operation. So
the free registers, those that operations in the pool hold, and those that went
away with an operation that was handed back always make up the budget.

Whether any go away is another matter. An operation whose memory effect is open
stays in the pool after its commit, and the report that it executes does not ask
whether it has committed. Coming that late it takes a register, its second if it
had one before, and no commit follows that would give it back. If no operation
that writes registers is reported executing after its commit, none is lost.
-/

namespace OutOfOrder.Core

section Budget

variable {W : Type} {c d : Core (Recorded W)}

/-- How many operations in the pool hold a register. -/
def held (c : Core (Recorded W)) : Nat := c.pool.ops.countP MicroOp.holdsRegister

/-- How many operations held a register when they were handed back. -/
def lost (c : Core (Recorded W)) : Nat := c.world.released.countP MicroOp.holdsRegister

theorem countP_toList (o : Option MicroOp) :
    o.toList.countP MicroOp.holdsRegister = o.elim 0 MicroOp.registers := by
  cases o with
  | none => rfl
  | some op =>
      rw [Option.toList_some, List.countP_singleton, Option.elim_some, MicroOp.registers]
      cases op.holdsRegister <;> rfl

theorem held_replaced {h : Handle} {old new : Option MicroOp}
    (hpool : c.pool.Replaced d.pool h old new) :
    d.held + old.elim 0 MicroOp.registers = c.held + new.elim 0 MicroOp.registers := by
  obtain ⟨rest, hc, hd⟩ := hpool.ops
  rw [held, held, hc.countP_eq, hd.countP_eq, List.countP_append, List.countP_append,
    countP_toList, countP_toList]
  omega

/-- A step moves registers, and makes or destroys none. -/
theorem Turnover.free_add_held_add_lost {event : Option Event} (hturn : Turnover c event d)
    (hfree : ∀ a, event = some (.admitted a) → a.offered.holdsRegister = false) :
    d.freeRegs + d.held + d.lost = c.freeRegs + c.held + c.lost := by
  cases hturn with
  | quiet hadmissions hcommits hidle hpool hregs hdepartures =>
      rw [held, lost, hpool, hregs, Recorded.released_congr hdepartures]
      rfl
  | @comes a d hpool horigin hregs hlate hdepartures =>
      have hheld : d.held + 0 = c.held + a.op.registers := held_replaced hpool
      have hregs := hregs (hfree _ rfl)
      rw [lost, Recorded.released_congr hdepartures, ← lost]
      omega
  | @changes event h op op' d hchange hpool hregs hdepartures =>
      have hheld : d.held + op.registers = c.held + op'.registers := held_replaced hpool
      rw [lost, released_of_commitDepartures hdepartures, ← lost]
      omega
  | @goes event h op gone d hleave hpool hregs hdepartures =>
      have hheld : d.held + op.registers = c.held + 0 := held_replaced hpool
      have hlost : d.lost = c.lost + gone.registers := by
        rw [lost, released_of_departures hdepartures, List.countP_append, lost]
        exact congrArg _ (countP_toList (some gone))
      omega

end Budget

variable {W : Type}

/-! ## Reports that come in time -/

/-- A report comes in time unless it is that an operation executes which writes a
register and is not in flight any more. -/
def inTime (c : Core W) : Command → Bool
  | .executing h => !(c.op? h).any (·.inst.writesRegister) || c.inFlight.contains h
  | _ => true

/-- All reports of a run come in time. -/
def executesInTime [Surroundings W] (c : Core W) : List Command → Bool
  | [] => true
  | command :: rest => c.inTime command && (c.perform command).2.executesInTime rest

theorem mem_inFlight_of_inTime {c : Core W} {h : Handle} {op : MicroOp}
    (htime : c.inTime (.executing h) = true) (hop : c.op? h = some op)
    (hwrites : op.inst.writesRegister = true) : h ∈ c.inFlight := by
  rw [inTime, hop, Option.any_some, hwrites, Bool.not_true, Bool.false_or] at htime
  exact List.contains_iff_mem.1 htime

/-- If the report that `h` executes takes a register, it is for an operation that
writes one and has none. -/
theorem of_executing_takes {c : Core W} {h : Handle}
    (htakes : (c.executing h).freeRegs < c.freeRegs) :
    ∃ op, c.op? h = some op ∧ c.config.lateAlloc = true ∧ op.inst.writesRegister = true ∧
      op.holdsRegister = false := by
  rw [executing_eq] at htakes
  dsimp only at htakes
  split at htakes
  · next hany =>
      rw [Option.any_eq_true] at hany
      obtain ⟨op, hop, hany⟩ := hany
      rw [Bool.and_eq_true, Bool.and_eq_true, Bool.not_eq_true'] at hany
      exact ⟨op, hop, hany.1.1, hany.1.2, hany.2⟩
  · exact absurd htakes (Int.lt_irrefl _)

variable [Surroundings W]

theorem executesInTime_append (c : Core W) (first second : List Command) :
    c.executesInTime (first ++ second) =
      (c.executesInTime first && (c.run first).2.executesInTime second) := by
  induction first generalizing c with
  | nil => rfl
  | cons command rest ih =>
      rw [List.cons_append, executesInTime, ih, executesInTime, Bool.and_assoc]
      rfl

/-! ## Registers of operations that have committed -/

variable {c d : Core (Recorded W)}

/-- With late allocation, and as long as reports come in time, no register is out but
with an operation in flight. -/
structure HeldInFlight (c : Core (Recorded W)) : Prop where
  consistent : c.Consistent
  late : c.config.lateAlloc = true
  others : ∀ h, h ∉ c.inFlight → ∀ op, c.pool.get? h = some op → op.holdsRegister = false
  released : ∀ op ∈ c.world.released, op.holdsRegister = false

namespace HeldInFlight

omit [Surroundings W] in
theorem of_create {config : CoreConfig} {hart : Nat} {world : W}
    (h : create config hart ⟨world, []⟩ = .ok c) (hlate : config.lateAlloc = true) :
    c.HeldInFlight := by
  have hc := Consistent.of_create h
  obtain ⟨-, rfl⟩ := create_eq h
  refine ⟨hc, hlate, fun h _ op hop => ?_, fun op hop => by cases hop⟩
  rw [initial, Pool.get?_withCapacity] at hop
  cases hop

theorem step (hh : c.HeldInFlight) {event : Option Event} (hstep : Step c event d)
    (htime : ∀ h, event = some (.told (.executing h)) → c.inTime (.executing h) = true) :
    d.HeldInFlight := by
  have hc := hh.consistent
  refine ⟨hc.step hstep, by rw [config_step hstep]; exact hh.late, ?_, ?_⟩
  · intro h hnot left hleft
    obtain ⟨op, -, -, rfl⟩ | ⟨op, hop, hmem, rfl | ⟨e, rfl, hchange⟩⟩ :=
      waiting_of_step hc hstep hleft hnot
    · rfl
    · exact hh.others h hmem left hop
    · have hcommit : e ≠ .committed ⟨h, op⟩ := by
        rintro rfl
        exact hmem (hc.inFlight_committed hstep ▸ List.mem_cons_self)
      obtain heq | ⟨rfl, hwrites, -⟩ := hchange.holdsRegister_cases hcommit
      · rw [heq]
        exact hh.others h hmem op hop
      · exact absurd (mem_inFlight_of_inTime (htime h rfl) hop hwrites) hmem
  · intro op hop
    exact (registers_released_step hc hh.others hstep op hop).elim (hh.released op) id

theorem perform (hh : c.HeldInFlight) {command : Command} (htime : c.inTime command = true) :
    (c.perform command).2.HeldInFlight := by
  by_cases hexec : ∃ h, command = .executing h
  · obtain ⟨h, rfl⟩ := hexec
    refine hh.step (.executing c h) fun k hk => ?_
    obtain rfl := Command.executing.inj (Event.told.inj (Option.some.inj hk))
    exact htime
  · -- No other command tells the core that an operation executes.
    have hnone : ∀ h, .told (.executing h) ∉ (c.perform command).1.events command :=
      fun h hmem => hexec ⟨h, (eq_of_told_mem_events hmem).symm⟩
    refine (steps_perform c command).keeps
      (P := fun past e => (∀ h, .told (.executing h) ∉ past) → e.HeldInFlight) ?_
      (fun _ => hh) hnone
    intro past e event e' hpast hstep hnone
    refine (hpast fun h hmem => hnone h (List.mem_append_left _ hmem)).step hstep fun h hk => ?_
    exact absurd (List.mem_append_right _ (Option.mem_toList.2 hk)) (hnone h)

theorem run (hh : c.HeldInFlight) {commands : List Command}
    (htime : c.executesInTime commands = true) : (c.run commands).2.HeldInFlight := by
  induction commands generalizing c with
  | nil => exact hh
  | cons command rest ih =>
      rw [executesInTime, Bool.and_eq_true] at htime
      exact ih (hh.perform htime.1) htime.2

end HeldInFlight

/-! ## Taking a register twice -/

theorem keeps_register {events : List Event} {h : Handle} (hc : c.Consistent)
    (hheld : h ∈ c.inFlight → ∀ op, c.pool.get? h = some op → op.holdsRegister = true)
    (hsteps : Steps c events d) (hnew : ∀ a ∈ Event.admissions events, a.handle ≠ h) :
    h ∈ d.inFlight → ∀ op, d.pool.get? h = some op → op.holdsRegister = true := by
  refine (hsteps.keeps (P := fun past e => e.Consistent ∧
    ((∀ a ∈ Event.admissions past, a.handle ≠ h) →
      h ∈ e.inFlight → ∀ op, e.pool.get? h = some op → op.holdsRegister = true))
    ?_ ⟨hc, fun _ => hheld⟩).2 hnew
  intro past e event e' ⟨he, hpast⟩ hstep
  refine ⟨he.step hstep, fun hnew hmem left hleft => ?_⟩
  rw [Event.admissions_append] at hnew
  -- What is in flight was so before the step, as nothing is admitted under its handle.
  have hbefore : h ∈ e.inFlight := by
    refine (he.mem_inFlight_of_step hstep hmem).resolve_right ?_
    rintro ⟨a, rfl, rfl⟩
    exact hnew a (List.mem_append_right _ (List.mem_singleton_self a)) rfl
  have hheld := hpast (fun a ha => hnew a (List.mem_append_left _ ha)) hbefore
  obtain ⟨a, rfl, hhandle, -⟩ | ⟨-, op, hop, rfl | ⟨e, rfl, hchange⟩⟩ :=
    (turnover_step he.pool hstep).get?_cases hleft
  · exact absurd hhandle (hnew a (List.mem_append_right _ (List.mem_singleton_self a)))
  · exact hheld left hop
  · have hcommit : e ≠ .committed ⟨h, op⟩ := by
      rintro rfl
      exact he.not_mem_of_committed hstep hmem
    exact (hchange.holdsRegister_cases hcommit).elim
      (fun heq => heq.trans (hheld op hop)) fun htaken => htaken.2.2

/-- Between two reports that each take a register for one handle, the second in
time, an operation is admitted under it. -/
theorem admitted_between_takes {h : Handle} {between : List Command} (hc : c.Consistent)
    (hfirst : (c.executing h).freeRegs < c.freeRegs)
    (hd : (c.run (.executing h :: between)).2 = d) (htime : d.inTime (.executing h) = true)
    (hsecond : (d.executing h).freeRegs < d.freeRegs) :
    ∃ a ∈ Event.admissions (c.history (.executing h :: between)), a.handle = h := by
  have hstep : Step c (some (.told (.executing h))) (c.executing h) := .executing c h
  obtain ⟨op, hop, hlate, hwrites, -⟩ := of_executing_takes hfirst
  have hheld : ∀ left, (c.executing h).pool.get? h = some left → left.holdsRegister = true := by
    intro left hleft
    have hpool : (c.executing h).pool =
        c.pool.modify h (MicroOp.markExecuting c.config.lateAlloc) := by rw [executing_eq]
    rw [hpool, Pool.get?_modify_self (f := MicroOp.markExecuting _) fun _ => rfl,
      show c.pool.get? h = some op from hop, Option.map_some] at hleft
    rw [← Option.some.inj hleft, MicroOp.markExecuting, hlate, hwrites, Bool.and_true,
      Bool.or_true]
  obtain ⟨again, hagain, -, hwrites, hfree⟩ := of_executing_takes hsecond
  refine Classical.byContradiction fun hnone => ?_
  have hnew : ∀ a ∈ Event.admissions ((c.executing h).history between), a.handle ≠ h :=
    fun a ha heq => hnone ⟨a, ha, heq⟩
  have hkept := keeps_register (hc.step hstep) (fun _ => hheld) (hd ▸ steps_run _ between) hnew
    (mem_inFlight_of_inTime htime hagain hwrites) again hagain
  rw [hfree] at hkept
  cases hkept

/-! ## The budget -/

/-- Registers are neither made nor destroyed in any run whose operations come without
one. -/
theorem free_add_held_add_lost_eq_budget {config : CoreConfig} {hart : Nat} {world : W}
    {start : Core (Recorded W)} (hstart : create config hart ⟨world, []⟩ = .ok start)
    (commands : List Command)
    (hfree : ∀ a ∈ Event.admissions (start.history commands),
      a.offered.holdsRegister = false) :
    (start.run commands).2.freeRegs + (start.run commands).2.held + (start.run commands).2.lost =
      config.registerBudget := by
  have hc := Consistent.of_create hstart
  obtain ⟨-, rfl⟩ := create_eq hstart
  refine ((steps_run _ commands).keeps_of_admissions (P := fun _ e => e.Consistent ∧
    e.freeRegs + e.held + e.lost = config.registerBudget) ?_ hfree ⟨hc, ?_⟩).2
  · intro past e event e' ⟨he, hpast⟩ hstep hnew
    refine ⟨he.step hstep, ?_⟩
    rw [(turnover_step he.pool hstep).free_add_held_add_lost]
    · exact hpast
    · rintro a rfl
      exact hnew a (List.mem_singleton_self a)
  · have hheld : (initial config hart (⟨world, []⟩ : Recorded W)).held = 0 := by
      rw [held, initial, Pool.ops_withCapacity, List.countP_nil]
    rw [hheld]
    exact (Int.add_zero _).trans (Int.add_zero _)

theorem admitted_without_register {config : CoreConfig} {hart : Nat} {world : W}
    {start : Core (Recorded W)} (hstart : create config hart ⟨world, []⟩ = .ok start)
    (hlate : config.lateAlloc = true) (commands : List Command) :
    ∀ a ∈ Event.admissions (start.history commands),
      a.op.holdsRegister = a.offered.holdsRegister := by
  have hc := Consistent.of_create hstart
  obtain ⟨-, rfl⟩ := create_eq hstart
  refine ((steps_run _ commands).keeps (P := fun past e => e.Consistent ∧
    e.config.lateAlloc = true ∧
      ∀ a ∈ Event.admissions past, a.op.holdsRegister = a.offered.holdsRegister)
    ?_ ⟨hc, hlate, fun a ha => absurd ha List.not_mem_nil⟩).2.2
  intro past e event e' ⟨he, hlate, hpast⟩ hstep
  refine ⟨he.step hstep, by rw [config_step hstep]; exact hlate, fun a ha => ?_⟩
  rw [Event.admissions_append, List.mem_append] at ha
  refine ha.elim (hpast a) fun ha => ?_
  obtain rfl := Event.eq_admitted_of_mem ha
  cases turnover_step he.pool hstep with
  | quiet hadmissions => cases hadmissions
  | comes hpool horigin hregs hkept => exact hkept hlate
  | changes hchange => cases hchange
  | goes hleave => cases hleave

/-- **Register conservation under late allocation.** Where nothing is admitted that
brings a register along, and no operation that writes one is reported executing
after its commit, the free registers and those held in the pool make up the
budget, and whatever is handed back holds none. An operation takes no register
when it is admitted, and at most one afterwards: two reports take registers for
one handle only if another operation was admitted under it in between. And once
everything that was admitted has been handed back, the whole budget is free. -/
theorem late_registers_conserved {config : CoreConfig} {hart : Nat} {world : W}
    {start : Core (Recorded W)} (hstart : create config hart ⟨world, []⟩ = .ok start)
    (hlate : config.lateAlloc = true) (commands : List Command)
    (hfree : ∀ a ∈ Event.admissions (start.history commands),
      a.offered.holdsRegister = false)
    (htime : start.executesInTime commands = true) :
    let past := start.history commands
    let c := (start.run commands).2
    c.freeRegs + c.pool.ops.countP MicroOp.holdsRegister = config.registerBudget ∧
      (∀ op ∈ c.world.released, op.holdsRegister = false) ∧
      (∀ a ∈ Event.admissions past, a.op.holdsRegister = false) ∧
      (∀ before h between after,
        commands = before ++ .executing h :: (between ++ .executing h :: after) →
        let d := (start.run before).2
        let e := (start.run (before ++ .executing h :: between)).2
        (d.executing h).freeRegs < d.freeRegs → (e.executing h).freeRegs < e.freeRegs →
          ∃ a ∈ Event.admissions (d.history (.executing h :: between)), a.handle = h) ∧
      (c.world.released.length = (Event.admissions past).length →
        c.freeRegs = config.registerBudget) := by
  intro past c
  have hc := Consistent.of_create hstart
  have hh : c.HeldInFlight := (HeldInFlight.of_create hstart hlate).run htime
  -- The registers always add up, so all that is left to show is that none is lost.
  have hnone : c.lost = 0 := List.countP_eq_zero.2 fun op hop => by
    rw [hh.released op hop]
    exact Bool.false_ne_true
  have hbudget : c.freeRegs + c.held + c.lost = config.registerBudget :=
    free_add_held_add_lost_eq_budget hstart commands hfree
  rw [hnone] at hbudget
  refine ⟨(Int.add_zero _).symm.trans hbudget, hh.released, fun a ha => ?_, ?_, fun hall => ?_⟩
  · rw [admitted_without_register hstart hlate commands a ha]
    exact hfree a ha
  · rintro before h between after rfl d e hfirst hsecond
    have hsplit : before ++ .executing h :: (between ++ .executing h :: after) =
        (before ++ .executing h :: between) ++ .executing h :: after := by simp
    rw [hsplit, executesInTime_append, executesInTime, Bool.and_eq_true, Bool.and_eq_true] at htime
    refine admitted_between_takes (hc.steps (steps_run start before)) hfirst ?_ htime.2.1 hsecond
    rw [run_append]
  · obtain ⟨places, ho⟩ : ∃ places, Owned past c places := Owned.of_run hstart commands
    have hlength := ho.contents.length_eq
    rw [List.length_append, List.length_map, List.length_map, List.length_map] at hlength
    have hempty : c.pool.ops = [] := List.eq_nil_of_length_eq_zero (by omega)
    rw [held, hempty, List.countP_nil] at hbudget
    omega

/-- A store with a destination takes its register late, is told twice that it
executes, and commits before it is complete; in the end both registers of the
budget are free again. -/
theorem whole_budget_free_again :
    let store : MicroOp := { id := 1, pc := 0, inst := { opcode := .store, dst1 := some 5 } }
    let config : CoreConfig :=
      { maxRobSize := 4, totalRegs := 2, retireDelay := 0, lateAlloc := true }
    let world : Recorded Obliging := ⟨{ buckets := [[{ id := 2, pc := 4, inst := {} }]] }, []⟩
    let start : Core (Recorded Obliging) := .initial config 0 world
    let commands : List Command :=
      [.activate, .add store, .executing ⟨0, 1⟩, .executing ⟨0, 1⟩, .executed ⟨0, 1⟩, .advance,
        .executed ⟨1, 2⟩, .advance, .performed ⟨0, 1⟩]
    let past := start.history commands
    let c := (start.run commands).2
    create config 0 world = .ok start ∧ config.lateAlloc = true ∧
      (∀ a ∈ Event.admissions past, a.offered.holdsRegister = false) ∧
      start.executesInTime commands = true ∧
      c.world.released.length = (Event.admissions past).length ∧
      (start.run (commands.take 4)).2.freeRegs = 1 ∧ c.freeRegs = 2 := by
  intro store config world start commands past c
  have hstart : create config 0 world = .ok start := rfl
  have hlate : config.lateAlloc = true := rfl
  have hfree : ∀ a ∈ Event.admissions past, a.offered.holdsRegister = false := by
    decide +kernel
  have htime : start.executesInTime commands = true := by decide +kernel
  have hall : c.world.released.length = (Event.admissions past).length := by decide +kernel
  obtain ⟨-, -, -, -, hbudget⟩ := late_registers_conserved hstart hlate commands hfree htime
  exact ⟨hstart, hlate, hfree, htime, hall, by decide +kernel, hbudget hall⟩

/-- The same store is told that it executes once more after its commit. It takes a
second register, is handed back with it, and one register of the two is lost. -/
theorem register_lost_after_late_execution :
    let store : MicroOp := { id := 1, pc := 0, inst := { opcode := .store, dst1 := some 5 } }
    let config : CoreConfig :=
      { maxRobSize := 4, totalRegs := 2, retireDelay := 0, lateAlloc := true }
    let world : Recorded Obliging := ⟨{ buckets := [[{ id := 2, pc := 4, inst := {} }]] }, []⟩
    let start : Core (Recorded Obliging) := .initial config 0 world
    let commands : List Command :=
      [.activate, .add store, .executing ⟨0, 1⟩, .executed ⟨0, 1⟩, .advance, .executing ⟨0, 1⟩,
        .executed ⟨1, 2⟩, .advance, .performed ⟨0, 1⟩]
    let c := (start.run commands).2
    create config 0 world = .ok start ∧
      (∀ a ∈ Event.admissions (start.history commands), a.offered.holdsRegister = false) ∧
      c.world.released.length = (Event.admissions (start.history commands)).length ∧
      c.world.released.map MicroOp.holdsRegister = [false, true] ∧
      c.pool.ops = [] ∧ c.freeRegs = 1 := by
  intro store config world start commands c
  exact ⟨rfl, by decide +kernel, by decide +kernel, by decide +kernel, by decide +kernel,
    by decide +kernel⟩

end OutOfOrder.Core
