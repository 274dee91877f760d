import OutOfOrder.Proofs.Core.LateRegisters
import OutOfOrder.Proofs.Core.Registers

/-!
# What a drained core can refuse

A drained core that does not recover has room in the reorder buffer, whatever its
size, so what is left to refuse an operation are the registers. In a drained core none
is held by an operation in flight. Of the budget are missing only those that late
reports took for operations which had committed: `held` counts them as long as the
operation waits for its memory effect, and `lost` once it has been handed back with
them. No commit will return them.

So a drained core admits exactly if the budget is more than that. It always is if the
budget is not negative and no operation takes a register after its commit. Where it is
not, the core has come to an end: nothing in flight can give a register back, and
nothing can come in that would.
-/

namespace OutOfOrder.Core

variable {W : Type}

/-- What the core itself has against an operation, if it is drained. -/
theorem refusal?_of_drained {c : Core W} (hsize : 2 ≤ c.config.maxRobSize)
    (hidle : c.recovery.recovering = false) (hdrained : c.isDrained = true) (op : MicroOp) :
    c.refusal? op = if c.freeRegs ≤ 0 then some .smallReg else none := by
  have hempty : c.occupancy = 0 := by
    unfold isDrained RingBuffer.isEmpty at hdrained
    simp only [Bool.and_eq_true, beq_iff_eq] at hdrained
    unfold occupancy RingBuffer.size
    omega
  unfold refusal?
  rw [hidle, hempty, Bool.false_and, if_neg Bool.false_ne_true, if_neg (by omega)]

variable [Surroundings W]

theorem add_ok_iff (c : Core W) (op : MicroOp) :
    (∃ a, (c.add op).1 = .ok a) ↔
      c.refusal? op = none ∧ (Cluster.hazard? c.world op).1 = none := by
  rcases add_cases c op with ⟨cause, hroom, hadd⟩ | ⟨cause, world, hroom, hanswer, hadd⟩ |
    ⟨world, hroom, hanswer, hadd⟩ <;> rw [hadd, hroom]
  · simp
  · simp [hanswer]
  · simp [hanswer]

variable {c d : Core (Recorded W)} {event : Option Event}

/-- Nothing is in flight and no register is left. -/
structure Starved (c : Core (Recorded W)) : Prop where
  consistent : c.Consistent
  inFlight : c.inFlight = []
  freeRegs : c.freeRegs ≤ 0

namespace Starved

theorem admissions_step (hc : c.Starved) (hstep : Step c event d) :
    Event.admissions event.toList = [] := by
  cases hstep with
  | accept hroom =>
      have hleft := (Consistent.of_refusal?_eq_none hroom).2.2
      have hnone := hc.freeRegs
      omega
  | _ => rfl

theorem commits_step (hc : c.Starved) (hstep : Step c event d) :
    Event.commits event.toList = [] := by
  cases hstep with
  | commit htop =>
      have hmem := hc.consistent.mem_of_retiring_top? htop
      rw [hc.inFlight] at hmem
      cases hmem
  | _ => rfl

/-- Only a commit gives a register back. -/
theorem freeRegs_step (hc : c.Starved) (hstep : Step c event d) : d.freeRegs ≤ c.freeRegs := by
  have hadmissions := hc.admissions_step hstep
  have hcommits := hc.commits_step hstep
  cases turnover_step hc.consistent.pool hstep with
  | quiet _ _ _ _ hregs => omega
  | comes => cases hadmissions
  | @changes event h op op' d hchange _ hregs =>
      have hcommit : event ≠ .committed ⟨h, op⟩ := by
        rintro rfl
        cases hcommits
      have hkept : op.registers ≤ op'.registers := by
        unfold MicroOp.registers
        rcases hchange.holdsRegister_cases hcommit with heq | ⟨-, -, htakes⟩
        · exact Nat.le_of_eq (congrArg Bool.toNat heq.symm)
        · rw [htakes]
          exact Bool.toNat_le _
      omega
  | @goes event h op gone d hleave _ hregs =>
      cases hleave with
      | committed => cases hcommits
      | performed =>
          have hkept : op.markPerformed.registers = op.registers := rfl
          omega

theorem step (hc : c.Starved) (hstep : Step c event d) : d.Starved where
  consistent := hc.consistent.step hstep
  inFlight := by
    have hflight := hc.consistent.inFlight_step hstep
    rw [hc.admissions_step hstep, hc.commits_step hstep, hc.inFlight] at hflight
    exact hflight
  freeRegs := Int.le_trans (hc.freeRegs_step hstep) hc.freeRegs

theorem admissions_steps {events : List Event} (hc : c.Starved) (hsteps : Steps c events d) :
    Event.admissions events = [] := by
  refine (hsteps.keeps (P := fun past e => e.Starved ∧ Event.admissions past = []) ?_
    ⟨hc, rfl⟩).2
  intro past e event e' hpast hstep
  obtain ⟨he, hnone⟩ := hpast
  refine ⟨he.step hstep, ?_⟩
  rw [Event.admissions_append, hnone, he.admissions_step hstep]
  rfl

theorem add_eq (hc : c.Starved) (hidle : c.recovery.recovering = false)
    (hsize : 2 ≤ c.config.maxRobSize) (op : MicroOp) : c.add op = (.error ⟨.smallReg, op⟩, c) := by
  have hdrained := hc.consistent.isDrained_iff.2 hc.inFlight
  unfold add
  rw [refusal?_of_drained hsize hidle hdrained, if_pos hc.freeRegs]

end Starved

/-! ## Runs -/

theorem registerBudget_pos {config : CoreConfig} (h : 0 ≤ config.totalRegs) :
    0 < config.registerBudget := by
  unfold CoreConfig.registerBudget unlimitedRegs
  split <;> omega

/-- The whole budget is there again in a drained core if no operation takes a register
after its commit. -/
theorem freeRegs_of_drained {config : CoreConfig} {hart : Nat} {world : W}
    {start : Core (Recorded W)} (hstart : create config hart ⟨world, []⟩ = .ok start)
    (commands : List Command)
    (hfree : ∀ a ∈ Event.admissions (start.history commands), a.offered.holdsRegister = false)
    (htime : config.lateAlloc = true → start.executesInTime commands = true)
    (hempty : (start.run commands).2.inFlight = []) :
    (start.run commands).2.freeRegs = config.registerBudget := by
  -- Registers taken early are all in flight, and those taken late stay with the pool.
  cases hlate : config.lateAlloc with
  | false =>
      have hbalance := ((Balanced.of_create hstart hlate).steps hfree
        (steps_run start commands)).free_add_holders
      rw [holders, hempty, List.countP_nil] at hbalance
      omega
  | true =>
      have hh := (HeldInFlight.of_create hstart hlate).run (htime hlate)
      have hbudget := free_add_held_add_lost_eq_budget hstart commands hfree
      have hlost : (start.run commands).2.lost = 0 := List.countP_eq_zero.2 fun op hop => by
        rw [hh.released op hop]
        exact Bool.false_ne_true
      have hheld : (start.run commands).2.held = 0 := List.countP_eq_zero.2 fun op hop => by
        obtain ⟨h, hop⟩ := Pool.mem_ops.1 hop
        rw [hh.others h (by rw [hempty]; exact List.not_mem_nil) op hop]
        exact Bool.false_ne_true
      omega

/-- **A drained core admits as long as a register is left.** Whatever surrounds a core and
whatever is done to it, if nothing is admitted that brings a register along: once both
buffers are empty and no recovery is in progress, an operation that the cluster has no
objection to is admitted exactly if the budget exceeds the registers that were taken
after the commits of their operations. It does if the budget is not negative and, where
registers are taken late, no operation that writes one is reported executing after its
commit. If it does not, nothing is admitted any more, whatever is done. -/
theorem drained_admits_iff_register_left {config : CoreConfig} {hart : Nat} {world : W}
    {start : Core (Recorded W)} (hstart : create config hart ⟨world, []⟩ = .ok start)
    (commands : List Command)
    (hfree : ∀ a ∈ Event.admissions (start.history commands), a.offered.holdsRegister = false) :
    let c := (start.run commands).2
    c.rob.toList = [] → c.retiring.toList = [] →
      (c.recovery.recovering = false → ∀ op, (Cluster.hazard? c.world op).1 = none →
        ((∃ a, (c.add op).1 = .ok a) ↔ (c.held + c.lost : Int) < config.registerBudget)) ∧
      (0 ≤ config.totalRegs → (config.lateAlloc = true → start.executesInTime commands = true) →
        (c.held + c.lost : Int) < config.registerBudget) ∧
      (config.registerBudget ≤ (c.held + c.lost : Int) →
        ∀ later, Event.admissions (c.history later) = []) := by
  intro c hrob hretiring
  have hc : c.Consistent := (Consistent.of_create hstart).steps (steps_run start commands)
  have hbudget : c.freeRegs + c.held + c.lost = config.registerBudget :=
    free_add_held_add_lost_eq_budget hstart commands hfree
  have hempty : c.inFlight = [] := by rw [inFlight, hretiring, hrob, List.nil_append]
  have hdrained : c.isDrained = true := hc.isDrained_iff.2 hempty
  refine ⟨fun hidle op hanswer => ?_, fun hregs htime => ?_, fun hspent later => ?_⟩
  · have hsize : 2 ≤ c.config.maxRobSize := by
      obtain ⟨hvalid, hinitial⟩ := create_eq hstart
      have hconfig : c.config = config := by
        rw [config_steps (steps_run start commands), hinitial]
        rfl
      rw [hconfig]
      exact two_le_maxRobSize hvalid
    rw [add_ok_iff, and_iff_left hanswer, refusal?_of_drained hsize hidle hdrained]
    split
    · next hnone => simp only [reduceCtorEq, false_iff]; omega
    · next hleft => simp only [true_iff]; omega
  · have hwhole : c.freeRegs = config.registerBudget :=
      freeRegs_of_drained hstart commands hfree htime hempty
    have hpos := registerBudget_pos hregs
    omega
  · have hstarved : c.Starved := ⟨hc, hempty, by omega⟩
    exact hstarved.admissions_steps (steps_run c later)

/-- A store is reported executing once more after its commit and takes one register of
the two for good. One is left, and that is enough to admit the next store. -/
theorem admits_with_one_register_of_two :
    let store : Nat → MicroOp := fun id =>
      { id, pc := 0, inst := { opcode := .store, dst1 := some 5 } }
    let config : CoreConfig :=
      { maxRobSize := 2, totalRegs := 2, retireDelay := 0, lateAlloc := true }
    let world : Recorded Obliging := ⟨{ buckets := [[store 1], []] }, []⟩
    let start : Core (Recorded Obliging) := .initial config 0 world
    let commands : List Command :=
      [.activate, .advance, .executing ⟨0, 1⟩, .executed ⟨0, 1⟩, .advance, .executing ⟨0, 1⟩,
        .performed ⟨0, 1⟩]
    create config 0 world = .ok start ∧
      (∀ a ∈ Event.admissions (start.history commands), a.offered.holdsRegister = false) ∧
      (start.run commands).2.rob.toList = [] ∧ (start.run commands).2.retiring.toList = [] ∧
      (start.run commands).2.held + (start.run commands).2.lost = 1 ∧
      ∃ a, ((start.run commands).2.add (store 2)).1 = .ok a := by
  intro store config world start commands
  have hstart : create config 0 world = .ok start := rfl
  have hfree : ∀ a ∈ Event.admissions (start.history commands),
      a.offered.holdsRegister = false := by decide +kernel
  have hrob : (start.run commands).2.rob.toList = [] := by decide +kernel
  have hretiring : (start.run commands).2.retiring.toList = [] := by decide +kernel
  have htaken : (start.run commands).2.held + (start.run commands).2.lost = 1 := by decide +kernel
  obtain ⟨hadmits, -⟩ := drained_admits_iff_register_left hstart commands hfree hrob hretiring
  refine ⟨hstart, hfree, hrob, hretiring, htaken, ?_⟩
  exact (hadmits (by decide +kernel) (store 2) rfl).2 (by decide +kernel)

/-- The parameters of a core may leave it without a register from the start, and so may
the same report with a budget of one. Either way the core is drained, and nothing is
admitted any more. -/
theorem nothing_admitted_without_register :
    let store : MicroOp := { id := 1, pc := 0, inst := { opcode := .store, dst1 := some 5 } }
    let world : Recorded Obliging := ⟨{ buckets := [[store], []] }, []⟩
    let negative : CoreConfig := { totalRegs := -1 }
    let single : CoreConfig :=
      { maxRobSize := 2, totalRegs := 1, retireDelay := 0, lateAlloc := true }
    let commands : List Command :=
      [.activate, .advance, .executing ⟨0, 1⟩, .executed ⟨0, 1⟩, .advance, .executing ⟨0, 1⟩,
        .performed ⟨0, 1⟩]
    let refuses (c : Core (Recorded Obliging)) : Prop :=
      c.isDrained = true ∧ c.recovery.recovering = false ∧
        (∀ op, (Cluster.hazard? c.world op).1 = none ∧ (c.add op).1 = .error ⟨.smallReg, op⟩) ∧
        ∀ later, Event.admissions (c.history later) = []
    (∃ start, create negative 0 world = .ok start ∧ refuses start) ∧
      ∃ start, create single 0 world = .ok start ∧ refuses (start.run commands).2 := by
  intro store world negative single commands refuses
  have hrefuses : ∀ c : Core (Recorded Obliging), c.Starved → c.recovery.recovering = false →
      2 ≤ c.config.maxRobSize → refuses c := by
    intro c hc hidle hsize
    refine ⟨hc.consistent.isDrained_iff.2 hc.inFlight, hidle, fun op => ⟨rfl, ?_⟩,
      fun later => hc.admissions_steps (steps_run c later)⟩
    rw [hc.add_eq hidle hsize]
  have hnegative : create negative 0 world = .ok (.initial negative 0 world) := rfl
  have hsingle : create single 0 world = .ok (.initial single 0 world) := rfl
  refine ⟨⟨_, hnegative, hrefuses _ ⟨.of_create hnegative, ?_, ?_⟩ ?_ ?_⟩, _, hsingle,
    hrefuses _ ⟨(Consistent.of_create hsingle).steps (steps_run _ commands), ?_, ?_⟩ ?_ ?_⟩
  all_goals decide +kernel

end OutOfOrder.Core
