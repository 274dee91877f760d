import OutOfOrder.Proofs.Core.Turnover
import OutOfOrder.Surroundings.Obliging

/-!
# No register is lost, and none is handed out twice

If registers are taken at rename, an operation that writes one takes it when it
is admitted and gives it back when it commits. In between it is in flight, and
whatever happens to it there, be it executed twice or marked by a replay
request, its flag stays. So the free registers and the operations in flight
that hold one always make up the budget.

What makes it true at commit is the other half of the law: an operation that is
in the pool but not in flight, because it has retired and its memory effect is
open, holds none.
-/

namespace OutOfOrder.Core

variable {W : Type}

/-- `h` names an operation that holds a register. -/
def holds (c : Core W) (h : Handle) : Bool := (c.op? h).any MicroOp.holdsRegister

/-- How many operations in flight hold a register. -/
def holders (c : Core W) : Nat := c.inFlight.countP c.holds

/-- How many admissions in a history took a register. -/
def taken (past : List Event) : Nat := (Event.admissions past).countP (·.op.holdsRegister)

/-- How many commits in a history gave a register back. -/
def returned (past : List Event) : Nat := (Event.commits past).countP (·.op.holdsRegister)

theorem taken_append (first second : List Event) :
    taken (first ++ second) = taken first + taken second := by
  rw [taken, Event.admissions_append, List.countP_append, taken, taken]

theorem returned_append (first second : List Event) :
    returned (first ++ second) = returned first + returned second := by
  rw [returned, Event.commits_append, List.countP_append, returned, returned]

/-- The registers taken and given back in a history, and those that operations
hold, add up. -/
structure Balanced (budget : Int) (past : List Event) (c : Core W) : Prop where
  consistent : c.Consistent
  early : c.config.lateAlloc = false
  held : ∀ h ∈ c.inFlight, ∀ op, c.pool.get? h = some op →
    op.holdsRegister = op.inst.writesRegister
  others : ∀ h, h ∉ c.inFlight → ∀ op, c.pool.get? h = some op → op.holdsRegister = false
  admitted : ∀ a ∈ Event.admissions past, a.op.holdsRegister = a.offered.inst.writesRegister
  committed : ∀ n ∈ Event.commits past, n.op.holdsRegister = n.op.inst.writesRegister
  free_add_holders : c.freeRegs + c.holders = budget
  free_add_taken : c.freeRegs + taken past = budget + returned past
  nonneg : 0 ≤ budget → 0 ≤ c.freeRegs

/-- `d` has the registers of `c`, held by the same operations in flight. -/
structure SameRegisters (c d : Core W) : Prop where
  config : d.config = c.config
  inFlight : d.inFlight = c.inFlight
  freeRegs : d.freeRegs = c.freeRegs
  ops : ∀ h op', d.pool.get? h = some op' → ∃ op, c.pool.get? h = some op ∧
    op'.holdsRegister = op.holdsRegister ∧ op'.inst = op.inst

variable {c d : Core W}

theorem holds_of_get? {h : Handle} {op : MicroOp} (hop : c.pool.get? h = some op) :
    c.holds h = op.holdsRegister := by
  rw [holds, op?, hop, Option.any_some]

theorem SameOps.sameRegisters (h : SameOps c d) : SameRegisters c d where
  config := h.config
  inFlight := h.inFlight
  freeRegs := h.freeRegs
  ops := fun k op' hop' => ⟨op', by rw [← h.pool]; exact hop', rfl, rfl⟩

/-- A change of one operation that leaves its register and its instruction
alone. -/
theorem sameRegisters_modify (c : Core W) (h : Handle) {f : MicroOp → MicroOp}
    (hid : ∀ op, (f op).id = op.id) (hinst : ∀ op, (f op).inst = op.inst)
    (hheld : ∀ op, (f op).holdsRegister = op.holdsRegister) :
    SameRegisters c { c with pool := c.pool.modify h f } where
  config := rfl
  inFlight := rfl
  freeRegs := rfl
  ops := by
    intro k op' hop'
    by_cases heq : k = h
    · subst heq
      rw [show ({ c with pool := c.pool.modify k f } : Core W).pool = c.pool.modify k f from rfl,
        Pool.get?_modify_self hid, Option.map_eq_some_iff] at hop'
      obtain ⟨op, hop, rfl⟩ := hop'
      exact ⟨op, hop, hheld op, hinst op⟩
    · exact ⟨op', by rw [← Pool.get?_modify_of_ne hid heq]; exact hop', rfl, rfl⟩

namespace Balanced

variable {budget : Int} {past past' : List Event}

theorem of_create {config : CoreConfig} {hart : Nat} {world : W}
    (h : create config hart world = .ok c) (hearly : config.lateAlloc = false) :
    Balanced config.registerBudget [] c := by
  have hc := Consistent.of_create h
  obtain ⟨-, rfl⟩ := create_eq h
  exact {
    consistent := hc
    early := hearly
    held := fun h hmem => by cases hmem
    others := fun h _ op hop => by
      rw [initial, Pool.get?_withCapacity] at hop
      cases hop
    admitted := fun a ha => by cases ha
    committed := fun n hn => by cases hn
    free_add_holders := Int.add_zero _
    free_add_taken := rfl
    nonneg := fun hbudget => hbudget }

/-- Whatever neither admits nor commits, and leaves the registers where they
are, keeps the balance. -/
theorem of_sameRegisters (hb : Balanced budget past c) (hd : d.Consistent)
    (hadmissions : Event.admissions past' = Event.admissions past)
    (hcommits : Event.commits past' = Event.commits past)
    (h : SameRegisters c d) : Balanced budget past' d where
  consistent := hd
  early := by rw [h.config]; exact hb.early
  held := by
    intro k hk op' hop'
    obtain ⟨op, hop, hheld, hinst⟩ := h.ops k op' hop'
    rw [hheld, hinst]
    exact hb.held k (h.inFlight ▸ hk) op hop
  others := by
    intro k hk op' hop'
    obtain ⟨op, hop, hheld, -⟩ := h.ops k op' hop'
    rw [hheld]
    exact hb.others k (h.inFlight ▸ hk) op hop
  admitted := by rw [hadmissions]; exact hb.admitted
  committed := by rw [hcommits]; exact hb.committed
  free_add_holders := by
    have hsame : d.holders = c.holders := by
      rw [holders, holders, h.inFlight]
      refine List.countP_congr fun k hk => ?_
      obtain ⟨op', hop', -⟩ := hd.live k (h.inFlight ▸ hk)
      obtain ⟨op, hop, hheld, -⟩ := h.ops k op' hop'
      rw [holds_of_get? hop', holds_of_get? hop, hheld]
    rw [h.freeRegs, hsame]
    exact hb.free_add_holders
  free_add_taken := by
    rw [taken, returned, hadmissions, hcommits, h.freeRegs]
    exact hb.free_add_taken
  nonneg := by rw [h.freeRegs]; exact hb.nonneg

theorem of_world (hb : Balanced budget past c) (world : W) :
    Balanced budget past { c with world } :=
  hb.of_sameRegisters (hb.consistent.of_world world) rfl rfl
    (SameOps.sameRegisters ⟨⟨rfl, rfl, rfl, rfl⟩, rfl, rfl⟩)

end Balanced

/-! ## Admission and commit -/

variable [Surroundings W]

theorem holders_admitOp (hc : c.Consistent) {op : MicroOp} (hroom : c.refusal? op = none) :
    (c.admitOp op).2.holders =
      c.holders + if (c.admitOp op).1.op.holdsRegister then 1 else 0 := by
  have hrest : c.inFlight.countP (c.admitOp op).2.holds = c.holders := by
    refine List.countP_congr fun h hmem => ?_
    have hne : h ≠ (c.admitOp op).1.handle := fun heq =>
      hc.not_mem_of_get?_eq_none (get?_admitOp_fresh hc.pool op) (heq ▸ hmem)
    rw [holds, holds, op?, op?, get?_admitOp_of_ne hc.pool op hne]
  rw [holders, hc.inFlight_admitOp hroom, List.countP_append, hrest, List.countP_singleton,
    holds_of_get? (get?_admitOp_self hc.pool op)]

theorem holders_commit (hc : c.Consistent) {h : Handle} {op : MicroOp}
    (htop : c.retiring.top? = some h) (hop : c.pool.get? h = some op) :
    c.holders = (c.commit h op).holders + if op.holdsRegister then 1 else 0 := by
  have horder := hc.inFlight_commit op htop
  have hgone : h ∉ (c.commit h op).inFlight := (List.nodup_cons.1 (horder ▸ hc.nodup)).1
  have hrest : (c.commit h op).inFlight.countP c.holds = (c.commit h op).holders := by
    refine List.countP_congr fun k hk => ?_
    have hne : k ≠ h := fun heq => hgone (heq ▸ hk)
    rw [holds, holds, op?, op?, pool_commit, get?_poolCommitting_of_ne hne]
  rw [holders, horder, List.countP_cons, hrest, holds_of_get? hop]

namespace Balanced

variable {budget : Int} {past past' : List Event}

/-- An operation that writes a register takes it when it is admitted. -/
theorem admitOp (hb : Balanced budget past c) {op : MicroOp}
    (hroom : c.refusal? op = none) (hfree : op.holdsRegister = false) :
    Balanced budget (past ++ [.admitted (c.admitOp op).1]) (c.admitOp op).2 := by
  have hc := hb.consistent
  have hinst := inst_admitOp hc.pool op
  have htakes : c.takesRegister op = op.inst.writesRegister := by
    rw [takesRegister, hb.early, Bool.not_false, Bool.and_true]
  have hheld : (c.admitOp op).1.op.holdsRegister = op.inst.writesRegister := by
    rw [holdsRegister_admitOp hc.pool, hfree, htakes, Bool.false_or]
  have hregs := freeRegs_admitOp c op
  have hholders := holders_admitOp hc hroom
  have htaken : taken [.admitted (c.admitOp op).1] =
      if op.inst.writesRegister then 1 else 0 := by
    rw [← hheld]
    exact List.countP_singleton
  rw [htakes] at hregs
  rw [hheld] at hholders
  exact {
    consistent := hc.admitOp hroom
    early := hb.early
    held := by
      intro h hmem old hop
      by_cases hnew : h = (c.admitOp op).1.handle
      · rw [hnew, get?_admitOp_self hc.pool op] at hop
        rw [← Option.some.inj hop, hheld, hinst]
      · rw [get?_admitOp_of_ne hc.pool op hnew] at hop
        rw [hc.inFlight_admitOp hroom, List.mem_append, List.mem_singleton] at hmem
        exact hb.held h (hmem.resolve_right hnew) old hop
    others := by
      intro h hmem old hop
      rw [hc.inFlight_admitOp hroom, List.mem_append, List.mem_singleton, not_or] at hmem
      rw [get?_admitOp_of_ne hc.pool op hmem.2] at hop
      exact hb.others h hmem.1 old hop
    admitted := by
      intro a ha
      rw [Event.admissions_append, List.mem_append] at ha
      rcases ha with ha | ha
      · exact hb.admitted a ha
      · obtain rfl : a = (c.admitOp op).1 := List.mem_singleton.1 ha
        exact hheld
    committed := by
      have hnone : Event.commits [.admitted (c.admitOp op).1] = [] := rfl
      rw [Event.commits_append, hnone, List.append_nil]
      exact hb.committed
    free_add_holders := by
      rw [← hb.free_add_holders, hregs, hholders]
      split <;> simp only [Int.natCast_add] <;> omega
    free_add_taken := by
      have hbalance := hb.free_add_taken
      rw [taken_append, returned_append, htaken, hregs]
      show _ = budget + ((returned past + 0 : Nat) : Int)
      split <;> omega
    nonneg := by
      have hleft := (Consistent.of_refusal?_eq_none hroom).2.2
      rw [hregs]
      split <;> omega }

/-- It gives the register back when it commits, and what is left of it in the
pool, if anything, holds none. -/
theorem commit (hb : Balanced budget past c) {h : Handle} {op : MicroOp}
    (htop : c.retiring.top? = some h) (hop : c.pool.get? h = some op) :
    Balanced budget (past ++ [.committed ⟨h, op⟩]) (c.commit h op) := by
  have hc := hb.consistent
  have horder := hc.inFlight_commit op htop
  have hheld := hb.held h (hc.mem_of_retiring_top? htop) op hop
  have hregs := freeRegs_commit c h op
  have hholders := holders_commit hc htop hop
  have hreturned : returned [.committed ⟨h, op⟩] = if op.holdsRegister then 1 else 0 :=
    List.countP_singleton
  exact {
    consistent := hc.commit op htop
    early := by rw [config_commit]; exact hb.early
    held := by
      intro k hk left hleft
      have hne : k ≠ h := fun heq =>
        (List.nodup_cons.1 (horder ▸ hc.nodup)).1 (heq ▸ hk)
      rw [pool_commit, get?_poolCommitting_of_ne hne] at hleft
      exact hb.held k (horder ▸ List.mem_cons_of_mem h hk) left hleft
    others := by
      intro k hk left hleft
      rw [pool_commit] at hleft
      by_cases heq : k = h
      · subst heq
        exact (get?_poolCommitting_self hleft).2
      · rw [get?_poolCommitting_of_ne heq] at hleft
        refine hb.others k (fun hmem => hk ?_) left hleft
        rw [horder, List.mem_cons] at hmem
        exact hmem.resolve_left heq
    admitted := by
      have hnone : Event.admissions [.committed ⟨h, op⟩] = [] := rfl
      rw [Event.admissions_append, hnone, List.append_nil]
      exact hb.admitted
    committed := by
      intro n hn
      rw [Event.commits_append, List.mem_append] at hn
      rcases hn with hn | hn
      · exact hb.committed n hn
      · obtain rfl : n = ⟨h, op⟩ := List.mem_singleton.1 hn
        exact hheld
    free_add_holders := by
      rw [← hb.free_add_holders, hregs, hholders]
      split <;> simp only [Int.natCast_add] <;> omega
    free_add_taken := by
      have hbalance := hb.free_add_taken
      rw [taken_append, returned_append, hreturned, hregs]
      show _ + ((taken past + 0 : Nat) : Int) = _
      split <;> omega
    nonneg := by
      have hnonneg := hb.nonneg
      rw [hregs]
      split <;> omega }

end Balanced

/-! ## Reports -/

omit [Surroundings W] in
/-- Where registers are taken at rename, an operation that starts to execute
takes none. -/
theorem sameRegisters_executing (hearly : c.config.lateAlloc = false) (h : Handle) :
    SameRegisters c (c.executing h) := by
  have hsame := sameRegisters_modify c h (f := MicroOp.markExecuting c.config.lateAlloc)
    (fun _ => rfl) (fun _ => rfl) fun op => by
      rw [MicroOp.markExecuting, hearly, Bool.false_and, Bool.or_false]
  refine ⟨by rw [executing_eq], by rw [executing_eq]; rfl, ?_, ?_⟩
  · rw [executing_eq]
    simp [hearly]
  · rw [executing_eq]
    exact hsame.ops

omit [Surroundings W] in
theorem sameRegisters_executed (c : Core W) (h : Handle) :
    SameRegisters c (c.executed h) := by
  obtain ⟨-, heq⟩ | ⟨op, -, heq⟩ := executed_cases c h
  · rw [heq]
    exact ⟨rfl, rfl, rfl, fun k op hk => ⟨op, hk, rfl, rfl⟩⟩
  · have hsame := sameRegisters_modify c h (f := MicroOp.markExecuted c.clock)
      (fun _ => rfl) (fun _ => rfl) fun _ => rfl
    rw [heq]
    exact ⟨rfl, rfl, rfl, hsame.ops⟩

theorem sameRegisters_performed (c : Core W) (h : Handle) :
    SameRegisters c (c.performed h) := by
  obtain ⟨op, -, -, heq⟩ | ⟨-, heq⟩ := performed_cases c h
  · rw [heq]
    refine ⟨rfl, rfl, rfl, fun k left hleft => ⟨left, ?_, rfl, rfl⟩⟩
    have hne : k ≠ h := by
      rintro rfl
      have hnone := (Pool.get?_erase_self c.pool k).symm.trans hleft
      cases hnone
    exact (Pool.get?_erase_of_ne hne).symm.trans hleft
  · rw [heq]
    exact sameRegisters_modify c h (f := MicroOp.markPerformed) (fun _ => rfl)
      (fun _ => rfl) fun _ => rfl

theorem sameRegisters_replay (c : Core W) (h : Handle) : SameRegisters c (c.replay h) := by
  obtain ⟨world, recovery, stats, heq | heq⟩ := replay_eq c h
  · rw [heq]
    exact ⟨rfl, rfl, rfl, fun k op hk => ⟨op, hk, rfl, rfl⟩⟩
  · have hsame := sameRegisters_modify c h (f := MicroOp.markReplayed) (fun _ => rfl)
      (fun _ => rfl) fun _ => rfl
    rw [heq]
    exact ⟨rfl, rfl, rfl, hsame.ops⟩

/-! ## Steps -/

/-- Every step keeps the balance, as long as whatever is admitted comes without
a register. -/
theorem Balanced.step {budget : Int} {past : List Event} {event : Option Event}
    (hb : Balanced budget past c)
    (hfree : ∀ a, event = some (.admitted a) → a.offered.holdsRegister = false)
    (h : Step c event d) : Balanced budget (past ++ event.toList) d := by
  have hd := hb.consistent.step h
  have hquiet : ∀ {event : Option Event}, Event.admissions event.toList = [] →
      Event.commits event.toList = [] → SameRegisters c d →
      Balanced budget (past ++ event.toList) d := by
    intro event hadmissions hcommits hsame
    refine hb.of_sameRegisters hd ?_ ?_ hsame
    · rw [Event.admissions_append, hadmissions, List.append_nil]
    · rw [Event.commits_append, hcommits, List.append_nil]
  have hsame : ∀ {d : Core W}, SameOps c d → SameRegisters c d := SameOps.sameRegisters
  cases h with
  | activate | deactivate | arm | rest | recover | charge | refuse | sample | holdRob
  | holdRetiring => exact hquiet rfl rfl (hsame ⟨⟨rfl, rfl, rfl, rfl⟩, rfl, rfl⟩)
  | fetch => exact hquiet rfl rfl (hsame (sameOps_fetch c))
  | tick => exact hquiet rfl rfl (hsame (sameOps_tick c))
  | decode => exact hquiet rfl rfl (hsame (sameOps_decode c))
  | issued h =>
      exact hquiet rfl rfl (sameRegisters_modify c h (f := MicroOp.markIssued)
        (fun _ => rfl) (fun _ => rfl) fun _ => rfl)
  | executing h => exact hquiet rfl rfl (sameRegisters_executing hb.early h)
  | executed h => exact hquiet rfl rfl (sameRegisters_executed c h)
  | performed h => exact hquiet rfl rfl (sameRegisters_performed c h)
  | replay h => exact hquiet rfl rfl (sameRegisters_replay c h)
  | promote htop hop hanswer =>
      exact hquiet rfl rfl ⟨rfl, hb.consistent.inFlight_promote htop _, rfl,
        fun k op hk => ⟨op, hk, rfl, rfl⟩⟩
  | dropRob htop hop => exact absurd hop (hb.consistent.get?_rob_top? htop)
  | dropRetiring htop hop => exact absurd hop (hb.consistent.get?_retiring_top? htop)
  | @accept op world queue hroom hanswer hqueue =>
      exact ((hb.of_world world).admitOp hroom (hfree _ rfl)).of_sameRegisters hd rfl rfl
        (SameOps.sameRegisters ⟨⟨rfl, rfl, rfl, rfl⟩, rfl, rfl⟩)
  | @commit h op world htop hop hdelay hanswer =>
      exact (hb.of_world world).commit htop hop

/-- The balance holds after every history in which whatever is admitted comes
without a register. -/
theorem Balanced.steps {budget : Int} {events : List Event} (hb : Balanced budget [] c)
    (hfree : ∀ a ∈ Event.admissions events, a.offered.holdsRegister = false)
    (h : Steps c events d) : Balanced budget events d := by
  refine h.keeps_of_admissions (P := Balanced budget)
    (fun hpast hstep hnew => hpast.step ?_ hstep) hfree hb
  rintro a rfl
  exact hnew a (List.mem_singleton_self a)

/-- **Register conservation.** Where registers are taken at rename, and nothing is
admitted that brings one along, the free registers and those held in flight
make up the budget, and nothing outside the buffers holds one. An operation
that writes a register takes one at its admission and gives one back at its
commit, all others none, and there are never fewer than zero nor more than all
free. -/
theorem registers_conserved {config : CoreConfig} {hart : Nat} {world : W}
    {start : Core W} (hstart : create config hart world = .ok start)
    (hearly : config.lateAlloc = false) (commands : List Command)
    (hfree : ∀ a ∈ Event.admissions (start.history commands),
      a.offered.holdsRegister = false) :
    let past := start.history commands
    let c := (start.run commands).2
    c.freeRegs + c.holders = config.registerBudget ∧
      (∀ h op, c.op? h = some op → h ∉ c.inFlight → op.holdsRegister = false) ∧
      (∀ h ∈ c.inFlight, ∃ op, c.op? h = some op ∧
        op.holdsRegister = op.inst.writesRegister) ∧
      (∀ a ∈ Event.admissions past, a.op.holdsRegister = a.offered.inst.writesRegister) ∧
      (∀ n ∈ Event.commits past, n.op.holdsRegister = n.op.inst.writesRegister) ∧
      c.freeRegs + taken past = config.registerBudget + returned past ∧
      (0 ≤ config.registerBudget → 0 ≤ c.freeRegs ∧ c.freeRegs ≤ config.registerBudget) := by
  intro past c
  have hb : Balanced config.registerBudget past c :=
    (Balanced.of_create hstart hearly).steps hfree (steps_run start commands)
  refine ⟨hb.free_add_holders, fun h op hop hmem => hb.others h hmem op hop, ?_, hb.admitted,
    hb.committed, hb.free_add_taken, fun hbudget => ⟨hb.nonneg hbudget, ?_⟩⟩
  · intro h hmem
    obtain ⟨op, hop, -⟩ := hb.consistent.live h hmem
    exact ⟨op, hop, hb.held h hmem op hop⟩
  · have hbalance := hb.free_add_holders
    omega

/-- A budget of two. A writer commits and gives its register back, a second one
is still in flight, and a branch in between takes none. -/
theorem one_register_held_of_two :
    let writer : Nat → MicroOp := fun id =>
      { id, pc := 0, inst := { opcode := .alu, dst1 := some 5 } }
    let branch : MicroOp := { id := 2, pc := 0, inst := { opcode := .branch, src1 := some 5 } }
    let config : CoreConfig := { maxRobSize := 5, totalRegs := 2, retireDelay := 0 }
    let world : Obliging := { buckets := [[writer 4]] }
    let start : Core Obliging := .initial config 0 world
    let commands : List Command :=
      [.activate, .add (writer 1), .add branch, .add (writer 3), .executed ⟨0, 1⟩,
        .replay ⟨2, 3⟩, .advance, .advance]
    let past := start.history commands
    let c := (start.run commands).2
    create config 0 world = .ok start ∧ config.lateAlloc = false ∧
      (∀ a ∈ Event.admissions past, a.offered.holdsRegister = false) ∧
      taken past = 2 ∧ returned past = 1 ∧ c.freeRegs = 1 ∧ c.holders = 1 := by
  intro writer branch config world start commands past c
  have hstart : create config 0 world = .ok start := rfl
  have hearly : config.lateAlloc = false := rfl
  have hfree : ∀ a ∈ Event.admissions past, a.offered.holdsRegister = false := by
    decide +kernel
  have htaken : taken past = 2 := by decide +kernel
  have hreturned : returned past = 1 := by decide +kernel
  have hbudget : config.registerBudget = 2 := rfl
  obtain ⟨hholders, -, -, -, -, hbalance, -⟩ :=
    registers_conserved hstart hearly commands hfree
  have hone : c.freeRegs = 1 := by
    change c.freeRegs + taken past = config.registerBudget + returned past at hbalance
    rw [htaken, hreturned, hbudget] at hbalance
    omega
  refine ⟨hstart, hearly, hfree, htaken, hreturned, hone, ?_⟩
  change c.freeRegs + c.holders = config.registerBudget at hholders
  rw [hone, hbudget] at hholders
  omega

/-! ## What goes back to the emulator -/

/-- **Nothing goes back with a register.** With early allocation, whatever a core has
handed back to the emulator holds no register: it was taken at the admission and given back
at the commit, which comes before. -/
theorem released_hold_no_register {config : CoreConfig} {hart : Nat} {world : W}
    {start : Core (Recorded W)} (hstart : create config hart ⟨world, []⟩ = .ok start)
    (hearly : config.lateAlloc = false) (commands : List Command)
    (hfree : ∀ a ∈ Event.admissions (start.history commands),
      a.offered.holdsRegister = false) :
    ∀ op ∈ (start.run commands).2.world.released, op.holdsRegister = false := by
  have hnone : start.world.released = [] := by
    obtain ⟨-, rfl⟩ := create_eq hstart
    rfl
  have hb := Balanced.of_create hstart hearly
  refine ((steps_run start commands).keeps_of_admissions (P := fun past c =>
    Balanced config.registerBudget past c ∧ ∀ op ∈ c.world.released, op.holdsRegister = false)
    ?_ hfree ?_).2
  · rintro past c event d ⟨hb, hreleased⟩ hstep hnew
    refine ⟨hb.step ?_ hstep, fun op hop => ?_⟩
    · rintro a rfl
      exact hnew a (List.mem_singleton_self a)
    · exact (registers_released_step hb.consistent hb.others hstep op hop).elim (hreleased op) id
  · refine ⟨hb, fun op hop => ?_⟩
    rw [hnone] at hop
    cases hop

end OutOfOrder.Core
