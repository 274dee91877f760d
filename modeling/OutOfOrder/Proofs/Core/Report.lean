import OutOfOrder.Core.Cycle
import OutOfOrder.Core.Notification
import OutOfOrder.Pool.Lemmas

/-!
# What reports and commits do to the pool

A report is about one operation. It changes what the pool holds under that
operation's handle, and never which operation that is: the identifier and the
instruction stay, and no report retires anything. The one exception is an
operation that leaves, because it had retired and its memory effect is now
complete.

A report about a handle that names nothing does nothing, and `Pool.modify` does
nothing for such a handle either, so the equations below need no hypothesis.

A commit is the other way out of the pool. It too concerns one handle, and of
the buffers it only pops the one that the handle came from.
-/

namespace OutOfOrder

namespace MicroOp

/-- The operation, reported issued. -/
def markIssued (op : MicroOp) : MicroOp := { op with stage := op.stage.later .issued }

/-- The operation, reported executing; `late` says whether it takes its register
now. -/
def markExecuting (late : Bool) (op : MicroOp) : MicroOp :=
  { op with
    stage := op.stage.later .executing
    holdsRegister := op.holdsRegister || (late && op.inst.writesRegister) }

/-- The operation, reported executed. -/
def markExecuted (clock : Nat) (op : MicroOp) : MicroOp :=
  { op with
    stage := .executed
    executedAt := clock
    performed := op.performed || !op.inst.opcode.isStore }

/-- The operation, its memory effect reported complete. -/
def markPerformed (op : MicroOp) : MicroOp := { op with performed := true }

/-- The operation, marked by a replay request. -/
def markReplayed (op : MicroOp) : MicroOp := { op with replayed := true }

/-- Only the report that an operation executed makes it executed. -/
theorem isExecuted_markIssued (op : MicroOp) : op.markIssued.isExecuted = op.isExecuted :=
  decide_eq_decide.2 (Stage.le_rank_later_iff (by decide))

theorem isExecuted_markExecuting (late : Bool) (op : MicroOp) :
    (op.markExecuting late).isExecuted = op.isExecuted :=
  decide_eq_decide.2 (Stage.le_rank_later_iff (by decide))

end MicroOp

namespace Core

variable {W : Type}

/-- `d` has the operations of `c`, in the same buffers. -/
structure SameFlight (c d : Core W) : Prop where
  config : d.config = c.config
  pool : d.pool = c.pool
  rob : d.rob = c.rob
  retiring : d.retiring = c.retiring

/-- `d` also has the latest writers and the registers of `c`. -/
structure SameOps (c d : Core W) : Prop extends SameFlight c d where
  aliases : d.aliases = c.aliases
  freeRegs : d.freeRegs = c.freeRegs

theorem sameOps_fetch [Surroundings W] (c : Core W) : SameOps c c.fetch := by
  rw [fetch]
  dsimp only
  split
  · exact ⟨⟨rfl, rfl, rfl, rfl⟩, rfl, rfl⟩
  · split <;> exact ⟨⟨rfl, rfl, rfl, rfl⟩, rfl, rfl⟩

theorem sameOps_tick (c : Core W) : SameOps c c.tick := by
  rw [tick]
  dsimp only
  split <;> exact ⟨⟨rfl, rfl, rfl, rfl⟩, rfl, rfl⟩

theorem sameOps_decode [Surroundings W] (c : Core W) : SameOps c c.decode := by
  rw [decode]
  split
  · exact ⟨⟨rfl, rfl, rfl, rfl⟩, rfl, rfl⟩
  · split <;> exact ⟨⟨rfl, rfl, rfl, rfl⟩, rfl, rfl⟩

/-! What the parts of a cycle before dispatch can change at all. -/

theorem fetch_eq [Surroundings W] (c : Core W) :
    ∃ world busy stats, c.fetch = { c with world, busy, stats } := by
  rw [fetch]
  dsimp only
  split
  · exact ⟨_, true, c.stats, rfl⟩
  · split
    · exact ⟨_, c.busy, c.stats, rfl⟩
    · exact ⟨_, true, _, rfl⟩

theorem tick_eq (c : Core W) :
    ∃ sampling clock stats lock, c.tick = { c with sampling, clock, stats, lock } := by
  rw [tick]
  dsimp only
  split
  · exact ⟨_, _, _, _, rfl⟩
  · exact ⟨_, _, _, c.lock, rfl⟩

theorem decode_eq [Surroundings W] (c : Core W) :
    ∃ world queue stats, c.decode = { c with world, queue, stats } := by
  rw [decode]
  split
  · exact ⟨c.world, c.queue, _, rfl⟩
  · split
    · exact ⟨_, _, c.stats, rfl⟩
    · exact ⟨_, c.queue, _, rfl⟩

/-- What comes before the work of a cycle does not touch the recovery, the serializer or
the parameters. -/
theorem fetch_tick_decode [Surroundings W] (c : Core W) :
    c.fetch.tick.decode.recovery = c.recovery ∧ c.fetch.tick.decode.serializer = c.serializer ∧
      c.fetch.tick.decode.config = c.config := by
  obtain ⟨_, _, _, hdecode⟩ := decode_eq c.fetch.tick
  obtain ⟨_, _, _, _, htick⟩ := tick_eq c.fetch
  obtain ⟨_, _, _, hfetch⟩ := fetch_eq c
  rw [hdecode, htick, hfetch]
  exact ⟨rfl, rfl, rfl⟩

/-! ## Reports -/

theorem executing_eq (c : Core W) (h : Handle) :
    c.executing h = { c with
      pool := c.pool.modify h (MicroOp.markExecuting c.config.lateAlloc)
      freeRegs :=
        if (c.pool.get? h).any fun op =>
          c.config.lateAlloc && op.inst.writesRegister && !op.holdsRegister
        then c.freeRegs - 1 else c.freeRegs } := by
  rw [executing]
  split
  · next hop => rw [Pool.modify_of_get?_eq_none hop, hop]; rfl
  · next op hop =>
      rw [hop]
      dsimp only [Option.any_some]
      congr 1
      refine Pool.modify_congr fun op' hop' => ?_
      obtain rfl : op = op' := by rw [hop] at hop'; exact Option.some.inj hop'
      cases hheld : op.holdsRegister <;> simp [MicroOp.markExecuting, hheld]

/-- The report that an operation executed does nothing if the handle names
nothing. -/
theorem executed_cases (c : Core W) (h : Handle) :
    (c.pool.get? h = none ∧ c.executed h = c) ∨
      ∃ op, c.pool.get? h = some op ∧ c.executed h = { c with
        pool := c.pool.modify h (MicroOp.markExecuted c.clock)
        aliases := c.aliases.release op.inst.dsts h } := by
  rw [executed]
  split
  · next hop => exact .inl ⟨hop, rfl⟩
  · next op hop => exact .inr ⟨op, hop, rfl⟩

/-- When its memory effect is complete, a retired operation leaves, and any
other one is marked. -/
theorem performed_cases [Emulator W] (c : Core W) (h : Handle) :
    (∃ op, c.pool.get? h = some op ∧ op.stage = .retired ∧ c.performed h = { c with
      pool := c.pool.erase h
      world := Emulator.release c.world op.markPerformed }) ∨
      (∀ op, c.pool.get? h = some op → op.stage ≠ .retired) ∧
        c.performed h = { c with pool := c.pool.modify h MicroOp.markPerformed } := by
  rw [performed]
  split
  · next hop =>
      refine .inr ⟨fun op hop' => ?_, by rw [Pool.modify_of_get?_eq_none hop]⟩
      rw [hop] at hop'
      cases hop'
  · next op hop =>
      dsimp only
      split
      · next hretired => exact .inl ⟨op, hop, hretired, rfl⟩
      · next hopen =>
          refine .inr ⟨fun op' hop' => Option.some.inj (hop.symm.trans hop') ▸ hopen, ?_⟩
          congr 1
          refine Pool.modify_congr fun op' hop' => ?_
          obtain rfl : op = op' := Option.some.inj (hop.symm.trans hop')
          rfl

theorem aliases_performed [Emulator W] (c : Core W) (h : Handle) :
    (c.performed h).aliases = c.aliases := by
  obtain ⟨op, -, -, heq⟩ | ⟨-, heq⟩ := performed_cases c h <;> rw [heq]

/-- A replay request marks its operation, unless it is not heard. -/
theorem replay_eq [FrontEnd W] (c : Core W) (h : Handle) :
    ∃ world recovery stats, c.replay h = { c with world, recovery, stats } ∨
      c.replay h =
        { c with world, recovery, stats, pool := c.pool.modify h MicroOp.markReplayed } := by
  rw [replay]
  split
  · exact ⟨c.world, c.recovery, c.stats, .inl rfl⟩
  · split
    · exact ⟨c.world, c.recovery, c.stats, .inl rfl⟩
    · dsimp only
      split <;> exact ⟨_, _, _, .inr rfl⟩

/-! ## Commits -/

/-- What a commit leaves of the pool: nothing under the handle if the operation
is done, and a retired operation otherwise. -/
def poolCommitting (p : Pool) (h : Handle) (op : MicroOp) : Pool :=
  if op.performed then p.erase h
  else p.modify h fun op => { op with holdsRegister := false, stage := .retired }

theorem pool_commit [Surroundings W] (c : Core W) (h : Handle) (op : MicroOp) :
    (c.commit h op).pool = poolCommitting c.pool h op := by
  rw [commit, settle, poolCommitting]
  split <;> rfl

theorem config_commit [Surroundings W] (c : Core W) (h : Handle) (op : MicroOp) :
    (c.commit h op).config = c.config := by
  rw [commit, settle]
  split <;> rfl

theorem rob_commit [Surroundings W] (c : Core W) (h : Handle) (op : MicroOp) :
    (c.commit h op).rob = c.rob := by
  rw [commit, settle]
  split <;> rfl

theorem retiring_commit [Surroundings W] (c : Core W) (h : Handle) (op : MicroOp) :
    (c.commit h op).retiring = c.retiring.pop := by
  rw [commit, settle]
  split <;> rfl

theorem aliases_commit [Surroundings W] (c : Core W) (h : Handle) (op : MicroOp) :
    (c.commit h op).aliases = c.aliases.release op.inst.dsts h := by
  rw [commit, settle]
  split <;> rfl

theorem freeRegs_commit [Surroundings W] (c : Core W) (h : Handle) (op : MicroOp) :
    (c.commit h op).freeRegs = if op.holdsRegister then c.freeRegs + 1 else c.freeRegs := by
  rw [commit, settle]
  split <;> rfl

theorem wellFormed_poolCommitting {p : Pool} (hp : p.WellFormed) (h : Handle) (op : MicroOp) :
    (poolCommitting p h op).WellFormed := by
  rw [poolCommitting]
  split
  · exact Pool.wellFormed_erase hp h
  · exact Pool.wellFormed_modify hp h _

theorem get?_poolCommitting_of_ne {p : Pool} {h k : Handle} {op : MicroOp} (hne : k ≠ h) :
    (poolCommitting p h op).get? k = p.get? k := by
  have hid : ∀ op : MicroOp,
      { op with holdsRegister := false, stage := .retired }.id = op.id := fun _ => rfl
  rw [poolCommitting]
  split
  · exact Pool.get?_erase_of_ne hne
  · exact Pool.get?_modify_of_ne hid hne

/-- Whatever a commit leaves in the pool has retired and holds no register. -/
theorem get?_poolCommitting_self {p : Pool} {h : Handle} {op left : MicroOp}
    (hleft : (poolCommitting p h op).get? h = some left) :
    left.stage = .retired ∧ left.holdsRegister = false := by
  have hid : ∀ op : MicroOp,
      { op with holdsRegister := false, stage := .retired }.id = op.id := fun _ => rfl
  rw [poolCommitting] at hleft
  split at hleft
  · rw [Pool.get?_erase_self] at hleft; cases hleft
  · rw [Pool.get?_modify_self hid, Option.map_eq_some_iff] at hleft
    obtain ⟨op', -, rfl⟩ := hleft
    exact ⟨rfl, rfl⟩

end Core

end OutOfOrder
