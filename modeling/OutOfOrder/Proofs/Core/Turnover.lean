import OutOfOrder.Pool.Contents
import OutOfOrder.Proofs.Core.Calls
import OutOfOrder.Proofs.Core.Consistency

/-!
# Operations come, change and go

Whose an operation is, how many registers are out, and what the emulator has
got back are questions about all operations at once, those in flight and those
that only wait for their memory effect. For them a step counts by what it does
to the pool, and that is little: it leaves the pool alone, admits one
operation, changes one that is live, or lets one go. `Turnover` is these four,
each with what it means for the registers and for the departures that the
surroundings see, and `turnover_step` says that every step is one of them.

Who the operations are never changes. What an operation was offered with, its
place in program order, its instruction and whose it is, is its origin, and no
report touches it.
-/

namespace OutOfOrder

namespace MicroOp

/-- What an operation brings along. -/
structure Origin where
  id : Nat
  pc : UInt64
  inst : Instruction
  hart : Nat
  sampled : Bool
  deriving DecidableEq

def origin (op : MicroOp) : Origin where
  id := op.id
  pc := op.pc
  inst := op.inst
  hart := op.hart
  sampled := op.sampled

/-- How many registers of the budget the operation holds. -/
def registers (op : MicroOp) : Nat := op.holdsRegister.toNat

def markCommitted (op : MicroOp) : MicroOp := { op with holdsRegister := false }

/-- The operation, committed before its memory effect is complete. -/
def markRetired (op : MicroOp) : MicroOp := { op with holdsRegister := false, stage := .retired }

end MicroOp

/-- What an event makes of the operation that `h` names, if the operation stays.
With late allocation it may take its register when it executes. -/
inductive Change (late : Bool) (h : Handle) (op : MicroOp) : Event → MicroOp → Prop
  | issued : Change late h op (.told (.issued h)) op.markIssued
  | executing : Change late h op (.told (.executing h)) (op.markExecuting late)
  | executed (clock : Nat) : Change late h op (.told (.executed h)) (op.markExecuted clock)
  | performed (hopen : op.stage ≠ .retired) :
      Change late h op (.told (.performed h)) op.markPerformed
  | replayed : Change late h op (.told (.replay h)) op.markReplayed
  | retired (hopen : op.performed = false) :
      Change late h op (.committed ⟨h, op⟩) op.markRetired

/-- The events with which the operation that `h` names goes, and what it is when
it is handed back. -/
inductive Leave (h : Handle) (op : MicroOp) : Event → MicroOp → Prop
  | committed (hdone : op.performed = true) : Leave h op (.committed ⟨h, op⟩) op.markCommitted
  | performed (hretired : op.stage = .retired) :
      Leave h op (.told (.performed h)) op.markPerformed

section Fates

variable {late : Bool} {h : Handle} {op op' : MicroOp} {event : Event}

theorem Change.origin_eq (hchange : Change late h op event op') : op'.origin = op.origin := by
  cases hchange <;> rfl

/-- Once an operation has retired, only the report that it executed moves it to
another stage; and only a commit retires one. -/
theorem Change.stage_eq_retired_iff (hchange : Change late h op event op')
    (hcommit : event ≠ .committed ⟨h, op⟩) :
    op'.stage = .retired ↔ op.stage = .retired ∧ event ≠ .told (.executed h) := by
  have hlater : ∀ t : Stage, t ≠ .retired →
      (op.stage.later t = .retired ↔ op.stage = .retired) := by
    intro t ht
    cases hs : op.stage <;> cases t <;> simp_all [Stage.later, Stage.rank]
  cases hchange with
  | issued => simpa [MicroOp.markIssued] using hlater .issued (by decide)
  | executing => simpa [MicroOp.markExecuting] using hlater .executing (by decide)
  | executed => simp [MicroOp.markExecuted]
  | performed hopen => simp [MicroOp.markPerformed]
  | replayed => simp [MicroOp.markReplayed]
  | retired => exact absurd rfl hcommit

/-- Only a report that it executes gives an operation a register, and only one that
writes registers; and only a commit takes one away. -/
theorem Change.holdsRegister_cases (hchange : Change late h op event op')
    (hcommit : event ≠ .committed ⟨h, op⟩) :
    op'.holdsRegister = op.holdsRegister ∨
      event = .told (.executing h) ∧ op.inst.writesRegister = true ∧
        op'.holdsRegister = true := by
  cases hchange with
  | executing =>
      cases htakes : late && op.inst.writesRegister with
      | false => exact .inl (by rw [MicroOp.markExecuting, htakes, Bool.or_false])
      | true =>
          refine .inr ⟨rfl, (Bool.and_eq_true_iff.1 htakes).2, ?_⟩
          rw [MicroOp.markExecuting, htakes, Bool.or_true]
  | retired => exact absurd rfl hcommit
  | issued | executed | performed | replayed => exact .inl rfl

theorem Leave.origin_eq (hleave : Leave h op event op') : op'.origin = op.origin := by
  cases hleave <;> rfl

theorem Leave.performed_eq (hleave : Leave h op event op') : op'.performed = true := by
  cases hleave with
  | committed hdone => exact hdone
  | performed => rfl

end Fates

namespace Core

variable {W : Type} {c d : Core (Recorded W)}

/-- The commits that an event is, as departures. -/
def commitDepartures (event : Event) : List Departure :=
  (Event.commits [event]).map (.committed ·.op)

/-- What a step can do to the operations of a core. -/
inductive Turnover (c : Core (Recorded W)) : Option Event → Core (Recorded W) → Prop
  | quiet {event : Option Event} {d : Core (Recorded W)}
      (hadmissions : Event.admissions event.toList = [])
      (hcommits : Event.commits event.toList = [])
      (hidle : ∀ h, event = some (.told (.executed h)) → c.pool.get? h = none)
      (hpool : d.pool = c.pool) (hregs : d.freeRegs = c.freeRegs)
      (hdepartures : d.world.departures = c.world.departures) : Turnover c event d
  /-- A new operation comes, and takes a register only if registers are not taken
  late. -/
  | comes {a : Admission} {d : Core (Recorded W)}
      (hpool : c.pool.Replaced d.pool a.handle none (some a.op))
      (horigin : a.op.origin = a.offered.origin)
      (hregs : a.offered.holdsRegister = false →
        d.freeRegs + a.op.registers = c.freeRegs)
      (hlate : c.config.lateAlloc = true → a.op.holdsRegister = a.offered.holdsRegister)
      (hdepartures : d.world.departures = c.world.departures) :
      Turnover c (some (.admitted a)) d
  | changes {event : Event} {h : Handle} {op op' : MicroOp} {d : Core (Recorded W)}
      (hchange : Change c.config.lateAlloc h op event op')
      (hpool : c.pool.Replaced d.pool h (some op) (some op'))
      (hregs : d.freeRegs + op'.registers = c.freeRegs + op.registers)
      (hdepartures : d.world.departures = c.world.departures ++ commitDepartures event) :
      Turnover c (some event) d
  | goes {event : Event} {h : Handle} {op gone : MicroOp} {d : Core (Recorded W)}
      (hleave : Leave h op event gone) (hpool : c.pool.Replaced d.pool h (some op) none)
      (hregs : d.freeRegs + gone.registers = c.freeRegs + op.registers)
      (hdepartures : d.world.departures =
        c.world.departures ++ commitDepartures event ++ [.released gone]) :
      Turnover c (some event) d

theorem released_commitDepartures (event : Event) :
    (commitDepartures event).filterMap Departure.released? = [] := by
  cases event <;> rfl

theorem committed_commitDepartures (event : Event) :
    (commitDepartures event).filterMap Departure.committed? =
      (Event.commits [event]).map (·.op) := by
  cases event <;> rfl

/-- What is handed back in a step is what departs in it besides the commits. -/
theorem released_of_departures {event : Event} {rest : List Departure}
    (hdepartures : d.world.departures = c.world.departures ++ commitDepartures event ++ rest) :
    d.world.released = c.world.released ++ rest.filterMap Departure.released? := by
  rw [Recorded.released_eq, hdepartures, List.filterMap_append, List.filterMap_append,
    released_commitDepartures, List.append_nil, Recorded.released_eq]

theorem released_of_commitDepartures {event : Event}
    (hdepartures : d.world.departures = c.world.departures ++ commitDepartures event) :
    d.world.released = c.world.released := by
  rw [Recorded.released_eq, hdepartures, List.filterMap_append, released_commitDepartures,
    List.append_nil, Recorded.released_eq]

namespace Turnover

/-- Only an operation that goes is handed back. -/
theorem released {event : Option Event} (hturn : Turnover c event d) :
    d.world.released = c.world.released ∨
      ∃ event h op gone, Leave h op event gone ∧ c.pool.get? h = some op ∧
        d.world.released = c.world.released ++ [gone] := by
  cases hturn with
  | quiet hadmissions hcommits hidle hpool hregs hdepartures
  | comes hpool horigin hregs hlate hdepartures =>
      exact .inl (Recorded.released_congr hdepartures)
  | changes hchange hpool hregs hdepartures =>
      exact .inl (released_of_commitDepartures hdepartures)
  | goes hleave hpool hregs hdepartures =>
      exact .inr ⟨_, _, _, _, hleave, hpool.before, released_of_departures hdepartures⟩

/-- What the pool holds has just come, or it was there before and has changed at most. -/
theorem get?_cases {event : Option Event} {h : Handle} {op : MicroOp}
    (hturn : Turnover c event d) (hop : d.pool.get? h = some op) :
    (∃ a, event = some (.admitted a) ∧ a.handle = h ∧ a.op = op) ∨
      (∀ a, event = some (.admitted a) → a.handle ≠ h) ∧ ∃ old, c.pool.get? h = some old ∧
        (op = old ∨ ∃ e, event = some e ∧ Change c.config.lateAlloc h old e op) := by
  cases hturn with
  | quiet hadmissions hcommits hidle hpool =>
      refine .inr ⟨?_, op, hpool ▸ hop, .inl rfl⟩
      rintro a rfl
      cases hadmissions
  | @comes a d hpool =>
      by_cases hh : a.handle = h
      · subst hh
        exact .inl ⟨a, rfl, rfl, Option.some.inj (hpool.after.symm.trans hop)⟩
      · rw [hpool.others h fun heq => hh heq.symm] at hop
        refine .inr ⟨fun b hb => ?_, op, hop, .inl rfl⟩
        rw [← Event.admitted.inj (Option.some.inj hb)]
        exact hh
  | @changes event k old new d hchange hpool =>
      have hevent : ∀ a, some event = some (.admitted a) → a.handle ≠ h := by
        intro a ha
        rw [Option.some.inj ha] at hchange
        cases hchange
      by_cases hh : h = k
      · subst hh
        obtain rfl := Option.some.inj (hpool.after.symm.trans hop)
        exact .inr ⟨hevent, old, hpool.before, .inr ⟨event, rfl, hchange⟩⟩
      · rw [hpool.others h hh] at hop
        exact .inr ⟨hevent, op, hop, .inl rfl⟩
  | @goes event k old gone d hleave hpool =>
      have hh : h ≠ k := by
        rintro rfl
        rw [hpool.after] at hop
        cases hop
      rw [hpool.others h hh] at hop
      refine .inr ⟨fun a ha => ?_, op, hop, .inl rfl⟩
      rw [Option.some.inj ha] at hleave
      cases hleave

/-! ## Reports -/

/-- A report is about the operation that its handle names, if there is one. -/
theorem of_report {command : Command} {h : Handle} {f : MicroOp → MicroOp}
    (hid : ∀ op, (f op).id = op.id) (hnamed : ∀ k, command = .executed k → k = h)
    (hpool : d.pool = c.pool.modify h f) (hidle : c.pool.get? h = none → d.freeRegs = c.freeRegs)
    (hchange : ∀ op, c.pool.get? h = some op →
      Change c.config.lateAlloc h op (.told command) (f op) ∧
        d.freeRegs + (f op).registers = c.freeRegs + op.registers)
    (hdepartures : d.world.departures = c.world.departures) :
    Turnover c (some (.told command)) d := by
  cases hop : c.pool.get? h with
  | none =>
      refine .quiet rfl rfl (fun k hk => ?_) ?_ (hidle hop) hdepartures
      · rw [hnamed k (Event.told.inj (Option.some.inj hk)), hop]
      · rw [hpool, Pool.modify_of_get?_eq_none hop]
  | some op =>
      obtain ⟨hchange, hregs⟩ := hchange op hop
      exact .changes hchange (hpool ▸ Pool.replaced_modify hop hid) hregs
        (hdepartures.trans (List.append_nil _).symm)

theorem executing (c : Core (Recorded W)) (h : Handle) :
    Turnover c (some (.told (.executing h))) (c.executing h) := by
  rw [executing_eq]
  refine of_report (h := h) (f := MicroOp.markExecuting c.config.lateAlloc) (fun _ => rfl)
    nofun rfl (fun hop => ?_) (fun op hop => ⟨.executing, ?_⟩) rfl
  · rw [hop, Option.any_none, if_neg Bool.false_ne_true]
  · rw [hop, Option.any_some, MicroOp.registers, MicroOp.registers, MicroOp.markExecuting]
    cases op.holdsRegister <;>
      cases c.config.lateAlloc && op.inst.writesRegister <;> simp

theorem executed (c : Core (Recorded W)) (h : Handle) :
    Turnover c (some (.told (.executed h))) (c.executed h) := by
  have hnamed : ∀ k, Command.executed h = .executed k → k = h := fun _ heq =>
    (Command.executed.inj heq).symm
  obtain ⟨hop, heq⟩ | ⟨op, hop, heq⟩ := executed_cases c h
  · rw [heq]
    refine .quiet rfl rfl (fun k hk => ?_) rfl rfl rfl
    rw [hnamed k (Event.told.inj (Option.some.inj hk)), hop]
  · rw [heq]
    exact of_report (h := h) (f := MicroOp.markExecuted c.clock) (fun _ => rfl) hnamed rfl
      (fun _ => rfl) (fun _ _ => ⟨.executed _, rfl⟩) rfl

/-- The report that a memory effect is complete changes an operation in flight, and
releases one that has retired. -/
theorem performed [Emulator W] (c : Core (Recorded W)) (h : Handle) :
    Turnover c (some (.told (.performed h))) (c.performed h) := by
  obtain ⟨op, hop, hretired, heq⟩ | ⟨hopen, heq⟩ := performed_cases c h
  · rw [heq]
    refine .goes (.performed hretired) (Pool.replaced_erase hop) rfl ?_
    exact (Recorded.departures_release _ _).trans (congrArg (· ++ _) (List.append_nil _).symm)
  · rw [heq]
    exact of_report (h := h) (f := MicroOp.markPerformed) (fun _ => rfl) nofun rfl
      (fun _ => rfl) (fun op hop => ⟨.performed (hopen op hop), rfl⟩) rfl

theorem replay [Surroundings W] (c : Core (Recorded W)) (h : Handle) :
    Turnover c (some (.told (.replay h))) (c.replay h) := by
  have hdepartures : (c.replay h).world.departures = c.world.departures :=
    congrArg (List.filterMap Call.departure?) (calls_replay c h)
  obtain heq | ⟨op, hop, heq⟩ := replay_cases c h <;> rw [heq] at hdepartures ⊢
  · exact .quiet rfl rfl nofun rfl rfl rfl
  · exact of_report (h := h) (f := MicroOp.markReplayed) (fun _ => rfl) nofun rfl
      (fun _ => rfl) (fun _ _ => ⟨.replayed, rfl⟩) hdepartures

end Turnover

/-! ## Admission -/

variable [Surroundings W]

theorem replaced_admitOp (hp : c.pool.WellFormed) (op : MicroOp) :
    c.pool.Replaced (c.admitOp op).2.pool (c.admitOp op).1.handle none
      (some (c.admitOp op).1.op) := by
  have hid : (c.admitOp op).1.op.id = (c.stamp op).id := by
    obtain ⟨order, window, hop⟩ := op_admitOp hp op
    rw [hop]
    rfl
  have hhandle : (c.pool.insert (c.admitOp op).1.op).1 = (c.admitOp op).1.handle :=
    Pool.handle_insert_congr hid
  have hinsert := Pool.replaced_insert hp (c.admitOp op).1.op
  rw [hhandle] at hinsert
  refine hinsert.congr fun k => ?_
  by_cases hk : k = (c.admitOp op).1.handle
  · rw [hk, get?_admitOp_self hp, hinsert.after]
  · rw [get?_admitOp_of_ne hp op hk, hinsert.others k hk]

theorem origin_admitOp (hp : c.pool.WellFormed) (op : MicroOp) :
    (c.admitOp op).1.op.origin = op.origin := by
  obtain ⟨order, window, hop⟩ := op_admitOp hp op
  rw [hop]
  rfl

theorem Turnover.admitted (hp : c.pool.WellFormed) {op : MicroOp} {world : Recorded W}
    (hanswer : Cluster.hazard? c.world op = (none, world)) (queue : InstructionQueue) :
    Turnover c (some (.admitted ({ c with world }.admitOp op).1))
      { ({ c with world }.admitOp op).2 with queue } := by
  have hheld := holdsRegister_admitOp (c := { c with world }) hp op
  have htakes : takesRegister { c with world } op = c.takesRegister op := rfl
  have hregs := freeRegs_admitOp { c with world } op
  rw [htakes] at hheld hregs
  refine .comes (replaced_admitOp hp op) (origin_admitOp hp op) (fun hfree => ?_)
    (fun hlate => ?_) ?_
  · have hfree : op.holdsRegister = false := hfree
    rw [MicroOp.registers, hheld, hfree, Bool.false_or]
    refine (congrArg (· + _) hregs).trans ?_
    cases c.takesRegister op
    · exact Int.add_zero _
    · exact Int.sub_add_cancel _ _
  · rw [hheld, takesRegister, hlate, Bool.not_true, Bool.and_false, Bool.or_false]
    rfl
  · exact (Recorded.departures_accept _ _).trans (Recorded.departures_hazard hanswer)

/-! ## Commit -/

theorem departures_commit (c : Core (Recorded W)) (h : Handle) (op : MicroOp) :
    (c.commit h op).world.departures =
      c.world.departures ++ if op.performed then [.released op.markCommitted] else [] := by
  rw [commit, settle]
  split
  · exact Recorded.departures_release _ _
  · exact (Recorded.departures_reexecute _ _).trans (List.append_nil _).symm

theorem Turnover.committed {h : Handle} {op : MicroOp} {world : Recorded W}
    (hop : c.pool.get? h = some op)
    (hanswer : Cluster.mayCommit c.world op c.recovery.flushing = (true, world)) :
    Turnover c (some (.committed ⟨h, op⟩)) ({ c with world }.commit h op) := by
  have hworld : world.departures = c.world.departures ++ commitDepartures (.committed ⟨h, op⟩) :=
    Recorded.departures_mayCommit hanswer
  have hpool := pool_commit { c with world } h op
  have hregs := freeRegs_commit { c with world } h op
  have hdepartures := departures_commit { c with world } h op
  have hreturned : (({ c with world } : Core (Recorded W)).commit h op).freeRegs =
      c.freeRegs + op.registers := by
    rw [hregs, MicroOp.registers]
    cases op.holdsRegister
    · exact (Int.add_zero _).symm
    · rfl
  rw [poolCommitting] at hpool
  cases hdone : op.performed with
  | true =>
      rw [hdone, if_pos rfl] at hpool hdepartures
      refine .goes (.committed hdone) (hpool ▸ Pool.replaced_erase hop) ?_ ?_
      · exact (Int.add_zero _).trans hreturned
      · rw [hdepartures, ← hworld]
  | false =>
      rw [hdone, if_neg Bool.false_ne_true] at hpool hdepartures
      have hreplaced := Pool.replaced_modify hop (f := MicroOp.markRetired) fun _ => rfl
      refine .changes (.retired hdone) (hpool ▸ hreplaced) ?_ ?_
      · exact (Int.add_zero _).trans hreturned
      · rw [hdepartures, ← hworld, List.append_nil]

/-! ## Steps -/

theorem departures_fetch (c : Core (Recorded W)) :
    c.fetch.world.departures = c.world.departures := by
  have hlooked := Recorded.departures_noticed c.world (.isBlocked c.hart)
  have hfetch := Recorded.departures_fetch (FrontEnd.askBlocked c.world c.hart).2 c.hart
  rw [fetch]
  dsimp only
  split
  · exact hlooked
  · split <;> exact hfetch.trans hlooked

omit [Surroundings W] in
theorem departures_tick (c : Core (Recorded W)) :
    c.tick.world.departures = c.world.departures := by
  rw [tick]
  dsimp only
  split <;> rfl

theorem departures_decode (c : Core (Recorded W)) :
    c.decode.world.departures = c.world.departures := by
  have hbucket := Recorded.departures_nextBucket c.world
  rw [decode]
  split
  · rfl
  · split
    · next heq => rw [heq] at hbucket; exact hbucket
    · next heq => rw [heq] at hbucket; exact hbucket

/-- Every step does one of the four things to the operations. -/
theorem turnover_step {event : Option Event} (hp : c.pool.WellFormed) (h : Step c event d) :
    Turnover c event d := by
  -- Most steps have no event and leave the pool and the registers as they are.
  have hsilent : ∀ {d : Core (Recorded W)}, SameOps c d →
      d.world.departures = c.world.departures → Turnover c none d :=
    fun hsame hdepartures => .quiet rfl rfl nofun hsame.pool hsame.freeRegs hdepartures
  cases h with
  | activate | deactivate | arm => exact .quiet rfl rfl nofun rfl rfl rfl
  | charge | sample | dropRob | dropRetiring =>
      exact .quiet rfl rfl nofun rfl rfl rfl
  | rest => exact .quiet rfl rfl nofun rfl rfl (Recorded.departures_noticed _ _)
  | fetch => exact hsilent (sameOps_fetch c) (departures_fetch c)
  | tick => exact hsilent (sameOps_tick c) (departures_tick c)
  | decode => exact hsilent (sameOps_decode c) (departures_decode c)
  | recover => exact .quiet rfl rfl nofun rfl rfl (Recorded.departures_resync _ _)
  | refuse hroom hanswer =>
      exact .quiet rfl rfl nofun rfl rfl (Recorded.departures_hazard hanswer)
  | holdRob htop hop hanswer =>
      exact .quiet rfl rfl nofun rfl rfl (Recorded.departures_mayPromote hanswer)
  | promote htop hop hanswer =>
      exact .quiet rfl rfl nofun rfl rfl (Recorded.departures_mayPromote hanswer)
  | holdRetiring htop hop hanswer =>
      exact .quiet rfl rfl nofun rfl rfl
        ((Recorded.departures_mayCommit hanswer).trans (List.append_nil _))
  | issued h =>
      exact .of_report (h := h) (f := MicroOp.markIssued) (fun _ => rfl) nofun rfl
        (fun _ => rfl) (fun _ _ => ⟨.issued, rfl⟩) rfl
  | executing h => exact .executing c h
  | executed h => exact .executed c h
  | performed h => exact .performed c h
  | replay h => exact .replay c h
  | accept hroom hanswer hqueue => exact .admitted hp hanswer _
  | commit htop hop hdelay hanswer => exact .committed hop hanswer

/-- An operation that is in the pool and not in flight after a step was so before,
changed at most, or it has just committed with its memory effect open. -/
theorem waiting_of_step {event : Option Event} {h : Handle} {left : MicroOp} (hc : c.Consistent)
    (hstep : Step c event d) (hleft : d.pool.get? h = some left) (hnot : h ∉ d.inFlight) :
    (∃ op, event = some (.committed ⟨h, op⟩) ∧ op.performed = false ∧ left = op.markRetired) ∨
      ∃ op, c.pool.get? h = some op ∧ h ∉ c.inFlight ∧
        (left = op ∨ ∃ e, event = some e ∧ Change c.config.lateAlloc h op e left) := by
  have hcommitted : h ∈ c.inFlight → ∃ n, event = some (.committed n) ∧ n.handle = h :=
    fun hmem => (hc.mem_inFlight_step hstep hmem).resolve_left hnot
  cases turnover_step hc.pool hstep with
  | quiet hadmissions hcommits hidle hpool hregs hdepartures =>
      rw [hpool] at hleft
      refine .inr ⟨left, hleft, fun hmem => ?_, .inl rfl⟩
      obtain ⟨n, rfl, rfl⟩ := hcommitted hmem
      cases hcommits
  | @comes a d hpool horigin hregs hlate hdepartures =>
      have hne : h ≠ a.handle := fun heq => hnot (heq ▸ hc.mem_of_admitted hstep)
      rw [hpool.others h hne] at hleft
      refine .inr ⟨left, hleft, fun hmem => ?_, .inl rfl⟩
      obtain ⟨n, hn, -⟩ := hcommitted hmem
      cases hn
  | @changes event k op op' d hchange hpool hregs hdepartures =>
      by_cases hk : h = k
      · subst hk
        obtain rfl := Option.some.inj (hpool.after.symm.trans hleft)
        by_cases hmem : h ∈ c.inFlight
        · obtain ⟨n, hn, -⟩ := hcommitted hmem
          obtain rfl := Option.some.inj hn
          cases hchange with
          | retired hopen => exact .inl ⟨op, rfl, hopen, rfl⟩
        · exact .inr ⟨op, hpool.before, hmem, .inr ⟨event, rfl, hchange⟩⟩
      · rw [hpool.others h hk] at hleft
        refine .inr ⟨left, hleft, fun hmem => ?_, .inl rfl⟩
        obtain ⟨n, hn, hhandle⟩ := hcommitted hmem
        obtain rfl := Option.some.inj hn
        cases hchange
        exact hk hhandle.symm
  | @goes event k op gone d hleave hpool hregs hdepartures =>
      have hk : h ≠ k := by
        rintro rfl
        rw [hpool.after] at hleft
        cases hleft
      rw [hpool.others h hk] at hleft
      refine .inr ⟨left, hleft, fun hmem => ?_, .inl rfl⟩
      obtain ⟨n, hn, hhandle⟩ := hcommitted hmem
      obtain rfl := Option.some.inj hn
      cases hleave
      exact hk hhandle.symm

/-- Where operations that are not in flight hold no register, none is handed back with
one. -/
theorem registers_released_step {event : Option Event} (hc : c.Consistent)
    (hothers : ∀ h, h ∉ c.inFlight → ∀ op, c.pool.get? h = some op → op.holdsRegister = false)
    (hstep : Step c event d) :
    ∀ op ∈ d.world.released, op ∈ c.world.released ∨ op.holdsRegister = false := by
  intro op' hop'
  obtain hsame | ⟨event, h, op, gone, hleave, hop, hreleased⟩ :=
    (turnover_step hc.pool hstep).released
  · exact .inl (hsame ▸ hop')
  · rw [hreleased, List.mem_append, List.mem_singleton] at hop'
    refine hop'.imp id fun heq => ?_
    subst heq
    cases hleave with
    | committed hdone => rfl
    | performed hretired =>
        refine hothers h (fun hmem => ?_) op hop
        obtain ⟨live, hlive, hopen⟩ := hc.live h hmem
        rw [hop] at hlive
        exact hopen (Option.some.inj hlive ▸ hretired)

end Core

end OutOfOrder
