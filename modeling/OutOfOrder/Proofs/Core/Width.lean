import OutOfOrder.Core.Command

/-!
# The issue width is looked at once

Two things of a core are told apart here from all the rest: the issue width, and the counters
of lost slots. Dispatch looks at the width to see how far it may go, and nothing else looks at
it. The lost slots are only ever added to, and looked at by nobody who decides anything.

`recast` puts other values in their place, and everything that a cycle does around the
dispatch does the same to a core that was recast as to the core itself. So two cycles can
be compared that differ in the width: whatever differs when the dispatch is over still
differs at the end, and nothing else does.
-/

namespace OutOfOrder

/-- The same counters but for the lost slots. -/
def Counters.recast (s : Counters) (stalls : Vector Nat 8) : Counters := { s with stalls }

namespace Counters

variable (s : Counters) (stalls : Vector Nat 8) (enabled : Bool)

theorem countTick_recast : (s.recast stalls).countTick enabled =
    (s.countTick enabled).recast stalls := by
  cases enabled <;> rfl

theorem countFull_recast : (s.recast stalls).countFull enabled =
    (s.countFull enabled).recast stalls := by
  cases enabled <;> rfl

theorem countMissing_recast : (s.recast stalls).countMissing enabled =
    (s.countMissing enabled).recast stalls := by
  cases enabled <;> rfl

theorem countLoad_recast (speculative : Bool) :
    (s.recast stalls).countLoad speculative enabled =
      (s.countLoad speculative enabled).recast stalls := by
  cases enabled <;> cases speculative <;> rfl

theorem countAdmission_recast (opcode : Opcode) :
    (s.recast stalls).countAdmission opcode enabled =
      (s.countAdmission opcode enabled).recast stalls := by
  cases enabled <;> rfl

theorem countCommit_recast : (s.recast stalls).countCommit enabled =
    (s.countCommit enabled).recast stalls := by
  cases enabled <;> rfl

/-- A charge changes the lost slots alone. -/
theorem chargeStall_eq_recast (cause : StallCause) (slots : Nat) :
    s.chargeStall cause slots enabled =
      s.recast (s.chargeStall cause slots enabled).stalls := by
  cases enabled <;> rfl

theorem stalls_chargeStall_congr {s t : Counters} (h : s.stalls = t.stalls) (cause : StallCause)
    (slots : Nat) (enabled : Bool) :
    (s.chargeStall cause slots enabled).stalls = (t.chargeStall cause slots enabled).stalls := by
  cases enabled with
  | false => exact h
  | true =>
      show s.stalls.set _ (s.stalls[_] + slots) = t.stalls.set _ (t.stalls[_] + slots)
      rw [h]

end Counters

namespace Core

variable {W : Type}

/-- The same core but for the issue width and the lost slots. -/
def recast (c : Core W) (width : Nat) (stalls : Vector Nat 8) : Core W :=
  { c with
    config := { c.config with issueWidth := width }
    stats := c.stats.recast stalls }

theorem recast_self (c : Core W) : c.recast c.config.issueWidth c.stats.stalls = c := rfl

variable (c : Core W) (width : Nat) (stalls : Vector Nat 8)

theorem tick_recast : (c.recast width stalls).tick = c.tick.recast width stalls := by
  have hstats : ∀ enabled, (c.recast width stalls).stats.countTick enabled =
      (c.stats.countTick enabled).recast stalls := c.stats.countTick_recast stalls
  unfold tick
  dsimp only
  rw [hstats]
  by_cases hdue : (c.clock + 1) % c.config.lockCheckInterval = 0
  · rw [if_pos hdue]
    exact if_pos hdue
  · rw [if_neg hdue]
    exact if_neg hdue

theorem statsAdmitting_recast (op : MicroOp) :
    (c.recast width stalls).statsAdmitting op = (c.statsAdmitting op).recast stalls := by
  have hload : (c.recast width stalls).stats.countLoad c.hasUnresolved op.sampled =
      (c.stats.countLoad c.hasUnresolved op.sampled).recast stalls :=
    c.stats.countLoad_recast stalls op.sampled c.hasUnresolved
  unfold statsAdmitting
  dsimp only
  rw [← Counters.countAdmission_recast]
  congr 1
  by_cases hopcode : op.inst.opcode.isLoad = true
  · rw [if_pos hopcode, if_pos hopcode]
    exact hload
  · rw [if_neg hopcode, if_neg hopcode]
    rfl

variable [Surroundings W]

theorem fetch_recast : (c.recast width stalls).fetch = c.fetch.recast width stalls := by
  have hworld : (c.recast width stalls).world = c.world := rfl
  have hhart : (c.recast width stalls).hart = c.hart := rfl
  rw [fetch, fetch, hworld, hhart]
  dsimp only
  split
  · rfl
  · split <;> rfl

theorem decode_recast : (c.recast width stalls).decode = c.decode.recast width stalls := by
  have hspace : (c.recast width stalls).queueSpace = c.queueSpace := rfl
  have hfetch : (c.recast width stalls).config.fetchWidth = c.config.fetchWidth := rfl
  have hworld : (c.recast width stalls).world = c.world := rfl
  rw [decode, decode, hspace, hfetch, hworld]
  split
  · exact congrArg (fun stats => { c.recast width stalls with stats })
      (c.stats.countFull_recast stalls c.sampling)
  · split
    · rfl
    · next world _ _ =>
        exact congrArg (fun stats => { c.recast width stalls with world, stats })
          (c.stats.countMissing_recast stalls c.sampling)

/-! ## Admission -/

theorem admitOp_recast (op : MicroOp) : (c.recast width stalls).admitOp op =
    ((c.admitOp op).1, (c.admitOp op).2.recast width stalls) := by
  unfold admitOp enter
  dsimp only
  rw [statsAdmitting_recast]
  rfl

theorem add_recast (op : MicroOp) : (c.recast width stalls).add op =
    ((c.add op).1, (c.add op).2.recast width stalls) := by
  have hrefusal : (c.recast width stalls).refusal? op = c.refusal? op := rfl
  have hworld : (c.recast width stalls).world = c.world := rfl
  unfold add
  rw [hrefusal]
  cases c.refusal? op with
  | some cause => rfl
  | none =>
      dsimp only
      rw [hworld]
      cases Cluster.hazard? c.world op with
      | mk answer world =>
          cases answer with
          | some cause => rfl
          | none =>
              exact congrArg (fun r : Admission × Core W => (Except.ok r.1, r.2))
                (admitOp_recast { c with world } width stalls op)

theorem dispatchUpTo_recast (n : Nat) : dispatchUpTo n (c.recast width stalls) =
    ((dispatchUpTo n c).1, (dispatchUpTo n c).2.recast width stalls) := by
  induction n generalizing c with
  | zero => rfl
  | succ n ih =>
      have hqueue : (c.recast width stalls).queue = c.queue := rfl
      rw [dispatchUpTo, dispatchUpTo, hqueue]
      cases c.queue.next? with
      | none => rfl
      | some next =>
          obtain ⟨op, queue⟩ := next
          dsimp only
          rw [add_recast]
          cases c.add op with
          | mk result d =>
              cases result with
              | error stall => rfl
              | ok admission =>
                  exact congrArg (fun r : Dispatched × Core W =>
                    ({ r.1 with admitted := admission :: r.1.admitted }, r.2)) (ih { d with queue })

/-! ## Retirement -/

theorem promoteUpTo_recast (n : Nat) : promoteUpTo n (c.recast width stalls) =
    (promoteUpTo n c).recast width stalls := by
  induction n generalizing c with
  | zero => rfl
  | succ n ih =>
      have htop : (c.recast width stalls).rob.top? = c.rob.top? := rfl
      have hpool : (c.recast width stalls).pool = c.pool := rfl
      have hworld : (c.recast width stalls).world = c.world := rfl
      have hflushing : (c.recast width stalls).recovery.flushing = c.recovery.flushing := rfl
      rw [promoteUpTo, promoteUpTo, htop, hpool, hworld, hflushing]
      cases c.rob.top? with
      | none => rfl
      | some h =>
          dsimp only
          cases c.pool.get? h with
          | none => exact ih { c with rob := c.rob.pop }
          | some op =>
              dsimp only
              cases Cluster.mayPromote c.world op c.recovery.flushing with
              | mk granted world =>
                  cases granted with
                  | false => rfl
                  | true =>
                      exact ih { c with world, rob := c.rob.pop, retiring := c.retiring.push h }

theorem promote_recast : (c.recast width stalls).promote = c.promote.recast width stalls := by
  have hsize : (c.recast width stalls).rob.size = c.rob.size := rfl
  rw [promote, hsize, promoteUpTo_recast]
  rfl

theorem commit_recast (h : Handle) (op : MicroOp) :
    (c.recast width stalls).commit h op = (c.commit h op).recast width stalls := by
  unfold commit settle
  cases op.performed <;> exact congrArg _ (Counters.countCommit_recast _ _ _)

theorem commitUpTo_recast (n : Nat) : commitUpTo n (c.recast width stalls) =
    ((commitUpTo n c).1, (commitUpTo n c).2.recast width stalls) := by
  induction n generalizing c with
  | zero => rfl
  | succ n ih =>
      have htop : (c.recast width stalls).retiring.top? = c.retiring.top? := rfl
      have hpool : (c.recast width stalls).pool = c.pool := rfl
      have hclock : (c.recast width stalls).clock = c.clock := rfl
      have hdelay : (c.recast width stalls).config.retireDelay = c.config.retireDelay := rfl
      have hworld : (c.recast width stalls).world = c.world := rfl
      have hflushing : (c.recast width stalls).recovery.flushing = c.recovery.flushing := rfl
      rw [commitUpTo, commitUpTo, htop, hpool, hclock, hdelay, hworld, hflushing]
      cases c.retiring.top? with
      | none => rfl
      | some h =>
          dsimp only
          cases c.pool.get? h with
          | none => exact ih { c with retiring := c.retiring.pop }
          | some op =>
              dsimp only
              split
              · rfl
              · cases Cluster.mayCommit c.world op c.recovery.flushing with
                | mk granted world =>
                    cases granted with
                    | false => rfl
                    | true =>
                        have hcommit := commit_recast { c with world } width stalls h op
                        have hrest := ih ({ c with world }.commit h op)
                        rw [← hcommit] at hrest
                        exact congrArg (fun r : List NamedOp × Core W => (⟨h, op⟩ :: r.1, r.2))
                          hrest

theorem retire_recast :
    (c.recast width stalls).retire = (c.retire.1, c.retire.2.recast width stalls) := by
  have hwidth : (c.recast width stalls).config.retireWidth = c.config.retireWidth := rfl
  rw [retire, promote_recast, hwidth, commitUpTo_recast]
  rfl

end Core

end OutOfOrder
