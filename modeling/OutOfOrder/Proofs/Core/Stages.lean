import OutOfOrder.Proofs.Core.Report
import OutOfOrder.Proofs.Core.Step

/-!
# What the stages of a cycle leave alone

A cycle looks after the core itself before it turns to the operations. Fetch makes the core
busy and the tick moves its clock. The stages that follow, from decode to retirement, have
nothing to do with that. They neither turn the core on or off nor put it to rest, the clock
stands still, and all that the lock detector learns from them is how many commits there
were.

Steps do not tell which stage they belong to, so the stages are gone through as they stand,
once and for everything that they leave alone. `Unmoved` says it of one stretch of a cycle
and adds up along it. At the end a cycle that has run out of work puts the core to rest, so
of a whole cycle it holds but for that.
-/

namespace OutOfOrder.Core

variable {W : Type}

/-- From `c` to `d` the core stayed as active and as busy as it was, the clock stood still,
the lock detector did not look, and `n` commits were counted for it. -/
structure Unmoved (c d : Core W) (n : Nat) : Prop where
  active : d.active = c.active
  busy : d.busy = c.busy
  clock : d.clock = c.clock
  lock : d.lock = { c.lock with commits := c.lock.commits + n }

namespace Unmoved

variable {c d e : Core W} {m n : Nat}

theorem of_eq (hactive : d.active = c.active) (hbusy : d.busy = c.busy)
    (hclock : d.clock = c.clock) (hlock : d.lock = c.lock) : Unmoved c d 0 where
  active := hactive
  busy := hbusy
  clock := hclock
  lock := hlock

theorem trans (h : Unmoved c d m) (h' : Unmoved d e n) : Unmoved c e (m + n) where
  active := h'.active.trans h.active
  busy := h'.busy.trans h.busy
  clock := h'.clock.trans h.clock
  lock := by rw [h'.lock, h.lock, Nat.add_assoc]

/-- What counts no commits does not show in the sum. -/
theorem after (h : Unmoved c d 0) (h' : Unmoved d e n) : Unmoved c e n :=
  Nat.zero_add n ▸ h.trans h'

theorem since (h : Unmoved d e n) (hactive : d.active = c.active) (hbusy : d.busy = c.busy)
    (hclock : d.clock = c.clock) (hlock : d.lock = c.lock) : Unmoved c e n :=
  (of_eq hactive hbusy hclock hlock).after h

/-- Whether the core is put to rest is another matter. -/
theorem but_for_busy (h : Unmoved c d n) : Unmoved c { d with busy := c.busy } n where
  active := h.active
  busy := rfl
  clock := h.clock
  lock := h.lock

end Unmoved

variable [Surroundings W]

theorem unmoved_decode (c : Core W) : Unmoved c c.decode 0 := by
  obtain ⟨_, _, _, heq⟩ := decode_eq c
  rw [heq]
  exact .of_eq rfl rfl rfl rfl

/-! ## Dispatch -/

theorem unmoved_add (c : Core W) (op : MicroOp) : Unmoved c (c.add op).2 0 := by
  rcases add_cases c op with ⟨_, -, heq⟩ | ⟨_, _, -, -, heq⟩ | ⟨_, -, -, heq⟩ <;> rw [heq] <;>
    exact .of_eq rfl rfl rfl rfl

theorem unmoved_dispatchUpTo (width : Nat) (c : Core W) :
    Unmoved c (dispatchUpTo width c).2 0 := by
  induction width generalizing c with
  | zero => exact .of_eq rfl rfl rfl rfl
  | succ width ih =>
      rw [dispatchUpTo]
      cases hnext : c.queue.next? with
      | none => exact .of_eq rfl rfl rfl rfl
      | some next =>
          obtain ⟨op, queue⟩ := next
          have hadd := unmoved_add c op
          dsimp only
          split
          · next stall d hrefused =>
              rw [hrefused] at hadd
              exact hadd
          · next admission d hadmitted =>
              rw [hadmitted] at hadd
              exact hadd.after ((ih { d with queue }).since rfl rfl rfl rfl)

theorem unmoved_dispatch (c : Core W) : Unmoved c c.dispatch.2 0 := by
  have hcharge : ∀ (d : Dispatched) (c : Core W), Unmoved c (c.chargeUnused d) 0 := by
    intro d c
    unfold chargeUnused
    split <;> exact .of_eq rfl rfl rfl rfl
  exact (unmoved_dispatchUpTo c.config.issueWidth c).after (hcharge _ _)

/-! ## Retirement -/

theorem unmoved_promoteUpTo (n : Nat) (c : Core W) : Unmoved c (promoteUpTo n c) 0 := by
  induction n generalizing c with
  | zero => exact .of_eq rfl rfl rfl rfl
  | succ n ih =>
      rw [promoteUpTo]
      split
      · exact .of_eq rfl rfl rfl rfl
      · split
        · exact (ih _).since rfl rfl rfl rfl
        · split
          · exact .of_eq rfl rfl rfl rfl
          · exact (ih _).since rfl rfl rfl rfl

theorem unmoved_commit (c : Core W) (h : Handle) (op : MicroOp) :
    Unmoved c (c.commit h op) 1 := by
  unfold commit settle
  split <;> exact ⟨rfl, rfl, rfl, rfl⟩

theorem unmoved_commitUpTo (n : Nat) (c : Core W) :
    Unmoved c (commitUpTo n c).2 (commitUpTo n c).1.length := by
  induction n generalizing c with
  | zero => exact .of_eq rfl rfl rfl rfl
  | succ n ih =>
      rw [commitUpTo]
      split
      · exact .of_eq rfl rfl rfl rfl
      · next h htop =>
          split
          · exact (ih _).since rfl rfl rfl rfl
          · next op hop =>
              split
              · exact .of_eq rfl rfl rfl rfl
              · split
                · exact .of_eq rfl rfl rfl rfl
                · next world hanswer =>
                    have hfirst : Unmoved c ({ c with world }.commit h op) 1 :=
                      (unmoved_commit { c with world } h op).since rfl rfl rfl rfl
                    rw [List.length_cons, Nat.add_comm]
                    exact hfirst.trans (ih _)

theorem unmoved_retire (c : Core W) : Unmoved c c.retire.2 c.retire.1.length := by
  have hpromote : Unmoved c c.promote 0 :=
    (unmoved_promoteUpTo c.rob.size c).after (.of_eq rfl rfl rfl rfl)
  exact hpromote.after (unmoved_commitUpTo c.config.retireWidth c.promote)

/-! ## Whole cycles -/

theorem unmoved_workCycle (c : Core W) :
    Unmoved c { c.workCycle.2 with busy := c.busy } c.workCycle.1.committed.length := by
  unfold workCycle
  split
  · exact ((unmoved_dispatch c).after (unmoved_retire c.dispatch.2)).but_for_busy
  · split
    · exact .of_eq rfl rfl rfl rfl
    · exact (unmoved_retire c).but_for_busy

theorem unmoved_busyCycle (c : Core W) :
    Unmoved c { c.busyCycle.2 with busy := c.busy } c.busyCycle.1.committed.length := by
  have hdecode := unmoved_decode c
  unfold busyCycle
  generalize c.decode = d at hdecode
  dsimp only
  split
  · exact (hdecode.after (unmoved_workCycle d)).but_for_busy
  · split
    · have hwork := (unmoved_workCycle d.finishRecovery).since (c := d) rfl rfl rfl rfl
      exact (hdecode.after hwork).but_for_busy
    · have hretire : Unmoved d d.drainCycle.2 d.drainCycle.1.committed.length :=
        (unmoved_retire _).since rfl rfl rfl rfl
      exact (hdecode.after hretire).but_for_busy

end OutOfOrder.Core
