import OutOfOrder.Core.Sampling
import OutOfOrder.Proofs.Core.Report

/-!
# Two cores side by side

Two cores that differ at most in their statistics, in surroundings that do not look at the
sampling flags, do the same. Nothing says so but the text of every function: the flag is
looked at next to code that moves operations, in fetch, in decode, at admission, at commit
and at a replay. So the proof goes through the functions one by one, with both cores at
once.

A function that asks nobody carries a core along as it would carry what is left of the core
without its statistics, but for the counters. A function that asks gets the same answers:
the surroundings are blind, and the core asks about the same operations.
-/

namespace OutOfOrder.Core

/-! ## What a core does by itself -/

section Alone

variable {W : Type} (c : Core W)

theorem stamp_unsampled (op : MicroOp) :
    c.unsampled.stamp op.unsampled = (c.stamp op).unsampled := by
  have hop : ∀ h, (c.pool.unsampled.get? h).any MicroOp.isUnresolved =
      (c.pool.get? h).any MicroOp.isUnresolved := by
    intro h
    rw [Pool.get?_unsampled, Option.any_map]
    rfl
  have hopen : c.unsampled.hasUnresolved = c.hasUnresolved := by
    show (c.rob.toList.any fun h => (c.pool.unsampled.get? h).any MicroOp.isUnresolved) = _
    simp only [hop]
    rfl
  rw [stamp, stamp, hopen]
  rfl

theorem unsampled_enter (op : MicroOp) :
    (c.enter op).1 = (c.unsampled.enter op.unsampled).1 ∧
      (c.enter op).2.unsampled = { (c.unsampled.enter op.unsampled).2 with stats := {} } := by
  have hinsert : c.unsampled.pool.insert (c.unsampled.stamp op.unsampled) =
      ((c.pool.insert (c.stamp op)).1, (c.pool.insert (c.stamp op)).2.unsampled) := by
    rw [stamp_unsampled]
    exact Pool.insert_unsampled c.pool (c.stamp op)
  rw [enter, enter, hinsert]
  dsimp only
  rw [Serializer.apply_unsampled]
  exact ⟨rfl, rfl⟩

theorem unsampled_tick :
    c.tick.unsampled = { c.unsampled.tick with sampling := false, stats := {} } := by
  by_cases hinterval : (c.clock + 1) % c.config.lockCheckInterval = 0
  · have htick : c.tick = _ := if_pos hinterval
    have htick' : c.unsampled.tick = _ := if_pos hinterval
    rw [htick, htick']
    rfl
  · have htick : c.tick = _ := if_neg hinterval
    have htick' : c.unsampled.tick = _ := if_neg hinterval
    rw [htick, htick']
    rfl

theorem unsampled_issued (h : Handle) : (c.issued h).unsampled = c.unsampled.issued h := by
  have hpool := Pool.modify_unsampled c.pool h (f := MicroOp.markIssued) (g := MicroOp.markIssued)
    fun _ => rfl
  exact congrArg (fun p => { c.unsampled with pool := p }) hpool.symm

theorem unsampled_executing (h : Handle) : (c.executing h).unsampled = c.unsampled.executing h := by
  have hpool := Pool.modify_unsampled c.pool h
    (f := MicroOp.markExecuting c.config.lateAlloc)
    (g := MicroOp.markExecuting c.config.lateAlloc) fun _ => rfl
  have htakes : ((c.pool.unsampled.get? h).any fun op =>
        c.config.lateAlloc && op.inst.writesRegister && !op.holdsRegister) =
      (c.pool.get? h).any fun op =>
        c.config.lateAlloc && op.inst.writesRegister && !op.holdsRegister := by
    rw [Pool.get?_unsampled, Option.any_map]
    rfl
  rw [executing_eq, executing_eq]
  show _ = ({ c.unsampled with
    pool := c.pool.unsampled.modify h (MicroOp.markExecuting c.config.lateAlloc)
    freeRegs := if (c.pool.unsampled.get? h).any fun op =>
        c.config.lateAlloc && op.inst.writesRegister && !op.holdsRegister
      then c.freeRegs - 1 else c.freeRegs } : Core Unit)
  rw [hpool, htakes]
  rfl

theorem unsampled_executed (h : Handle) : (c.executed h).unsampled = c.unsampled.executed h := by
  have hnamed : c.unsampled.pool.get? h = (c.pool.get? h).map MicroOp.unsampled :=
    Pool.get?_unsampled c.pool h
  have hpool := Pool.modify_unsampled c.pool h (f := MicroOp.markExecuted c.clock)
    (g := MicroOp.markExecuted c.clock) fun _ => rfl
  rw [executed, executed, hnamed]
  cases c.pool.get? h with
  | none => rfl
  | some op =>
      exact congrArg (fun p => { c.unsampled with
        pool := p, aliases := c.aliases.release op.inst.dsts h }) hpool.symm

end Alone

/-! ## What a core asks -/

/-- Two cores that differ at most in their statistics, in surroundings that `R` relates. -/
structure Alike {V W : Type} (R : V → W → Prop) (c : Core V) (d : Core W) : Prop where
  core : c.unsampled = d.unsampled
  world : R c.world d.world

namespace Alike

variable {V W : Type} {R : V → W → Prop} {c : Core V} {d : Core W} {op op' : MicroOp}

theorem config (h : Alike R c d) : c.config = d.config := congrArg Core.config h.core

theorem recovery (h : Alike R c d) : c.recovery = d.recovery := congrArg Core.recovery h.core

theorem isDrained (h : Alike R c d) : c.isDrained = d.isDrained :=
  congrArg Core.isDrained h.core

/-- The same handles name operations that differ at most in the flag. -/
theorem get?_cases (h : Alike R c d) (k : Handle) :
    c.pool.get? k = none ∧ d.pool.get? k = none ∨
      ∃ op op', c.pool.get? k = some op ∧ d.pool.get? k = some op' ∧
        op.unsampled = op'.unsampled := by
  have hsame : (c.pool.get? k).map MicroOp.unsampled = (d.pool.get? k).map MicroOp.unsampled := by
    rw [← Pool.get?_unsampled, ← Pool.get?_unsampled]
    exact congrArg (fun e : Core Unit => e.pool.get? k) h.core
  cases hc : c.pool.get? k with
  | none =>
      rw [hc, Option.map_none, eq_comm, Option.map_eq_none_iff] at hsame
      exact .inl ⟨rfl, hsame⟩
  | some op =>
      rw [hc, Option.map_some, eq_comm, Option.map_eq_some_iff] at hsame
      obtain ⟨op', hd, hop⟩ := hsame
      exact .inr ⟨op, op', rfl, hd, hop.symm⟩

theorem withWorld (h : Alike R c d) {v : V} {w : W} (hworld : R v w) :
    Alike R { c with world := v } { d with world := w } := ⟨h.core, hworld⟩

theorem withPool (h : Alike R c d) {p q : Pool} (hpool : p.unsampled = q.unsampled) :
    Alike R { c with pool := p } { d with pool := q } := by
  refine ⟨?_, h.world⟩
  show { c.unsampled with pool := p.unsampled } = { d.unsampled with pool := q.unsampled }
  rw [h.core, hpool]

theorem withQueue (h : Alike R c d) {p q : InstructionQueue}
    (hqueue : p.unsampled = q.unsampled) : Alike R { c with queue := p } { d with queue := q } := by
  refine ⟨?_, h.world⟩
  show { c.unsampled with queue := p.unsampled } = { d.unsampled with queue := q.unsampled }
  rw [h.core, hqueue]

/-- Both pools change alike under a handle. -/
theorem modify_eq (h : Alike R c d) (k : Handle) {e f g : MicroOp → MicroOp}
    (he : ∀ op, g op.unsampled = (e op).unsampled)
    (hf : ∀ op, g op.unsampled = (f op).unsampled) :
    (c.pool.modify k e).unsampled = (d.pool.modify k f).unsampled := by
  rw [← Pool.modify_unsampled c.pool k he, ← Pool.modify_unsampled d.pool k hf]
  exact congrArg (fun e : Core Unit => e.pool.modify k g) h.core

theorem erase_eq (h : Alike R c d) (k : Handle) :
    (c.pool.erase k).unsampled = (d.pool.erase k).unsampled := by
  rw [← Pool.erase_unsampled, ← Pool.erase_unsampled]
  exact congrArg (fun e : Core Unit => e.pool.erase k) h.core

/-! ### Reports and requests -/

theorem issued (h : Alike R c d) (k : Handle) : Alike R (c.issued k) (d.issued k) where
  core := by rw [unsampled_issued, unsampled_issued, h.core]
  world := h.world

theorem executing (h : Alike R c d) (k : Handle) : Alike R (c.executing k) (d.executing k) where
  core := by rw [unsampled_executing, unsampled_executing, h.core]
  world := by
    rw [executing_eq, executing_eq]
    exact h.world

theorem executed (h : Alike R c d) (k : Handle) : Alike R (c.executed k) (d.executed k) where
  core := by rw [unsampled_executed, unsampled_executed, h.core]
  world := by
    have hworld : ∀ {U : Type} (e : Core U), (e.executed k).world = e.world := by
      intro U e
      obtain ⟨-, heq⟩ | ⟨op, -, heq⟩ := executed_cases e k <;> rw [heq]
    rw [hworld, hworld]
    exact h.world

variable [Surroundings V] [Surroundings W]

theorem performed (hR : Blind R) (h : Alike R c d) (k : Handle) :
    Alike R (c.performed k) (d.performed k) := by
  rw [Core.performed, Core.performed]
  rcases h.get?_cases k with ⟨hc, hd⟩ | ⟨op, op', hc, hd, hop⟩
  · rw [hc, hd]
    exact h
  · have hstage : op.stage = op'.stage := (congrArg MicroOp.stage hop :)
    have hdone : op.markPerformed.unsampled = op'.markPerformed.unsampled :=
      (congrArg MicroOp.markPerformed hop :)
    rw [hc, hd]
    dsimp only
    by_cases hretired : op.stage = .retired
    · rw [if_pos hretired, if_pos (hstage ▸ hretired)]
      exact (h.withPool (h.erase_eq k)).withWorld (hR.release h.world hdone)
    · rw [if_neg hretired, if_neg (hstage ▸ hretired)]
      exact h.withPool (h.modify_eq k (e := fun _ => op.markPerformed)
        (g := fun _ => op.markPerformed.unsampled) (fun _ => rfl) fun _ => hdone)

theorem replay (hR : Blind R) (h : Alike R c d) (k : Handle) :
    Alike R (c.replay k) (d.replay k) := by
  have hheard : (c.serializer.budget != 0 || !c.config.memoryReplay) =
      (d.serializer.budget != 0 || !d.config.memoryReplay) :=
    congrArg (fun e : Core Unit => e.serializer.budget != 0 || !e.config.memoryReplay) h.core
  rw [Core.replay, Core.replay, hheard]
  split
  · exact h
  · rcases h.get?_cases k with ⟨hc, hd⟩ | ⟨op, op', hc, hd, hop⟩
    · rw [hc, hd]
      exact h
    · have hmarked := h.withPool (h.modify_eq k (e := MicroOp.markReplayed)
        (f := MicroOp.markReplayed) (g := MicroOp.markReplayed) (fun _ => rfl) fun _ => rfl)
      have hraised := congrArg (fun e : Core Unit =>
        { e with recovery.replayPoint := max e.recovery.replayPoint k.id }) hmarked.core
      rw [hc, hd]
      dsimp only
      by_cases hrecovering : c.recovery.recovering = true
      · rw [if_pos hrecovering, if_pos (h.recovery ▸ hrecovering)]
        exact ⟨hraised, h.world⟩
      · rw [if_neg hrecovering, if_neg (h.recovery ▸ hrecovering)]
        exact ⟨congrArg (fun e : Core Unit => { e with recovery.recovering := true }) hraised,
          hR.noticed h.world _⟩

theorem finishRecovery (hR : Blind R) (h : Alike R c d) :
    Alike R c.finishRecovery d.finishRecovery where
  core := congrArg (fun e : Core Unit => { e with
    serializer := adapt e.config e.recovery.lastReplay e.recovery.replayPoint e.serializer
    recovery := { e.recovery with
      recovering := false
      flushing := false
      lastReplay := e.recovery.replayPoint } }) h.core
  world := by
    show R (Emulator.resync c.world c.recovery.flushingHart)
      (Emulator.resync d.world d.recovery.flushingHart)
    rw [h.recovery]
    exact hR.resync h.world _

/-! ### Admission -/

omit [Surroundings V] [Surroundings W] in
theorem enter (h : Alike R c d) (hop : op.unsampled = op'.unsampled) :
    (c.enter op).1 = (d.enter op').1 ∧ Alike R (c.enter op).2 (d.enter op').2 := by
  obtain ⟨hhandle, hcore⟩ := unsampled_enter c op
  obtain ⟨hhandle', hcore'⟩ := unsampled_enter d op'
  rw [h.core, hop] at hhandle hcore
  exact ⟨hhandle.trans hhandle'.symm, hcore.trans hcore'.symm, h.world⟩

omit [Surroundings V] [Surroundings W] in
theorem linked_eq (h : Alike R c d) (k : Handle) (hop : op.unsampled = op'.unsampled) :
    (link c.aliases ((c.pool.get? k).getD op)).unsampled =
      (link d.aliases ((d.pool.get? k).getD op')).unsampled := by
  have hnamed : ((c.pool.get? k).getD op).unsampled = ((d.pool.get? k).getD op').unsampled := by
    rcases h.get?_cases k with ⟨hc, hd⟩ | ⟨old, old', hc, hd, hold⟩
    · rw [hc, hd]
      exact hop
    · rw [hc, hd]
      exact hold
  have haliases : c.aliases = d.aliases := congrArg Core.aliases h.core
  show link c.aliases (MicroOp.unsampled _) = link d.aliases (MicroOp.unsampled _)
  rw [haliases, hnamed]

theorem admitOp (hR : Blind R) (h : Alike R c d) (hop : op.unsampled = op'.unsampled) :
    (c.admitOp op).1.unsampled = (d.admitOp op').1.unsampled ∧
      Alike R (c.admitOp op).2 (d.admitOp op').2 := by
  obtain ⟨hhandle, henter⟩ := h.enter hop
  rw [Core.admitOp, Core.admitOp]
  generalize c.enter op = first at *
  generalize d.enter op' = second at *
  obtain ⟨k, c⟩ := first
  obtain ⟨k', d⟩ := second
  obtain rfl : k = k' := hhandle
  have hlinked := henter.linked_eq k hop
  dsimp only at *
  generalize link c.aliases ((c.pool.get? k).getD op) = linked at *
  generalize link d.aliases ((d.pool.get? k).getD op') = linked' at *
  have hpool := henter.withPool (henter.modify_eq k (e := fun _ => linked)
    (g := fun _ => linked.unsampled) (fun _ => rfl) fun _ => hlinked)
  refine ⟨?_, ?_, hR.accept henter.world hlinked⟩
  · show Admission.mk ⟨k, linked.unsampled⟩ op.unsampled = ⟨⟨k, linked'.unsampled⟩, op'.unsampled⟩
    rw [hlinked, hop]
  · exact congr (congrArg (fun (e : Core Unit) (o : MicroOp) =>
      { e with aliases := e.aliases.setAll o.inst.dsts k }) hpool.core) hlinked

theorem add (hR : Blind R) (h : Alike R c d) (hop : op.unsampled = op'.unsampled) :
    (Reply.admission (c.add op).1).unsampled = (Reply.admission (d.add op').1).unsampled ∧
      Alike R (c.add op).2 (d.add op').2 := by
  have hroom : c.refusal? op = d.refusal? op' := by
    show c.unsampled.refusal? op.unsampled = d.unsampled.refusal? op'.unsampled
    rw [h.core, hop]
  have hstall : ∀ cause, (Reply.admission (.error ⟨cause, op⟩)).unsampled =
      (Reply.admission (.error ⟨cause, op'⟩)).unsampled := fun cause =>
    congrArg (fun o => Reply.admission (.error ⟨cause, o⟩)) hop
  obtain ⟨hanswer, hworld⟩ := hR.hazard h.world hop
  rw [Core.add, Core.add, hroom]
  cases d.refusal? op' with
  | some cause => exact ⟨hstall cause, h⟩
  | none =>
      dsimp only
      generalize Cluster.hazard? c.world op = first at *
      generalize Cluster.hazard? d.world op' = second at *
      obtain ⟨answer, v⟩ := first
      obtain ⟨answer', w⟩ := second
      obtain rfl : answer = answer' := hanswer
      cases answer with
      | some cause => exact ⟨hstall cause, h.withWorld hworld⟩
      | none =>
          obtain ⟨hadmitted, hafter⟩ := (h.withWorld hworld).admitOp hR hop
          exact ⟨congrArg (fun a => Reply.admission (.ok a)) hadmitted, hafter⟩

/-! ### The parts of a cycle -/

theorem fetch (hR : Blind R) (h : Alike R c d) : Alike R c.fetch d.fetch := by
  have hhart : c.hart = d.hart := congrArg Core.hart h.core
  have hblocked : (FrontEnd.askBlocked c.world c.hart).1 =
        (FrontEnd.askBlocked d.world d.hart).1 ∧
      R (FrontEnd.askBlocked c.world c.hart).2 (FrontEnd.askBlocked d.world d.hart).2 := by
    rw [hhart]
    exact ⟨hR.isBlocked h.world _, hR.noticed h.world _⟩
  have hbusy := congrArg (fun e : Core Unit => { e with busy := true }) h.core
  rw [Core.fetch, Core.fetch]
  generalize FrontEnd.askBlocked c.world c.hart = first at *
  generalize FrontEnd.askBlocked d.world d.hart = second at *
  obtain ⟨blocked, v⟩ := first
  obtain ⟨blocked', w⟩ := second
  obtain ⟨hsame, hlooked⟩ := hblocked
  obtain rfl : blocked = blocked' := hsame
  have hfetch : (FrontEnd.fetch v c.hart).1 = (FrontEnd.fetch w d.hart).1 ∧
      R (FrontEnd.fetch v c.hart).2 (FrontEnd.fetch w d.hart).2 := by
    rw [hhart]
    exact hR.fetch hlooked _
  dsimp only
  split
  · exact ⟨hbusy, hlooked⟩
  · rw [hfetch.1]
    split
    · exact h.withWorld hfetch.2
    · exact ⟨hbusy, hfetch.2⟩

omit [Surroundings V] [Surroundings W] in
theorem tick (h : Alike R c d) : Alike R c.tick d.tick where
  core := by rw [unsampled_tick, unsampled_tick, h.core]
  world := by
    have hworld : ∀ {U : Type} (e : Core U), e.tick.world = e.world := by
      intro U e
      obtain ⟨sampling, clock, stats, lock, heq⟩ := tick_eq e
      rw [heq]
    rw [hworld, hworld]
    exact h.world

theorem decode (hR : Blind R) (h : Alike R c d) : Alike R c.decode d.decode := by
  have hfull : (c.queueSpace < c.config.fetchWidth) = (d.queueSpace < d.config.fetchWidth) :=
    congrArg (fun e : Core Unit => e.queueSpace < e.config.fetchWidth) h.core
  obtain ⟨hbucket, hworld⟩ := hR.nextBucket h.world
  simp only [Core.decode, hfull]
  split
  · exact ⟨h.core, h.world⟩
  · generalize FrontEnd.nextBucket c.world = first at *
    generalize FrontEnd.nextBucket d.world = second at *
    obtain ⟨bucket, v⟩ := first
    obtain ⟨bucket', w⟩ := second
    have hnone : Alike R { c with world := v, stats := c.stats.countMissing c.sampling }
        { d with world := w, stats := d.stats.countMissing d.sampling } := ⟨h.core, hworld⟩
    rcases bucket with _ | _ | ⟨op, ops⟩ <;> rcases bucket' with _ | _ | ⟨op', ops'⟩ <;>
      try cases hbucket
    · exact hnone
    · exact hnone
    · have hpush : (c.queue.push (op :: ops)).unsampled =
          (d.queue.push (op' :: ops')).unsampled := by
        rw [← InstructionQueue.push_unsampled, ← InstructionQueue.push_unsampled,
          Option.some.inj hbucket]
        exact congrArg (fun e : Core Unit => e.queue.push _) h.core
      exact (h.withQueue hpush).withWorld hworld

theorem dispatchUpTo (hR : Blind R) (width : Nat) :
    ∀ {c : Core V} {d : Core W}, Alike R c d →
      (c.dispatchUpTo width).1.admitted.map Admission.unsampled =
          (d.dispatchUpTo width).1.admitted.map Admission.unsampled ∧
        Alike R (c.dispatchUpTo width).2 (d.dispatchUpTo width).2 := by
  induction width with
  | zero => exact fun h => ⟨rfl, h⟩
  | succ width ih =>
      intro c d h
      have hnext : c.queue.next?.map (Prod.map MicroOp.unsampled InstructionQueue.unsampled) =
          d.queue.next?.map (Prod.map MicroOp.unsampled InstructionQueue.unsampled) := by
        rw [← InstructionQueue.next?_unsampled, ← InstructionQueue.next?_unsampled]
        exact congrArg (fun e : Core Unit => e.queue.next?) h.core
      rw [Core.dispatchUpTo, Core.dispatchUpTo]
      cases hc : c.queue.next? with
      | none =>
          rw [hc, Option.map_none, eq_comm, Option.map_eq_none_iff] at hnext
          rw [hnext]
          exact ⟨rfl, h⟩
      | some next =>
          rw [hc, Option.map_some, eq_comm, Option.map_eq_some_iff] at hnext
          obtain ⟨⟨op', queue'⟩, hd, hsame⟩ := hnext
          obtain ⟨op, queue⟩ := next
          obtain ⟨hop, hqueue⟩ := Prod.mk.inj hsame
          obtain ⟨hresult, hafter⟩ := h.add hR hop.symm
          rw [hd]
          dsimp only
          generalize c.add op = first at *
          generalize d.add op' = second at *
          obtain ⟨result, c'⟩ := first
          obtain ⟨result', d'⟩ := second
          cases result <;> cases result' <;> try cases hresult
          · exact ⟨rfl, hafter⟩
          · next a a' =>
              obtain ⟨hrest, hlast⟩ := ih (hafter.withQueue hqueue.symm)
              have ha : a.unsampled = a'.unsampled :=
                Except.ok.inj (Reply.admission.inj hresult)
              refine ⟨?_, hlast⟩
              dsimp only
              rw [List.map_cons, List.map_cons, ha, hrest]

theorem dispatch (hR : Blind R) (h : Alike R c d) :
    c.dispatch.1.map Admission.unsampled = d.dispatch.1.map Admission.unsampled ∧
      Alike R c.dispatch.2 d.dispatch.2 := by
  have hcharge : ∀ {c : Core V} {d : Core W} (first second : Dispatched), Alike R c d →
      Alike R (c.chargeUnused first) (d.chargeUnused second) := by
    intro c d first second h
    rw [chargeUnused, chargeUnused]
    split <;> split <;> exact ⟨h.core, h.world⟩
  obtain ⟨hadmitted, hafter⟩ := dispatchUpTo hR d.config.issueWidth h
  rw [Core.dispatch, Core.dispatch, h.config]
  exact ⟨hadmitted, hcharge _ _ hafter⟩

/-! ### Retirement -/

/-- The oldest operation of the reorder buffer may move on in both runs or in neither. -/
theorem mayPromote (hR : Blind R) (h : Alike R c d) (hop : op.unsampled = op'.unsampled) :
    (Cluster.mayPromote c.world op c.recovery.flushing).1 =
        (Cluster.mayPromote d.world op' d.recovery.flushing).1 ∧
      R (Cluster.mayPromote c.world op c.recovery.flushing).2
        (Cluster.mayPromote d.world op' d.recovery.flushing).2 := by
  rw [h.recovery]
  exact hR.mayPromote h.world hop _

theorem mayCommit (hR : Blind R) (h : Alike R c d) (hop : op.unsampled = op'.unsampled) :
    (Cluster.mayCommit c.world op c.recovery.flushing).1 =
        (Cluster.mayCommit d.world op' d.recovery.flushing).1 ∧
      R (Cluster.mayCommit c.world op c.recovery.flushing).2
        (Cluster.mayCommit d.world op' d.recovery.flushing).2 := by
  rw [h.recovery]
  exact hR.mayCommit h.world hop _

theorem promoteUpTo (hR : Blind R) (n : Nat) : ∀ {c : Core V} {d : Core W}, Alike R c d →
    Alike R (c.promoteUpTo n) (d.promoteUpTo n) := by
  induction n with
  | zero => exact fun h => h
  | succ n ih =>
      intro c d h
      have htop : c.rob.top? = d.rob.top? := congrArg (fun e : Core Unit => e.rob.top?) h.core
      have hpop := congrArg (fun e : Core Unit => { e with rob := e.rob.pop }) h.core
      rw [Core.promoteUpTo, Core.promoteUpTo, htop]
      cases d.rob.top? with
      | none => exact h
      | some k =>
          dsimp only
          rcases h.get?_cases k with ⟨hc, hd⟩ | ⟨op, op', hc, hd, hop⟩
          · rw [hc, hd]
            exact ih ⟨hpop, h.world⟩
          · rw [hc, hd]
            have hgrant := h.mayPromote hR hop
            dsimp only
            generalize Cluster.mayPromote c.world op c.recovery.flushing = first at *
            generalize Cluster.mayPromote d.world op' d.recovery.flushing = second at *
            obtain ⟨granted, v⟩ := first
            obtain ⟨granted', w⟩ := second
            obtain ⟨hgranted, hworld⟩ := hgrant
            obtain rfl : granted = granted' := hgranted
            cases granted with
            | false => exact h.withWorld hworld
            | true =>
                exact ih ⟨congrArg (fun e : Core Unit =>
                  { e with rob := e.rob.pop, retiring := e.retiring.push k }) h.core, hworld⟩

theorem promote (hR : Blind R) (h : Alike R c d) : Alike R c.promote d.promote := by
  have hsize : c.rob.size = d.rob.size := congrArg (fun e : Core Unit => e.rob.size) h.core
  have hpromoted := promoteUpTo hR d.rob.size h
  rw [Core.promote, Core.promote, hsize]
  exact ⟨hpromoted.core, hpromoted.world⟩

theorem settle (hR : Blind R) (h : Alike R c d) (k : Handle) (hop : op.unsampled = op'.unsampled) :
    Alike R (c.settle k op) (d.settle k op') := by
  have hperformed : op.performed = op'.performed := (congrArg MicroOp.performed hop :)
  rw [Core.settle, Core.settle]
  by_cases hdone : op.performed = true
  · rw [if_pos hdone, if_pos (hperformed ▸ hdone)]
    exact (h.withPool (h.erase_eq k)).withWorld (hR.release h.world
      (congrArg (fun o : MicroOp => { o with holdsRegister := false }) hop))
  · have hhart : op'.hart = op.hart := (congrArg MicroOp.hart hop.symm :)
    rw [if_neg hdone, if_neg (hperformed ▸ hdone), hhart]
    exact (h.withPool (h.modify_eq k
      (g := fun o => { o with holdsRegister := false, stage := .retired })
      (fun _ => rfl) fun _ => rfl)).withWorld (hR.reexecute h.world _)

theorem commit (hR : Blind R) (h : Alike R c d) (k : Handle) (hop : op.unsampled = op'.unsampled) :
    Alike R (c.commit k op) (d.commit k op') := by
  have hboth : (c.unsampled, op.unsampled) = (d.unsampled, op'.unsampled) := by rw [h.core, hop]
  rw [Core.commit, Core.commit]
  refine settle hR ?_ k hop
  exact ⟨congrArg (fun x : Core Unit × MicroOp => { x.1 with
    retiring := x.1.retiring.pop
    recovery := x.1.recoveryCommitting x.2
    lock.commits := x.1.lock.commits + 1
    freeRegs := if x.2.holdsRegister then x.1.freeRegs + 1 else x.1.freeRegs
    aliases := x.1.aliases.release x.2.inst.dsts k
    serializer := x.1.serializer.release k x.2.window }) hboth, h.world⟩

theorem commitUpTo (hR : Blind R) (n : Nat) : ∀ {c : Core V} {d : Core W}, Alike R c d →
    (c.commitUpTo n).1.map NamedOp.unsampled = (d.commitUpTo n).1.map NamedOp.unsampled ∧
      Alike R (c.commitUpTo n).2 (d.commitUpTo n).2 := by
  induction n with
  | zero => exact fun h => ⟨rfl, h⟩
  | succ n ih =>
      intro c d h
      have htop : c.retiring.top? = d.retiring.top? :=
        congrArg (fun e : Core Unit => e.retiring.top?) h.core
      have hpop := congrArg (fun e : Core Unit => { e with retiring := e.retiring.pop }) h.core
      rw [Core.commitUpTo, Core.commitUpTo, htop]
      cases d.retiring.top? with
      | none => exact ⟨rfl, h⟩
      | some k =>
          dsimp only
          rcases h.get?_cases k with ⟨hc, hd⟩ | ⟨op, op', hc, hd, hop⟩
          · rw [hc, hd]
            exact ih ⟨hpop, h.world⟩
          · rw [hc, hd]
            have hearly : (c.clock ≤ op.executedAt + c.config.retireDelay) =
                (d.clock ≤ op'.executedAt + d.config.retireDelay) := by
              show (c.unsampled.clock ≤ op.unsampled.executedAt + c.unsampled.config.retireDelay) =
                (d.unsampled.clock ≤ op'.unsampled.executedAt + d.unsampled.config.retireDelay)
              rw [h.core, hop]
            have hgrant := h.mayCommit hR hop
            simp only [hearly]
            split
            · exact ⟨rfl, h⟩
            · generalize Cluster.mayCommit c.world op c.recovery.flushing = first at *
              generalize Cluster.mayCommit d.world op' d.recovery.flushing = second at *
              obtain ⟨granted, v⟩ := first
              obtain ⟨granted', w⟩ := second
              obtain ⟨hgranted, hworld⟩ := hgrant
              obtain rfl : granted = granted' := hgranted
              cases granted with
              | false => exact ⟨rfl, h.withWorld hworld⟩
              | true =>
                  obtain ⟨hrest, hlast⟩ := ih ((h.withWorld hworld).commit hR k hop)
                  refine ⟨?_, hlast⟩
                  dsimp only
                  rw [List.map_cons, List.map_cons, hrest, NamedOp.unsampled,
                    NamedOp.unsampled, hop]

theorem retire (hR : Blind R) (h : Alike R c d) :
    c.retire.1.map NamedOp.unsampled = d.retire.1.map NamedOp.unsampled ∧
      Alike R c.retire.2 d.retire.2 := by
  rw [Core.retire, Core.retire, h.config]
  exact commitUpTo hR _ (h.promote hR)

/-! ### Cycles and runs -/

theorem drainCycle (hR : Blind R) (h : Alike R c d) :
    c.drainCycle.1.unsampled = d.drainCycle.1.unsampled ∧
      Alike R c.drainCycle.2 d.drainCycle.2 := by
  have hcharged : ∀ s t : Counters, Alike R { c with stats := s } { d with stats := t } :=
    fun _ _ => ⟨h.core, h.world⟩
  obtain ⟨hcommitted, hafter⟩ := (hcharged
    (c.stats.chargeStall .replays c.config.realisticWidth c.sampling)
    (d.stats.chargeStall .replays d.config.realisticWidth d.sampling)).retire hR
  refine ⟨?_, hafter⟩
  exact congrArg (CycleReport.mk true false []) hcommitted

theorem workCycle (hR : Blind R) (h : Alike R c d) :
    c.workCycle.1.unsampled = d.workCycle.1.unsampled ∧
      Alike R c.workCycle.2 d.workCycle.2 := by
  have hempty : c.queue.isEmpty = d.queue.isEmpty := by
    have hbuckets : c.queue.unsampled.isEmpty = d.queue.unsampled.isEmpty :=
      congrArg (fun e : Core Unit => e.queue.isEmpty) h.core
    simpa [InstructionQueue.isEmpty, InstructionQueue.unsampled] using hbuckets
  rw [Core.workCycle, Core.workCycle, hempty, h.isDrained]
  split
  · obtain ⟨hadmitted, hdispatched⟩ := h.dispatch hR
    obtain ⟨hcommitted, hafter⟩ := hdispatched.retire hR
    refine ⟨?_, hafter⟩
    rw [CycleReport.unsampled, CycleReport.unsampled, hadmitted, hcommitted]
  · split
    · rw [FrontEnd.askOutstanding, FrontEnd.askOutstanding, hR.hasOutstanding h.world]
      exact ⟨rfl, congrArg (fun e : Core Unit =>
        { e with busy := FrontEnd.hasOutstanding d.world }) h.core, hR.noticed h.world _⟩
    · obtain ⟨hcommitted, hafter⟩ := h.retire hR
      exact ⟨congrArg (CycleReport.mk true false []) hcommitted, hafter⟩

theorem busyCycle (hR : Blind R) (h : Alike R c d) :
    c.busyCycle.1.unsampled = d.busyCycle.1.unsampled ∧
      Alike R c.busyCycle.2 d.busyCycle.2 := by
  have hdecoded := h.decode hR
  rw [Core.busyCycle, Core.busyCycle]
  dsimp only
  rw [hdecoded.recovery, hdecoded.isDrained]
  split
  · exact hdecoded.workCycle hR
  · split
    · obtain ⟨hreport, hafter⟩ := (hdecoded.finishRecovery hR).workCycle hR
      exact ⟨congrArg (fun r : CycleReport => { r with recovered := true }) hreport, hafter⟩
    · exact hdecoded.drainCycle hR

theorem advance (hR : Blind R) (h : Alike R c d) :
    c.advance.1.unsampled = d.advance.1.unsampled ∧ Alike R c.advance.2 d.advance.2 := by
  have hactive : c.active = d.active := congrArg Core.active h.core
  have hticked := (h.fetch hR).tick
  have hbusy : c.fetch.tick.busy = d.fetch.tick.busy := congrArg Core.busy hticked.core
  rw [Core.advance, Core.advance, hactive]
  split
  · exact ⟨rfl, h⟩
  · dsimp only
    rw [hbusy]
    split
    · exact hticked.busyCycle hR
    · exact ⟨rfl, hticked⟩

theorem perform (hR : Blind R) (h : Alike R c d) {command command' : Command}
    (hcommand : command.unsampled = command'.unsampled) :
    (c.perform command).1.unsampled = (d.perform command').1.unsampled ∧
      Alike R (c.perform command).2 (d.perform command').2 := by
  have hcases : command = command' ∨ ∃ op op', command = .add op ∧ command' = .add op' ∧
      op.unsampled = op'.unsampled := by
    cases command <;> cases command' <;> try cases hcommand
    case add.add op op' => exact .inr ⟨op, op', rfl, rfl, Command.add.inj hcommand⟩
    all_goals exact .inl rfl
  rcases hcases with rfl | ⟨op, op', rfl, rfl, hop⟩
  · cases command with
    | activate =>
        exact ⟨rfl, congrArg (fun e : Core Unit => { e with active := true }) h.core, h.world⟩
    | deactivate =>
        exact ⟨rfl, congrArg (fun e : Core Unit => { e with active := false }) h.core, h.world⟩
    | advance =>
        obtain ⟨hreport, hafter⟩ := h.advance hR
        exact ⟨congrArg Reply.cycle hreport, hafter⟩
    | add op => exact h.add hR rfl
    | issued k => exact ⟨rfl, h.issued k⟩
    | executing k => exact ⟨rfl, h.executing k⟩
    | executed k => exact ⟨rfl, h.executed k⟩
    | performed k => exact ⟨rfl, h.performed hR k⟩
    | replay k => exact ⟨rfl, h.replay hR k⟩
    | arm budget =>
        exact ⟨rfl, congrArg (fun e : Core Unit =>
          { e with serializer := e.serializer.arm budget }) h.core, h.world⟩
  · exact h.add hR hop

theorem run (hR : Blind R) {commands : List Command} : ∀ {commands' : List Command} {c : Core V}
    {d : Core W}, Alike R c d →
    commands.map Command.unsampled = commands'.map Command.unsampled →
    (c.run commands).1.map Reply.unsampled = (d.run commands').1.map Reply.unsampled ∧
      Alike R (c.run commands).2 (d.run commands').2 := by
  induction commands with
  | nil =>
      intro commands' c d h hcommands
      obtain rfl : commands' = [] := List.map_eq_nil_iff.1 hcommands.symm
      exact ⟨rfl, h⟩
  | cons command rest ih =>
      intro commands' c d h hcommands
      obtain ⟨command', rest', rfl, hcommand, hrest⟩ := List.map_eq_cons_iff.1 hcommands.symm
      obtain ⟨hreply, hafter⟩ := h.perform hR hcommand.symm
      obtain ⟨hreplies, hlast⟩ := ih hafter hrest.symm
      refine ⟨?_, hlast⟩
      rw [Core.run, Core.run, List.map_cons, List.map_cons, hreply, hreplies]

end Alike

end OutOfOrder.Core
