import OutOfOrder.Proofs.Core.Barrier
import OutOfOrder.Proofs.Core.PutBack
import OutOfOrder.Proofs.Core.Width
import OutOfOrder.Surroundings.Crowded

/-!
# A refusal leaves no trace

An operation that is refused comes back with the cause, and the core is as it was: its own
reasons are looked at before anything is changed, and the cluster is asked last. Whether the
cluster remembers that it was asked is up to the cluster. `RefusesInPlace` is the demand that
it does not.

The two places where operations are offered are then as if nobody had asked. Offers from
outside that are refused can be left out of a run or put into it, and nobody else is told
anything else. In a cycle the first refusal ends the dispatch, with the operation still at
the front of the queue: what is left of the cycle is what would be left if the issue width
had ended there, but for the slots that are charged to the cause. That the width is not
looked at anywhere else, nor the charges, is what `Core.recast` is for.
-/

namespace OutOfOrder

/-- A cluster that refuses an operation stays as it is. -/
def RefusesInPlace (W : Type) [Cluster W] : Prop :=
  ∀ (w : W) (op : MicroOp) (cause : StallCause) (w' : W),
    Cluster.hazard? w op = (some cause, w') → w' = w

namespace Core

variable {W : Type} [Surroundings W]

/-! ## One offer -/

omit [Surroundings W] in
/-- The reasons of the core to refuse an operation, in order, and whether they apply. -/
def reasons (c : Core W) (op : MicroOp) : List (Bool × StallCause) :=
  [ (c.recovery.recovering && c.recovery.replayPoint < op.id, .replays)
  , (c.config.maxRobSize - 1 ≤ c.occupancy, .smallRob)
  , (c.freeRegs ≤ 0, .smallReg) ]

/-- The cause of a refusal: the first of the core's reasons that applies, or else what the
cluster says. -/
def firstCause? (c : Core W) (op : MicroOp) : Option StallCause :=
  (((c.reasons op).find? Prod.fst).map Prod.snd).or (Cluster.hazard? c.world op).1

omit [Surroundings W] in
theorem refusal?_eq_find? (c : Core W) (op : MicroOp) :
    c.refusal? op = ((c.reasons op).find? Prod.fst).map Prod.snd := by
  unfold refusal? reasons
  split
  · next hreplay => simp only [List.find?_cons, hreplay, Option.map_some]
  · next hreplay =>
      rw [Bool.not_eq_true] at hreplay
      split
      · next hfull =>
          simp only [List.find?_cons, hreplay, hfull, decide_true, Option.map_some]
      · next hroom =>
          split
          · next hnone =>
              simp only [List.find?_cons, hreplay, hroom, hnone, decide_true, decide_false,
                Option.map_some]
          · next hregs =>
              simp only [List.find?_cons, List.find?_nil, hreplay, hroom, hregs, decide_false,
                Option.map_none]

variable (hplace : RefusesInPlace W)
include hplace

/-- An operation for which there is a cause comes back as it was, with the first, and the
core stays as it is; any other is admitted. -/
theorem add_eq (c : Core W) (op : MicroOp) :
    match c.firstCause? op with
    | some cause => c.add op = (.error ⟨cause, op⟩, c)
    | none => ∃ admission d, c.add op = (.ok admission, d) := by
  unfold firstCause?
  rw [← refusal?_eq_find?]
  rcases add_cases c op with ⟨cause, hrefused, hadd⟩ | ⟨cause, world, hroom, hanswer, hadd⟩ |
    ⟨world, hroom, hanswer, hadd⟩
  · rw [hrefused]
    exact hadd
  · obtain rfl := hplace _ _ _ _ hanswer
    rw [hroom, hanswer]
    exact hadd
  · rw [hroom, hanswer]
    exact ⟨_, _, hadd⟩

theorem add_of_firstCause? {c : Core W} {op : MicroOp} {cause : StallCause}
    (hcause : c.firstCause? op = some cause) : c.add op = (.error ⟨cause, op⟩, c) := by
  have hadd := add_eq hplace c op
  rwa [hcause] at hadd

theorem snd_add_of_refused {c : Core W} {op : MicroOp} {stall : Stall}
    (hrefused : (c.add op).1 = .error stall) : (c.add op).2 = c := by
  have hadd := add_eq hplace c op
  split at hadd
  · rw [hadd]
  · obtain ⟨admission, d, hadd⟩ := hadd
    rw [hadd] at hrefused
    cases hrefused

/-! ## The offers of a cycle -/

/-- A dispatch that a refusal ends has done what one does whose width ends there. -/
theorem dispatchUpTo_of_refused {width : Nat} {c : Core W} {stall : Stall}
    (hrefused : (dispatchUpTo width c).1.refused = some stall) :
    dispatchUpTo (dispatchUpTo width c).1.admitted.length c =
      ({ admitted := (dispatchUpTo width c).1.admitted }, (dispatchUpTo width c).2) := by
  induction width generalizing c with
  | zero => cases hrefused
  | succ width ih =>
      rw [dispatchUpTo] at hrefused ⊢
      cases hnext : c.queue.next? with
      | none =>
          rw [hnext] at hrefused
          cases hrefused
      | some next =>
          obtain ⟨op, queue⟩ := next
          simp only [hnext] at hrefused ⊢
          cases hadd : c.add op with
          | mk result d =>
              simp only [hadd] at hrefused ⊢
              cases result with
              | error stall' =>
                  have hsame := snd_add_of_refused hplace (congrArg Prod.fst hadd)
                  rw [hadd] at hsame
                  rw [hsame]
                  rfl
              | ok admission =>
                  have hrest := ih (c := { d with queue }) hrefused
                  dsimp only
                  rw [List.length_cons, dispatchUpTo, hnext]
                  dsimp only
                  rw [hadd]
                  dsimp only
                  rw [hrest]

omit hplace

/-- The core as the dispatch of the next cycle finds it. -/
def dispatching (c : Core W) : Core W :=
  let d := c.fetch.tick.decode
  if d.recovery.recovering then d.finishRecovery else d

/-- The next cycle dispatches, and a refusal ends the dispatch after `n` admissions. -/
structure StopsAt (c : Core W) (n : Nat) (stall : Stall) : Prop where
  active : c.active = true
  busy : c.fetch.tick.busy = true
  /-- A core that has something to drain does not dispatch. -/
  drained : c.recovery.recovering = true → c.isDrained = true
  refused : (dispatchUpTo c.config.issueWidth c.dispatching).1.refused = some stall
  admitted : (dispatchUpTo c.config.issueWidth c.dispatching).1.admitted.length = n

theorem dispatching_recast (c : Core W) (width : Nat) (stalls : Vector Nat 8) :
    (c.recast width stalls).dispatching = c.dispatching.recast width stalls := by
  unfold dispatching
  rw [fetch_recast, tick_recast, decode_recast]
  dsimp only
  show (if c.fetch.tick.decode.recovery.recovering then _ else _) = _
  split <;> rfl

/-- A cycle that dispatches does so after fetch, tick and decode, and after ending a recovery
if there is one to end. -/
theorem advance_eq_workCycle {c : Core W} (hactive : c.active = true)
    (hbusy : c.fetch.tick.busy = true)
    (hdrained : c.recovery.recovering = true → c.isDrained = true) :
    c.advance = ({ c.dispatching.workCycle.1 with recovered := c.recovery.recovering },
      c.dispatching.workCycle.2) := by
  have hrecovery := (fetch_tick_decode c).1
  have hsame : c.fetch.tick.decode.isDrained = c.isDrained := by
    rw [(sameOps_decode _).isDrained, (sameOps_tick _).isDrained, (sameOps_fetch c).isDrained]
  unfold advance busyCycle dispatching
  dsimp only
  rw [hactive, hbusy, hrecovery, hsame]
  cases hrecovering : c.recovery.recovering with
  | false =>
      exact Prod.ext (congrArg
        (fun recovered => { c.fetch.tick.decode.workCycle.1 with recovered })
        (recovered_workCycle c.fetch.tick.decode)) rfl
  | true =>
      rw [hdrained hrecovering]
      rfl

theorem config_dispatching (c : Core W) : c.dispatching.config = c.config := by
  have hbefore := (fetch_tick_decode c).2.2
  unfold dispatching
  dsimp only
  split <;> exact hbefore

/-- What does the same whatever the lost slots are leaves them as they are. -/
theorem stalls_dispatching (c : Core W) : c.dispatching.stats.stalls = c.stats.stalls := by
  have hself := dispatching_recast c c.config.issueWidth c.stats.stalls
  rw [recast_self] at hself
  rw [hself]
  rfl

theorem stalls_dispatchUpTo (n : Nat) (c : Core W) :
    (dispatchUpTo n c).2.stats.stalls = c.stats.stalls := by
  have hself := dispatchUpTo_recast c c.config.issueWidth c.stats.stalls n
  rw [recast_self] at hself
  rw [congrArg Prod.snd hself]
  rfl

omit [Surroundings W] in
theorem chargeUnused_of_refused (c : Core W) (admitted : List Admission) (stall : Stall) :
    c.chargeUnused { admitted, refused := some stall } = c.recast c.config.issueWidth
      (c.stats.chargeStall stall.cause (c.config.realisticWidth - admitted.length)
        stall.op.sampled).stalls :=
  congrArg (fun stats => { c with stats }) (Counters.chargeStall_eq_recast _ _ _ _)

omit [Surroundings W] in
/-- To charge a core in which the lost slots of `s` stand is to put the charged ones there. -/
theorem recast_charged (c : Core W) (n : Nat) (s : Counters) (cause : StallCause) (slots : Nat)
    (enabled : Bool) :
    c.recast c.config.issueWidth (s.chargeStall cause slots enabled).stalls =
      { c.recast n s.stalls with
        config := c.config
        stats := (c.recast n s.stalls).stats.chargeStall cause slots enabled } := by
  have hcharged : ((c.stats.recast s.stalls).chargeStall cause slots enabled).stalls =
      (s.chargeStall cause slots enabled).stalls :=
    Counters.stalls_chargeStall_congr (s := c.stats.recast s.stalls) (t := s) rfl _ _ _
  have hstats := (c.stats.recast s.stalls).chargeStall_eq_recast enabled cause slots
  rw [hcharged] at hstats
  exact congrArg (fun stats => { c with stats }) hstats.symm

/-- After a dispatch there is nothing left for a cycle to do but to retire. -/
theorem advance_of_dispatch {c d : Core W} {admitted : List Admission} (hactive : c.active = true)
    (hbusy : c.fetch.tick.busy = true)
    (hdrained : c.recovery.recovering = true → c.isDrained = true)
    (hqueue : c.dispatching.queue.isEmpty = false)
    (hdispatch : c.dispatching.dispatch = (admitted, d)) :
    c.advance = ({
      running := true
      recovered := c.recovery.recovering
      admitted
      committed := d.retire.1 }, d.retire.2) := by
  rw [advance_eq_workCycle hactive hbusy hdrained, workCycle, hqueue, hdispatch]
  rfl

/-- Nothing is refused if nothing waits. -/
theorem queue_of_refused {width : Nat} {c : Core W} {stall : Stall}
    (hrefused : (dispatchUpTo width c).1.refused = some stall) : c.queue.isEmpty = false := by
  refine Bool.eq_false_iff.2 fun hempty => ?_
  have hnext : c.queue.next? = none := by
    rw [InstructionQueue.isEmpty, List.isEmpty_iff] at hempty
    rw [InstructionQueue.next?, hempty]
    rfl
  cases width with
  | zero => cases hrefused
  | succ width =>
      rw [dispatchUpTo, hnext] at hrefused
      cases hrefused

include hplace

/-- The dispatch of a cycle and the one that had no more slots than the first has admissions
end in the same core, but for the charge. -/
theorem dispatch_of_refused {c : Core W} {n : Nat} {stall : Stall}
    (hrefused : (dispatchUpTo c.config.issueWidth c).1.refused = some stall)
    (hadmitted : (dispatchUpTo c.config.issueWidth c).1.admitted.length = n) :
    ∃ (admitted : List Admission) (d : Core W),
      d.config = c.config ∧ d.stats.stalls = c.stats.stalls ∧
      c.dispatch = (admitted, d.recast c.config.issueWidth
        (d.stats.chargeStall stall.cause (c.config.realisticWidth - n) stall.op.sampled).stalls) ∧
      (c.recast n c.stats.stalls).dispatch = (admitted, d.recast n c.stats.stalls) := by
  have hstops := dispatchUpTo_of_refused hplace hrefused
  have hconfig : (dispatchUpTo c.config.issueWidth c).2.config = c.config :=
    config_steps (steps_dispatchUpTo _ _)
  have hstalls := stalls_dispatchUpTo c.config.issueWidth c
  rw [hadmitted] at hstops
  generalize hd : dispatchUpTo c.config.issueWidth c = result
    at hrefused hadmitted hstops hconfig hstalls
  obtain ⟨⟨admitted, refused⟩, d⟩ := result
  obtain rfl : refused = some stall := hrefused
  have hnarrow := dispatchUpTo_recast c n c.stats.stalls n
  rw [hstops] at hnarrow
  refine ⟨admitted, d, hconfig, hstalls, ?_, ?_⟩
  · rw [dispatch, hd]
    dsimp only
    rw [chargeUnused_of_refused, hconfig, hadmitted]
  · have hwidth : (c.recast n c.stats.stalls).config.issueWidth = n := rfl
    rw [dispatch, hwidth, hnarrow]
    rfl

/-- A cycle whose dispatch a refusal ends after `n` admissions is one of width `n`, in what it
reports and in what it leaves behind, but for the slots charged to the cause. -/
theorem advance_of_stopsAt {c : Core W} {n : Nat} {stall : Stall} (h : c.StopsAt n stall) :
    let narrow := { c with config.issueWidth := n }
    c.advance.1 = narrow.advance.1 ∧ c.advance.2 = { narrow.advance.2 with
      config := c.config
      stats := narrow.advance.2.stats.chargeStall stall.cause (c.config.realisticWidth - n)
        stall.op.sampled } := by
  obtain ⟨hactive, hbusy, hdrained, hrefused, hadmitted⟩ := h
  have hbefore := config_dispatching c
  have hqueue := queue_of_refused hrefused
  rw [← hbefore] at hrefused hadmitted
  obtain ⟨_, d, hconfig, hstalls, hwide, hnarrow⟩ := dispatch_of_refused hplace hrefused hadmitted
  rw [hbefore] at hconfig hwide
  rw [stalls_dispatching] at hstalls hnarrow
  intro narrow
  have hrecast : narrow.dispatching = c.dispatching.recast n c.stats.stalls :=
    dispatching_recast c n c.stats.stalls
  have hbusy' : narrow.fetch.tick.busy = true := by
    show (c.recast n c.stats.stalls).fetch.tick.busy = true
    rw [fetch_recast, tick_recast]
    exact hbusy
  have hqueue' : narrow.dispatching.queue.isEmpty = false := by
    rw [hrecast]
    exact hqueue
  rw [← hrecast] at hnarrow
  have hfirst := advance_of_dispatch hactive hbusy hdrained hqueue hwide
  have hsecond := advance_of_dispatch (c := narrow) hactive hbusy' hdrained hqueue' hnarrow
  rw [retire_recast] at hfirst hsecond
  have hend : d.retire.2.config = c.config := (config_steps (steps_retire d)).trans hconfig
  rw [hfirst, hsecond, ← hstalls, ← hend]
  exact ⟨rfl, recast_charged d.retire.2 n d.stats stall.cause _ stall.op.sampled⟩

/-! ## Runs -/

omit hplace

/-- The commands of a run with the replies to them. -/
def transcript (c : Core W) (commands : List Command) : List (Command × Reply) :=
  commands.zip (c.run commands).1

theorem transcript_cons (c : Core W) (command : Command) (rest : List Command) :
    c.transcript (command :: rest) =
      (command, (c.perform command).1) :: (c.perform command).2.transcript rest := rfl

/-- The second list of commands is the first with offers put in that are refused where they
stand. -/
inductive WithRefused : Core W → List Command → List Command → Prop
  | nil (c : Core W) : WithRefused c [] []
  | keep {c : Core W} (command : Command) {fewer more : List Command}
      (h : WithRefused (c.perform command).2 fewer more) :
      WithRefused c (command :: fewer) (command :: more)
  | insert {c : Core W} {op : MicroOp} {stall : Stall} {fewer more : List Command}
      (hrefused : (c.add op).1 = .error stall) (h : WithRefused c fewer more) :
      WithRefused c fewer (.add op :: more)

end Core

/-- The second transcript is the first without some of the offers that were refused. -/
inductive ErasesRefusals : List (Command × Reply) → List (Command × Reply) → Prop
  | nil : ErasesRefusals [] []
  | keep (entry : Command × Reply) {transcript kept : List (Command × Reply)}
      (h : ErasesRefusals transcript kept) : ErasesRefusals (entry :: transcript) (entry :: kept)
  | erase (op : MicroOp) (stall : Stall) {transcript kept : List (Command × Reply)}
      (h : ErasesRefusals transcript kept) :
      ErasesRefusals ((.add op, .admission (.error stall)) :: transcript) kept

namespace Core

variable {W : Type} [Surroundings W]

/-- Without offers that were refused a run is the same. -/
theorem run_of_erasesRefusals (hplace : RefusesInPlace W) {commands : List Command} {c : Core W}
    {kept : List (Command × Reply)} (h : ErasesRefusals (c.transcript commands) kept) :
    c.transcript (kept.map Prod.fst) = kept ∧
      (c.run (kept.map Prod.fst)).2 = (c.run commands).2 := by
  induction commands generalizing c kept with
  | nil =>
      cases h
      exact ⟨rfl, rfl⟩
  | cons command rest ih =>
      rw [transcript_cons] at h
      generalize hentry : (command, (c.perform command).1) = entry at h
      cases h with
      | keep entry hrest =>
          obtain ⟨hreplies, hstate⟩ := ih hrest
          subst hentry
          refine ⟨?_, hstate⟩
          rw [List.map_cons, transcript_cons, hreplies]
      | erase op stall hrest =>
          obtain ⟨rfl, hreply⟩ := Prod.mk.inj hentry
          have hrefused : (c.add op).1 = .error stall := Reply.admission.inj hreply
          have hsame : (c.perform (.add op)).2 = c := snd_add_of_refused hplace hrefused
          rw [hsame] at hrest
          obtain ⟨hreplies, hstate⟩ := ih hrest
          refine ⟨hreplies, hstate.trans ?_⟩
          rw [snd_run_cons, hsame]

/-- With offers that are refused a run is the same. -/
theorem run_of_withRefused (hplace : RefusesInPlace W) {c : Core W} {fewer more : List Command}
    (h : c.WithRefused fewer more) :
    ErasesRefusals (c.transcript more) (c.transcript fewer) ∧
      (c.run more).2 = (c.run fewer).2 := by
  induction h with
  | nil c => exact ⟨.nil, rfl⟩
  | keep command _ ih => exact ⟨.keep _ ih.1, ih.2⟩
  | @insert c op stall fewer more hrefused _ ih =>
      have hsame : (c.perform (.add op)).2 = c := snd_add_of_refused hplace hrefused
      have hreply : (c.perform (.add op)).1 = .admission (.error stall) :=
        congrArg Reply.admission hrefused
      rw [transcript_cons, snd_run_cons, hsame, hreply]
      exact ⟨.erase op stall ih.1, ih.2⟩

/-- What a dispatch finds in the queue has no empty bucket. -/
theorem Reachable.wellFormed_dispatching {c : Core W} (hc : c.Reachable) :
    c.dispatching.queue.WellFormed := by
  have hq := wellFormed_queue_steps (steps_fetch_tick_decode c) hc.wellFormed_queue
  unfold dispatching
  dsimp only
  split <;> exact hq

/-- **A refusal leaves no trace**, if the cluster remembers none.

What is offered comes back as it was, with the first cause there is, and the core is as it
was; it is admitted if there is no cause. A dispatch does not need to take out what it offers,
and one that a refusal ends after `n` admissions makes the cycle one of width `n`, but for the
slots charged to the cause. And a run is the same, in all its other replies and in where it
ends, if offers are left out that were refused, or put in that are. -/
theorem refusals_leave_no_trace (hplace : RefusesInPlace W) {c : Core W} (hc : c.Reachable) :
    (∀ op, match c.firstCause? op with
      | some cause => c.add op = (.error ⟨cause, op⟩, c)
      | none => ∃ admission d, c.add op = (.ok admission, d)) ∧
    (∀ width, takeUpTo width c.dispatching = dispatchUpTo width c.dispatching) ∧
    (∀ n stall, c.StopsAt n stall →
      let narrow := { c with config.issueWidth := n }
      c.advance.1 = narrow.advance.1 ∧ c.advance.2 = { narrow.advance.2 with
        config := c.config
        stats := narrow.advance.2.stats.chargeStall stall.cause (c.config.realisticWidth - n)
          stall.op.sampled }) ∧
    (∀ commands kept, ErasesRefusals (c.transcript commands) kept →
      c.transcript (kept.map Prod.fst) = kept ∧
        (c.run (kept.map Prod.fst)).2 = (c.run commands).2) ∧
    ∀ fewer more, c.WithRefused fewer more →
      ErasesRefusals (c.transcript more) (c.transcript fewer) ∧
        (c.run more).2 = (c.run fewer).2 :=
  ⟨add_eq hplace c, fun _ => takeUpTo_eq hc.wellFormed_dispatching,
    fun _ _ h => advance_of_stopsAt hplace h, fun _ _ h => run_of_erasesRefusals hplace h,
    fun _ _ h => run_of_withRefused hplace h⟩

/-- The window of the cluster has room for two of three loads. The dispatch that comes to the
third stops there, and whoever offers a load afterwards might as well not have. -/
theorem third_load_refused_without_trace :
    let load : Nat → MicroOp := fun id => { id, pc := 0, inst := { opcode := .load } }
    let world : Crowded := { buckets := [[load 1, load 2, load 3]], room := 2 }
    let start : Core Crowded := (initial {} 0 world).activate
    let fewer : List Command := [.advance, .executed ⟨0, 1⟩, .advance]
    let more : List Command :=
      [.advance, .add (load 4), .executed ⟨0, 1⟩, .add (load 5), .add (load 4), .advance]
    RefusesInPlace Crowded ∧ start.Reachable ∧
      start.StopsAt 2 ⟨.smallWindow, load 3⟩ ∧
      start.advance.1 = { start with config.issueWidth := 2 }.advance.1 ∧
      start.WithRefused fewer more ∧
      ErasesRefusals (start.transcript more) (start.transcript fewer) ∧
      (start.run more).2 = (start.run fewer).2 ∧
      start.transcript ((start.transcript fewer).map Prod.fst) = start.transcript fewer := by
  intro load world start fewer more
  have hplace : RefusesInPlace Crowded := fun w op cause w' h => (Prod.mk.inj h).2.symm
  have hreachable : start.Reachable := ⟨{}, 0, initial {} 0 world, [.activate], world, rfl, rfl⟩
  have hstops : start.StopsAt 2 ⟨.smallWindow, load 3⟩ := {
    active := rfl
    busy := by decide +kernel
    drained := by decide +kernel
    refused := by decide +kernel
    admitted := by decide +kernel }
  have hrefused : ∀ {c : Core Crowded} {op : MicroOp}, c.firstCause? op = some .smallWindow →
      (c.add op).1 = .error ⟨.smallWindow, op⟩ := fun hcause =>
    congrArg Prod.fst (add_of_firstCause? hplace hcause)
  have hwith : start.WithRefused fewer more :=
    .keep _ (.insert (hrefused (by decide +kernel)) (.keep _
      (.insert (hrefused (by decide +kernel)) (.insert (hrefused (by decide +kernel))
        (.keep _ (.nil _))))))
  obtain ⟨-, -, hcycle, hleft, hput⟩ := refusals_leave_no_trace hplace hreachable
  obtain ⟨herases, hsame⟩ := hput fewer more hwith
  exact ⟨hplace, hreachable, hstops, (hcycle 2 _ hstops).1, hwith, herases, hsame,
    (hleft more _ herases).1⟩

end Core

end OutOfOrder
