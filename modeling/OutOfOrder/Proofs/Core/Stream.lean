import OutOfOrder.Proofs.Core.Calls
import OutOfOrder.Proofs.Core.Turnover
import OutOfOrder.Surroundings.Obliging

/-!
# The instruction stream survives the queue

Operations come in bucket by bucket and are dispatched one by one, and between
the two they wait in the instruction queue. Dispatch may stop at any place of
any bucket, a recovery decodes without dispatching, and operations may be
admitted from outside in between, past the queue. None of it loses, repeats or
reorders an operation: what was dispatched, then what waits, is what came in.

Only two things touch the queue. Decoding puts a bucket behind the others, and
dispatch takes the operation in front, which it does in the same step in which
it admits it. So there is no moment at which an operation that is refused would
be out of the queue, and everything else is a step that leaves the queue alone.
-/

namespace OutOfOrder

/-- The operations that a cycle took from the instruction queue. -/
def Reply.dispatched : Reply → List Admission
  | .cycle report => report.admitted
  | _ => []

namespace Event

@[simp]
theorem admissions_map_admitted (as : List Admission) : admissions (as.map .admitted) = as := by
  rw [admissions, List.filterMap_map]
  exact List.filterMap_some

@[simp]
theorem admissions_map_committed (ns : List NamedOp) : admissions (ns.map .committed) = [] := by
  rw [admissions, List.filterMap_map, List.filterMap_eq_nil_iff]
  exact fun _ _ => rfl

@[simp]
theorem commits_map_admitted (as : List Admission) : commits (as.map .admitted) = [] := by
  rw [commits, List.filterMap_map, List.filterMap_eq_nil_iff]
  exact fun _ _ => rfl

@[simp]
theorem commits_map_committed (ns : List NamedOp) : commits (ns.map .committed) = ns := by
  rw [commits, List.filterMap_map]
  exact List.filterMap_some

end Event

namespace InstructionQueue

theorem toList_foldl_push (buckets : List (List MicroOp)) (q : InstructionQueue) :
    (buckets.foldl push q).toList = q.toList ++ buckets.flatten := by
  induction buckets generalizing q with
  | nil => rw [List.foldl_nil, List.flatten_nil, List.append_nil]
  | cons bucket buckets ih =>
      rw [List.foldl_cons, ih, toList_push, List.flatten_cons, List.append_assoc]

theorem WellFormed.foldl_push {buckets : List (List MicroOp)} {q : InstructionQueue}
    (hq : q.WellFormed) (hbuckets : ∀ bucket ∈ buckets, bucket ≠ []) :
    (buckets.foldl InstructionQueue.push q).WellFormed := by
  induction buckets generalizing q with
  | nil => exact hq
  | cons bucket buckets ih =>
      obtain ⟨hbucket, hbuckets⟩ := List.forall_mem_cons.1 hbuckets
      exact ih (hq.push hbucket) hbuckets

end InstructionQueue

/-- Buckets without operations do not count as coming in. -/
theorem Call.bucket?_ne_nil {call : Call} {bucket : List MicroOp}
    (h : call.bucket? = some bucket) : bucket ≠ [] := by
  unfold bucket? at h
  split at h
  · rw [← Option.some.inj h]
    exact List.cons_ne_nil _ _
  · cases h

namespace Core

variable {W : Type} {c d e : Core (Recorded W)} {out out' : List MicroOp}

/-- On the way from `c` to `d` the operations `out` left the queue at the front,
and whatever came in went to its back. -/
structure Conveys (c d : Core (Recorded W)) (out : List MicroOp) : Prop where
  wellFormed : c.queue.WellFormed → d.queue.WellFormed
  stream : ∃ buckets, d.world.delivered = c.world.delivered ++ buckets ∧
    out ++ d.queue.toList = c.queue.toList ++ buckets.flatten

namespace Conveys

theorem refl (c : Core (Recorded W)) : Conveys c c [] where
  wellFormed := id
  stream := ⟨[], by simp⟩

theorem trans (h : Conveys c d out) (h' : Conveys d e out') : Conveys c e (out ++ out') where
  wellFormed := h'.wellFormed ∘ h.wellFormed
  stream := by
    obtain ⟨buckets, hdelivered, hstream⟩ := h.stream
    obtain ⟨buckets', hdelivered', hstream'⟩ := h'.stream
    refine ⟨buckets ++ buckets', by rw [hdelivered', hdelivered, List.append_assoc], ?_⟩
    rw [List.append_assoc, hstream', ← List.append_assoc, hstream, List.flatten_append,
      List.append_assoc]

/-- What a step asks for tells what it does to the queue, if it admits nothing. -/
theorem of_asked {event : Option Event} {new : List Call} (hasked : Asked c event d new)
    (hnone : Event.admissions event.toList = []) : Conveys c d [] where
  wellFormed := by
    intro hq
    rw [hasked.queue hnone]
    refine hq.foldl_push fun bucket hbucket => ?_
    obtain ⟨call, -, hcall⟩ := List.mem_filterMap.1 hbucket
    exact Call.bucket?_ne_nil hcall
  stream := by
    refine ⟨new.filterMap Call.bucket?, ?_, ?_⟩
    · rw [Recorded.delivered, hasked.calls, List.filterMap_append, Recorded.delivered]
    · rw [hasked.queue hnone, InstructionQueue.toList_foldl_push, List.nil_append]

variable [Surroundings W]

theorem of_step {event : Option Event} (h : Step c event d)
    (hnone : Event.admissions event.toList = []) : Conveys c d [] := by
  obtain ⟨new, hasked⟩ := asked_step h
  exact of_asked hasked hnone

theorem of_steps {events : List Event} (h : Steps c events d)
    (hnone : Event.admissions events = []) : Conveys c d [] := by
  refine h.keeps (P := fun past e => Event.admissions past = [] → Conveys c e []) ?_
    (fun _ => .refl c) hnone
  intro past e event e' hpast hstep hnone
  rw [Event.admissions_append, List.append_eq_nil_iff] at hnone
  exact (hpast hnone.1).trans (of_step hstep hnone.2)

/-! ## Dispatch -/

/-- The surroundings as an admission leaves them have delivered nothing new. -/
theorem delivered_admitOp {op : MicroOp} {world : Recorded W}
    (hanswer : Cluster.hazard? c.world op = (none, world)) :
    ({ c with world }.admitOp op).2.world.delivered = c.world.delivered := by
  have hcalls : ({ c with world }.admitOp op).2.world.calls =
      world.calls ++ [.accept ({ c with world }.admitOp op).1.op] :=
    Recorded.calls_note world _ _
  rw [Recorded.delivered, hcalls, Recorded.calls_hazard hanswer, List.filterMap_append,
    List.filterMap_append, Recorded.delivered]
  exact (List.append_nil _).trans (List.append_nil _)

/-- An operation is out of the queue once it is admitted. -/
theorem of_next? {op : MicroOp} {queue : InstructionQueue} {world : Recorded W}
    (hnext : c.queue.next? = some (op, queue))
    (hanswer : Cluster.hazard? c.world op = (none, world)) :
    Conveys c { ({ c with world }.admitOp op).2 with queue } [op] where
  wellFormed := fun hq => (hq.next? hnext).1
  stream := by
    refine ⟨[], (delivered_admitOp hanswer).trans (List.append_nil _).symm, ?_⟩
    rw [List.flatten_nil, List.append_nil, InstructionQueue.toList_of_next? hnext]
    rfl

theorem of_add (c : Core (Recorded W)) (op : MicroOp) : Conveys c (c.add op).2 [] := by
  obtain ⟨cause, -, hadd⟩ | ⟨cause, world, hroom, hanswer, hadd⟩ | ⟨world, -, hanswer, hadd⟩ :=
    add_cases c op
  · rw [hadd]
    exact .refl c
  · rw [hadd]
    exact of_step (.refuse hroom hanswer) rfl
  · rw [hadd]
    refine ⟨id, [], (delivered_admitOp hanswer).trans (List.append_nil _).symm, ?_⟩
    exact (List.append_nil _).symm

theorem of_dispatchUpTo (width : Nat) (c : Core (Recorded W)) :
    Conveys c (dispatchUpTo width c).2 ((dispatchUpTo width c).1.admitted.map (·.offered)) := by
  induction width generalizing c with
  | zero => exact .refl c
  | succ width ih =>
      rw [dispatchUpTo]
      cases hnext : c.queue.next? with
      | none => exact .refl c
      | some next =>
          obtain ⟨op, queue⟩ := next
          obtain ⟨cause, -, hadd⟩ | ⟨cause, world, hroom, hanswer, hadd⟩ |
            ⟨world, -, hanswer, hadd⟩ := add_cases c op
          · simp only [hadd]
            exact .refl c
          · simp only [hadd]
            exact of_step (.refuse hroom hanswer) rfl
          · simp only [hadd]
            exact (of_next? hnext hanswer).trans (ih _)

theorem of_dispatch (c : Core (Recorded W)) :
    Conveys c c.dispatch.2 (c.dispatch.1.map (·.offered)) := by
  have hcharge : ∀ (d : Dispatched) (c : Core (Recorded W)), Conveys c (c.chargeUnused d) [] := by
    intro d c
    rw [chargeUnused]
    split
    · exact .refl c
    · exact of_step (.charge c _ _ _) rfl
  simpa [dispatch] using (of_dispatchUpTo c.config.issueWidth c).trans (hcharge _ _)

/-! ## Cycles and runs -/

theorem of_retire (c : Core (Recorded W)) : Conveys c c.retire.2 [] :=
  of_steps (steps_retire c) (Event.admissions_map_committed _)

theorem of_workCycle (c : Core (Recorded W)) :
    Conveys c c.workCycle.2 (c.workCycle.1.admitted.map (·.offered)) := by
  rw [workCycle]
  split
  · have hdispatch := (of_dispatch c).trans (of_retire c.dispatch.2)
    rwa [List.append_nil] at hdispatch
  · next hqueue =>
      split
      · next hdrained => exact of_step (.rest (by simpa using hqueue) hdrained) rfl
      · exact of_retire c

theorem of_busyCycle (c : Core (Recorded W)) :
    Conveys c c.busyCycle.2 (c.busyCycle.1.admitted.map (·.offered)) := by
  refine Conveys.trans (of_step (.decode c) rfl) ?_
  rw [busyCycle]
  generalize c.decode = c
  dsimp only
  split
  · exact of_workCycle c
  · next hrecovering =>
      split
      · next hdrained =>
          exact (of_step (.recover (by simpa using hrecovering) hdrained) rfl).trans
            (of_workCycle c.finishRecovery)
      · exact (of_step (.charge c _ _ _) rfl).trans (of_retire _)

theorem of_advance (c : Core (Recorded W)) :
    Conveys c c.advance.2 (c.advance.1.admitted.map (·.offered)) := by
  rw [advance]
  split
  · exact .refl c
  · have htick : Conveys c c.fetch.tick [] :=
      (of_step (.fetch c) rfl).trans (of_step (.tick _) rfl)
    dsimp only
    split
    · exact htick.trans (of_busyCycle _)
    · exact htick

theorem of_perform (c : Core (Recorded W)) (command : Command) :
    Conveys c (c.perform command).2
      ((c.perform command).1.dispatched.map (·.offered)) := by
  cases command with
  | activate => exact of_step (.activate c) rfl
  | deactivate => exact of_step (.deactivate c) rfl
  | advance => exact of_advance c
  | add op => exact of_add c op
  | issued h => exact of_step (.issued c h) rfl
  | executing h => exact of_step (.executing c h) rfl
  | executed h => exact of_step (.executed c h) rfl
  | performed h => exact of_step (.performed c h) rfl
  | replay h => exact of_step (.replay c h) rfl
  | arm budget => exact of_step (.arm c budget) rfl

theorem of_run (c : Core (Recorded W)) (commands : List Command) :
    Conveys c (c.run commands).2
      (((c.run commands).1.flatMap Reply.dispatched).map (·.offered)) := by
  induction commands generalizing c with
  | nil => exact .refl c
  | cons command rest ih =>
      rw [run, List.flatMap_cons, List.map_append]
      exact (of_perform c command).trans (ih _)

end Conveys

/-! ## The width of a cycle -/

variable [Surroundings W]

theorem length_dispatchUpTo_le (width : Nat) (c : Core W) :
    (dispatchUpTo width c).1.admitted.length ≤ width := by
  induction width generalizing c with
  | zero => exact Nat.le_refl 0
  | succ width ih =>
      rw [dispatchUpTo]
      cases c.queue.next? with
      | none => exact Nat.zero_le _
      | some next =>
          obtain ⟨op, queue⟩ := next
          dsimp only
          cases c.add op with
          | mk answer d =>
              cases answer with
              | error stall => exact Nat.zero_le _
              | ok admission => exact Nat.succ_le_succ (ih { d with queue })

theorem length_workCycle_le (c : Core (Recorded W)) :
    c.workCycle.1.admitted.length ≤ c.config.issueWidth := by
  rw [workCycle]
  split
  · exact length_dispatchUpTo_le c.config.issueWidth c
  · split <;> exact Nat.zero_le _

theorem length_admitted_advance_le (c : Core (Recorded W)) :
    c.advance.1.admitted.length ≤ c.config.issueWidth := by
  have hconfig : c.fetch.tick.decode.config = c.config := by
    rw [(sameOps_decode _).config, (sameOps_tick _).config, (sameOps_fetch c).config]
  rw [advance]
  split
  · exact Nat.zero_le _
  · dsimp only
    split
    · rw [busyCycle]
      dsimp only
      split
      · exact hconfig ▸ length_workCycle_le c.fetch.tick.decode
      · split
        · exact hconfig ▸ length_workCycle_le c.fetch.tick.decode.finishRecovery
        · exact Nat.zero_le _
    · exact Nat.zero_le _

/-- In no cycle of a run are more operations dispatched than the issue width. -/
theorem length_dispatched_run_le (c : Core (Recorded W)) (commands : List Command) :
    ∀ reply ∈ (c.run commands).1, reply.dispatched.length ≤ c.config.issueWidth := by
  induction commands generalizing c with
  | nil => exact fun reply hreply => absurd hreply List.not_mem_nil
  | cons command rest ih =>
      have hconfig := config_steps (steps_perform c command)
      rw [run]
      refine List.forall_mem_cons.2 ⟨?_, hconfig ▸ ih (c.perform command).2⟩
      cases command with
      | advance => exact length_admitted_advance_le c
      | add | activate | deactivate | issued | executing | executed | performed | replay | arm =>
          exact Nat.zero_le _

/-- **The instruction stream.** Whatever surrounds a core and whatever is done to
it, what its cycles dispatched, then what waits in the instruction queue, is what
the front end delivered, every operation as it was delivered. The queue counts
what waits in it without ever falling short, none of its buckets is empty, and no
cycle dispatches more than the issue width. -/
theorem dispatched_then_queued_eq_delivered {config : CoreConfig} {hart : Nat} {world : W}
    {start : Core (Recorded W)} (hstart : create config hart ⟨world, []⟩ = .ok start)
    (commands : List Command) :
    let replies := (start.run commands).1
    let c := (start.run commands).2
    (replies.flatMap Reply.dispatched).map (·.offered) ++ c.queue.toList =
        c.world.delivered.flatten ∧
      c.queue.held = c.queue.toList.length ∧
      (replies.flatMap Reply.dispatched).length + c.queue.held =
        c.world.delivered.flatten.length ∧
      (∀ bucket ∈ c.queue.buckets, bucket ≠ []) ∧
      ∀ reply ∈ replies, reply.dispatched.length ≤ config.issueWidth := by
  intro replies c
  have hwidth := length_dispatched_run_le start commands
  have hconveys := Conveys.of_run start commands
  obtain ⟨-, rfl⟩ := create_eq hstart
  have hqueue : c.queue.WellFormed := hconveys.wellFormed InstructionQueue.wellFormed_empty
  obtain ⟨buckets, hdelivered, hstream⟩ := hconveys.stream
  have hdelivered : c.world.delivered = buckets := hdelivered
  have hstream : (replies.flatMap Reply.dispatched).map (·.offered) ++ c.queue.toList =
      c.world.delivered.flatten := by
    rw [hdelivered]
    exact hstream
  refine ⟨hstream, hqueue.held_eq, ?_, hqueue.nonempty, hwidth⟩
  rw [← hstream, hqueue.held_eq, List.length_append, List.length_map]

/-- Two operations fit into the buffers. The third of the first bucket is refused
twice, the next bucket has nothing in it, and the cycle that finally takes the third
refuses the fourth. -/
theorem dispatched_then_queued_of_four :
    let op : Nat → MicroOp := fun id => { id, pc := 0, inst := { opcode := .alu } }
    let config : CoreConfig := { maxRobSize := 3, retireDelay := 0 }
    let world : Recorded Obliging := ⟨{ buckets := [[op 1, op 2, op 3], [], [op 4]] }, []⟩
    let start : Core (Recorded Obliging) := .initial config 0 world
    let commands : List Command :=
      [.activate, .advance, .executed ⟨0, 1⟩, .advance, .advance]
    let replies := (start.run commands).1
    let c := (start.run commands).2
    create config 0 world = .ok start ∧
      (replies.map Reply.dispatched).map List.length = [0, 2, 0, 0, 1] ∧
      c.queue.toList = [op 4] ∧ c.queue.held = 1 ∧
      (replies.flatMap Reply.dispatched).map (·.offered) ++ c.queue.toList =
        c.world.delivered.flatten := by
  intro op config world start commands replies c
  have hstart : create config 0 world = .ok start := rfl
  obtain ⟨hstream, -⟩ := dispatched_then_queued_eq_delivered hstart commands
  exact ⟨hstart, by decide +kernel, by decide +kernel, by decide +kernel, hstream⟩

end Core

end OutOfOrder
