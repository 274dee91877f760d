import OutOfOrder.Proofs.Core.Recovery
import OutOfOrder.Surroundings.Recorded

/-!
# What a step asks of the surroundings

The record of the calls only grows, and what a law reads off it is usually one
kind of call: the buckets that came in, or the commits that were granted. So
`Asked` says of the calls that a step adds what a law may want to know of them.
A bucket goes to the back of the instruction queue. A milestone is what the
step itself is. And a commit is offered with the flushing flag that the core
had before the step, and before anything else that the step asks for.

Looks are no calls, so a request for a replay, which looks at the front end if it
starts a recovery, calls nobody.
-/

namespace OutOfOrder

namespace Recorded

variable {W : Type} {r world : Recorded W}

theorem calls_hazard [Cluster W] {op : MicroOp} {answer : Option StallCause}
    (h : Cluster.hazard? r op = (answer, world)) :
    world.calls = r.calls ++ [.hazard op answer] := by
  obtain ⟨hanswer, rfl⟩ := Prod.mk.inj h
  rw [hanswer]
  exact calls_note r _ _

theorem calls_mayPromote [Cluster W] {op : MicroOp} {flushing granted : Bool}
    (h : Cluster.mayPromote r op flushing = (granted, world)) :
    world.calls = r.calls ++ [.mayPromote op flushing granted] := by
  obtain ⟨hgranted, rfl⟩ := Prod.mk.inj h
  rw [hgranted]
  exact calls_note r _ _

theorem calls_mayCommit [Cluster W] {op : MicroOp} {flushing granted : Bool}
    (h : Cluster.mayCommit r op flushing = (granted, world)) :
    world.calls = r.calls ++ [.mayCommit op flushing granted] := by
  obtain ⟨hgranted, rfl⟩ := Prod.mk.inj h
  rw [hgranted]
  exact calls_note r _ _

theorem calls_nextBucket [FrontEnd W] {bucket : Option (List MicroOp)}
    (h : FrontEnd.nextBucket r = (bucket, world)) :
    world.calls = r.calls ++ [.nextBucket bucket] := by
  obtain ⟨hbucket, rfl⟩ := Prod.mk.inj h
  rw [hbucket]
  exact calls_note r _ _

end Recorded

namespace Event

/-- The milestone that an event is. -/
def milestone? : Event → Option Milestone
  | .committed n => some (.committed n.op)
  | .recovered => some .recovered
  | .told _ | .admitted _ => none

def milestones (past : List Event) : List Milestone := past.filterMap milestone?

@[simp]
theorem milestones_append (first second : List Event) :
    milestones (first ++ second) = milestones first ++ milestones second :=
  List.filterMap_append

end Event

namespace Core

variable {W : Type} {c d : Core (Recorded W)} {event : Option Event}

/-- The step from `c` to `d` makes the calls `new`. -/
structure Asked (c : Core (Recorded W)) (event : Option Event) (d : Core (Recorded W))
    (new : List Call) : Prop where
  calls : d.world.calls = c.world.calls ++ new
  milestones : new.filterMap Call.milestone? = Event.milestones event.toList
  queue : Event.admissions event.toList = [] →
    d.queue = (new.filterMap Call.bucket?).foldl InstructionQueue.push c.queue
  offers : ∀ before call after flushing, new = before ++ call :: after →
    call.offer? = some flushing → before = [] ∧ flushing = c.recovery.flushing

/-- It is enough that only the first call of a step can offer a commit. -/
theorem offers_cons {first : Call} {rest : List Call}
    (hfirst : first.offer? = none ∨ first.offer? = some c.recovery.flushing)
    (hrest : rest.filterMap Call.offer? = [])
    (before : List Call) (call : Call) (after : List Call) (flushing : Bool)
    (hnew : first :: rest = before ++ call :: after) (hoffer : call.offer? = some flushing) :
    before = [] ∧ flushing = c.recovery.flushing := by
  cases before with
  | nil =>
      obtain ⟨rfl, -⟩ := List.cons.inj hnew
      refine ⟨rfl, hfirst.elim (fun hnone => ?_) fun hsome => ?_⟩
      · rw [hnone] at hoffer
        cases hoffer
      · exact Option.some.inj (hoffer.symm.trans hsome)
  | cons other before =>
      have hmem : call ∈ rest := by
        rw [(List.cons.inj hnew).2]
        exact List.mem_append_right _ List.mem_cons_self
      rw [List.filterMap_eq_nil_iff.1 hrest call hmem] at hoffer
      cases hoffer

namespace Asked

theorem nothing (hcalls : d.world.calls = c.world.calls) (hqueue : d.queue = c.queue)
    (hevent : Event.milestones event.toList = []) : Asked c event d [] where
  calls := by rw [hcalls, List.append_nil]
  milestones := hevent.symm
  queue := fun _ => hqueue
  offers := fun _ _ _ _ hnew =>
    absurd hnew.symm (List.append_ne_nil_of_right_ne_nil _ (List.cons_ne_nil _ _))

/-- Most calls bring nothing in, are no milestone and offer no commit. -/
theorem routine {call : Call} (hcalls : d.world.calls = c.world.calls ++ [call])
    (hmilestone : call.milestone? = none) (hbucket : call.bucket? = none)
    (hoffer : call.offer? = none) (hqueue : d.queue = c.queue)
    (hevent : Event.milestones event.toList = []) : Asked c event d [call] where
  calls := hcalls
  milestones := by rw [hevent, List.filterMap_cons_none hmilestone, List.filterMap_nil]
  queue := fun _ => by rw [List.filterMap_cons_none hbucket]; exact hqueue
  offers := offers_cons (.inl hoffer) rfl

end Asked

theorem asked_tick (c : Core (Recorded W)) : Asked c none c.tick [] := by
  rw [tick]
  dsimp only
  split <;> exact .nothing rfl rfl rfl

variable [Surroundings W]

theorem asked_fetch (c : Core (Recorded W)) : ∃ new, Asked c none c.fetch new := by
  have hlooked := Recorded.calls_noticed c.world (.isBlocked c.hart)
  rw [fetch, FrontEnd.askBlocked]
  dsimp only
  generalize FrontEnd.noticed c.world (.isBlocked c.hart) = world at *
  split
  · exact ⟨[], .nothing hlooked rfl rfl⟩
  · have hcalls : (FrontEnd.fetch world c.hart).2.calls =
        c.world.calls ++ [.fetch c.hart (FrontEnd.fetch world c.hart).1] :=
      (Recorded.calls_note _ _ _).trans (congrArg (· ++ _) hlooked)
    split <;> exact ⟨_, .routine hcalls rfl rfl rfl rfl rfl⟩

/-- What the front end delivers goes to the back of the queue, unless it is
empty. -/
theorem asked_decode (c : Core (Recorded W)) : ∃ new, Asked c none c.decode new := by
  rw [decode]
  split
  · exact ⟨[], .nothing rfl rfl rfl⟩
  · split
    · next op ops world heq =>
        exact ⟨[.nextBucket (some (op :: ops))], Recorded.calls_nextBucket heq, rfl,
          fun _ => rfl, offers_cons (.inl rfl) rfl⟩
    · next answer world hempty heq =>
        refine ⟨_, .routine (Recorded.calls_nextBucket heq) rfl ?_ rfl rfl rfl⟩
        cases answer with
        | none => rfl
        | some bucket =>
            cases bucket with
            | nil => rfl
            | cons op ops => exact absurd rfl (hempty op ops)

theorem calls_replay (c : Core (Recorded W)) (h : Handle) :
    (c.replay h).world.calls = c.world.calls := by
  obtain heq | ⟨op, -, heq⟩ := replay_cases c h
  · rw [heq]
  · rw [heq, worldRequested]
    dsimp only
    split
    · rfl
    · exact Recorded.calls_noticed _ _

theorem asked_performed (c : Core (Recorded W)) (h : Handle) :
    ∃ new, Asked c (some (.told (.performed h))) (c.performed h) new := by
  obtain ⟨op, -, -, heq⟩ | ⟨-, heq⟩ := performed_cases c h
  · rw [heq]
    exact ⟨_, .routine (Recorded.calls_note _ _ _) rfl rfl rfl rfl rfl⟩
  · rw [heq]
    exact ⟨[], .nothing rfl rfl rfl⟩

/-- A commit goes on record twice: it is granted, and then the operation is handed
back or its hart re-executed. -/
theorem asked_commit {h : Handle} {op : MicroOp} {world : Recorded W}
    (hanswer : Cluster.mayCommit c.world op c.recovery.flushing = (true, world)) :
    ∃ new, Asked c (some (.committed ⟨h, op⟩)) ({ c with world }.commit h op) new := by
  have hsettled : ∃ call, ({ c with world }.commit h op).world.calls = world.calls ++ [call] ∧
      call.milestone? = none ∧ call.bucket? = none ∧ call.offer? = none := by
    rw [commit, settle]
    split <;> exact ⟨_, Recorded.calls_note _ _ _, rfl, rfl, rfl⟩
  have hqueue : ({ c with world }.commit h op).queue = c.queue := by
    rw [commit, settle]
    split <;> rfl
  obtain ⟨call, hcalls, hmilestone, hbucket, hoffer⟩ := hsettled
  refine ⟨[.mayCommit op c.recovery.flushing true, call], ?_, ?_, fun _ => ?_, ?_⟩
  · rw [hcalls, Recorded.calls_mayCommit hanswer, List.append_assoc]
    rfl
  · rw [List.filterMap_cons_some (f := Call.milestone?) rfl, List.filterMap_cons_none hmilestone]
    rfl
  · rw [List.filterMap_cons_none (f := Call.bucket?) rfl, List.filterMap_cons_none hbucket]
    exact hqueue
  · exact offers_cons (.inr rfl) (by rw [List.filterMap_cons_none hoffer, List.filterMap_nil])

/-- Every step is on record. -/
theorem asked_step (h : Step c event d) : ∃ new, Asked c event d new := by
  cases h with
  | activate | deactivate | arm | issued | charge | sample | dropRob | dropRetiring =>
      exact ⟨[], .nothing rfl rfl rfl⟩
  | rest => exact ⟨[], .nothing (Recorded.calls_noticed _ _) rfl rfl⟩
  | executing h =>
      rw [executing_eq]
      exact ⟨[], .nothing rfl rfl rfl⟩
  | executed h =>
      obtain ⟨-, heq⟩ | ⟨op, -, heq⟩ := executed_cases c h <;>
        exact ⟨[], .nothing (by rw [heq]) (by rw [heq]) rfl⟩
  | performed h => exact asked_performed c h
  | replay h =>
      refine ⟨[], .nothing (calls_replay c h) ?_ rfl⟩
      obtain heq | ⟨op, -, heq⟩ := replay_cases c h <;> rw [heq]
  | fetch => exact asked_fetch c
  | tick => exact ⟨[], asked_tick c⟩
  | decode => exact asked_decode c
  | recover =>
      exact ⟨_, Recorded.calls_note _ _ _, rfl, fun _ => rfl,
        offers_cons (.inl rfl) rfl⟩
  | refuse hroom hanswer =>
      exact ⟨_, .routine (Recorded.calls_hazard hanswer) rfl rfl rfl rfl rfl⟩
  | @accept op world queue hroom hanswer hqueue =>
      have hcalls : ({ ({ c with world }.admitOp op).2 with queue } :
          Core (Recorded W)).world.calls = c.world.calls ++
            [.hazard op none, .accept ({ c with world }.admitOp op).1.op] := by
        refine (Recorded.calls_note world _ _).trans ?_
        rw [Recorded.calls_hazard hanswer, List.append_assoc]
        rfl
      exact ⟨_, hcalls, rfl, fun hnone => absurd hnone (List.cons_ne_nil _ _),
        offers_cons (.inl rfl) rfl⟩
  | holdRob htop hop hanswer =>
      exact ⟨_, .routine (Recorded.calls_mayPromote hanswer) rfl rfl rfl rfl rfl⟩
  | promote htop hop hanswer =>
      exact ⟨_, .routine (Recorded.calls_mayPromote hanswer) rfl rfl rfl rfl rfl⟩
  | holdRetiring htop hop hanswer =>
      exact ⟨_, Recorded.calls_mayCommit hanswer, rfl, fun _ => rfl,
        offers_cons (.inr rfl) rfl⟩
  | commit htop hop hdelay hanswer => exact asked_commit hanswer

end Core

end OutOfOrder
