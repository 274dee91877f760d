import OutOfOrder.Proofs.Core.Consistency
import OutOfOrder.Surroundings.Obliging

/-!
# Operations commit in the order in which they were admitted

At any moment of any run, the operations that have committed, followed by those
in the retiring buffer, followed by those in the reorder buffer, are the
operations that were admitted. Three readings of the one equation: nothing is
lost on the way, nothing is there twice, and nothing overtakes anything, neither
when it is promoted nor when it commits.

Replays do not appear in it. They keep younger operations out and mark older
ones, and the marked ones commit like all others.
-/

namespace OutOfOrder.Core

variable {W : Type} [Surroundings W]

/-- What each step does to the handles in flight adds up over many steps. -/
theorem commits_append_inFlight {events : List Event} {c d : Core W} (hc : c.Consistent)
    (h : Steps c events d) :
    (Event.commits events).map (·.handle) ++ d.inFlight =
      c.inFlight ++ (Event.admissions events).map (·.handle) := by
  refine (h.keeps (P := fun past e => e.Consistent ∧
    (Event.commits past).map (·.handle) ++ e.inFlight =
      c.inFlight ++ (Event.admissions past).map (·.handle)) ?_ ⟨hc, ?_⟩).2
  · intro past e event e' ⟨he, hpast⟩ hstep
    refine ⟨he.step hstep, ?_⟩
    rw [Event.commits_append, Event.admissions_append, List.map_append, List.map_append,
      List.append_assoc, he.inFlight_step hstep, ← List.append_assoc, hpast,
      List.append_assoc]
  · simp [Event.commits, Event.admissions]

/-- **In-order, lossless commit.** Whatever surrounds a core and whatever is done
to it, what has committed, then what the retiring buffer holds, then what the
reorder buffer holds, is what was admitted, in that order. And what has committed was
asked for: it was at the top of the retiring buffer, and the cluster let it. -/
theorem committed_then_inFlight_eq_admitted {config : CoreConfig} {hart : Nat} {world : W}
    {start : Core W} (hstart : create config hart world = .ok start)
    (commands : List Command) :
    (Event.commits (start.history commands)).map (·.handle)
        ++ (start.run commands).2.retiring.toList ++ (start.run commands).2.rob.toList =
      (Event.admissions (start.history commands)).map (·.handle) ∧
    ∀ (earlier : List Event) (n : NamedOp) (later : List Event),
      start.history commands = earlier ++ .committed n :: later →
      ∃ c d, Steps start earlier c ∧ Step c (some (.committed n)) d ∧
        Steps d later (start.run commands).2 ∧ c.retiring.top? = some n.handle ∧
        c.op? n.handle = some n.op ∧
        (Cluster.mayCommit c.world n.op c.recovery.flushing).1 = true := by
  have hsteps := steps_run start commands
  refine ⟨?_, fun earlier n later hpast => ?_⟩
  · have hflight := commits_append_inFlight (.of_create hstart) hsteps
    obtain ⟨-, rfl⟩ := create_eq hstart
    rw [List.append_assoc]
    exact hflight
  · obtain ⟨c, d, hbefore, hstep, hafter⟩ := hsteps.split hpast
    exact ⟨c, d, hbefore, hstep, hafter, granted_of_committed hstep⟩

/-- A core of four places in which one of two loads executes: it is the one that
commits, and what the front end delivers meanwhile lines up behind the other. -/
theorem committed_then_inFlight_of_two_loads :
    let load : Nat → MicroOp := fun id =>
      { id, pc := 0, inst := { opcode := .load, dst1 := some 5 } }
    let config : CoreConfig := { maxRobSize := 5, retireDelay := 0 }
    let world : Obliging := { buckets := [[load 3, load 4]] }
    let start : Core Obliging := .initial config 0 world
    let commands : List Command :=
      [.activate, .add (load 1), .add (load 2), .executed ⟨0, 1⟩, .advance, .advance]
    create config 0 world = .ok start ∧
      (Event.commits (start.history commands)).map (·.handle) = [⟨0, 1⟩] ∧
      (Event.commits (start.history commands)).map (·.handle)
          ++ (start.run commands).2.retiring.toList ++ (start.run commands).2.rob.toList =
        (Event.admissions (start.history commands)).map (·.handle) := by
  intro load config world start commands
  have hstart : create config 0 world = .ok start := rfl
  exact ⟨hstart, by decide +kernel, (committed_then_inFlight_eq_admitted hstart commands).1⟩

end OutOfOrder.Core
