import OutOfOrder.Proofs.Core.CommitOrder

/-!
# Neither buffer overflows

Both buffers have the full capacity, and only their common occupancy is looked
at, and only when an operation is offered. Promotion moves handles from one
buffer to the other without looking and as often as the cluster lets it. So a
push that finds no room would go unnoticed: the buffer stays as it was and the
handle is gone.

What rules it out is that promotion does not change the sum. The bound is an
invariant of small steps, the iterations of the two retirement loops included,
and wherever it holds there is room for one more handle in either buffer. To
say so about the loops themselves, admission and promotion are written down
once more with pushes that insist on their place: they never fail, and they do
what the originals do.
-/

namespace OutOfOrder.Core

variable {W : Type}

section Definitions

variable [Surroundings W]

/-- Admits an operation that nothing keeps out, insisting on a place in the reorder
buffer. -/
def admitOp? (c : Core W) (op : MicroOp) : Option (Admission × Core W) :=
  (c.rob.push? (c.enter op).1).map fun rob =>
    let (admitted, d) := c.admitOp op
    (admitted, { d with rob })

/-- An offer that insists on a place in the reorder buffer if it is admitted. -/
def add? (c : Core W) (op : MicroOp) : Option (Except Stall Admission × Core W) :=
  match c.refusal? op with
  | some cause => some (.error ⟨cause, op⟩, c)
  | none =>
    match Cluster.hazard? c.world op with
    | (some cause, world) => some (.error ⟨cause, op⟩, { c with world })
    | (none, world) =>
      (admitOp? { c with world } op).map fun (admitted, c) => (.ok admitted, c)

/-- Promotes up to a number of operations, insisting on a place in the retiring
buffer for each. -/
def promoteUpTo? : Nat → Core W → Option (Core W)
  | 0, c => some c
  | n + 1, c =>
    match c.rob.top? with
    | none => some c
    | some h =>
      match c.pool.get? h with
      | none => promoteUpTo? n { c with rob := c.rob.pop }
      | some op =>
        match Cluster.mayPromote c.world op c.recovery.flushing with
        | (false, world) => some { c with world }
        | (true, world) =>
          match c.retiring.push? h with
          | none => none
          | some retiring => promoteUpTo? n { c with world, rob := c.rob.pop, retiring }

end Definitions

namespace Consistent

variable {c : Core W}

theorem occupancy_le (hc : c.Consistent) : c.occupancy ≤ c.config.maxRobSize - 1 := by
  have hlen := hc.length_lt
  rw [hc.length_inFlight] at hlen
  omega

/-- The spare place is spare in each buffer: whatever the other holds, there is room
for one more handle. -/
theorem push?_rob (hc : c.Consistent) (h : Handle) : c.rob.push? h = some (c.rob.push h) := by
  have hlen := hc.length_lt
  rw [hc.length_inFlight, occupancy] at hlen
  exact RingBuffer.push?_eq_some_push h (by rw [hc.rob_capacity]; omega)

theorem push?_retiring (hc : c.Consistent) (h : Handle) :
    c.retiring.push? h = some (c.retiring.push h) := by
  have hlen := hc.length_lt
  rw [hc.length_inFlight, occupancy] at hlen
  exact RingBuffer.push?_eq_some_push h (by rw [hc.retiring_capacity]; omega)

variable [Surroundings W]

theorem admitOp?_eq (hc : c.Consistent) (op : MicroOp) : c.admitOp? op = some (c.admitOp op) := by
  rw [admitOp?, hc.push?_rob, Option.map_some]
  rfl

theorem add?_eq (hc : c.Consistent) (op : MicroOp) : c.add? op = some (c.add op) := by
  rw [add?, add]
  cases c.refusal? op with
  | some cause => rfl
  | none =>
      cases Cluster.hazard? c.world op with
      | mk answer world =>
          cases answer with
          | some cause => rfl
          | none =>
              dsimp only
              rw [(hc.of_world world).admitOp?_eq, Option.map_some]

/-- Each iteration of the loop leaves room for the next, because it leaves the sum as
it was. -/
theorem promoteUpTo?_eq (n : Nat) (hc : c.Consistent) :
    promoteUpTo? n c = some (promoteUpTo n c) := by
  induction n generalizing c with
  | zero => rfl
  | succ n ih =>
      rw [promoteUpTo?, promoteUpTo]
      cases htop : c.rob.top? with
      | none => rfl
      | some h =>
          dsimp only
          cases hop : c.pool.get? h with
          | none => exact absurd hop (hc.get?_rob_top? htop)
          | some op =>
              dsimp only
              cases hanswer : Cluster.mayPromote c.world op c.recovery.flushing with
              | mk granted world =>
                  cases granted with
                  | false => rfl
                  | true =>
                      dsimp only
                      rw [hc.push?_retiring h]
                      exact ih (hc.promote htop world)

/-- Promotion keeps every handle, and the order of all of them. -/
theorem inFlight_promoteUpTo (n : Nat) (hc : c.Consistent) :
    (promoteUpTo n c).inFlight = c.inFlight := by
  have hmoved := commits_append_inFlight hc (steps_promoteUpTo n c)
  simpa [Event.commits, Event.admissions] using hmoved

end Consistent

variable [Surroundings W]

theorem occupancy_le_of_steps {config : CoreConfig} {hart : Nat} {world : W} {start c : Core W}
    {past : List Event} (hstart : create config hart world = .ok start)
    (hpast : Steps start past c) : c.occupancy ≤ config.maxRobSize - 1 := by
  have hle := ((Consistent.of_create hstart).steps hpast).occupancy_le
  rw [config_steps hpast] at hle
  obtain ⟨-, rfl⟩ := create_eq hstart
  exact hle

/-- **No push fails.** Whatever surrounds a core and whatever is done to it, the two
buffers together hold less than either has room for: after every command, after every
small step of one, and after any number of iterations of either loop of retirement.
So an admission always finds its place in the reorder buffer and a promotion its place
in the retiring buffer, and promotion loses no handle. -/
theorem no_push_fails {config : CoreConfig} {hart : Nat} {world : W} {start : Core W}
    (hstart : create config hart world = .ok start) :
    (∀ commands, (start.run commands).2.occupancy ≤ config.maxRobSize - 1) ∧
      ∀ {past c}, Steps start past c →
        c.occupancy ≤ config.maxRobSize - 1 ∧
        (∀ n, (promoteUpTo n c).occupancy ≤ config.maxRobSize - 1) ∧
        (∀ n, (commitUpTo n c.promote).2.occupancy ≤ config.maxRobSize - 1) ∧
        (∀ op, c.add? op = some (c.add op)) ∧
        ∀ n, promoteUpTo? n c = some (promoteUpTo n c) ∧
          (promoteUpTo n c).retiring.toList ++ (promoteUpTo n c).rob.toList =
            c.retiring.toList ++ c.rob.toList := by
  refine ⟨fun commands => occupancy_le_of_steps hstart (steps_run start commands),
    fun {past c} hpast => ?_⟩
  have hc : c.Consistent := (Consistent.of_create hstart).steps hpast
  have hpromote : Steps start past c.promote := by
    have hloop := (hpast.append (steps_promoteUpTo c.rob.size c)).append (.one_silent (.sample _))
    rwa [List.append_nil, List.append_nil] at hloop
  exact ⟨occupancy_le_of_steps hstart hpast,
    fun n => occupancy_le_of_steps hstart (hpast.append (steps_promoteUpTo n c)),
    fun n => occupancy_le_of_steps hstart (hpromote.append (steps_commitUpTo n c.promote)),
    hc.add?_eq, fun n => ⟨hc.promoteUpTo?_eq n, hc.inFlight_promoteUpTo n⟩⟩

/-- Three places of four are taken, by operations that have executed. All three are
promoted at once; the reorder buffer is empty then, but a fourth operation is refused. -/
theorem no_push_fails_when_all_are_promoted :
    let op : Nat → MicroOp := fun id => { id, pc := 0, inst := { opcode := .alu } }
    let config : CoreConfig := { maxRobSize := 4 }
    let start : Core Obliging := .initial config 0 {}
    let commands : List Command :=
      [.add (op 1), .add (op 2), .add (op 3),
        .executed ⟨0, 1⟩, .executed ⟨1, 2⟩, .executed ⟨2, 3⟩]
    let c := (start.run commands).2
    let d := promoteUpTo 3 c
    create config 0 {} = .ok start ∧
      c.occupancy = 3 ∧ promoteUpTo? 3 c = some d ∧
      d.rob.toList = [] ∧ d.retiring.toList = [⟨0, 1⟩, ⟨1, 2⟩, ⟨2, 3⟩] ∧
      d.add? (op 4) = some (.error ⟨.smallRob, op 4⟩, d) := by
  intro op config start commands c d
  have hstart : create config 0 {} = .ok start := rfl
  have hpast : Steps start (start.history commands) c := steps_run start commands
  have hrob : d.rob.toList = [] := by decide +kernel
  have hrefused : d.refusal? (op 4) = some .smallRob := by decide +kernel
  obtain ⟨-, -, -, -, hpromote⟩ := (no_push_fails hstart).2 hpast
  obtain ⟨-, -, -, hadd, -⟩ := (no_push_fails hstart).2 (hpast.append (steps_promoteUpTo 3 c))
  have hmoved : d.retiring.toList ++ d.rob.toList = c.retiring.toList ++ c.rob.toList :=
    (hpromote 3).2
  rw [hrob, List.append_nil] at hmoved
  exact ⟨hstart, by decide +kernel, (hpromote 3).1, hrob, hmoved.trans (by decide +kernel),
    (hadd (op 4)).trans (by rw [add, hrefused])⟩

end OutOfOrder.Core
