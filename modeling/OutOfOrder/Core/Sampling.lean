import OutOfOrder.Core.Command
import OutOfOrder.Surroundings.Recorded

/-!
# Nothing but the sampling flags

Every operation carries a flag that says whether it lies inside a statistics
window. The flags are there for the counters, and to say that they do nothing
else is to compare two runs that differ in the flags alone.

`unsampled` takes the flag off: off an operation, and off whatever holds
operations. Two things differ at most in the flags if they are the same once the
flags are off. Of a core it also leaves out the counters and the flag of the core
itself, which follow the flags, and the surroundings, which are somebody else's.

The surroundings get to see the flags too, since they are handed operations.
`Blind` is the assumption that they answer as if they did not.
-/

namespace OutOfOrder

/-- The operation outside every statistics window. -/
def MicroOp.unsampled (op : MicroOp) : MicroOp := { op with sampled := false }

def NamedOp.unsampled (n : NamedOp) : NamedOp := { n with op := n.op.unsampled }

def Admission.unsampled (a : Admission) : Admission where
  handle := a.handle
  op := a.op.unsampled
  offered := a.offered.unsampled

def Stall.unsampled (s : Stall) : Stall := { s with op := s.op.unsampled }

def InstructionQueue.unsampled (q : InstructionQueue) : InstructionQueue where
  buckets := q.buckets.map (List.map MicroOp.unsampled)
  held := q.held

def Pool.unsampled (p : Pool) : Pool where
  slots := p.slots.map (Option.map MicroOp.unsampled)
  free := p.free

/-- What a core remembers of everything but its surroundings and its statistics. -/
def Core.unsampled {W : Type} (c : Core W) : Core Unit :=
  { c with
    world := ()
    pool := c.pool.unsampled
    queue := c.queue.unsampled
    sampling := false
    stats := {} }

def Core.CycleReport.unsampled (r : CycleReport) : CycleReport :=
  { r with
    admitted := r.admitted.map Admission.unsampled
    committed := r.committed.map NamedOp.unsampled }

def Command.unsampled : Command → Command
  | add op => add op.unsampled
  | command => command

def Reply.unsampled : Reply → Reply
  | done => done
  | cycle report => cycle report.unsampled
  | admission (.ok a) => admission (.ok a.unsampled)
  | admission (.error stall) => admission (.error stall.unsampled)

def Call.unsampled : Call → Call
  | nextBucket bucket => nextBucket (bucket.map (List.map MicroOp.unsampled))
  | hazard op answer => hazard op.unsampled answer
  | accept op => accept op.unsampled
  | mayPromote op flushing granted => mayPromote op.unsampled flushing granted
  | mayCommit op flushing granted => mayCommit op.unsampled flushing granted
  | release op => release op.unsampled
  | call => call

def Question.unsampled : Question → Question
  | call c => call c.unsampled
  | look l => look l

/-- The answers of surroundings do not depend on the flags: surroundings that `R` relates
answer alike when they are asked alike, and are related again. How much the front end has in
flight is only ever counted, so nothing is asked of that answer here. -/
structure Blind {V W : Type} [Surroundings V] [Surroundings W] (R : V → W → Prop) : Prop where
  isBlocked {v : V} {w : W} (h : R v w) (hart : Nat) :
    FrontEnd.isBlocked v hart = FrontEnd.isBlocked w hart
  fetch {v : V} {w : W} (h : R v w) (hart : Nat) :
    (FrontEnd.fetch v hart).1 = (FrontEnd.fetch w hart).1 ∧
      R (FrontEnd.fetch v hart).2 (FrontEnd.fetch w hart).2
  nextBucket {v : V} {w : W} (h : R v w) :
    (FrontEnd.nextBucket v).1.map (List.map MicroOp.unsampled) =
        (FrontEnd.nextBucket w).1.map (List.map MicroOp.unsampled) ∧
      R (FrontEnd.nextBucket v).2 (FrontEnd.nextBucket w).2
  hasOutstanding {v : V} {w : W} (h : R v w) :
    FrontEnd.hasOutstanding v = FrontEnd.hasOutstanding w
  noticed {v : V} {w : W} (h : R v w) (look : Look) :
    R (FrontEnd.noticed v look) (FrontEnd.noticed w look)
  hazard {v : V} {w : W} {op op' : MicroOp} (h : R v w) (hop : op.unsampled = op'.unsampled) :
    (Cluster.hazard? v op).1 = (Cluster.hazard? w op').1 ∧
      R (Cluster.hazard? v op).2 (Cluster.hazard? w op').2
  accept {v : V} {w : W} {op op' : MicroOp} (h : R v w) (hop : op.unsampled = op'.unsampled) :
    R (Cluster.accept v op) (Cluster.accept w op')
  mayPromote {v : V} {w : W} {op op' : MicroOp} (h : R v w)
      (hop : op.unsampled = op'.unsampled) (flushing : Bool) :
    (Cluster.mayPromote v op flushing).1 = (Cluster.mayPromote w op' flushing).1 ∧
      R (Cluster.mayPromote v op flushing).2 (Cluster.mayPromote w op' flushing).2
  mayCommit {v : V} {w : W} {op op' : MicroOp} (h : R v w)
      (hop : op.unsampled = op'.unsampled) (flushing : Bool) :
    (Cluster.mayCommit v op flushing).1 = (Cluster.mayCommit w op' flushing).1 ∧
      R (Cluster.mayCommit v op flushing).2 (Cluster.mayCommit w op' flushing).2
  resync {v : V} {w : W} (h : R v w) (hart : Nat) :
    R (Emulator.resync v hart) (Emulator.resync w hart)
  reexecute {v : V} {w : W} (h : R v w) (hart : Nat) :
    R (Emulator.reexecute v hart) (Emulator.reexecute w hart)
  release {v : V} {w : W} {op op' : MicroOp} (h : R v w) (hop : op.unsampled = op'.unsampled) :
    R (Emulator.release v op) (Emulator.release w op')

/-! ## Reading and writing through the flags -/

namespace Pool

variable (p : Pool) (h : Handle)

theorem get?_unsampled : p.unsampled.get? h = (p.get? h).map MicroOp.unsampled := by
  rw [get?, get?, unsampled, Array.getElem?_map]
  cases p.slots[h.slot]? with
  | none => rfl
  | some slot =>
      cases slot with
      | none => rfl
      | some op =>
          rw [Option.map_some, Option.join_some, Option.join_some, Option.map_some,
            Option.filter_some, Option.filter_some]
          show (if op.id == h.id then some op.unsampled else none) = _
          split <;> rfl

theorem insert_unsampled (op : MicroOp) :
    p.unsampled.insert op.unsampled = ((p.insert op).1, (p.insert op).2.unsampled) := by
  unfold insert unsampled
  cases p.free with
  | nil => simp [MicroOp.unsampled]
  | cons slot free => simp [MicroOp.unsampled]

theorem modify_unsampled {f g : MicroOp → MicroOp}
    (hfg : ∀ op, g op.unsampled = (f op).unsampled) :
    p.unsampled.modify h g = (p.modify h f).unsampled := by
  rw [modify, modify, get?_unsampled]
  cases p.get? h with
  | none => rfl
  | some op => simp [unsampled, hfg]

theorem erase_unsampled : p.unsampled.erase h = (p.erase h).unsampled := by
  rw [erase, erase, get?_unsampled]
  cases p.get? h with
  | none => rfl
  | some op => simp [unsampled]

end Pool

namespace InstructionQueue

theorem next?_unsampled (q : InstructionQueue) :
    q.unsampled.next? = q.next?.map (Prod.map MicroOp.unsampled unsampled) := by
  have hdrop : (q.buckets.map (List.map MicroOp.unsampled)).dropWhile List.isEmpty =
      (q.buckets.dropWhile List.isEmpty).map (List.map MicroOp.unsampled) := by
    induction q.buckets with
    | nil => rfl
    | cons bucket buckets ih =>
        cases bucket with
        | nil => simpa using ih
        | cons op ops => rfl
  rw [next?, next?, unsampled, hdrop]
  cases q.buckets.dropWhile List.isEmpty with
  | nil => rfl
  | cons bucket buckets =>
      cases bucket with
      | nil => rfl
      | cons op ops => cases ops <;> rfl

theorem push_unsampled (q : InstructionQueue) (bucket : List MicroOp) :
    q.unsampled.push (bucket.map MicroOp.unsampled) = (q.push bucket).unsampled := by
  simp [push, unsampled]

end InstructionQueue

namespace Serializer

theorem chain_unsampled (p : Pool) (prev : Option Handle) (h : Handle) :
    chain p.unsampled prev h = (chain p prev h).unsampled := by
  cases prev with
  | none => rfl
  | some prev =>
      rw [chain, chain, Pool.get?_unsampled]
      cases p.get? prev with
      | none => rfl
      | some op =>
          show (if op.isIssued then _ else _) = (if op.isIssued then _ else _ : Pool).unsampled
          split
          · rfl
          · exact Pool.modify_unsampled p h fun _ => rfl

theorem chainInWindow_unsampled (p : Pool) (window : Nat) (prev : Option Handle) (h : Handle) :
    chainInWindow p.unsampled window prev h = (chainInWindow p window prev h).unsampled := by
  have hlive : ∀ k, (p.unsampled.get? k).isSome = (p.get? k).isSome := fun k => by
    rw [Pool.get?_unsampled, Option.isSome_map]
  simp only [chainInWindow, hlive]
  exact Pool.modify_unsampled p h fun _ => rfl

variable (s : Serializer) (p : Pool) (h : Handle) (op : MicroOp)

theorem admitFull_unsampled : s.admitFull p.unsampled h op.unsampled =
    ((s.admitFull p h op).1, (s.admitFull p h op).2.unsampled) := by
  rw [admitFull, chain_unsampled]
  show (if op.inst.opcode.isMemory && op.isUnordered then _ else _) = _
  rw [admitFull]
  split <;> rfl

theorem admitStores_unsampled : s.admitStores p.unsampled h op.unsampled =
    ((s.admitStores p h op).1, (s.admitStores p h op).2.unsampled) := by
  rw [admitStores, chain_unsampled]
  show (if op.inst.opcode.isLoad && op.isUnordered then _
    else if op.inst.opcode.isStore && op.isUnordered then _ else _) = _
  rw [admitStores]
  split
  · rfl
  · split <;> rfl

theorem admitWindow_unsampled : s.admitWindow p.unsampled h op.unsampled =
    ((s.admitWindow p h op).1, (s.admitWindow p h op).2.unsampled) := by
  have hcurrent : s.nextWindow op.unsampled = s.nextWindow op := rfl
  rw [admitWindow, admitWindow, hcurrent]
  cases s.nextWindow op with
  | none => rfl
  | some window =>
      dsimp only
      rw [chainInWindow_unsampled]
      show (if op.inst.opcode.isMemory then _ else _) = _
      split <;> rfl

/-- Serialization orders and records the same, whatever the flags are. -/
theorem apply_unsampled (recovering : Bool) : s.apply p.unsampled h recovering =
    ((s.apply p h recovering).1, (s.apply p h recovering).2.unsampled) := by
  rw [apply, apply, Pool.get?_unsampled]
  dsimp only
  split
  · rfl
  · cases p.get? h with
    | none => rfl
    | some op =>
        dsimp only [Option.map_some]
        split
        · exact admitFull_unsampled _ p h op
        · exact admitStores_unsampled _ p h op
        · exact admitWindow_unsampled _ p h op

end Serializer

end OutOfOrder
