import OutOfOrder.Proofs.Core.Ownership
import OutOfOrder.Proofs.Core.Speculation

/-!
# A handle to what is gone stays dead

A slot that is given back is the first to be taken again, so the slot of a handle says
nothing about whose operation is in it. The identifier does, as long as no two admitted
operations share one: an operation that was handed back is an admission that is used up,
and what is in the pool are the others. So nothing in the pool carries its identifier any
more, in whichever slot one looks.

The reports and the replay request each look their handle up before they do anything, and
this is all that is needed for them to do nothing. `Stale` says it for whatever surrounds
the core, so none of them can have asked.
-/

namespace OutOfOrder

/-- The identifiers are part of the origins. -/
theorem map_origin_id (ops : List MicroOp) :
    (ops.map MicroOp.origin).map MicroOp.Origin.id = ops.map MicroOp.id :=
  List.map_map

namespace Core

variable {W : Type}

/-- The handle names nothing, and nothing that is said of it makes a difference, to the
core or to what surrounds it. -/
structure Stale (c : Core W) (h : Handle) : Prop where
  unresolved : c.op? h = none
  issued : c.issued h = c
  executing : c.executing h = c
  executed : c.executed h = c
  performed : ∀ [Emulator W], c.performed h = c
  replay : ∀ [FrontEnd W], c.replay h = c

/-- Whatever names nothing is ignored. -/
theorem Stale.of_unresolved {c : Core W} {h : Handle} (hnone : c.op? h = none) : c.Stale h := by
  have hnone' : c.pool.get? h = none := hnone
  refine ⟨hnone, ?_, ?_, ?_, fun {_} => ?_, fun {_} => ?_⟩
  · rw [Core.issued, Pool.modify_of_get?_eq_none hnone']
  · rw [Core.executing, hnone']
  · rw [Core.executed, hnone']
  · rw [Core.performed, hnone']
  · rw [Core.replay, hnone']
    dsimp only
    split <;> rfl

variable [Surroundings W] {c d : Core (Recorded W)} {past : List Event} {places : List Nat}

/-- What was handed back remains so. -/
theorem released_subset_steps {events : List Event} (hsteps : Steps c events d) :
    c.world.released ⊆ d.world.released :=
  List.filterMap_subset _ (calls_subset_steps hsteps)

/-- The handle of an admission carries the identifier that was offered. -/
theorem id_of_admitted {a : Admission} (hc : c.Consistent)
    (hstep : Step c (some (.admitted a)) d) : a.handle.id = a.offered.id :=
  calc a.handle.id = a.op.id := (Pool.id_of_get? (hc.get?_of_admitted hstep)).symm
    _ = a.offered.id := congrArg MicroOp.Origin.id (origin_of_admitted hc hstep)

omit [Surroundings W] in
/-- Where identifiers are distinct, none is both of an operation that was handed back and of
one in the pool. -/
theorem Owned.unresolved_of_released (ho : Owned past c places)
    (hdistinct : ((Event.admissions past).map (·.offered.id)).Nodup) {op : MicroOp}
    (hreleased : op ∈ c.world.released) {h : Handle} (hid : h.id = op.id) : c.op? h = none := by
  have hcontents := ho.contents.map MicroOp.Origin.id
  rw [List.map_append, map_origin_id, map_origin_id, List.map_map] at hcontents
  have hapart := (List.nodup_append.1 (hcontents.nodup_iff.2 hdistinct)).2.2
  rw [Option.eq_none_iff_forall_ne_some]
  intro live hlive
  have hlive : c.pool.get? h = some live := hlive
  refine hapart op.id (List.mem_map_of_mem hreleased) live.id
    (List.mem_map_of_mem (Pool.mem_ops.2 ⟨h, hlive⟩)) ?_
  rw [Pool.id_of_get? hlive, hid]

/-- **Stale notifications are harmless.** Whatever surrounds a core and whatever is done to
it, if no two operations are admitted under one identifier: an operation that was handed back
is one that was admitted, and whatever happens afterwards, whoever gets its slot, its handle
names nothing. What is reported of it and a request to replay it leave the whole core as it
is, its surroundings included. -/
theorem stale_after_release {config : CoreConfig} {hart : Nat} {world : W}
    {start : Core (Recorded W)} (hstart : create config hart ⟨world, []⟩ = .ok start)
    (before after : List Command)
    (hdistinct : ((Event.admissions (start.history (before ++ after))).map (·.offered.id)).Nodup)
    (op : MicroOp) (hreleased : op ∈ (start.run before).2.world.released) :
    ∃ a ∈ Event.admissions (start.history before),
      a.offered.origin = op.origin ∧ a.handle.id = op.id ∧
        ∀ h : Handle, h.id = a.handle.id → (start.run (before ++ after)).2.Stale h := by
  have hc := Consistent.of_create hstart
  obtain ⟨_, howned⟩ := Owned.of_run hstart before
  have horigin : op.origin ∈ (Event.admissions (start.history before)).map (·.offered.origin) :=
    howned.contents.subset (List.mem_append_left _ (List.mem_map_of_mem hreleased))
  obtain ⟨a, ha, horigin⟩ := List.mem_map.1 horigin
  have hid : a.handle.id = op.id :=
    (hc.forall_admissions (steps_run start before) id_of_admitted a ha).trans
      (congrArg MicroOp.Origin.id horigin)
  refine ⟨a, ha, horigin, hid, fun h hh => .of_unresolved ?_⟩
  obtain ⟨_, hlater⟩ := Owned.of_run hstart (before ++ after)
  refine hlater.unresolved_of_released hdistinct ?_ (hh.trans hid)
  rw [run_append]
  exact released_subset_steps (steps_run (start.run before).2 after) hreleased

/-- An operation executes, commits and is handed back, and the next one gets its slot. A late
report about the first is about nobody. -/
theorem slot_of_released_taken_again :
    let op : Nat → MicroOp := fun id => { id, pc := 0, inst := { opcode := .alu, dst1 := some 5 } }
    let config : CoreConfig := { maxRobSize := 4, retireDelay := 0 }
    let world : Obliging := { buckets := [[op 2]] }
    let start : Core (Recorded Obliging) := .initial config 0 ⟨world, []⟩
    let before : List Command := [.activate, .add (op 1), .executed ⟨0, 1⟩, .advance]
    let after : List Command := [.add (op 3), .executing ⟨0, 1⟩]
    let c := (start.run (before ++ after)).2
    create config 0 ⟨world, []⟩ = .ok start ∧
      ((Event.admissions (start.history (before ++ after))).map (·.offered.id)).Nodup ∧
      (start.run before).2.world.released.map (·.id) = [1] ∧
      (c.op? ⟨0, 3⟩).map (·.id) = some 3 ∧ c.Stale ⟨0, 1⟩ := by
  intro op config world start before after c
  have hstart : create config 0 ⟨world, []⟩ = .ok start := rfl
  have hdistinct :
      ((Event.admissions (start.history (before ++ after))).map (·.offered.id)).Nodup := by
    decide +kernel
  have hreleased : (start.run before).2.world.released.map (·.id) = [1] := by decide +kernel
  obtain ⟨gone, hgone, hid⟩ : ∃ gone ∈ (start.run before).2.world.released, gone.id = 1 :=
    List.mem_map.1 (hreleased ▸ List.mem_singleton_self 1)
  obtain ⟨a, -, -, hhandle, hstale⟩ :=
    stale_after_release hstart before after hdistinct gone hgone
  exact ⟨hstart, hdistinct, hreleased, by decide +kernel,
    hstale ⟨0, 1⟩ (hid.symm.trans hhandle.symm)⟩

end Core

end OutOfOrder
