import OutOfOrder.Proofs.Core.Alike
import OutOfOrder.Proofs.Core.Consistency
import OutOfOrder.Surroundings.Obliging

/-!
# Statistics do not perturb a run

Two runs whose operations differ in the sampling flags, and in nothing else, answer every
command alike, ask the same of their surroundings, and go through the same states but for the
counters and the flag of the core itself. What is sampled can therefore be chosen freely: a
window opened around some operations does not change what they do.

What is asked comes into it without a proof of its own. Surroundings that keep a record are
blind if the recorded ones are (`Blind.recorded`), since a record without flags does not
show them either, and so the law on runs, applied to recorded surroundings, is a law on the
calls and on the looks between them.
-/

namespace OutOfOrder

section Recorded

variable {V W : Type} {R : V → W → Prop}

/-- Surroundings that `R` relates, and that were asked the same but for the flags. -/
structure Recorded.SameQuestions (R : V → W → Prop) (r : Recorded V) (s : Recorded W) :
    Prop where
  inner : R r.inner s.inner
  questions : r.questions.map Question.unsampled = s.questions.map Question.unsampled

namespace Recorded.SameQuestions

variable {r : Recorded V} {s : Recorded W} {v : V} {w : W}

theorem write (h : SameQuestions R r s) {question question' : Question}
    (hquestion : question.unsampled = question'.unsampled) (hworld : R v w) :
    SameQuestions R (r.write question v) (s.write question' w) where
  inner := hworld
  questions := by
    rw [questions_write, questions_write, List.map_append, List.map_append, h.questions,
      List.map_singleton, List.map_singleton, hquestion]

theorem note (h : SameQuestions R r s) {call call' : Call}
    (hcall : call.unsampled = call'.unsampled) (hworld : R v w) :
    SameQuestions R (r.note call v) (s.note call' w) :=
  h.write (congrArg Question.call hcall) hworld

end Recorded.SameQuestions

variable [Surroundings V] [Surroundings W]

theorem Blind.recorded (hR : Blind R) : Blind (Recorded.SameQuestions R) where
  isBlocked h hart := hR.isBlocked h.inner hart
  fetch h hart := by
    obtain ⟨hcount, hworld⟩ := hR.fetch h.inner hart
    refine ⟨hcount, h.note ?_ hworld⟩
    exact congrArg (Call.fetch hart) hcount
  nextBucket h := by
    obtain ⟨hbucket, hworld⟩ := hR.nextBucket h.inner
    refine ⟨hbucket, h.note ?_ hworld⟩
    exact congrArg Call.nextBucket hbucket
  hasOutstanding h := hR.hasOutstanding h.inner
  noticed h look := h.write rfl (hR.noticed h.inner look)
  hazard h hop := by
    obtain ⟨hanswer, hworld⟩ := hR.hazard h.inner hop
    refine ⟨hanswer, h.note ?_ hworld⟩
    rw [Call.unsampled, Call.unsampled, hop, hanswer]
  accept h hop := by
    refine h.note ?_ (hR.accept h.inner hop)
    exact congrArg Call.accept hop
  mayPromote h hop flushing := by
    obtain ⟨hgranted, hworld⟩ := hR.mayPromote h.inner hop flushing
    refine ⟨hgranted, h.note ?_ hworld⟩
    rw [Call.unsampled, Call.unsampled, hop, hgranted]
  mayCommit h hop flushing := by
    obtain ⟨hgranted, hworld⟩ := hR.mayCommit h.inner hop flushing
    refine ⟨hgranted, h.note ?_ hworld⟩
    rw [Call.unsampled, Call.unsampled, hop, hgranted]
  resync h hart := h.note rfl (hR.resync h.inner hart)
  reexecute h hart := h.note rfl (hR.reexecute h.inner hart)
  release h hop := by
    refine h.note ?_ (hR.release h.inner hop)
    exact congrArg Call.release hop

end Recorded

/-- Surroundings that stand in nobody's way do not look at the flags. -/
theorem Obliging.blind : Blind fun v w : Obliging =>
    v.buckets.map (List.map MicroOp.unsampled) = w.buckets.map (List.map MicroOp.unsampled) where
  isBlocked _ _ := rfl
  fetch {v w} h _ := by
    have hlength : ∀ u : Obliging, u.buckets.head?.map List.length =
        (u.buckets.map (List.map MicroOp.unsampled)).head?.map List.length := by
      intro u
      cases u.buckets <;> simp
    refine ⟨?_, h⟩
    show (v.buckets.head?.map List.length).getD 0 = (w.buckets.head?.map List.length).getD 0
    rw [hlength v, hlength w, h]
  nextBucket {v w} h := by
    refine ⟨?_, ?_⟩
    · show v.buckets.head?.map _ = w.buckets.head?.map _
      rw [← List.head?_map, ← List.head?_map, h]
    · show v.buckets.tail.map _ = w.buckets.tail.map _
      rw [List.map_tail, List.map_tail, h]
  hasOutstanding {v w} h := by
    show (!v.buckets.isEmpty) = !w.buckets.isEmpty
    rw [← List.isEmpty_map (f := List.map MicroOp.unsampled), h, List.isEmpty_map]
  noticed h _ := h
  hazard h _ := ⟨rfl, h⟩
  accept h _ := h
  mayPromote h hop _ := ⟨(congrArg MicroOp.isExecuted hop :), h⟩
  mayCommit h _ _ := ⟨rfl, h⟩
  resync h _ := h
  reexecute h _ := h
  release h _ := h

namespace Core

variable {V W : Type} [Surroundings V] [Surroundings W] {R : V → W → Prop}

/-- **Statistics do not perturb the simulation.** Take two fresh cores of the same
parameters in surroundings whose answers do not depend on the sampling flags, and give both
the same commands, with operations that are equal except for the flag. After any number of
commands the replies are equal except for the flags of the operations in them; everything
that the cores remember is equal, in the pool and in the queue except for the flags, apart
from the counters and the flag of the core; and so is the record of what was asked of the
front end, the cluster and the emulator, the calls with their answers and the looks, in the
order in which they came. -/
theorem alike_except_statistics (hR : Blind R) {config : CoreConfig} {hart : Nat} {v : V} {w : W}
    (hworld : R v w) {first : Core (Recorded V)} {second : Core (Recorded W)}
    (hfirst : create config hart ⟨v, []⟩ = .ok first)
    (hsecond : create config hart ⟨w, []⟩ = .ok second) (commands commands' : List Command)
    (hcommands : commands.map Command.unsampled = commands'.map Command.unsampled) (n : Nat) :
    (first.run (commands.take n)).1.map Reply.unsampled =
        (second.run (commands'.take n)).1.map Reply.unsampled ∧
      (first.run (commands.take n)).2.unsampled = (second.run (commands'.take n)).2.unsampled ∧
      (first.run (commands.take n)).2.world.questions.map Question.unsampled =
        (second.run (commands'.take n)).2.world.questions.map Question.unsampled := by
  obtain ⟨-, rfl⟩ := create_eq hfirst
  obtain ⟨-, rfl⟩ := create_eq hsecond
  have hstart : Alike (Recorded.SameQuestions R) (initial config hart ⟨v, []⟩)
      (initial config hart ⟨w, []⟩) := ⟨rfl, hworld, rfl⟩
  have htaken : (commands.take n).map Command.unsampled =
      (commands'.take n).map Command.unsampled := by
    rw [List.map_take, List.map_take, hcommands]
  obtain ⟨hreplies, hafter⟩ := hstart.run hR.recorded htaken
  exact ⟨hreplies, hafter.core, hafter.world.questions⟩

/-- Three loads, of which the second is replayed, in a run with every operation inside a
window and in one with every operation outside. One run counts a commit and a replay and the
other counts nothing, and that is all the difference: even what the replay would have wasted
is asked for in both. -/
theorem alike_with_and_without_window :
    let op : Bool → Nat → MicroOp := fun sampled id =>
      { id, pc := 0, inst := { opcode := .load, src1 := some 5, dst1 := some 6 }, sampled }
    let config : CoreConfig := { maxRobSize := 6, retireDelay := 0 }
    let world : Bool → Obliging := fun sampled => { buckets := [[op sampled 2, op sampled 3]] }
    let start : Bool → Core (Recorded Obliging) := fun sampled =>
      .initial config 0 ⟨world sampled, []⟩
    let commands : Bool → List Command := fun sampled =>
      [.activate, .add (op sampled 1), .advance, .executed ⟨0, 1⟩, .replay ⟨1, 2⟩, .advance]
    let last : Bool → Core (Recorded Obliging) := fun sampled =>
      ((start sampled).run (commands sampled)).2
    (∀ sampled, create config 0 ⟨world sampled, []⟩ = .ok (start sampled)) ∧
      (world true).buckets.map (List.map MicroOp.unsampled) =
        (world false).buckets.map (List.map MicroOp.unsampled) ∧
      (commands true).map Command.unsampled = (commands false).map Command.unsampled ∧
      ((last true).stats.committed = 1 ∧ (last true).stats.replays = 1 ∧
        (last true).sampling = true) ∧
      ((last false).stats.committed = 0 ∧ (last false).stats.replays = 0 ∧
        (last false).sampling = false) ∧
      (∀ sampled, (last sampled).world.looks = [.isBlocked 0, .inFlight, .isBlocked 0]) ∧
      ((start true).run (commands true)).1.map Reply.unsampled =
        ((start false).run (commands false)).1.map Reply.unsampled ∧
      (last true).unsampled = (last false).unsampled ∧
      (last true).world.questions.map Question.unsampled =
        (last false).world.questions.map Question.unsampled := by
  intro op config world start commands last
  have hstart : ∀ sampled, create config 0 ⟨world sampled, []⟩ = .ok (start sampled) :=
    fun _ => rfl
  have hworld : (world true).buckets.map (List.map MicroOp.unsampled) =
    (world false).buckets.map (List.map MicroOp.unsampled) := rfl
  have hcommands : (commands true).map Command.unsampled =
    (commands false).map Command.unsampled := rfl
  have hall : ∀ sampled, (commands sampled).take 6 = commands sampled := fun _ => rfl
  have halike := alike_except_statistics Obliging.blind hworld (hstart true) (hstart false)
    (commands true) (commands false) hcommands 6
  rw [hall, hall] at halike
  have hcounted : (last true).stats.committed = 1 ∧ (last true).stats.replays = 1 ∧
    (last true).sampling = true := by decide +kernel
  have hignored : (last false).stats.committed = 0 ∧ (last false).stats.replays = 0 ∧
    (last false).sampling = false := by decide +kernel
  have hlooks : ∀ sampled,
    (last sampled).world.looks = [.isBlocked 0, .inFlight, .isBlocked 0] := by decide +kernel
  exact ⟨hstart, hworld, hcommands, hcounted, hignored, hlooks, halike⟩

end Core

end OutOfOrder
