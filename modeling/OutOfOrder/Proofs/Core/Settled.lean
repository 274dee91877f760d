import OutOfOrder.Proofs.Core.Turnover

/-!
# What an admission settles

An operation in flight is reported on, may be marked for a replay, and may take a
register late. What it was offered with, which operations it waits for and the
window it was recorded in stay as its admission left them, until it commits.

`Consistent.kept_step` is the reason, for any property at all: what no `Change`
touches stays the same from one step to the next, since a step replaces at most
one operation and names it.
-/

namespace OutOfOrder

namespace MicroOp

/-- What is fixed about an operation once it is in flight. -/
structure Settled where
  origin : Origin
  edges : Edges
  window : Option Nat
  deriving DecidableEq

def settled (op : MicroOp) : Settled where
  origin := op.origin
  edges := op.edges
  window := op.window

end MicroOp

theorem Change.settled_eq {late : Bool} {h : Handle} {op op' : MicroOp} {event : Event}
    (hchange : Change late h op event op') : op'.settled = op.settled := by
  cases hchange <;> rfl

/-- Only a replay request marks an operation. -/
theorem Change.replayed_eq {late : Bool} {h : Handle} {op op' : MicroOp} {event : Event}
    (hchange : Change late h op event op') (hevent : event ≠ .told (.replay h)) :
    op'.replayed = op.replayed := by
  cases hchange with
  | replayed => exact absurd rfl hevent
  | issued | executing | executed | performed | retired => rfl

namespace Core

variable {W : Type} [Surroundings W]

section Named

variable {c d : Core W}

theorem get?_of_committed {n : NamedOp} (hstep : Step c (some (.committed n)) d) :
    c.pool.get? n.handle = some n.op := (granted_of_committed hstep).2.1

/-- What is true of every admission when it happens is true of all that happen on the way. -/
theorem Consistent.forall_admissions {P : Admission → Prop} (hc : c.Consistent)
    {events : List Event} (hsteps : Steps c events d)
    (hall : ∀ {e e' : Core W} {a : Admission}, e.Consistent →
      Step e (some (.admitted a)) e' → P a) : ∀ a ∈ Event.admissions events, P a := by
  refine (hsteps.keeps (P := fun past e => e.Consistent ∧ ∀ a ∈ Event.admissions past, P a)
    (fun hpast hstep => ⟨hpast.1.step hstep, fun a ha => ?_⟩)
    ⟨hc, fun a ha => absurd ha List.not_mem_nil⟩).2
  rw [Event.admissions_append, List.mem_append] at ha
  refine ha.elim (hpast.2 a) fun hnew => ?_
  obtain rfl := Event.eq_admitted_of_mem hnew
  exact hall hpast.1 hstep

/-- An admission adds no mark. -/
theorem replayed_of_admitted {a : Admission} (hc : c.Consistent)
    (hstep : Step c (some (.admitted a)) d) : a.op.replayed = a.offered.replayed := by
  cases hstep with
  | @accept op world queue hroom hanswer hqueue =>
      obtain ⟨order, window, hop⟩ := op_admitOp (c := { c with world }) hc.pool op
      rw [hop, offered_admitOp]
      rfl

end Named

variable {c d : Core (Recorded W)} {event : Option Event} {k : Handle}

theorem origin_of_admitted {a : Admission} (hc : c.Consistent)
    (hstep : Step c (some (.admitted a)) d) : a.op.origin = a.offered.origin := by
  cases turnover_step hc.pool hstep with
  | quiet hadmissions => cases hadmissions
  | comes hpool horigin => exact horigin
  | changes hchange => cases hchange
  | goes hleave => cases hleave

/-- A property that no change of the operation touches stays the same for one that stays
in flight. -/
theorem Consistent.kept_step {α : Type} {f : MicroOp → α} (hc : c.Consistent)
    (hstep : Step c event d) (hk : k ∈ c.inFlight) (hk' : k ∈ d.inFlight)
    (hkeep : ∀ {e op op'}, event = some e → Change c.config.lateAlloc k op e op' →
      f op' = f op) : (d.pool.get? k).map f = (c.pool.get? k).map f := by
  have hlive : c.pool.get? k ≠ none := hc.get?_ne_none hk
  have hlive' : d.pool.get? k ≠ none := (hc.step hstep).get?_ne_none hk'
  cases turnover_step hc.pool hstep with
  | quiet hadmissions hcommits hidle hpool => rw [hpool]
  | comes hpool =>
      rw [hpool.others k fun heq => hlive (heq ▸ hpool.before)]
  | @changes e h op op' d hchange hpool =>
      by_cases heq : k = h
      · subst heq
        rw [hpool.before, hpool.after, Option.map_some, Option.map_some, hkeep rfl hchange]
      · rw [hpool.others k heq]
  | goes hleave hpool =>
      rw [hpool.others k fun heq => hlive' (heq ▸ hpool.after)]

theorem Consistent.settled_step (hc : c.Consistent) (hstep : Step c event d)
    (hk : k ∈ c.inFlight) (hk' : k ∈ d.inFlight) :
    (d.pool.get? k).map MicroOp.settled = (c.pool.get? k).map MicroOp.settled :=
  hc.kept_step hstep hk hk' fun _ hchange => hchange.settled_eq

end Core

end OutOfOrder
