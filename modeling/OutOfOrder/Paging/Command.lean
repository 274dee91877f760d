import OutOfOrder.Paging.Mmu

/-!
# Runs of the translation unit

Everything that can be done to an `Mmu` from outside is one of the commands
below, and a run is a list of them. Page tables are written behind the unit's
back: a write replaces the memory as a whole, by whatever the new one is, and
leaves the cache of entries as it was. It is up to whoever writes to flush.
-/

namespace OutOfOrder.Paging

/-- Everything that can be done to an `Mmu` over a memory of type `M`. -/
inductive MmuCommand (M : Type)
  | translate (request : Request)
  | tick
  | flush
  | setRoot (rootPpn : UInt64)
  | write (memory : M)

namespace Mmu

variable {M : Type} [EntryMemory M]

/-- Carries out a command, and names the responses that it delivers. A request
that finds every walker busy is not accepted and changes nothing. -/
def perform (m : Mmu M) : MmuCommand M → List Response × Mmu M
  | .translate request =>
    match m.start? request with
    | none => ([], m)
    | some (response, m) => (response.toList, m)
  | .tick => m.tick
  | .flush => ([], m.flush)
  | .setRoot rootPpn => ([], m.setRoot rootPpn)
  | .write memory => ([], { m with memory })

/-- Carries out commands one after the other and collects the responses. -/
def run (m : Mmu M) : List (MmuCommand M) → List Response × Mmu M
  | [] => ([], m)
  | command :: rest =>
    let (responses, m) := m.perform command
    let (others, m) := m.run rest
    (responses ++ others, m)

end Mmu

/-- If there is a tick among the commands, a flush comes before it. -/
def FlushesFirst {M : Type} : List (MmuCommand M) → Prop
  | [] => True
  | .flush :: _ => True
  | .tick :: _ => False
  | _ :: rest => FlushesFirst rest

/-- Every write is followed by a flush before the next tick. -/
def FlushesBeforeTicks {M : Type} : List (MmuCommand M) → Prop
  | [] => True
  | .write _ :: rest => FlushesFirst rest ∧ FlushesBeforeTicks rest
  | _ :: rest => FlushesBeforeTicks rest

end OutOfOrder.Paging
