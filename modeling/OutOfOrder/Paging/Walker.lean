import OutOfOrder.Paging.Walk

/-!
# A pool of walkers

A fixed number of slots, each free or busy with one walk. A request takes the
first free slot; probes leave through a common queue, and whoever serves them
brings the answers back. An answer is taken only by the walk that waits for
it: a probe names its slot, walk, level and target, and if one of them does not
fit, the answer is refused and nothing changes.
-/

namespace OutOfOrder.Paging

/-- A question for the entry at an address. -/
structure Probe where
  slot : Nat
  walk : Nat
  level : Nat
  target : ProbeTarget
  addr : PhysAddr
  deriving DecidableEq, Inhabited

structure Walker where
  slots : Array (Option Walk)
  /-- The table at which the next walk starts. -/
  root : PhysAddr
  /-- Probes that nobody has taken yet, oldest first. -/
  pending : List Probe := []
  /-- The number of the next walk. -/
  nextWalk : Nat := 0

namespace Walker

/-- A pool of `count` free slots over the table in page `rootPpn`. -/
def withSlots (count : Nat) (rootPpn : UInt64) : Walker where
  slots := Array.replicate count none
  root := PhysAddr.ofPage rootPpn 0

/-- Has later walks start at another table. -/
def setRoot (p : Walker) (rootPpn : UInt64) : Walker :=
  { p with root := PhysAddr.ofPage rootPpn 0 }

def capacity (p : Walker) : Nat := p.slots.size

/-- The walk in a slot; there is none in a slot out of range. -/
def walk? (p : Walker) (slot : Nat) : Option Walk := p.slots[slot]?.join

def freeSlot? (p : Walker) : Option Nat := p.slots.findIdx? Option.isNone

def hasFree (p : Walker) : Bool := p.slots.any Option.isNone

def busy (p : Walker) : Nat := p.slots.countP Option.isSome

def level? (p : Walker) (slot : Nat) : Option Nat := (p.walk? slot).map Walk.level

def popProbe? (p : Walker) : Option (Probe × Walker) :=
  match p.pending with
  | [] => none
  | probe :: pending => some (probe, { p with pending })

/-- The probe that a walk in a slot sends to a target. -/
def probeOf (slot : Nat) (w : Walk) (target : ProbeTarget) : Probe where
  slot
  walk := w.id
  level := w.level
  target
  addr := w.entryAddr

/-- Has a walk go on in its slot. A walk that ends frees the slot and is
answered. -/
def drive (p : Walker) (slot : Nat) (w : Walk) : Option Response × Walker :=
  match w.advance with
  | .probe w target =>
    (none, { p with
      slots := p.slots.setIfInBounds slot (some w)
      pending := p.pending ++ [probeOf slot w target] })
  | .waiting w => (none, { p with slots := p.slots.setIfInBounds slot (some w) })
  | .finished outcome =>
    (some ⟨w.id, w.request.id, outcome⟩, { p with slots := p.slots.setIfInBounds slot none })

/-- Starts a walk for a request in the first free slot; `none` if every walker is
busy. -/
def start? (p : Walker) (request : Request) : Option (Option Response × Walker) :=
  p.freeSlot?.map fun slot =>
    { p with nextWalk := p.nextWalk + 1 }.drive slot
      { id := p.nextWalk, request, level := rootLevel, table := p.root }

/-- Brings the answer to a probe; `none` if no walk waits for it. -/
def complete? (p : Walker) (probe : Probe) (raw : Option UInt64) :
    Option (Option Response × Walker) :=
  match p.walk? probe.slot with
  | none => none
  | some w =>
    if w.id = probe.walk ∧ w.level = probe.level then
      (w.answer? probe.target raw).map (p.drive probe.slot)
    else none

end Walker

end OutOfOrder.Paging
