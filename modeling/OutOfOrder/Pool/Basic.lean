import OutOfOrder.MicroOp

/-!
# The pool of live micro-operations

Every micro-operation in flight lives in one slot of the pool. A slot that is
given back goes on top of the free list and is the first to be taken again;
when no slot is free the pool grows by one.

The pool is read through `get?`, which resolves a handle to the operation in
its slot if that operation carries the handle's identifier. All changes are
described by what they do to `get?`.
-/

namespace OutOfOrder

/-- Slots, and the indices of the empty ones with the next to be taken in
front. -/
structure Pool where
  slots : Array (Option MicroOp)
  free : List Nat

namespace Pool

def withCapacity (capacity : Nat) : Pool where
  slots := Array.replicate capacity none
  free := List.range capacity

/-- Number of live operations. -/
def size (p : Pool) : Nat := p.slots.size - p.free.length

def isEmpty (p : Pool) : Bool := p.size == 0

def get? (p : Pool) (h : Handle) : Option MicroOp :=
  (p.slots[h.slot]?.join).filter (·.id == h.id)

/-- Stores an operation and names it. -/
def insert (p : Pool) (op : MicroOp) : Handle × Pool :=
  match p.free with
  | slot :: free =>
    (⟨slot, op.id⟩, { slots := p.slots.setIfInBounds slot (some op), free })
  | [] => (⟨p.slots.size, op.id⟩, { p with slots := p.slots.push (some op) })

def modify (p : Pool) (h : Handle) (f : MicroOp → MicroOp) : Pool :=
  match p.get? h with
  | some op => { p with slots := p.slots.setIfInBounds h.slot (some (f op)) }
  | none => p

def erase (p : Pool) (h : Handle) : Pool :=
  match p.get? h with
  | some _ => { slots := p.slots.setIfInBounds h.slot none, free := h.slot :: p.free }
  | none => p

/-- Releases the operation that `h` names and hands it back. -/
def take? (p : Pool) (h : Handle) : Option (MicroOp × Pool) :=
  (p.get? h).map fun op => (op, p.erase h)

end Pool

end OutOfOrder
