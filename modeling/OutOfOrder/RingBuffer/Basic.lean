/-!
# A bounded first-in first-out queue

A fixed array of slots is used as a ring: entries are appended at `tail`,
taken from `head`, and both indices wrap. An empty ring and a full one have
the same indices and differ in `count`, which is why it is kept.

`toList` is what the ring holds, oldest first. It is what the rest of the
library means by "the entries of a ring".
-/

namespace OutOfOrder

structure RingBuffer (α : Type) where
  slots : Array (Option α)
  /-- Where the oldest entry is. -/
  head : Nat
  /-- Where the next entry goes. -/
  tail : Nat
  /-- How many entries there are. -/
  count : Nat

namespace RingBuffer

variable {α : Type}

def withCapacity (capacity : Nat) : RingBuffer α where
  slots := Array.replicate capacity none
  head := 0
  tail := 0
  count := 0

def capacity (r : RingBuffer α) : Nat := r.slots.size

def size (r : RingBuffer α) : Nat := r.count

def isEmpty (r : RingBuffer α) : Bool := r.count == 0

def isFull (r : RingBuffer α) : Bool := r.count == r.capacity

/-- Appends an entry; `none` if the ring is full. The capacity is positive
wherever it is divided by, because a ring without slots is full. -/
def push? (r : RingBuffer α) (a : α) : Option (RingBuffer α) :=
  if r.isFull then none
  else some { r with
    slots := r.slots.setIfInBounds r.tail (some a)
    tail := (r.tail + 1) % r.capacity
    count := r.count + 1 }

/-- Appends an entry, or drops it if the ring is full. -/
def push (r : RingBuffer α) (a : α) : RingBuffer α := (r.push? a).getD r

def top? (r : RingBuffer α) : Option α :=
  if r.isEmpty then none else r.slots[r.head]?.join

/-- Removes the oldest entry, if there is one. -/
def pop (r : RingBuffer α) : RingBuffer α :=
  if r.isEmpty then r
  else { r with
    slots := r.slots.setIfInBounds r.head none
    head := (r.head + 1) % r.capacity
    count := r.count - 1 }

/-- The entry `offset` places younger than the oldest. -/
def get? (r : RingBuffer α) (offset : Nat) : Option α :=
  if offset < r.count then r.slots[(r.head + offset) % r.capacity]?.join else none

def toList (r : RingBuffer α) : List α := (List.range r.count).filterMap r.get?

end RingBuffer

end OutOfOrder
