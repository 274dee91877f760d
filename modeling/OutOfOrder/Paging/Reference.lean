import OutOfOrder.Paging.Entry
import OutOfOrder.Paging.Request

/-!
# The page tables read in one go

What resolving an address means, without walkers, probes or time: the tables are read
from the root down, one entry per level, by arithmetic on natural numbers. The
walkers are to arrive at the same outcome in their own way.
-/

namespace OutOfOrder.Paging.Reference

/-- The address in a table of the entry that `va` selects at a level. -/
def entryAddr (va table level : Nat) : PhysAddr :=
  ⟨UInt64.ofNat (table + 8 * (va / Nat.pow 2 (12 + 9 * level) % 512))⟩

def ppn (raw : UInt64) : Nat := raw.toNat / Nat.pow 2 10 % Nat.pow 2 44

def bit (raw : UInt64) (i : Nat) : Bool := raw.toNat / Nat.pow 2 i % 2 == 1

def malformed (raw : UInt64) : Bool :=
  !bit raw 0 || (bit raw 2 && !bit raw 1) || raw.toNat / Nat.pow 2 54 != 0

def leaf (raw : UInt64) : Bool := bit raw 1 || bit raw 2 || bit raw 3

def granted (r : Request) (raw : UInt64) : Bool :=
  (!r.read || bit raw 1) && (!r.write || bit raw 2) && (!r.execute || bit raw 3)
    && (!r.user || bit raw 4)

/-- The outcome at a leaf of a level. -/
def atLeaf (r : Request) (level : Nat) (raw : UInt64) : Except PageFault PhysAddr :=
  if !granted r raw then .error .noPermission
  else if ppn raw % Nat.pow 2 (9 * level) ≠ 0 then .error .misaligned
  else if !bit raw 6 then .error .notAccessed
  else if r.store && !bit raw 7 then .error .notDirty
  else .ok ⟨UInt64.ofNat
    (ppn raw * 4096 + r.vaddr.val.toNat % Nat.pow 2 (12 + 9 * level))⟩

/-- The outcome from a level down, whose table starts at `table`. -/
def walkFrom (read : PhysAddr → Option UInt64) (r : Request) (table : Nat) :
    Nat → Except PageFault PhysAddr
  | 0 =>
    match read (entryAddr r.vaddr.val.toNat table 0) with
    | none => .error .accessFault
    | some raw =>
      if malformed raw || !leaf raw then .error .invalidEntry else atLeaf r 0 raw
  | level + 1 =>
    match read (entryAddr r.vaddr.val.toNat table (level + 1)) with
    | none => .error .accessFault
    | some raw =>
      if malformed raw then .error .invalidEntry
      else if leaf raw then atLeaf r (level + 1) raw
      else walkFrom read r (ppn raw * 4096) level

/-- The outcome of a request over the tables under a root. -/
def walk (read : PhysAddr → Option UInt64) (root : PhysAddr) (r : Request) :
    Except PageFault PhysAddr :=
  walkFrom read r root.val.toNat rootLevel

end OutOfOrder.Paging.Reference
