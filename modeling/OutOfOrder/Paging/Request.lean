import OutOfOrder.Paging.Address

/-!
# Requests, and their outcomes

A request says which virtual address is to be resolved and what the access
needs. It is answered once, by a physical address or by the fault that ended
its walk.
-/

namespace OutOfOrder.Paging

/-- Why an address could not be resolved. -/
inductive PageFault
  /-- Neither the cache nor memory had an entry. -/
  | accessFault
  /-- An entry is malformed, or the last level has no leaf. -/
  | invalidEntry
  | noPermission
  /-- The leaf of a large page has low bits in its page number. -/
  | misaligned
  /-- The leaf has never been accessed. -/
  | notAccessed
  /-- A store met a leaf that is not dirty. -/
  | notDirty
  deriving DecidableEq, Inhabited

def PageFault.message : PageFault → String
  | accessFault => "page table entry not found in L1 TLB or memory"
  | invalidEntry => "invalid page table entry"
  | noPermission => "insufficient page permissions"
  | misaligned => "misaligned superpage"
  | notAccessed => "page accessed bit clear"
  | notDirty => "page dirty bit clear on store"

/-- What is to be resolved, and what for. -/
structure Request where
  id : Nat
  vaddr : VirtAddr
  read : Bool := false
  write : Bool := false
  execute : Bool := false
  user : Bool := false
  /-- The access is a store, which needs a dirty page. -/
  store : Bool := false
  deriving DecidableEq, Inhabited

namespace Request

def toLoad (id : Nat) (vaddr : VirtAddr) : Request := { id, vaddr, read := true }

def toStore (id : Nat) (vaddr : VirtAddr) : Request :=
  { id, vaddr, write := true, store := true }

def toFetch (id : Nat) (vaddr : VirtAddr) : Request := { id, vaddr, execute := true }

def fromUser (r : Request) : Request := { r with user := true }

end Request

/-- The answer to a request. Requests may share an identifier, so it also says
which walk it ends: a request is answered by the walk that was started for it. -/
structure Response where
  walk : Nat
  id : Nat
  outcome : Except PageFault PhysAddr

end OutOfOrder.Paging
