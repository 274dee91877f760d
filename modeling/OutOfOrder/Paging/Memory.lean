import OutOfOrder.Paging.Address
import Std.Data.HashMap

/-!
# Memory that holds page tables

A walk reads memory one entry at a time and may find that an address is not
backed at all. Any function from addresses to entries is such a memory. A
region is one that is given by its bounds and the words written into it: it
backs every address inside, also those never written, which read as zero.
-/

namespace OutOfOrder.Paging

/-- Something that page tables can be read from. -/
class EntryMemory (M : Type) where
  read : M → PhysAddr → Option UInt64

instance : EntryMemory (PhysAddr → Option UInt64) where
  read m a := m a

/-- A region of memory. -/
structure PageMemory where
  base : UInt64
  size : UInt64
  /-- The words written, by the address of their first byte. -/
  words : Std.HashMap UInt64 UInt64 := {}

namespace PageMemory

/-- Whether an address lies in the region. The difference is only taken of
addresses from the base on, so the region may reach up to the last address. -/
def contains (m : PageMemory) (a : PhysAddr) : Bool :=
  m.base ≤ a.val && a.val - m.base < m.size

def wordOf (a : PhysAddr) : UInt64 := a.val - a.val % entryBytes

def write? (m : PageMemory) (a : PhysAddr) (raw : UInt64) : Option PageMemory :=
  if m.contains a then some { m with words := m.words.insert (wordOf a) raw } else none

def read (m : PageMemory) (a : PhysAddr) : Option UInt64 :=
  if m.contains a then some (m.words.getD (wordOf a) 0) else none

instance : EntryMemory PageMemory where
  read := PageMemory.read

end PageMemory

end OutOfOrder.Paging
