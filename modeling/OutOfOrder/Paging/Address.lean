/-!
# Addresses

Virtual and physical addresses are 64-bit words of two types, so that one is
never taken for the other. A page has 4096 bytes. A virtual address is cut into
the offset in its page and, above it, one table index of nine bits per level;
level 3 indexes the root table.
-/

namespace OutOfOrder.Paging

structure VirtAddr where
  val : UInt64
  deriving DecidableEq, Inhabited

structure PhysAddr where
  val : UInt64
  deriving DecidableEq, Inhabited

def pageShift : Nat := 12

def indexBits : Nat := 9

def entryBytes : UInt64 := 8

/-- The level at which every walk starts. -/
def rootLevel : Nat := 3

/-- The low twelve bits of a word. -/
def offsetMask : UInt64 := 0xfff

namespace VirtAddr

def offset (a : VirtAddr) : UInt64 := a.val &&& offsetMask

/-- The address without the place in the page. -/
def pageNumber (a : VirtAddr) : UInt64 := a.val >>> UInt64.ofNat pageShift

def tableIndex (a : VirtAddr) (level : Nat) : UInt64 :=
  (a.val >>> UInt64.ofNat (pageShift + level * indexBits)) &&& 0x1ff

end VirtAddr

/-- The address of a place in a page; bits of the page number that do not fit
are lost. -/
def PhysAddr.ofPage (ppn offset : UInt64) : PhysAddr :=
  ⟨(ppn <<< UInt64.ofNat pageShift) ||| (offset &&& offsetMask)⟩

end OutOfOrder.Paging
