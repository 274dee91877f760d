/-!
# Page table entries

An Sv48 entry is a 64-bit word: flags in the low byte, a page number of
forty-four bits from bit 10 on, and ten reserved bits at the top.
-/

namespace OutOfOrder.Paging

/-- A page table entry as it lies in memory. -/
structure Entry where
  raw : UInt64
  deriving DecidableEq, Inhabited

namespace Entry

def ppnMask : UInt64 := 0xfffffffffff

/-- An entry with a page number and flags; bits that have no place in their
field are dropped. -/
def ofParts (ppn flags : UInt64) : Entry :=
  ⟨((ppn &&& ppnMask) <<< 10) ||| (flags &&& 0xff)⟩

def bit (e : Entry) (i : Nat) : Bool := e.raw.toBitVec.getLsbD i

def isValid (e : Entry) : Bool := e.bit 0

def canRead (e : Entry) : Bool := e.bit 1

def canWrite (e : Entry) : Bool := e.bit 2

def canExecute (e : Entry) : Bool := e.bit 3

def isUser (e : Entry) : Bool := e.bit 4

def isAccessed (e : Entry) : Bool := e.bit 6

def isDirty (e : Entry) : Bool := e.bit 7

/-- The entry maps a page; any other entry leads to a table of the next
level. -/
def isLeaf (e : Entry) : Bool := e.canRead || e.canWrite || e.canExecute

def hasReserved (e : Entry) : Bool := e.raw >>> 54 != 0

/-- The entry must be rejected: it is not valid, can be written but not read,
or uses a reserved bit. -/
def isMalformed (e : Entry) : Bool :=
  !e.isValid || (!e.canRead && e.canWrite) || e.hasReserved

def ppn (e : Entry) : UInt64 := (e.raw >>> 10) &&& ppnMask

end Entry

end OutOfOrder.Paging
