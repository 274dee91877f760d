import OutOfOrder.Paging.Entry
import OutOfOrder.Paging.Request

/-!
# One walk through the page tables

A walk goes down from the root table, one level at a time. At each level it
needs the entry that the address selects, and asks for it: the entry cache
first, memory if the cache does not have it. Each question is a probe, and the
walk stands still until the probe is answered.

With the entry in hand the walk ends, or goes on with the table that the entry
leads to. Nothing is known of that table yet, so at the new level the walk
always asks again.
-/

namespace OutOfOrder.Paging

inductive ProbeTarget
  | cache | memory
  deriving DecidableEq, Inhabited

/-- What has become of a probe. -/
inductive ProbeStatus
  | unsent | pending | answered
  deriving DecidableEq, Inhabited

/-- What a walk knows of the entry at its level. -/
structure Lookup where
  cache : ProbeStatus := .unsent
  memory : ProbeStatus := .unsent
  entry : Option Entry := none
  deriving DecidableEq, Inhabited

structure Walk where
  id : Nat
  request : Request
  level : Nat
  /-- The table that is indexed at this level. -/
  table : PhysAddr
  lookup : Lookup := {}
  deriving DecidableEq, Inhabited

/-- How a walk goes on: it sends a probe, waits, or ends. -/
inductive Progress
  | probe (walk : Walk) (target : ProbeTarget)
  | waiting (walk : Walk)
  | finished (outcome : Except PageFault PhysAddr)

/-- What an entry means for a walk. -/
inductive Verdict
  | descend (table : PhysAddr)
  | done (outcome : Except PageFault PhysAddr)

namespace Walk

/-- The address of the entry that is needed at this level. -/
def entryAddr (w : Walk) : PhysAddr :=
  ⟨w.table.val + entryBytes * w.request.vaddr.tableIndex w.level⟩

/-- A leaf does not grant something that the request needs. -/
def denied (r : Request) (e : Entry) : Bool :=
  (r.read && !e.canRead) || (r.write && !e.canWrite) || (r.execute && !e.canExecute)
    || (r.user && !e.isUser)

/-- The low bits of the page number that a leaf at a level leaves to the
address. -/
def spanMask (level : Nat) : UInt64 := (1 <<< UInt64.ofNat (indexBits * level)) - 1

/-- Checks a leaf and composes the address it leads to. -/
def throughLeaf (r : Request) (level : Nat) (e : Entry) : Except PageFault PhysAddr :=
  if denied r e then .error .noPermission
  else if e.ppn &&& spanMask level != 0 then .error .misaligned
  else if !e.isAccessed then .error .notAccessed
  else if r.store && !e.isDirty then .error .notDirty
  else
    let ppn := e.ppn ||| (r.vaddr.pageNumber &&& spanMask level)
    .ok ⟨(ppn <<< UInt64.ofNat pageShift) ||| r.vaddr.offset⟩

/-- Judges the entry found at this level. -/
def judge (w : Walk) (e : Entry) : Verdict :=
  if e.isMalformed then .done (.error .invalidEntry)
  else if e.isLeaf then .done (throughLeaf w.request w.level e)
  else if w.level = 0 then .done (.error .invalidEntry)
  else .descend (PhysAddr.ofPage e.ppn 0)

/-- The same walk one level down, where nothing is known yet. -/
def descend (w : Walk) (table : PhysAddr) : Walk :=
  { w with level := w.level - 1, table, lookup := {} }

/-- Asks for the entry: the cache, then memory, and then nobody is left to
ask. -/
def ask (w : Walk) : Progress :=
  if w.lookup.cache = .unsent then .probe { w with lookup.cache := .pending } .cache
  else if w.lookup.memory = .unsent then
    .probe { w with lookup.memory := .pending } .memory
  else if w.lookup.cache = .answered ∧ w.lookup.memory = .answered then
    .finished (.error .accessFault)
  else .waiting w

/-- Goes on until the walk needs an answer or ends. -/
def advance (w : Walk) : Progress :=
  match w.lookup.entry with
  | none => w.ask
  | some e =>
    match w.judge e with
    | .done outcome => .finished outcome
    | .descend table => (w.descend table).ask

/-- Takes the answer of a target; `none` if the walk is not waiting for it. An
entry that is known already stays. -/
def answer? (w : Walk) (target : ProbeTarget) (raw : Option UInt64) : Option Walk :=
  let entry := w.lookup.entry <|> raw.map Entry.mk
  match target with
  | .cache =>
    if w.lookup.cache = .pending then
      some { w with lookup := { w.lookup with cache := .answered, entry } }
    else none
  | .memory =>
    if w.lookup.memory = .pending then
      some { w with lookup := { w.lookup with memory := .answered, entry } }
    else none

end Walk

end OutOfOrder.Paging
