import OutOfOrder.Paging.Walker

/-!
# Histories of a pool of walkers

Whoever owns a pool of walkers starts walks, takes probes from the queue, moves
the root and brings answers. Nothing is assumed of the answers: a probe may be
answered twice or not at all, one may be answered that was never sent, and the
answer may be anything.

What happens to the walkers meanwhile is their history: the requests that were
accepted, the probes that were sent, the answers that were taken and the
responses that were delivered. The number of a walk is the place of its request
among the accepted ones.
-/

namespace OutOfOrder.Paging

/-- Everything that can be done to a pool of walkers. -/
inductive WalkerCommand
  | translate (request : Request)
  | popProbe
  | setRoot (rootPpn : UInt64)
  | complete (probe : Probe) (raw : Option UInt64)

/-- Something that happened to a pool of walkers. -/
inductive WalkerEvent
  | accepted (request : Request)
  | issued (probe : Probe)
  | answered (probe : Probe)
  | delivered (response : Response)

namespace Walker

/-- What happens when a walk is driven: probes join the queue, or a response is
delivered. -/
def drivenEvents (p : Walker) (driven : Option Response × Walker) : List WalkerEvent :=
  (driven.2.pending.drop p.pending.length).map .issued ++ driven.1.toList.map .delivered

/-- Carries out a command, and says what happens. A request that finds every walker
busy is not accepted, and an answer that no walk waits for is not taken. -/
def perform (p : Walker) : WalkerCommand → List WalkerEvent × Walker
  | .translate request =>
    match p.start? request with
    | none => ([], p)
    | some driven => (.accepted request :: p.drivenEvents driven, driven.2)
  | .popProbe =>
    match p.popProbe? with
    | none => ([], p)
    | some (_, p) => ([], p)
  | .setRoot rootPpn => ([], p.setRoot rootPpn)
  | .complete probe raw =>
    match p.complete? probe raw with
    | none => ([], p)
    | some driven => (.answered probe :: p.drivenEvents driven, driven.2)

def run (p : Walker) : List WalkerCommand → List WalkerEvent × Walker
  | [] => ([], p)
  | command :: rest =>
    let (events, p) := p.perform command
    let (others, p) := p.run rest
    (events ++ others, p)

end Walker

/-- Both probes ask the same target for the same walk at the same level, so an answer
to one is an answer to the other. -/
def Probe.sameAs (q r : Probe) : Bool :=
  q.slot == r.slot && q.walk == r.walk && q.level == r.level && q.target == r.target

namespace WalkerEvent

def request? : WalkerEvent → Option Request
  | accepted request => some request
  | _ => none

def response? : WalkerEvent → Option Response
  | delivered response => some response
  | _ => none

def answers (walk : Nat) : WalkerEvent → Bool
  | answered probe => probe.walk == walk
  | _ => false

def requests (past : List WalkerEvent) : List Request := past.filterMap request?

def responses (past : List WalkerEvent) : List Response := past.filterMap response?

/-- The probes that are out after an event. -/
def settle (out : List Probe) : WalkerEvent → List Probe
  | issued probe => out ++ [probe]
  | answered probe => out.filter fun q => !q.sameAs probe
  | _ => out

/-- The probes that were sent and not answered, in the order of their sending. -/
def outstanding (past : List WalkerEvent) : List Probe := past.foldl settle []

@[simp]
theorem requests_append (first second : List WalkerEvent) :
    requests (first ++ second) = requests first ++ requests second :=
  List.filterMap_append

@[simp]
theorem responses_append (first second : List WalkerEvent) :
    responses (first ++ second) = responses first ++ responses second :=
  List.filterMap_append

theorem outstanding_append (first second : List WalkerEvent) :
    outstanding (first ++ second) = second.foldl settle (outstanding first) :=
  List.foldl_append

end WalkerEvent

end OutOfOrder.Paging
