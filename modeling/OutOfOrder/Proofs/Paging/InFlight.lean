import OutOfOrder.Proofs.Paging.Timeline
import OutOfOrder.Proofs.Paging.Translation

/-!
# Each busy walker has one probe in flight

A probe moves from the queue of the walkers to the way, from there into the
batch that a tick answers, and while the batch is worked off the walks that are
answered ask again. Wherever a probe is, it is one that its history calls
outstanding, and of those `ProbesOnce` knows that each busy slot has one. So the
three places together hold a rearrangement of the outstanding probes
(`Walker.Attended`), and it remains to see that answering one takes just that one
away.

Between commands the queue and the batch are empty, so all is said about the
probes in flight. That no answer of a tick is refused follows at every point of
the batch, also after earlier answers have freed slots.
-/

namespace OutOfOrder.Paging

open WalkerEvent

namespace Walker

variable {p p' : Walker} {past events : List WalkerEvent} {out out' : List Probe} {q : Probe}

theorem ProbesOnce.mem_outstanding (hp : ProbesOnce past p) {s : Nat} {w : Walk}
    (hw : p.walk? s = some w) : probeOf s w w.awaits ∈ outstanding past := by
  have hmem := List.mem_singleton_self (probeOf s w w.awaits)
  rw [← hp.probe s w hw] at hmem
  exact (List.mem_filter.1 hmem).1

/-- A probe that is out is the one of the walk in its slot. -/
theorem ProbesOnce.eq_probeOf (hp : ProbesOnce past p) (hq : q ∈ outstanding past) :
    ∃ w, p.walk? q.slot = some w ∧ q = probeOf q.slot w w.awaits := by
  obtain ⟨w, hw⟩ := Option.ne_none_iff_exists'.1 (hp.idle q hq)
  have hmem : q ∈ (outstanding past).filter (·.slot == q.slot) :=
    List.mem_filter.2 ⟨hq, beq_self_eq_true q.slot⟩
  rw [hp.probe q.slot w hw] at hmem
  exact ⟨w, hw, List.mem_singleton.1 hmem⟩

/-- An answer takes the probe of one walk out and leaves the others. -/
theorem ProbesOnce.perm_answered (hp : ProbesOnce past p) {w : Walk}
    (hw : p.walk? q.slot = some w) (hq : (probeOf q.slot w w.awaits).sameAs q = true) :
    (outstanding past).Perm
      (probeOf q.slot w w.awaits :: (outstanding past).filter fun r => !r.sameAs q) := by
  have hslot : ∀ r : Probe, (r.sameAs q && r.slot == q.slot) = r.sameAs q := by
    intro r
    rw [Probe.sameAs]
    cases r.slot == q.slot <;> simp
  have hsame : (outstanding past).filter (·.sameAs q) = [probeOf q.slot w w.awaits] := by
    have hpick := congrArg (List.filter (·.sameAs q)) (hp.probe q.slot w hw)
    rw [List.filter_filter, funext hslot] at hpick
    rw [hpick]
    exact List.filter_cons_of_pos hq
  have hsplit := List.filter_append_perm (·.sameAs q) (outstanding past)
  rw [hsame] at hsplit
  exact hsplit.symm

theorem length_outstanding (hp : ProbesOnce past p) (hcall : Called p events p')
    (hcount : (outstanding past).length = p.busy) :
    (outstanding (past ++ events)).length = p'.busy := by
  rw [outstanding_append]
  cases hcall with
  | idle hslots hnext =>
      rw [busy, hslots]
      exact hcount
  | begins hslot hid hrequest hrounds hwaits hslots hnext =>
      have hbusy : p'.busy + 0 = p.busy + 1 := busy_set hslots hslot
      simp only [List.foldl_cons, List.foldl_nil, settle, List.length_append,
        List.length_singleton]
      omega
  | @proceeds p' probe w w' hw hprobe hproceeds hslots hnext =>
      have hbusy : p'.busy + 1 = p.busy + 1 := busy_set hslots (lt_size_of_walk? hw).1
      have hlength := (hp.perm_answered hw hprobe).length_eq
      simp only [List.length_cons] at hlength
      simp only [List.foldl_cons, List.foldl_nil, settle, List.length_append,
        List.length_singleton]
      omega
  | @ends p' probe w outcome hw hprobe hslots hnext =>
      have hbusy : p'.busy + 1 = p.busy + 0 := busy_set hslots (lt_size_of_walk? hw).1
      have hlength := (hp.perm_answered hw hprobe).length_eq
      simp only [List.length_cons] at hlength
      simp only [List.foldl_cons, List.foldl_nil, settle]
      omega

/-- What a walk does when it is driven leaves its probes out. -/
theorem foldl_settle_events (out : List Probe) (slot : Nat) (w : Walk) :
    (w.events slot).foldl settle out = out ++ sent (w.events slot) := by
  cases hadvance : w.advance with
  | probe w' target =>
      rw [Walk.events_of_probe hadvance]
      rfl
  | waiting w' =>
      rw [Walk.events, Walk.sends, Walk.reply?, hadvance]
      exact (List.append_nil out).symm
  | finished outcome =>
      rw [Walk.events_of_finished hadvance]
      exact (List.append_nil out).symm

theorem outstanding_translate (past : List WalkerEvent) (p : Walker) (request : Request) :
    outstanding (past ++ (p.perform (.translate request)).1) =
      outstanding past ++ sent (p.perform (.translate request)).1 := by
  rw [outstanding_append, perform_translate]
  cases p.freeSlot? with
  | none => exact (List.append_nil _).symm
  | some slot => exact foldl_settle_events _ slot _

theorem outstanding_complete {raw : Option UInt64} (htaken : p.complete? q raw ≠ none)
    (past : List WalkerEvent) :
    outstanding (past ++ (p.perform (.complete q raw)).1) =
      ((outstanding past).filter fun r => !r.sameAs q)
        ++ sent (p.perform (.complete q raw)).1 := by
  rw [outstanding_append, perform_complete]
  rw [complete?_eq, Ne, Option.map_eq_none_iff] at htaken
  cases htakes : (p.walk? q.slot).bind (Walk.takes? q raw) with
  | none => exact absurd htakes htaken
  | some w => exact foldl_settle_events _ q.slot w

/-- The probes `out` are those that the walks in the slots wait for, one each. -/
structure Attended (past : List WalkerEvent) (p : Walker) (out : List Probe) : Prop where
  answers : AnswersOnce past p
  probes : ProbesOnce past p
  out : out.Perm (outstanding past)
  count : (outstanding past).length = p.busy

namespace Attended

theorem withSlots (count : Nat) (rootPpn : UInt64) :
    Attended [] (Walker.withSlots count rootPpn) [] where
  answers := .withSlots count rootPpn
  probes := .withSlots count rootPpn
  out := .refl []
  count := by
    rw [busy, Walker.withSlots, Array.countP_replicate]
    rfl

theorem called (h : Attended past p out) (hcall : Called p events p')
    (hout : out'.Perm (outstanding (past ++ events))) : Attended (past ++ events) p' out' where
  answers := h.answers.called hcall
  probes := h.probes.called h.answers hcall
  out := hout
  count := length_outstanding h.probes hcall h.count

theorem perm (h : Attended past p out) (hout : out'.Perm out) : Attended past p out' where
  answers := h.answers
  probes := h.probes
  out := hout.trans h.out
  count := h.count

/-- Only the slots matter, and the number of the next walk. -/
theorem of_slots (h : Attended past p out) (hslots : p'.slots = p.slots)
    (hnext : p'.nextWalk = p.nextWalk) : Attended past p' out := by
  have hcalled : Attended (past ++ []) p' out :=
    h.called (.idle hslots hnext) ((List.append_nil past).symm ▸ h.out)
  rwa [List.append_nil] at hcalled

theorem translate (h : Attended past p out) (request : Request) :
    Attended (past ++ (p.perform (.translate request)).1) (p.perform (.translate request)).2
      (out ++ sent (p.perform (.translate request)).1) := by
  refine h.called (called_translate p request) ?_
  rw [outstanding_translate]
  exact h.out.append_right _

theorem complete?_ne_none (h : Attended past p (q :: out)) (raw : Option UInt64) :
    p.complete? q raw ≠ none :=
  h.probes.complete?_ne_none (h.out.subset List.mem_cons_self) raw

/-- The walk that waits for the probe at the head takes the answer to it. -/
theorem complete (h : Attended past p (q :: out)) (raw : Option UInt64) :
    Attended (past ++ (p.perform (.complete q raw)).1) (p.perform (.complete q raw)).2
      (out ++ sent (p.perform (.complete q raw)).1) := by
  refine h.called (called_complete h.probes.waits q raw) ?_
  rw [outstanding_complete (h.complete?_ne_none raw)]
  obtain ⟨w, hw, hq⟩ := h.probes.eq_probeOf (h.out.subset List.mem_cons_self)
  have hself : (probeOf q.slot w w.awaits).sameAs q = true := by
    rw [← hq]
    simp [Probe.sameAs]
  have hperm := h.out.trans (h.probes.perm_answered hw hself)
  rw [← hq] at hperm
  exact hperm.cons_inv.append_right _

/-- A slot that is busy has one probe out, and no other slot has any. -/
theorem filter_slot (h : Attended past p out) {s : Nat} {w : Walk} (hw : p.walk? s = some w) :
    out.filter (·.slot == s) = [probeOf s w w.awaits] := by
  have hperm := h.out.filter (·.slot == s)
  rw [h.probes.probe s w hw] at hperm
  exact hperm.eq_singleton

theorem walk?_ne_none (h : Attended past p out) (hq : q ∈ out) : p.walk? q.slot ≠ none :=
  h.probes.idle q (h.out.subset hq)

theorem length_eq (h : Attended past p out) : out.length = p.busy :=
  h.out.length_eq.trans h.count

end Attended

theorem capacity_perform (p : Walker) (command : WalkerCommand) :
    (p.perform command).2.capacity = p.capacity := by
  have hdrive : ∀ (p : Walker) slot w, (p.drive slot w).2.capacity = p.capacity := by
    intro p slot w
    rw [drive_eq]
    exact Array.size_setIfInBounds
  cases command with
  | translate request =>
      rw [perform_translate]
      cases p.freeSlot? with
      | none => rfl
      | some slot => exact hdrive _ slot _
  | popProbe =>
      rw [perform, popProbe?]
      cases p.pending <;> rfl
  | setRoot rootPpn => rfl
  | complete probe raw =>
      rw [perform_complete]
      cases (p.walk? probe.slot).bind (Walk.takes? probe raw) with
      | none => rfl
      | some w => exact hdrive p probe.slot w

/-- A request is refused if no walker is free. -/
theorem start?_eq_none_iff (p : Walker) (request : Request) :
    p.start? request = none ↔ p.busy = p.capacity := by
  rw [start?, Option.map_eq_none_iff, freeSlot?, Array.findIdx?_eq_none_iff, busy, capacity,
    Array.countP_eq_size]
  simp only [Option.isNone_eq_false_iff]

end Walker

namespace Mmu

variable {M : Type} [EntryMemory M] {m : Mmu M} {ready : List Probe} {past : List WalkerEvent}

omit [EntryMemory M]

/-- The probes that are not answered yet, of which a tick is about to answer `ready`. -/
def unanswered (m : Mmu M) (ready : List Probe) : List Probe :=
  ready ++ m.probes ++ m.walker.pending

theorem unanswered_collect (m : Mmu M) (ready : List Probe) :
    m.collect.unanswered ready = m.unanswered ready := by
  rw [unanswered, probes_collect, unanswered]
  exact (List.append_nil _).trans (List.append_assoc _ _ _).symm

/-- A tick takes the probes that are due from those on the way. -/
theorem unanswered_begun (m : Mmu M) : (m.begun.unanswered m.ready).Perm (m.unanswered []) := by
  refine List.Perm.append_right _ ?_
  rw [ready, probes, begun, List.nil_append, probes, ← List.map_append]
  exact (List.filter_append_perm _ m.inFlight).map _

/-- What walks ask comes after all that was asked before. -/
theorem unanswered_of_pending (m m' : Mmu M) (ready : List Probe) {sent : List Probe}
    (hflight : m'.inFlight = m.inFlight)
    (hpending : m'.walker.pending = m.walker.pending ++ sent) :
    m'.unanswered ready = m.unanswered ready ++ sent := by
  rw [unanswered, unanswered, probes, probes, hflight, hpending, List.append_assoc,
    List.append_assoc, List.append_assoc]

variable [EntryMemory M]

/-- Whatever the unit is told, each walk has one probe that is not answered. The
history may have begun before the run. -/
theorem preserved_attended (earlier : List WalkerEvent) :
    Preserved fun past (m : Mmu M) ready =>
      m.walker.Attended (earlier ++ past.map Prod.snd) (m.unanswered ready) where
  starts := by
    intro past m request hpending h
    rw [List.map_append, snd_map_mk, ← List.append_assoc]
    refine (h.translate request).perm (.of_eq ?_)
    exact m.unanswered_of_pending _ [] rfl (m.walker.pending_translate request)
  begins := by
    intro past m hpending h
    exact (h.perm m.unanswered_begun).of_slots rfl rfl
  serves := by
    intro past m probe ready h
    rw [List.map_append, snd_map_mk, ← List.append_assoc, serve_snd]
    refine (h.complete _).perm (.of_eq ?_)
    exact m.unanswered_of_pending _ ready rfl (m.walker.pending_complete probe _)
  collects := by
    intro past m h
    rw [unanswered_collect]
    exact h.of_slots rfl rfl
  changes := by
    intro past m root cache memory h
    exact h.of_slots rfl rfl

theorem preserved_capacity (count : Nat) :
    Preserved fun _ (m : Mmu M) _ => m.walker.capacity = count where
  starts := fun request _ h => (Walker.capacity_perform _ _).trans h
  begins := fun _ h => h
  serves := by
    intro past m probe ready h
    rw [serve_snd]
    exact (Walker.capacity_perform _ _).trans h
  collects := fun h => h
  changes := fun _ _ _ h => h

omit [EntryMemory M] in
/-- What a unit with valid parameters starts as. -/
theorem eq_of_create {config : MmuConfig} {memory : M} (h : create config memory = .ok m) :
    m = { walker := .withSlots config.walkers config.rootPpn
          cache := .withSize config.cacheEntries
          memory
          cacheLatency := config.cacheLatency
          memoryLatency := config.memoryLatency } := by
  rw [create] at h
  cases hvalid : config.validate with
  | error e => rw [hvalid] at h; cases h
  | ok u =>
      rw [hvalid] at h
      exact (Except.ok.inj h).symm

theorem attended_run {config : MmuConfig} {memory : M} {start : Mmu M}
    (hstart : create config memory = .ok start) (commands : List (MmuCommand M)) :
    (start.run commands).2.walker.Attended ((start.timeline commands).map Prod.snd)
        (start.run commands).2.probes ∧
      (start.run commands).2.walker.pending = [] := by
  have heq := eq_of_create hstart
  have hfresh : start.walker.pending = [] ∧ start.walker.Attended [] (start.unanswered []) := by
    rw [heq]
    exact ⟨rfl, .withSlots config.walkers config.rootPpn⟩
  have hattended := (preserved_attended []).run [] hfresh.1 hfresh.2 commands
  have hpending := pending_run hfresh.1 commands
  rw [unanswered, hpending, List.append_nil, List.nil_append] at hattended
  exact ⟨hattended, hpending⟩

/-- The probes in flight are one for each busy walker. -/
structure OneInFlight (config : MmuConfig) (m : Mmu M) : Prop where
  /-- No probe waits to be sent. -/
  pending : m.walker.pending = []
  /-- A busy slot has one probe in flight, for its walk at its level. -/
  probe : ∀ s w, m.walker.walk? s = some w →
    m.probes.filter (·.slot == s) = [Walker.probeOf s w w.awaits]
  /-- A free slot has none. -/
  idle : ∀ q ∈ m.probes, m.walker.walk? q.slot ≠ none
  count : m.inFlight.length = m.walker.busy
  /-- When the next tick comes to a probe, the answer to it is taken, whatever the tick
  has answered before. -/
  taken : ∀ answered q later, m.ready = answered ++ q :: later →
    let m' := (m.begun.serveAll answered).2
    m'.walker.complete? q (m'.resolve q).1 ≠ none
  isIdle : m.isIdle = true ↔ m.walker.busy = 0
  refused : ∀ request, m.start? request = none ↔ m.inFlight.length = config.walkers

/-- Whatever a unit has been told, between two commands its probes in flight are one
for each busy walker. -/
theorem one_probe_in_flight_per_busy_walker {config : MmuConfig} {memory : M} {start : Mmu M}
    (hstart : create config memory = .ok start) (commands : List (MmuCommand M)) :
    OneInFlight config (start.run commands).2 := by
  obtain ⟨hattended, hpending⟩ := attended_run hstart commands
  have hcapacity : (start.run commands).2.walker.capacity = config.walkers := by
    have heq := eq_of_create hstart
    have hfresh : start.walker.pending = [] ∧ start.walker.capacity = config.walkers := by
      rw [heq]
      exact ⟨rfl, Array.size_replicate⟩
    exact (preserved_capacity config.walkers).run [] hfresh.1 hfresh.2 commands
  have hcount : (start.run commands).2.inFlight.length = (start.run commands).2.walker.busy := by
    rw [← hattended.length_eq, probes, List.length_map]
  refine {
    pending := hpending
    probe := fun s w hw => hattended.filter_slot hw
    idle := fun q hq => hattended.walk?_ne_none hq
    count := hcount
    taken := fun answered q later hready => ?_
    isIdle := ?_
    refused := fun request => ?_ }
  · -- The tick has begun and answered some of its probes, and the law holds there too.
    have hlaw := preserved_attended (M := M) []
    have hbegun := hlaw.begins hpending (by
      rw [unanswered, hpending, List.append_nil, List.nil_append]
      exact hattended)
    rw [hready] at hbegun
    exact (hlaw.serveAll hbegun).complete?_ne_none _
  · rw [Mmu.isIdle, ← hcount]
    simp
  · rw [start?, Option.map_eq_none_iff, Walker.start?_eq_none_iff, hcapacity, hcount]

/-- A walk ends and its slot is taken over while another walk waits for memory. -/
theorem two_in_flight_after_reuse :
    let config : MmuConfig := { walkers := 2, cacheEntries := 1, memoryLatency := 2 }
    let start : Mmu (PhysAddr → Option UInt64) :=
      { walker := .withSlots 2 config.rootPpn, cache := .withSize 1, memory := fun _ => none,
        cacheLatency := config.cacheLatency, memoryLatency := 2 }
    let commands : List (MmuCommand (PhysAddr → Option UInt64)) :=
      [.translate (.toLoad 5 ⟨0⟩), .tick, .translate (.toLoad 6 ⟨0⟩), .tick, .setRoot 7, .tick,
        .translate (.toLoad 7 ⟨0⟩)]
    let m := (start.run commands).2
    create config (fun _ => none) = .ok start ∧ OneInFlight config m ∧
      m.probes.map Probe.walk = [1, 2] ∧ m.probes.map Probe.slot = [1, 0] ∧
        m.walker.busy = 2 := by
  intro config start commands m
  have hstart : create config (fun _ => none) = .ok start := rfl
  refine ⟨hstart, one_probe_in_flight_per_busy_walker hstart commands, ?_, ?_, ?_⟩ <;>
    decide +kernel

end Mmu

end OutOfOrder.Paging
