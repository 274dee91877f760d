import OutOfOrder.Paging.Timeline
import OutOfOrder.Proofs.Paging.Independence

/-!
# A run of the translation unit, probe by probe

A law about the unit has to hold between two answers of one tick, where some of
the ready probes are answered and the walks have already asked again. So a law
speaks of a history, a unit and the probes that the tick at hand has yet to
answer (`Preserved`). It is enough to look at the four things that a command is
made of: a request starts a walk, a tick begins, one probe is answered, and what
was asked is sent on its way. The inductions over ticks and runs are made here,
once.
-/

namespace OutOfOrder.Paging

open WalkerEvent

namespace Walker

theorem responses_drivenEvents (p : Walker) (driven : Option Response × Walker) :
    responses (p.drivenEvents driven) = driven.1.toList := by
  have hissued : ∀ probes : List Probe, responses (probes.map .issued) = [] := fun probes =>
    List.filterMap_eq_nil_iff.2 (by simp [response?])
  rw [drivenEvents, responses_append, hissued]
  cases driven.1 <;> rfl

theorem sent_events (slot : Nat) (w : Walk) : sent (w.events slot) = w.sends slot := by
  have hissued : ∀ probes : List Probe, sent (probes.map .issued) = probes := fun probes => by
    rw [sent, List.filterMap_map]
    exact List.filterMap_some
  rw [Walk.events, sent_append, hissued]
  cases w.reply? <;> exact List.append_nil _

theorem pending_drive (p : Walker) (slot : Nat) (w : Walk) :
    (p.drive slot w).2.pending = p.pending ++ w.sends slot := by
  rw [drive_eq]

/-- What the walks ask when a request is made waits to be sent. -/
theorem pending_translate (p : Walker) (request : Request) :
    (p.perform (.translate request)).2.pending =
      p.pending ++ sent (p.perform (.translate request)).1 := by
  rw [perform_translate]
  cases p.freeSlot? with
  | none => exact (List.append_nil _).symm
  | some slot =>
      dsimp only
      rw [pending_drive, ← sent_events]
      rfl

/-- So does what they ask when they are answered. -/
theorem pending_complete (p : Walker) (probe : Probe) (raw : Option UInt64) :
    (p.perform (.complete probe raw)).2.pending =
      p.pending ++ sent (p.perform (.complete probe raw)).1 := by
  rw [perform_complete]
  cases (p.walk? probe.slot).bind (Walk.takes? probe raw) with
  | none => exact (List.append_nil _).symm
  | some w =>
      dsimp only
      rw [pending_drive, ← sent_events]
      rfl

end Walker

namespace Mmu

variable {M : Type} [EntryMemory M] {m m' : Mmu M}

/-! ## What a command is made of -/

theorem serve_snd (m : Mmu M) (probe : Probe) :
    (m.serve probe).2 = { m with
      cache := (m.resolve probe).2
      walker := (m.walker.perform (.complete probe (m.resolve probe).1)).2 } := by
  simp only [serve, Walker.perform]
  cases m.walker.complete? probe (m.resolve probe).1 <;> rfl

theorem serve_fst (m : Mmu M) (probe : Probe) :
    (m.serve probe).1.toList =
      responses (m.walker.perform (.complete probe (m.resolve probe).1)).1 := by
  simp only [serve, Walker.perform]
  cases m.walker.complete? probe (m.resolve probe).1 with
  | none => rfl
  | some driven => exact (m.walker.responses_drivenEvents driven).symm

theorem clock_serve (m : Mmu M) (probe : Probe) : (m.serve probe).2.clock = m.clock := by
  rw [serve_snd]

theorem clock_serveAll (m : Mmu M) (ready : List Probe) :
    (m.serveAll ready).2.clock = m.clock := by
  induction ready generalizing m with
  | nil => rfl
  | cons probe rest ih => exact (ih _).trans (m.clock_serve probe)

theorem responses_answers (m : Mmu M) (ready : List Probe) :
    responses (m.answers ready) = (m.serveAll ready).1 := by
  induction ready generalizing m with
  | nil => rfl
  | cons probe rest ih =>
      rw [answers, responses_append, ← serve_fst, ih]
      rfl

omit [EntryMemory M] in
/-- Where nothing waits to be sent, sending changes nothing. -/
theorem collect_of_pending (hpending : m.walker.pending = []) : m.collect = m := by
  have hwalker : { m.walker with pending := [] } = m.walker := by rw [← hpending]
  rw [collect, hwalker, hpending, List.map_nil, List.append_nil]

/-- A request is a call to the walkers, and what it makes them ask is sent. -/
theorem perform_translate (hpending : m.walker.pending = []) (request : Request) :
    m.perform (.translate request) =
      (responses (m.walker.perform (.translate request)).1,
        { m with walker := (m.walker.perform (.translate request)).2 }.collect) := by
  simp only [perform, start?, Walker.perform]
  cases m.walker.start? request with
  | none => exact Prod.ext rfl (collect_of_pending hpending).symm
  | some driven => exact Prod.ext (m.walker.responses_drivenEvents driven).symm rfl

theorem clock_tick (m : Mmu M) : m.tick.2.clock = m.clock + 1 := by
  rw [tick_eq]
  exact m.begun.clock_serveAll m.ready

/-- Between commands nothing waits to be sent. -/
theorem pending_perform (hpending : m.walker.pending = []) (command : MmuCommand M) :
    (m.perform command).2.walker.pending = [] := by
  cases command with
  | translate request =>
      rw [perform_translate hpending]
      rfl
  | tick =>
      have htick : m.perform .tick = m.tick := rfl
      rw [htick, tick_eq]
      rfl
  | flush => exact hpending
  | setRoot rootPpn => exact hpending
  | write memory => exact hpending

theorem pending_run (hpending : m.walker.pending = []) (commands : List (MmuCommand M)) :
    (m.run commands).2.walker.pending = [] := by
  induction commands generalizing m with
  | nil => exact hpending
  | cons command rest ih => exact ih (pending_perform hpending command)

/-- The responses of a command are those in its history. -/
theorem responses_events (hpending : m.walker.pending = []) (command : MmuCommand M) :
    responses (m.events command) = (m.perform command).1 := by
  cases command with
  | translate request =>
      rw [perform_translate hpending]
      rfl
  | tick =>
      have htick : m.perform .tick = m.tick := rfl
      rw [htick, tick_eq]
      exact m.begun.responses_answers m.ready
  | flush => rfl
  | setRoot rootPpn => rfl
  | write memory => rfl

theorem snd_map_mk (clock : Nat) (events : List WalkerEvent) :
    (events.map (clock, ·)).map Prod.snd = events := by
  rw [List.map_map]
  exact List.map_id events

theorem responses_timeline (hpending : m.walker.pending = []) (commands : List (MmuCommand M)) :
    responses ((m.timeline commands).map Prod.snd) = (m.run commands).1 := by
  induction commands generalizing m with
  | nil => rfl
  | cons command rest ih =>
      rw [timeline, List.map_append, snd_map_mk, responses_append, responses_events hpending,
        ih (pending_perform hpending command)]
      rfl

/-- What is on the timeline happened during some command, at the clock after it. -/
theorem exists_of_mem_timeline {commands : List (MmuCommand M)} {t : Nat} {e : WalkerEvent}
    (he : (t, e) ∈ m.timeline commands) :
    ∃ before command after, commands = before ++ command :: after ∧
      e ∈ (m.run before).2.events command ∧
        t = ((m.run before).2.perform command).2.clock := by
  induction commands generalizing m with
  | nil => cases he
  | cons command rest ih =>
      rw [timeline, List.mem_append] at he
      obtain he | he := he
      · obtain ⟨e', he', heq⟩ := List.mem_map.1 he
        obtain ⟨rfl, rfl⟩ := Prod.mk.inj heq
        exact ⟨[], command, rest, rfl, he', rfl⟩
      · obtain ⟨before, command', after, rfl, hevent, hclock⟩ := ih he
        exact ⟨command :: before, command', after, rfl, hevent, hclock⟩

/-- A response was delivered at some clock. -/
theorem exists_delivered {past : List (Nat × WalkerEvent)} {r : Response}
    (hr : r ∈ responses (past.map Prod.snd)) : ∃ t, (t, .delivered r) ∈ past := by
  obtain ⟨event, hevent, hresponse⟩ := List.mem_filterMap.1 hr
  obtain ⟨e, he, rfl⟩ := List.mem_map.1 hevent
  obtain ⟨t, event⟩ := e
  cases event with
  | delivered r' =>
      obtain rfl := Option.some.inj hresponse
      exact ⟨t, he⟩
  | accepted request => cases hresponse
  | issued probe => cases hresponse
  | answered probe => cases hresponse

/-! ## Laws that every command keeps -/

/-- The law holds of the history so far, the unit, and the probes that the tick at hand
has yet to answer; and whatever a command does, it goes on to hold. -/
structure Preserved (P : List (Nat × WalkerEvent) → Mmu M → List Probe → Prop) : Prop where
  /-- A request is made. -/
  starts : ∀ {past m} (request : Request), m.walker.pending = [] → P past m [] →
    P (past ++ (m.walker.perform (.translate request)).1.map (m.clock, ·))
      { m with walker := (m.walker.perform (.translate request)).2 } []
  /-- A tick begins. -/
  begins : ∀ {past m}, m.walker.pending = [] → P past m [] → P past m.begun m.ready
  /-- The tick answers a probe. -/
  serves : ∀ {past m probe ready}, P past m (probe :: ready) →
    P (past ++ (m.walker.perform (.complete probe (m.resolve probe).1)).1.map (m.clock, ·))
      (m.serve probe).2 ready
  /-- What was asked is sent. -/
  collects : ∀ {past m}, P past m [] → P past m.collect []
  /-- Cache, memory and root are changed. -/
  changes : ∀ {past m} (root : PhysAddr) (cache : EntryCache) (memory : M), P past m [] →
    P past { m with walker := { m.walker with root }, cache, memory } []

namespace Preserved

variable {P : List (Nat × WalkerEvent) → Mmu M → List Probe → Prop}
  {past : List (Nat × WalkerEvent)}

/-- After the answers to some of the ready probes, the law holds with the others. -/
theorem serveAll (hP : Preserved P) {answered later : List Probe}
    (h : P past m (answered ++ later)) :
    P (past ++ (m.answers answered).map (m.clock, ·)) (m.serveAll answered).2 later := by
  induction answered generalizing past m with
  | nil =>
      rw [answers, List.map_nil, List.append_nil]
      exact h
  | cons probe rest ih =>
      have hrest := ih (hP.serves h)
      rw [clock_serve, List.append_assoc, ← List.map_append] at hrest
      exact hrest

theorem perform (hP : Preserved P) (hpending : m.walker.pending = []) (h : P past m [])
    (command : MmuCommand M) :
    P (past ++ (m.events command).map ((m.perform command).2.clock, ·))
      (m.perform command).2 [] := by
  cases command with
  | translate request =>
      rw [perform_translate hpending]
      exact hP.collects (hP.starts request hpending h)
  | tick =>
      have htick : m.perform .tick = m.tick := rfl
      have hbegun := hP.begins hpending h
      rw [← m.ready.append_nil] at hbegun
      have hserved := hP.serveAll hbegun
      rw [htick, clock_tick, tick_eq]
      exact hP.collects hserved
  | flush =>
      rw [events, List.map_nil, List.append_nil]
      exact hP.changes m.walker.root m.cache.flush m.memory h
  | setRoot rootPpn =>
      rw [events, List.map_nil, List.append_nil]
      exact hP.changes (PhysAddr.ofPage rootPpn 0) m.cache m.memory h
  | write memory =>
      rw [events, List.map_nil, List.append_nil]
      exact hP.changes m.walker.root m.cache memory h

theorem run (hP : Preserved P) (past : List (Nat × WalkerEvent))
    (hpending : m.walker.pending = []) (h : P past m []) (commands : List (MmuCommand M)) :
    P (past ++ m.timeline commands) (m.run commands).2 [] := by
  induction commands generalizing past m with
  | nil =>
      rw [timeline, List.append_nil]
      exact h
  | cons command rest ih =>
      have hrest := ih _ (pending_perform hpending command) (hP.perform hpending h command)
      rw [List.append_assoc] at hrest
      exact hrest

end Preserved

end Mmu

end OutOfOrder.Paging
