import OutOfOrder.Paging.Command
import OutOfOrder.Proofs.Paging.Walker

/-!
# Translations arrive where the page tables lead

However many walks are under way, whatever the latencies, and whatever else
the cache is filled with and emptied of meanwhile: the outcome that is delivered
for a request is the one of the reference walk. Two invariants carry this
through a run. Whoever writes flushes before the next tick, so at every tick the
cache holds nothing that memory does not (`Coherent`). And the walk of the
request is the walk that it was started as, further on (`Walker.Tracks`).

A walk that is under way may outlive a change of the root, since it took its
root along when it started. It may also outlive a flush, since then it asks
memory.
-/

namespace OutOfOrder.Paging

namespace Mmu

variable {M : Type} [EntryMemory M] {m m' : Mmu M}

/-- Whatever the cache answers is what memory holds. -/
def Coherent (m : Mmu M) : Prop :=
  ∀ a raw, m.cache.lookup a = some raw → EntryMemory.read m.memory a = some raw

omit [EntryMemory M] in
/-- The probes on their way. -/
def probes (m : Mmu M) : List Probe := m.inFlight.map Prod.snd

omit [EntryMemory M] in
theorem probes_collect (m : Mmu M) : m.collect.probes = m.probes ++ m.walker.pending := by
  rw [probes, collect, List.map_append, List.map_map]
  exact congrArg (m.probes ++ ·) (List.map_id _)

/-! ## Answering probes -/

/-- A cache that does not contradict memory gives faithful answers. -/
theorem faithful_resolve (hc : m.Coherent) (probe : Probe) :
    Walk.Faithful (EntryMemory.read m.memory) probe.addr (m.resolve probe).1 probe.target := by
  rw [resolve]
  cases probe.target with
  | cache => exact hc probe.addr
  | memory =>
      cases hread : EntryMemory.read m.memory probe.addr with
      | none => exact hread.symm
      | some raw => exact hread.symm

theorem capacity_resolve (m : Mmu M) (probe : Probe) :
    (m.resolve probe).2.capacity = m.cache.capacity := by
  rw [resolve]
  split
  · rfl
  · split
    · rfl
    · exact EntryCache.capacity_insert _ _ _

/-- What is put into the cache comes from memory. -/
theorem coherent_resolve (hroom : 0 < m.cache.capacity) (hc : m.Coherent) (probe : Probe) :
    Coherent { m with cache := (m.resolve probe).2 } := by
  rw [resolve]
  split
  · exact hc
  · cases hread : EntryMemory.read m.memory probe.addr with
    | none => exact hc
    | some raw =>
        intro a found hfound
        rw [EntryCache.lookup_insert hroom] at hfound
        split at hfound
        · split at hfound
          · next heq =>
              rw [heq, ← Option.some.inj hfound]
              exact hread
          · cases hfound
        · exact hc a found hfound

/-- What answering probes does: the walkers and the cache change, the cache for
nothing that memory does not hold, and a walk that is tracked stays so. -/
structure Serves (out : List Probe) (m : Mmu M) (responses : List Response) (m' : Mmu M) :
    Prop where
  memory : m'.memory = m.memory
  inFlight : m'.inFlight = m.inFlight
  capacity : m'.cache.capacity = m.cache.capacity
  coherent : m'.Coherent
  numbered : m.walker.Numbered out → m'.walker.Numbered out
  tracks : ∀ origin, m.walker.Tracks (EntryMemory.read m.memory) origin out →
    m'.walker.Tracks (EntryMemory.read m.memory) origin out ∧
      ∀ r ∈ responses, r.Answers (EntryMemory.read m.memory) origin

theorem serves_serve {out : List Probe} {probe : Probe} (hprobe : probe ∈ out)
    (hroom : 0 < m.cache.capacity) (hc : m.Coherent) :
    Serves out m (m.serve probe).1.toList (m.serve probe).2 := by
  have hcoherent := coherent_resolve hroom hc probe
  have hcapacity := m.capacity_resolve probe
  rw [serve]
  cases hcomplete : m.walker.complete? probe (m.resolve probe).1 with
  | none =>
      simp only [hcomplete]
      exact ⟨rfl, rfl, hcapacity, hcoherent, id, fun origin ht => ⟨ht, fun r hr => nomatch hr⟩⟩
  | some answered =>
      obtain ⟨response, walker⟩ := answered
      simp only [hcomplete]
      refine ⟨rfl, rfl, hcapacity, hcoherent, fun hp => hp.complete? hcomplete,
        fun origin ht => ?_⟩
      obtain ⟨htracks, hright⟩ := ht.complete? hprobe (faithful_resolve hc probe) hcomplete
      exact ⟨htracks, fun r hr => hright r (Option.mem_toList.1 hr)⟩

theorem serves_serveAll {out ready : List Probe} (hready : ready ⊆ out)
    (hroom : 0 < m.cache.capacity) (hc : m.Coherent) :
    Serves out m (m.serveAll ready).1 (m.serveAll ready).2 := by
  induction ready generalizing m with
  | nil => exact ⟨rfl, rfl, rfl, hc, id, fun origin ht => ⟨ht, fun r hr => nomatch hr⟩⟩
  | cons probe rest ih =>
      obtain ⟨hprobe, hrest⟩ := List.cons_subset.1 hready
      have hfirst := serves_serve hprobe hroom hc
      have hothers := ih hrest (hfirst.capacity ▸ hroom) hfirst.coherent
      refine ⟨hothers.memory.trans hfirst.memory, hothers.inFlight.trans hfirst.inFlight,
        hothers.capacity.trans hfirst.capacity, hothers.coherent,
        fun hp => hothers.numbered (hfirst.numbered hp), fun origin ht => ?_⟩
      obtain ⟨htracks, hright⟩ := hfirst.tracks origin ht
      have htracked := hothers.tracks origin
      rw [hfirst.memory] at htracked
      obtain ⟨htracks, hright'⟩ := htracked htracks
      refine ⟨htracks, fun r hr => ?_⟩
      exact (List.mem_append.1 hr).elim (hright r) (hright' r)

/-! ## Commands -/

/-- What every command does that is not a write: memory stays, walks keep their
numbers, and a walk that is tracked stays so and is answered as the reference
answers. -/
structure Moves (m : Mmu M) (responses : List Response) (m' : Mmu M) : Prop where
  memory : m'.memory = m.memory
  capacity : m'.cache.capacity = m.cache.capacity
  numbered : m.walker.Numbered m.probes → m'.walker.Numbered m'.probes
  tracks : ∀ origin, m.walker.Tracks (EntryMemory.read m.memory) origin m.probes →
    m'.walker.Tracks (EntryMemory.read m.memory) origin m'.probes ∧
      ∀ r ∈ responses, r.Answers (EntryMemory.read m.memory) origin

/-- Sending probes on their way loses none. -/
theorem Moves.collect {responses : List Response} (h : Moves m responses m') :
    Moves m responses m'.collect where
  memory := h.memory
  capacity := h.capacity
  numbered := fun hp => by
    rw [probes_collect]
    exact (h.numbered hp).collect
  tracks := fun origin ht => by
    obtain ⟨htracks, hright⟩ := h.tracks origin ht
    rw [probes_collect]
    exact ⟨htracks.collect, hright⟩

theorem moves_start {request : Request} {response : Option Response}
    (h : m.start? request = some (response, m')) : Moves m response.toList m' := by
  obtain ⟨⟨answer, walker⟩, hstart, heq⟩ := Option.map_eq_some_iff.1 h
  obtain ⟨rfl, rfl⟩ := Prod.mk.inj heq
  have hmoves : Moves m answer.toList { m with walker } :=
    { memory := rfl
      capacity := rfl
      numbered := fun hp => hp.start? hstart
      tracks := fun origin ht => by
        obtain ⟨htracks, hright⟩ := ht.start? hstart
        exact ⟨htracks, fun r hr => hright r (Option.mem_toList.1 hr)⟩ }
  exact hmoves.collect

/-- A tick answers the probes that are due, and those that wait go on waiting. -/
theorem moves_tick (hroom : 0 < m.cache.capacity) (hc : m.Coherent) :
    Moves m m.tick.1 m.tick.2 ∧ m.tick.2.Coherent := by
  let ready := m.inFlight.filter fun sent => sent.1 ≤ m.clock + 1
  let waiting := m.inFlight.filter fun sent => !decide (sent.1 ≤ m.clock + 1)
  let served := { m with clock := m.clock + 1, inFlight := waiting }.serveAll
    (ready.map Prod.snd)
  have htick : m.tick = (served.1, served.2.collect) := by
    rw [tick]
    simp only [List.partition_eq_filter_filter]
    rfl
  have hready : ready.map Prod.snd ⊆ m.probes :=
    List.map_subset _ List.filter_sublist.subset
  have hwaiting : waiting.map Prod.snd ⊆ m.probes :=
    List.map_subset _ List.filter_sublist.subset
  have hserves : Serves m.probes _ served.1 served.2 := serves_serveAll hready hroom hc
  have hprobes : served.2.probes ⊆ m.probes := by
    rw [probes, hserves.inFlight]
    exact hwaiting
  have hmoves : Moves m served.1 served.2 :=
    { memory := hserves.memory
      capacity := hserves.capacity
      numbered := fun hp => (hserves.numbered hp).of_subset hprobes
      tracks := fun origin ht => by
        obtain ⟨htracks, hright⟩ := hserves.tracks origin ht
        exact ⟨htracks.of_subset hprobes, hright⟩ }
  rw [htick]
  exact ⟨hmoves.collect, hserves.coherent⟩

theorem moves_perform (hroom : 0 < m.cache.capacity) {command : MmuCommand M}
    (hwrite : ∀ memory, command ≠ .write memory) (hc : command = .tick → m.Coherent) :
    Moves m (m.perform command).1 (m.perform command).2 := by
  cases command with
  | translate request =>
      rw [perform]
      cases hstart : m.start? request with
      | none => exact ⟨rfl, rfl, id, fun origin ht => ⟨ht, fun r hr => nomatch hr⟩⟩
      | some started => exact moves_start hstart
  | tick => exact (moves_tick hroom (hc rfl)).1
  | flush =>
      exact ⟨rfl, EntryCache.capacity_flush _, id,
        fun origin ht => ⟨ht, fun r hr => nomatch hr⟩⟩
  | setRoot rootPpn =>
      exact ⟨rfl, rfl, fun hp => hp.setRoot rootPpn,
        fun origin ht => ⟨ht.setRoot rootPpn, fun r hr => nomatch hr⟩⟩
  | write memory => exact absurd rfl (hwrite memory)

/-! ## Runs -/

/-- A state in which the commands to come may be carried out: if the cache
contradicts memory, it is flushed before the next tick. -/
structure Sound (m : Mmu M) (commands : List (MmuCommand M)) : Prop where
  room : 0 < m.cache.capacity
  numbered : m.walker.Numbered m.probes
  flushes : FlushesBeforeTicks commands
  coherent : m.Coherent ∨ FlushesFirst commands

theorem sound_create {config : MmuConfig} {memory : M} {commands : List (MmuCommand M)}
    (h : create config memory = .ok m) (hflush : FlushesBeforeTicks commands) :
    Sound m commands := by
  rw [create] at h
  cases hvalid : config.validate with
  | error e => rw [hvalid] at h; cases h
  | ok u =>
      rw [hvalid] at h
      obtain rfl := Except.ok.inj h
      refine ⟨?_, Walker.numbered_withSlots config.walkers config.rootPpn, hflush, .inl ?_⟩
      · exact EntryCache.capacity_withSize_pos _
      · intro a raw hfound
        rw [EntryCache.lookup_withSize] at hfound
        cases hfound

variable {command : MmuCommand M} {commands rest : List (MmuCommand M)}

/-- A tick finds the cache coherent. -/
theorem Sound.coherent_of_tick (hs : Sound m (command :: rest)) (htick : command = .tick) :
    m.Coherent := by
  subst htick
  exact hs.coherent.elim id False.elim

theorem Sound.perform (hs : Sound m (command :: rest)) : Sound (m.perform command).2 rest := by
  cases command with
  | translate request =>
      rw [Mmu.perform]
      cases hstart : m.start? request with
      | none => exact ⟨hs.room, hs.numbered, hs.flushes, hs.coherent⟩
      | some started =>
          have hmoves := moves_start hstart
          obtain ⟨answer, -, rfl⟩ := Option.map_eq_some_iff.1 hstart
          exact ⟨hs.room, hmoves.numbered hs.numbered, hs.flushes, hs.coherent⟩
  | tick =>
      obtain ⟨hmoves, hc⟩ := moves_tick hs.room (hs.coherent_of_tick rfl)
      exact ⟨hmoves.capacity ▸ hs.room, hmoves.numbered hs.numbered, hs.flushes, .inl hc⟩
  | flush =>
      have hroom : 0 < m.cache.flush.capacity := by
        rw [EntryCache.capacity_flush]
        exact hs.room
      refine ⟨hroom, hs.numbered, hs.flushes, .inl fun a raw hfound => ?_⟩
      exact nomatch (EntryCache.lookup_flush m.cache a).symm.trans hfound
  | setRoot rootPpn => exact ⟨hs.room, hs.numbered.setRoot rootPpn, hs.flushes, hs.coherent⟩
  | write memory => exact ⟨hs.room, hs.numbered, hs.flushes.2, .inr hs.flushes.1⟩

theorem Sound.run (hs : Sound m (commands ++ rest)) : Sound (m.run commands).2 rest := by
  induction commands generalizing m with
  | nil => exact hs
  | cons command commands ih => exact ih hs.perform

/-- A tracked walk is answered as the reference answers, if it is answered before
the next write. -/
theorem Sound.answers (hs : Sound m commands) (hwrite : ∀ memory, .write memory ∉ commands)
    {origin : Walk} (ht : m.walker.Tracks (EntryMemory.read m.memory) origin m.probes) :
    ∀ r ∈ (m.run commands).1, r.Answers (EntryMemory.read m.memory) origin := by
  induction commands generalizing m with
  | nil => exact fun r hr => nomatch hr
  | cons command rest ih =>
      have hmoves := moves_perform hs.room
        (fun memory heq => hwrite memory (heq ▸ List.mem_cons_self)) hs.coherent_of_tick
      obtain ⟨htracks, hright⟩ := hmoves.tracks origin ht
      rw [← hmoves.memory] at htracks
      have hothers := ih hs.perform
        (fun memory hmem => hwrite memory (List.mem_cons_of_mem _ hmem)) htracks
      rw [hmoves.memory] at hothers
      intro r hr
      exact (List.mem_append.1 hr).elim (hright r) (hothers r)

/-- **Translations are right.** A request is accepted after some commands, and others
follow among which there is no write. Whatever is answered to the request
until then is what the reference arrives at, in the memory there is and from
the root that was in force when the request was accepted. -/
theorem delivered_outcome_eq_reference {config : MmuConfig} {memory : M} {start : Mmu M}
    (hstart : create config memory = .ok start) (before after : List (MmuCommand M))
    (request : Request) (hflush : FlushesBeforeTicks (before ++ .translate request :: after))
    (hwrite : ∀ memory, .write memory ∉ after)
    (haccepted : (start.run before).2.start? request ≠ none) :
    let m := (start.run before).2
    ∀ r ∈ (m.run (.translate request :: after)).1, r.walk = m.walker.nextWalk →
      r.id = request.id ∧
        r.outcome = Reference.walk (EntryMemory.read m.memory) m.walker.root request := by
  intro m
  have hs : Sound m (.translate request :: after) := (sound_create hstart hflush).run
  obtain ⟨⟨response, m'⟩, hm'⟩ := Option.ne_none_iff_exists'.1 haccepted
  obtain ⟨⟨answer, walker⟩, hstarted, heq⟩ := Option.map_eq_some_iff.1 hm'
  obtain ⟨rfl, rfl⟩ := Prod.mk.inj heq
  obtain ⟨rfl, htracks⟩ :=
    hs.numbered.tracks_start hstarted (EntryMemory.read m.memory)
  have hperform : m.perform (.translate request) = ([], collect { m with walker }) := by
    rw [perform, hm']
    rfl
  have hs' := hs.perform
  rw [hperform] at hs'
  have hanswers := hs'.answers hwrite (by rw [probes_collect]; exact htracks.collect)
  intro r hr
  rw [run, hperform] at hr
  exact hanswers r hr

/-- Tables are written and flushed while another walk is under way. A second walk
goes through the root table to a page of a gigabyte, past a change of the root
and a flush of the cache, which has a single line. -/
theorem delivered_past_flush_and_setRoot :
    let tables : PhysAddr → Option UInt64 := fun a =>
      if a.val = 0x1000 then some 0x801 else if a.val = 0x2000 then some 0x10000043 else none
    let config : MmuConfig := { walkers := 2, cacheEntries := 1, memoryLatency := 2, rootPpn := 1 }
    let start : Mmu (PhysAddr → Option UInt64) :=
      { walker := .withSlots 2 1, cache := .withSize 1, memory := fun _ => none,
        cacheLatency := 1, memoryLatency := 2 }
    let request : Request := .toLoad 6 ⟨0x1234567⟩
    let before : List (MmuCommand (PhysAddr → Option UInt64)) :=
      [.write tables, .translate (.toLoad 5 ⟨0⟩), .flush, .tick]
    let after : List (MmuCommand (PhysAddr → Option UInt64)) :=
      [.setRoot 7, .tick, .flush, .tick, .tick, .tick, .tick, .tick]
    let m := (start.run before).2
    create config (fun _ => none) = .ok start ∧
      FlushesBeforeTicks (before ++ .translate request :: after) ∧
      (∀ memory, .write memory ∉ after) ∧ m.start? request ≠ none ∧
      ∃ r ∈ (m.run (.translate request :: after)).1, r.walk = m.walker.nextWalk ∧ r.id = 6 ∧
        r.outcome = Reference.walk (EntryMemory.read m.memory) m.walker.root request ∧
        r.outcome = .ok ⟨0x41234567⟩ := by
  intro tables config start request before after m
  have hstart : create config (fun _ => none) = .ok start := rfl
  have hflush : FlushesBeforeTicks (before ++ .translate request :: after) := ⟨trivial, trivial⟩
  have hwrite : ∀ memory, .write memory ∉ after := fun memory hmem => by
    simp [after] at hmem
  have haccepted : m.start? request ≠ none := Option.isSome_iff_ne_none.1 (by decide +kernel)
  have hanswered : (m.run (.translate request :: after)).1.any fun r =>
      r.walk == m.walker.nextWalk &&
        (match r.outcome with
        | .ok a => a == ⟨0x41234567⟩
        | .error _ => false) := by decide +kernel
  obtain ⟨r, hr, hcheck⟩ := List.any_eq_true.1 hanswered
  rw [Bool.and_eq_true, beq_iff_eq] at hcheck
  obtain ⟨hwalk, houtcome⟩ := hcheck
  obtain ⟨hid, hreference⟩ :=
    delivered_outcome_eq_reference hstart before after request hflush hwrite haccepted r hr hwalk
  refine ⟨hstart, hflush, hwrite, haccepted, r, hr, hwalk, hid, hreference, ?_⟩
  split at houtcome
  · next a ha => rw [ha, beq_iff_eq.1 houtcome]
  · cases houtcome

end Mmu

end OutOfOrder.Paging
