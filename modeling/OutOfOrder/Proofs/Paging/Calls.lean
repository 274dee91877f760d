import OutOfOrder.Paging.WalkerHistory
import OutOfOrder.Proofs.Paging.Walker

/-!
# One call to a pool of walkers

A walk stands still only while a probe of its own is out: it always waits for
exactly one target, and when the answer comes it either ends or asks again, at
the same level or one further down. So there are four things that a call can do,
and `Called` names them: it does nothing to the walks, it starts one, it has one
go on, or it ends one. No law about walkers needs to open a call any further.

None of this depends on who answers. An answer that does not fit a walk in its
slot is refused, so even answers that are repeated or made up count only if some
walk was waiting for just them.
-/

namespace OutOfOrder.Paging

namespace Walk

/-- The target that a walk waits for. -/
def awaits (w : Walk) : ProbeTarget := if w.lookup.cache = .pending then .cache else .memory

/-- How many answers a walk can have taken at most on its way to where it stands: two
for each level above, and one if the cache has answered at this one. -/
def rounds (w : Walk) : Nat :=
  2 * (rootLevel - w.level) + if w.lookup.cache = .answered then 1 else 0

/-- The walk `w'` is the walk `w` at its next question. -/
structure Proceeds (w w' : Walk) : Prop where
  waits : w'.Waits
  id : w'.id = w.id
  request : w'.request = w.request
  rounds : w.rounds < w'.rounds

variable {w w' : Walk}

theorem rounds_lt (w : Walk) : w.rounds < 8 := by
  have hroot : rootLevel = 3 := rfl
  rw [rounds]
  split <;> omega

theorem advance_of_start (id : Nat) (request : Request) (table : PhysAddr) :
    ∃ w', advance { id, request, level := rootLevel, table } = .probe w' w'.awaits ∧ w'.Waits ∧
      w'.id = id ∧ w'.request = request ∧ w'.rounds = 0 :=
  ⟨_, ask_of_lookup_eq rfl, ⟨Nat.le_refl _, rfl, .inl ⟨rfl, rfl⟩⟩, rfl, rfl, rfl⟩

/-- How a walk goes on with an answer. Without an entry from the cache it asks memory; with
one that leads to a table it asks the cache one level down; and otherwise it ends. -/
inductive Resumes (w : Walk) : Option UInt64 → Progress → Prop
  | misses (hcache : w.lookup.cache = .pending) :
      Resumes w none (.probe { w with lookup := ⟨.answered, .pending, none⟩ } .memory)
  | descends {raw : UInt64} {table : PhysAddr} (hjudge : w.judge ⟨raw⟩ = .descend table) :
      Resumes w (some raw) (.probe { w.descend table with lookup.cache := .pending } .cache)
  | ends {raw : Option UInt64} {outcome : Except PageFault PhysAddr} :
      Resumes w raw (.finished outcome)

theorem resumes_of_known {raw : UInt64} {known : Lookup} (hentry : known.entry = some ⟨raw⟩) :
    w.Resumes (some raw) (advance { w with lookup := known }) := by
  have hsame : judge { w with lookup := known } ⟨raw⟩ = w.judge ⟨raw⟩ := rfl
  simp only [advance, hentry, hsame]
  cases hjudge : w.judge ⟨raw⟩ with
  | done outcome => exact .ends
  | descend table => exact .descends hjudge

/-- An answer that a walk takes is from the target that it waits for, and makes it go on. -/
theorem resumes_of_answer (hw : w.Waits) {target : ProbeTarget} {raw : Option UInt64}
    (hanswer : w.answer? target raw = some w') :
    target = w.awaits ∧ w.Resumes raw w'.advance := by
  have hentry := hw.entry
  obtain ⟨hcache, hmemory⟩ | ⟨hcache, hmemory⟩ := hw.asked
  · -- The walk waits for the cache.
    cases target with
    | memory => simp [answer?, hmemory] at hanswer
    | cache =>
        simp only [answer?, hcache, hentry, if_true, Option.some.injEq] at hanswer
        subst hanswer
        refine ⟨by rw [awaits, if_pos hcache], ?_⟩
        cases raw with
        | some entry => exact resumes_of_known rfl
        | none =>
            have hmiss : advance { w with lookup := ⟨.answered, w.lookup.memory, none⟩ } =
                .probe { w with lookup := ⟨.answered, .pending, none⟩ } .memory := by
              simp [advance, ask, hmemory]
            exact hmiss ▸ .misses hcache
  · -- The cache had nothing, and the walk waits for memory.
    cases target with
    | cache => simp [answer?, hcache] at hanswer
    | memory =>
        simp only [answer?, hmemory, hentry, if_true, Option.some.injEq] at hanswer
        subst hanswer
        refine ⟨by simp [awaits, hcache], ?_⟩
        cases raw with
        | some entry => exact resumes_of_known rfl
        | none =>
            have hfault : advance { w with lookup := ⟨w.lookup.cache, .answered, none⟩ } =
                .finished (.error .accessFault) := by
              simp [advance, ask, hcache]
            exact hfault ▸ .ends

/-- So it asks again, or ends. -/
theorem advance_of_answer (hw : w.Waits) {target : ProbeTarget} {raw : Option UInt64}
    (hanswer : w.answer? target raw = some w') :
    target = w.awaits ∧
      ((∃ w'', w'.advance = .probe w'' w''.awaits ∧ w.Proceeds w'') ∨
        ∃ outcome, w'.advance = .finished outcome) := by
  have hlevel := hw.level
  obtain ⟨htarget, hresumes⟩ := resumes_of_answer hw hanswer
  refine ⟨htarget, ?_⟩
  generalize w'.advance = progress at hresumes
  cases hresumes with
  | misses hcache =>
      refine .inl ⟨_, rfl, ⟨hlevel, rfl, .inr ⟨rfl, rfl⟩⟩, rfl, rfl, ?_⟩
      simp [rounds, hcache]
  | ends => exact .inr ⟨_, rfl⟩
  | @descends raw table hjudge =>
      have hpos := level_ne_zero_of_descend hjudge
      refine .inl ⟨_, rfl, ⟨?_, rfl, .inl ⟨rfl, rfl⟩⟩, rfl, rfl, ?_⟩
      · exact Nat.le_trans (Nat.sub_le _ _) hlevel
      · show w.rounds < 2 * (rootLevel - (w.level - 1)) + 0
        rw [rounds]
        split <;> omega

theorem answer?_awaits (hw : w.Waits) (raw : Option UInt64) : w.answer? w.awaits raw ≠ none := by
  obtain ⟨hcache, -⟩ | ⟨hcache, hmemory⟩ := hw.asked
  · simp [awaits, answer?, hcache]
  · simp [awaits, answer?, hcache, hmemory]

end Walk

namespace Walker

/-! ## What a call can do -/

/-- A call does nothing to the walks, starts one, takes an answer that makes one ask
again, or takes one that ends one. -/
inductive Called (p : Walker) : List WalkerEvent → Walker → Prop
  | idle {p' : Walker} (hslots : p'.slots = p.slots) (hnext : p'.nextWalk = p.nextWalk) :
      Called p [] p'
  /-- A walk starts in a free slot and asks its first question. -/
  | begins {p' : Walker} {slot : Nat} {request : Request} {w : Walk}
      (hslot : p.slots[slot]? = some none) (hid : w.id = p.nextWalk)
      (hrequest : w.request = request) (hrounds : w.rounds = 0) (hwaits : w.Waits)
      (hslots : p'.slots = p.slots.setIfInBounds slot (some w))
      (hnext : p'.nextWalk = p.nextWalk + 1) :
      Called p [.accepted request, .issued (probeOf slot w w.awaits)] p'
  /-- The walk in a slot is answered and asks again. -/
  | proceeds {p' : Walker} {probe : Probe} {w w' : Walk} (hw : p.walk? probe.slot = some w)
      (hprobe : (probeOf probe.slot w w.awaits).sameAs probe = true) (hproceeds : w.Proceeds w')
      (hslots : p'.slots = p.slots.setIfInBounds probe.slot (some w'))
      (hnext : p'.nextWalk = p.nextWalk) :
      Called p [.answered probe, .issued (probeOf probe.slot w' w'.awaits)] p'
  /-- The walk in a slot is answered and ends. -/
  | ends {p' : Walker} {probe : Probe} {w : Walk} {outcome : Except PageFault PhysAddr}
      (hw : p.walk? probe.slot = some w)
      (hprobe : (probeOf probe.slot w w.awaits).sameAs probe = true)
      (hslots : p'.slots = p.slots.setIfInBounds probe.slot none)
      (hnext : p'.nextWalk = p.nextWalk) :
      Called p [.answered probe, .delivered ⟨w.id, w.request.id, outcome⟩] p'

variable {p p' : Walker}

theorem drivenEvents_of_probe {q : Walker} {response : Option Response} {probe : Probe}
    (hpending : q.pending = p.pending ++ [probe]) (hresponse : response = none) :
    p.drivenEvents (response, q) = [.issued probe] := by
  rw [drivenEvents, hpending, hresponse, List.drop_left]
  rfl

theorem drivenEvents_of_response {q : Walker} {response : Response}
    (hpending : q.pending = p.pending) :
    p.drivenEvents (some response, q) = [.delivered response] := by
  rw [drivenEvents, hpending, List.drop_length]
  rfl

theorem getElem?_of_freeSlot? {slot : Nat} (hfree : p.freeSlot? = some slot) :
    p.slots[slot]? = some none := by
  obtain ⟨hlt, hnone, -⟩ := Array.findIdx?_eq_some_iff_getElem.1 hfree
  rw [Array.getElem?_eq_getElem hlt, Option.isNone_iff_eq_none.1 hnone]

theorem called_translate (p : Walker) (request : Request) :
    Called p (p.perform (.translate request)).1 (p.perform (.translate request)).2 := by
  rw [perform, start?]
  cases hfree : p.freeSlot? with
  | none => exact .idle rfl rfl
  | some slot =>
      obtain ⟨w, hadvance, hwaits, hid, hrequest, hrounds⟩ :=
        Walk.advance_of_start p.nextWalk request p.root
      rw [Option.map_some, drive_of_probe hadvance]
      dsimp only
      rw [drivenEvents_of_probe rfl rfl]
      exact .begins (getElem?_of_freeSlot? hfree) hid hrequest hrounds hwaits rfl rfl

theorem called_complete (hwaits : ∀ s w, p.walk? s = some w → w.Waits) (probe : Probe)
    (raw : Option UInt64) :
    Called p (p.perform (.complete probe raw)).1 (p.perform (.complete probe raw)).2 := by
  rw [perform]
  cases hcomplete : p.complete? probe raw with
  | none => exact .idle rfl rfl
  | some driven =>
      obtain ⟨response, q⟩ := driven
      obtain ⟨w, w', hw, hid, hlevel, hanswer, hdrive⟩ := complete?_eq_some hcomplete
      obtain ⟨known, rfl⟩ := Walk.answer?_eq_some hanswer
      obtain ⟨hawaits, hnext⟩ := Walk.advance_of_answer (hwaits _ w hw) hanswer
      have hprobe : (probeOf probe.slot w w.awaits).sameAs probe = true := by
        simp [Probe.sameAs, probeOf, hid, hlevel, hawaits]
      obtain ⟨w', hadvance, hproceeds⟩ | ⟨outcome, hadvance⟩ := hnext
      · rw [drive_of_probe hadvance] at hdrive
        obtain ⟨rfl, rfl⟩ := Prod.mk.inj hdrive
        dsimp only
        rw [drivenEvents_of_probe rfl rfl]
        exact .proceeds hw hprobe hproceeds rfl rfl
      · rw [drive_of_finished hadvance] at hdrive
        obtain ⟨rfl, rfl⟩ := Prod.mk.inj hdrive
        dsimp only
        rw [drivenEvents_of_response]
        · exact .ends hw hprobe rfl rfl
        · rfl

/-- Whatever is done to walkers whose walks wait, it does one of the four things. -/
theorem called_perform (hwaits : ∀ s w, p.walk? s = some w → w.Waits) (command : WalkerCommand) :
    Called p (p.perform command).1 (p.perform command).2 := by
  cases command with
  | translate request => exact called_translate p request
  | popProbe =>
      rw [perform, popProbe?]
      cases p.pending <;> exact .idle rfl rfl
  | setRoot rootPpn => exact .idle rfl rfl
  | complete probe raw => exact called_complete hwaits probe raw

/-! ## Responses and the slots that come free -/

open WalkerEvent

theorem Called.delivers {events : List WalkerEvent} (hcall : Called p events p') :
    ∀ r ∈ responses events, ∃ s w, p.walk? s = some w ∧ r.walk = w.id ∧ r.id = w.request.id ∧
      p'.walk? s = none := by
  intro r hr
  cases hcall with
  | idle => cases hr
  | begins => cases hr
  | proceeds => cases hr
  | @ends p' probe w outcome hw hprobe hslots hnext =>
      obtain rfl := List.mem_singleton.1 hr
      exact ⟨probe.slot, w, hw, rfl, rfl, walk?_self hslots (lt_size_of_walk? hw).2⟩

theorem Called.frees {events : List WalkerEvent} (hcall : Called p events p') {s : Nat} {w : Walk}
    (hw : p.walk? s = some w) (hfree : p'.walk? s = none) :
    ∃ r ∈ responses events, r.walk = w.id := by
  have hbusy : p.walk? s ≠ p'.walk? s := by rw [hw, hfree]; nofun
  cases hcall with
  | idle hslots => exact absurd (by rw [walk?, walk?, hslots]) hbusy
  | @begins p' slot request u hslot hid hrequest hrounds hwaits hslots hnext =>
      by_cases hs : s = slot
      · rw [hs, walk?, hslot] at hw
        cases hw
      · exact absurd (walk?_of_ne hslots hs).symm hbusy
  | @proceeds p' probe u u' hu hprobe hproceeds hslots hnext =>
      by_cases hs : s = probe.slot
      · rw [hs, walk?_self hslots (lt_size_of_walk? hu).2] at hfree
        cases hfree
      · exact absurd (walk?_of_ne hslots hs).symm hbusy
  | @ends p' probe u outcome hu hprobe hslots hnext =>
      by_cases hs : s = probe.slot
      · rw [hs, hu] at hw
        exact ⟨_, List.mem_singleton_self _, congrArg Walk.id (Option.some.inj hw)⟩
      · exact absurd (walk?_of_ne hslots hs).symm hbusy

end Walker

end OutOfOrder.Paging
