import Mathlib.Control.Monad.Basic
import OutOfOrder.Proofs.Paging.Lifecycle

/-!
# A walk depends on nothing but its own answers

The walkers share a queue, a root and a counter, they take over each other's
slots, and the answers to one come in between those to the others. To show that
a walk takes no notice, it is compared with a walk by itself: `Walk.alone` starts
from a table and is told one entry after the other, and nothing else exists.

A call that drives a walk does what that walk makes it do, in the slot of the
walk (`drive_eq`). All that it reads of the others is whether they are there. So
the walk in a slot stands still while others are served, and when it takes an
answer it does what it does by itself. For the same reason answers to two slots
may come in either order.
-/

namespace OutOfOrder.Paging

/-! ## A walk by itself -/

/-- What can be seen of a walk: it asks a target for the entry at an address, or it
ends. -/
inductive WalkStep
  | asks (level : Nat) (target : ProbeTarget) (addr : PhysAddr)
  | ends (outcome : Except PageFault PhysAddr)
  deriving DecidableEq

def Walk.question (w : Walk) (target : ProbeTarget) : WalkStep :=
  .asks w.level target w.entryAddr

/-- What is seen of a walk from here on, if each question is answered by the next of
the entries. -/
def Progress.alone : Progress → List (Option UInt64) → List WalkStep
  | .waiting _, _ => []
  | .finished outcome, _ => [.ends outcome]
  | .probe w target, [] => [w.question target]
  | .probe w target, entry :: rest =>
    w.question target ::
      match w.answer? target entry with
      | none => []
      | some w => w.advance.alone rest

theorem Progress.alone_finished (outcome : Except PageFault PhysAddr)
    (entries : List (Option UInt64)) : (finished outcome).alone entries = [.ends outcome] := by
  cases entries <;> rfl

theorem Progress.alone_probe {w w' : Walk} {target : ProbeTarget} {entry : Option UInt64}
    {rest : List (Option UInt64)} (hanswer : w.answer? target entry = some w') :
    (probe w target).alone (entry :: rest) = w.question target :: w'.advance.alone rest := by
  rw [alone, hanswer]

/-- A walk for a request through the table at `root`, from start to end. -/
def Walk.alone (root : PhysAddr) (request : Request) (entries : List (Option UInt64)) :
    List WalkStep :=
  (advance { id := 0, request, level := rootLevel, table := root }).alone entries

/-- How it shows in a slot of a pool, for a walk with number `n`. -/
def WalkStep.event (slot n : Nat) (request : Request) : WalkStep → WalkerEvent
  | asks level target addr => .issued { slot, walk := n, level, target, addr }
  | ends outcome => .delivered ⟨n, request.id, outcome⟩

/-! A walk does not look at its number. -/

def Walk.numbered (n : Nat) (w : Walk) : Walk := { w with id := n }

def Progress.numbered (n : Nat) : Progress → Progress
  | .probe w target => .probe (w.numbered n) target
  | .waiting w => .waiting (w.numbered n)
  | .finished outcome => .finished outcome

theorem Walk.ask_numbered (n : Nat) (w : Walk) : (w.numbered n).ask = w.ask.numbered n := by
  rw [ask, ask, apply_ite (Progress.numbered n), apply_ite (Progress.numbered n),
    apply_ite (Progress.numbered n)]
  rfl

theorem Walk.advance_numbered (n : Nat) (w : Walk) :
    (w.numbered n).advance = w.advance.numbered n := by
  have hlookup : (w.numbered n).lookup = w.lookup := rfl
  rw [advance, advance, hlookup]
  cases w.lookup.entry with
  | none => exact w.ask_numbered n
  | some e =>
      have hjudge : (w.numbered n).judge e = w.judge e := rfl
      dsimp only
      rw [hjudge]
      cases w.judge e with
      | done outcome => rfl
      | descend table => exact (w.descend table).ask_numbered n

theorem Walk.answer?_numbered (n : Nat) (w : Walk) (target : ProbeTarget)
    (raw : Option UInt64) :
    (w.numbered n).answer? target raw = (w.answer? target raw).map (numbered n) := by
  cases target <;>
    simp only [answer?, apply_ite (Option.map (numbered n))] <;> rfl

theorem Progress.alone_numbered (n : Nat) (progress : Progress)
    (entries : List (Option UInt64)) :
    (progress.numbered n).alone entries = progress.alone entries := by
  induction entries generalizing progress with
  | nil => cases progress <;> rfl
  | cons entry rest ih =>
      cases progress with
      | waiting w => rfl
      | finished outcome => rfl
      | probe w target =>
          have hanswered := w.answer?_numbered n target entry
          rw [numbered]
          cases hanswer : w.answer? target entry with
          | none =>
              rw [hanswer] at hanswered
              rw [alone, alone, hanswer, hanswered]
              rfl
          | some w' =>
              rw [hanswer] at hanswered
              rw [alone_probe hanswer, alone_probe hanswered, w'.advance_numbered, ih]
              rfl

theorem Walk.alone_eq (n : Nat) (root : PhysAddr) (request : Request)
    (entries : List (Option UInt64)) :
    Walk.alone root request entries =
      (advance { id := n, request, level := rootLevel, table := root }).alone entries := by
  rw [alone, ← Progress.alone_numbered n, ← advance_numbered]
  rfl

/-! ## What a call does, it does in one slot -/

/-- The walk that has taken the answer to a probe, if it fits. -/
def Walk.takes? (probe : Probe) (raw : Option UInt64) (w : Walk) : Option Walk :=
  if w.id = probe.walk ∧ w.level = probe.level then w.answer? probe.target raw else none

/-- The probe that a walk sends when it is driven. -/
def Walk.sends (slot : Nat) (w : Walk) : List Probe :=
  match w.advance with
  | .probe next target => [Walker.probeOf slot next target]
  | _ => []

/-- The response that a walk gives when it is driven. -/
def Walk.reply? (w : Walk) : Option Response :=
  match w.advance with
  | .finished outcome => some ⟨w.id, w.request.id, outcome⟩
  | _ => none

/-- What happens when a walk is driven. -/
def Walk.events (slot : Nat) (w : Walk) : List WalkerEvent :=
  (w.sends slot).map .issued ++ w.reply?.toList.map .delivered

/-- The event is a question of walk `n`, or its end. -/
def WalkerEvent.concerns (n : Nat) : WalkerEvent → Bool
  | issued probe => probe.walk == n
  | delivered response => response.walk == n
  | _ => false

namespace Walk

variable {w w' : Walk} {slot n : Nat}

theorem takes?_eq_some {probe : Probe} {raw : Option UInt64}
    (h : w.takes? probe raw = some w') :
    w.id = probe.walk ∧ w'.id = probe.walk ∧ w.answer? probe.target raw = some w' := by
  rw [takes?] at h
  split at h
  · next hfits =>
      obtain ⟨known, hknown⟩ := answer?_eq_some h
      exact ⟨hfits.1, by rw [hknown]; exact hfits.1, h⟩
  · cases h

theorem events_of_probe {target : ProbeTarget} (h : w.advance = .probe w' target) :
    w.events slot = [.issued (Walker.probeOf slot w' target)] := by
  rw [events, sends, reply?, h]
  rfl

theorem events_of_finished {outcome : Except PageFault PhysAddr}
    (h : w.advance = .finished outcome) :
    w.events slot = [.delivered ⟨w.id, w.request.id, outcome⟩] := by
  rw [events, sends, reply?, h]
  rfl

/-- All that a walk does bears its number. -/
theorem concerns_of_mem_events {e : WalkerEvent} (he : e ∈ w.events slot) :
    e.concerns n = (w.id == n) := by
  cases hadvance : w.advance with
  | probe next target =>
      have hid : next.id = w.id := id_advance (congrArg Progress.walk? hadvance)
      rw [events_of_probe hadvance] at he
      rw [List.mem_singleton.1 he, ← hid]
      rfl
  | waiting next =>
      rw [events, sends, reply?, hadvance] at he
      cases he
  | finished outcome =>
      rw [events_of_finished hadvance] at he
      rw [List.mem_singleton.1 he]
      rfl

theorem filter_events_of_ne (hn : w.id ≠ n) :
    (w.events slot).filter (WalkerEvent.concerns n) = [] := by
  refine List.filter_eq_nil_iff.2 fun e he => ?_
  rw [concerns_of_mem_events he, beq_iff_eq]
  exact hn

theorem filter_events_of_eq (hn : w.id = n) :
    (w.events slot).filter (WalkerEvent.concerns n) = w.events slot := by
  refine List.filter_eq_self.2 fun e he => ?_
  rw [concerns_of_mem_events he, beq_iff_eq]
  exact hn

end Walk

namespace Walker

open WalkerEvent

variable {p p' : Walker} {slot : Nat} {w : Walk}

theorem drive_eq (p : Walker) (slot : Nat) (w : Walk) :
    p.drive slot w = (w.reply?, { p with
      slots := p.slots.setIfInBounds slot w.advance.walk?
      pending := p.pending ++ w.sends slot }) := by
  rw [Walk.reply?, Walk.sends]
  cases hadvance : w.advance with
  | probe next target => exact drive_of_probe hadvance
  | waiting next => rw [drive_of_waiting hadvance, List.append_nil]; rfl
  | finished outcome => rw [drive_of_finished hadvance, List.append_nil]; rfl

theorem drivenEvents_drive (hpending : p'.pending = p.pending) (slot : Nat) (w : Walk) :
    p.drivenEvents (p'.drive slot w) = w.events slot := by
  rw [drivenEvents, drive_eq, hpending, List.drop_left]
  rfl

/-- A request starts a walk in the first free slot. -/
theorem perform_translate (p : Walker) (request : Request) :
    p.perform (.translate request) =
      match p.freeSlot? with
      | none => ([], p)
      | some slot =>
        let w : Walk := { id := p.nextWalk, request, level := rootLevel, table := p.root }
        (.accepted request :: w.events slot,
          ({ p with nextWalk := p.nextWalk + 1 }.drive slot w).2) := by
  have hevents : ∀ slot w, p.drivenEvents ({ p with nextWalk := p.nextWalk + 1 }.drive slot w) =
      w.events slot := drivenEvents_drive rfl
  rw [perform, start?]
  cases p.freeSlot? with
  | none => rfl
  | some slot =>
      simp only [Option.map_some]
      rw [hevents]

theorem complete?_eq (p : Walker) (probe : Probe) (raw : Option UInt64) :
    p.complete? probe raw =
      ((p.walk? probe.slot).bind (Walk.takes? probe raw)).map (p.drive probe.slot) := by
  rw [complete?]
  cases p.walk? probe.slot with
  | none => rfl
  | some w =>
      rw [Option.bind_some, Walk.takes?]
      dsimp only
      split <;> rfl

/-- An answer is for the walk in the slot that it names. -/
theorem perform_complete (p : Walker) (probe : Probe) (raw : Option UInt64) :
    p.perform (.complete probe raw) =
      match (p.walk? probe.slot).bind (Walk.takes? probe raw) with
      | none => ([], p)
      | some w => (.answered probe :: w.events probe.slot, (p.drive probe.slot w).2) := by
  rw [perform, complete?_eq]
  cases (p.walk? probe.slot).bind (Walk.takes? probe raw) with
  | none => rfl
  | some w =>
      simp only [Option.map_some]
      rw [drivenEvents_drive rfl]

theorem walk?_drive_of_ne {s : Nat} (hs : s ≠ slot) :
    (p.drive slot w).2.walk? s = p.walk? s := by
  rw [drive_eq]
  exact walk?_of_ne rfl hs

theorem nextWalk_le_perform (p : Walker) (command : WalkerCommand) :
    p.nextWalk ≤ (p.perform command).2.nextWalk := by
  cases command with
  | popProbe =>
      rw [perform, popProbe?]
      cases p.pending <;> exact Nat.le_refl _
  | setRoot rootPpn => exact Nat.le_refl _
  | translate request =>
      rw [perform_translate]
      cases p.freeSlot? with
      | none => exact Nat.le_refl _
      | some slot =>
          dsimp only
          rw [nextWalk_drive]
          exact Nat.le_succ _
  | complete probe raw =>
      rw [perform_complete]
      cases (p.walk? probe.slot).bind (Walk.takes? probe raw) with
      | none => exact Nat.le_refl _
      | some w =>
          exact Nat.le_of_eq (nextWalk_drive p _ w).symm

theorem nextWalk_le_run (p : Walker) (commands : List WalkerCommand) :
    p.nextWalk ≤ (p.run commands).2.nextWalk := by
  induction commands generalizing p with
  | nil => exact Nat.le_refl _
  | cons command rest ih => exact Nat.le_trans (p.nextWalk_le_perform command) (ih _)

theorem run_append (p : Walker) (first second : List WalkerCommand) :
    p.run (first ++ second) =
      ((p.run first).1 ++ ((p.run first).2.run second).1, ((p.run first).2.run second).2) := by
  induction first generalizing p with
  | nil => rfl
  | cons command rest ih =>
      simp only [List.cons_append, run]
      rw [ih, List.append_assoc]

/-! ## What a call means for one walk -/

/-- The entry that a call brings to walk `n`, if that walk takes it. -/
def told? (p : Walker) (n : Nat) : WalkerCommand → Option (Option UInt64)
  | .complete probe raw =>
    if probe.walk = n ∧ (p.complete? probe raw).isSome then some raw else none
  | _ => none

/-- The entries that walk `n` is told in a run, in their order. -/
def entriesFor (p : Walker) (n : Nat) : List WalkerCommand → List (Option UInt64)
  | [] => []
  | command :: rest => (p.told? n command).toList ++ (p.perform command).2.entriesFor n rest

variable {n : Nat}

theorem entriesFor_append (p : Walker) (n : Nat) (first second : List WalkerCommand) :
    p.entriesFor n (first ++ second) =
      p.entriesFor n first ++ (p.run first).2.entriesFor n second := by
  induction first generalizing p with
  | nil => rfl
  | cons command rest ih =>
      rw [List.cons_append, entriesFor, ih, entriesFor, List.append_assoc]
      rfl

/-- A walk that is driven in a slot leaves walk `n` where it is, as long as neither it nor
what was in the slot is walk `n`. -/
theorem walk?_drive_iff (hn : w.id ≠ n) (hold : ∀ v, p.walk? slot = some v → v.id ≠ n)
    (s : Nat) (v : Walk) (hv : v.id = n) :
    (p.drive slot w).2.walk? s = some v ↔ p.walk? s = some v := by
  by_cases hs : s = slot
  · refine iff_of_false (fun h => ?_) fun h => hold v (hs ▸ h) hv
    obtain ⟨-, hid⟩ | ⟨hne, -⟩ := walk?_drive h
    · exact hn (hid.symm.trans hv)
    · exact hne hs
  · rw [walk?_drive_of_ne hs]

/-- Unless a call starts walk `n` or brings it an answer, nothing happens to that walk. -/
theorem perform_of_told?_eq_none {command : WalkerCommand}
    (htold : p.told? n command = none)
    (hnew : n < p.nextWalk ∨ (p.perform command).2.nextWalk ≤ n) :
    (p.perform command).1.filter (concerns n) = [] ∧
      ∀ s v, v.id = n → ((p.perform command).2.walk? s = some v ↔ p.walk? s = some v) := by
  cases command with
  | popProbe =>
      rw [perform, popProbe?]
      cases p.pending <;> exact ⟨rfl, fun _ _ _ => Iff.rfl⟩
  | setRoot rootPpn => exact ⟨rfl, fun _ _ _ => Iff.rfl⟩
  | translate request =>
      rw [perform_translate] at hnew ⊢
      cases hfree : p.freeSlot? with
      | none => exact ⟨rfl, fun _ _ _ => Iff.rfl⟩
      | some slot =>
          rw [hfree] at hnew
          dsimp only at hnew
          rw [nextWalk_drive] at hnew
          have hnew : n < p.nextWalk ∨ p.nextWalk + 1 ≤ n := hnew
          have hn : p.nextWalk ≠ n := by omega
          have hold : p.walk? slot = none := by
            rw [walk?, getElem?_of_freeSlot? hfree]
            rfl
          refine ⟨Walk.filter_events_of_ne hn, walk?_drive_iff hn fun v hv => ?_⟩
          cases hold.symm.trans hv
  | complete probe raw =>
      rw [perform_complete]
      cases htaken : (p.walk? probe.slot).bind (Walk.takes? probe raw) with
      | none => exact ⟨rfl, fun _ _ _ => Iff.rfl⟩
      | some w' =>
          obtain ⟨w, hw, htakes⟩ := Option.bind_eq_some_iff.1 htaken
          obtain ⟨hid, hid', -⟩ := Walk.takes?_eq_some htakes
          have hn : probe.walk ≠ n := by
            intro heq
            rw [told?, complete?_eq, htaken, if_pos ⟨heq, rfl⟩] at htold
            cases htold
          refine ⟨Walk.filter_events_of_ne (hid' ▸ hn), walk?_drive_iff (hid' ▸ hn) fun v hv => ?_⟩
          obtain rfl := Option.some.inj (hw.symm.trans hv)
          exact hid ▸ hn

/-- An answer that walk `n` takes drives it in its slot. -/
theorem perform_of_told?_eq_some {command : WalkerCommand} {raw : Option UInt64}
    (htold : p.told? n command = some raw) :
    ∃ slot w target w', p.walk? slot = some w ∧ w.id = n ∧ w.answer? target raw = some w' ∧
      (p.perform command).1.filter (concerns n) = w'.events slot ∧
      (p.perform command).2 = (p.drive slot w').2 := by
  cases command with
  | popProbe => cases htold
  | setRoot rootPpn => cases htold
  | translate request => cases htold
  | complete probe answer =>
      rw [told?, complete?_eq] at htold
      split at htold
      · next h =>
          obtain rfl := Option.some.inj htold
          rw [Option.isSome_map] at h
          obtain ⟨w', htaken⟩ := Option.isSome_iff_exists.1 h.2
          obtain ⟨w, hw, htakes⟩ := Option.bind_eq_some_iff.1 htaken
          obtain ⟨hid, hid', hanswer⟩ := Walk.takes?_eq_some htakes
          refine ⟨probe.slot, w, probe.target, w', hw, hid.trans h.1, hanswer, ?_, ?_⟩
          · rw [perform_complete, htaken]
            exact Walk.filter_events_of_eq (hid'.trans h.1)
          · rw [perform_complete, htaken]
      · cases htold

/-- A walk that has not started or has ended is not heard of. -/
theorem run_of_no_walk (commands : List WalkerCommand)
    (hnone : ∀ s v, p.walk? s = some v → v.id ≠ n)
    (hnew : n < p.nextWalk ∨ (p.run commands).2.nextWalk ≤ n) :
    (p.run commands).1.filter (concerns n) = [] ∧ p.entriesFor n commands = [] := by
  induction commands generalizing p with
  | nil => exact ⟨rfl, rfl⟩
  | cons command rest ih =>
      have htold : p.told? n command = none := by
        refine Option.eq_none_iff_forall_ne_some.2 fun raw hraw => ?_
        obtain ⟨s, w, -, -, hw, hid, -⟩ := perform_of_told?_eq_some hraw
        exact hnone s w hw hid
      have hle := (p.perform command).2.nextWalk_le_run rest
      have hle' := p.nextWalk_le_perform command
      have hnext : n < (p.perform command).2.nextWalk ∨
          ((p.perform command).2.run rest).2.nextWalk ≤ n :=
        hnew.imp_left fun h => Nat.lt_of_lt_of_le h hle'
      obtain ⟨hquiet, hkept⟩ := perform_of_told?_eq_none htold
        (hnew.imp_right fun h => Nat.le_trans hle h)
      obtain ⟨hevents, hentries⟩ := ih
        (fun s v hv hid => hnone s v ((hkept s v hid).1 hv) hid) hnext
      rw [run, entriesFor, htold, hentries]
      refine ⟨?_, rfl⟩
      dsimp only
      rw [List.filter_append, hquiet, hevents, List.append_nil]

/-! ## A walk among others is a walk by itself -/

/-- The entry that is told to a walk in a slot answers the question that it waits with. -/
theorem takes_of_told? {past : List WalkerEvent} (ha : AnswersOnce past p)
    (hp : ProbesOnce past p) (hw : p.walk? slot = some w) {command : WalkerCommand}
    {raw : Option UInt64} (htold : p.told? w.id command = some raw) :
    ∃ w', w.answer? w.awaits raw = some w' ∧ w'.id = w.id ∧ w'.request = w.request ∧
      ((∃ next, w'.advance = .probe next next.awaits ∧ w.Proceeds next) ∨
        ∃ outcome, w'.advance = .finished outcome) ∧
      (p.perform command).1.filter (concerns w.id) = w'.events slot ∧
      (p.perform command).2.slots = p.slots.setIfInBounds slot w'.advance.walk? := by
  obtain ⟨s, v, target, w', hv, hid, hanswer, hevents, hdrive⟩ :=
    perform_of_told?_eq_some htold
  obtain rfl := ha.distinct s slot v w hv hw hid
  obtain rfl := Option.some.inj (hv.symm.trans hw)
  obtain ⟨rfl, hnext⟩ := Walk.advance_of_answer (hp.waits _ _ hw) hanswer
  obtain ⟨known, hknown⟩ := Walk.answer?_eq_some hanswer
  refine ⟨w', hanswer, by rw [hknown], by rw [hknown], hnext, hevents, ?_⟩
  rw [hdrive, drive_eq]

/-- A walk in a slot has asked its question, and goes on as it would by itself with the
entries that it is told. -/
theorem run_of_walk (commands : List WalkerCommand) {past : List WalkerEvent}
    (ha : AnswersOnce past p) (hp : ProbesOnce past p) (hw : p.walk? slot = some w) :
    .issued (probeOf slot w w.awaits) :: (p.run commands).1.filter (concerns w.id) =
      ((Progress.probe w w.awaits).alone (p.entriesFor w.id commands)).map
        (WalkStep.event slot w.id w.request) := by
  induction commands generalizing past p w with
  | nil => rfl
  | cons command rest ih =>
      have hcall := called_perform hp.waits command
      have ha' := ha.called hcall
      have hp' := hp.called ha hcall
      have hlt : w.id < p.nextWalk := ha.id_lt hw
      rw [run, entriesFor]
      dsimp only
      rw [List.filter_append]
      cases htold : p.told? w.id command with
      | none =>
          obtain ⟨hquiet, hkept⟩ := perform_of_told?_eq_none htold (.inl hlt)
          rw [hquiet]
          exact ih ha' hp' ((hkept slot w rfl).2 hw)
      | some raw =>
          obtain ⟨w', hanswer, hid, hrequest, hnext, hevents, hslots⟩ :=
            takes_of_told? ha hp hw htold
          rw [hevents, Option.toList_some, List.singleton_append, Progress.alone_probe hanswer,
            List.map_cons]
          obtain ⟨next, hadvance, hproceeds⟩ | ⟨outcome, hadvance⟩ := hnext
          · -- The next question is the one that the induction starts from.
            rw [hadvance] at hslots ⊢
            have hrest := ih ha' hp' (walk?_self hslots (lt_size_of_walk? hw).2)
            rw [hproceeds.id, hproceeds.request] at hrest
            rw [Walk.events_of_probe hadvance, List.singleton_append, hrest]
            rfl
          · rw [hadvance] at hslots ⊢
            -- Its slot is free, and no other had its number.
            have hgone : ∀ s v, (p.perform command).2.walk? s = some v → v.id ≠ w.id := by
              intro s v hv heq
              obtain ⟨-, hnone⟩ | ⟨hs, hold⟩ := walk?_set hslots hv
              · cases hnone
              · exact hs (ha.distinct s slot v w hold hw heq)
            have hlt' := Nat.lt_of_lt_of_le hlt (p.nextWalk_le_perform command)
            rw [Walk.events_of_finished hadvance, (run_of_no_walk rest hgone (.inl hlt')).1,
              Progress.alone_finished, hid, hrequest]
            rfl

/-- From its acceptance on, a request is served as by a walk by itself. -/
theorem run_of_accepted {past : List WalkerEvent} (ha : AnswersOnce past p)
    (hp : ProbesOnce past p) {request : Request} (hfree : p.freeSlot? = some slot)
    (after : List WalkerCommand) :
    (p.run (.translate request :: after)).1.filter (concerns p.nextWalk) =
      (Walk.alone p.root request (p.entriesFor p.nextWalk (.translate request :: after))).map
        (WalkStep.event slot p.nextWalk request) := by
  have hcall := called_perform hp.waits (.translate request)
  obtain ⟨w, hadvance, -, hid, hrequest, -⟩ :=
    Walk.advance_of_start p.nextWalk request p.root
  have hperform := p.perform_translate request
  rw [hfree] at hperform
  dsimp only at hperform
  have hslots : (p.perform (.translate request)).2.slots =
      p.slots.setIfInBounds slot (some w) := by
    rw [hperform, drive_of_probe hadvance]
  have hlt := (Array.getElem?_eq_some_iff.1 (getElem?_of_freeSlot? hfree)).1
  have hrest := run_of_walk after (ha.called hcall) (hp.called ha hcall) (walk?_self hslots hlt)
  have hstart : (p.perform (.translate request)).1.filter (concerns p.nextWalk) =
      [.issued (probeOf slot w w.awaits)] := by
    rw [hperform, Walk.events_of_probe hadvance]
    have hconcerns : (WalkerEvent.issued (probeOf slot w w.awaits)).concerns p.nextWalk :=
      beq_iff_eq.2 hid
    rw [List.filter_cons_of_neg Bool.false_ne_true, List.filter_cons_of_pos hconcerns,
      List.filter_nil]
  rw [hid, hrequest] at hrest
  rw [run, entriesFor, Walk.alone_eq p.nextWalk, hadvance]
  dsimp only
  rw [List.filter_append, hstart]
  exact hrest

/-! ## Answers to two slots -/

/-- The two pools are the same but for the probes that nobody has taken yet. -/
structure Agrees (p p' : Walker) : Prop where
  slots : p.slots = p'.slots
  root : p.root = p'.root
  nextWalk : p.nextWalk = p'.nextWalk

theorem Agrees.drive (h : p.Agrees p') (slot : Nat) (w : Walk) :
    (p.drive slot w).2.Agrees (p'.drive slot w).2 := by
  rw [drive_eq, drive_eq]
  exact ⟨congrArg (Array.setIfInBounds · slot _) h.slots, h.root, h.nextWalk⟩

/-- Nothing that a call does depends on the probes that nobody has taken. -/
theorem Agrees.perform (h : p.Agrees p') (command : WalkerCommand) :
    (p.perform command).1 = (p'.perform command).1 ∧
      (p.perform command).2.Agrees (p'.perform command).2 := by
  obtain ⟨slots, root, pending, nextWalk⟩ := p
  obtain ⟨slots', root', pending', nextWalk'⟩ := p'
  obtain ⟨hslots, hroot, hnext⟩ := h
  dsimp only at hslots hroot hnext
  subst hslots hroot hnext
  cases command with
  | popProbe => cases pending <;> cases pending' <;> exact ⟨rfl, rfl, rfl, rfl⟩
  | setRoot rootPpn => exact ⟨rfl, rfl, rfl, rfl⟩
  | translate request =>
      rw [perform_translate, perform_translate]
      simp only [freeSlot?]
      cases slots.findIdx? Option.isNone with
      | none => exact ⟨rfl, rfl, rfl, rfl⟩
      | some slot =>
          refine ⟨rfl, Agrees.drive ?_ slot _⟩
          exact ⟨rfl, rfl, rfl⟩
  | complete probe raw =>
      rw [perform_complete, perform_complete]
      simp only [walk?]
      cases (slots[probe.slot]?.join).bind (Walk.takes? probe raw) with
      | none => exact ⟨rfl, rfl, rfl, rfl⟩
      | some w =>
          refine ⟨rfl, Agrees.drive ?_ probe.slot w⟩
          exact ⟨rfl, rfl, rfl⟩

theorem Agrees.run (h : p.Agrees p') (commands : List WalkerCommand) :
    (p.run commands).1 = (p'.run commands).1 ∧
      (p.run commands).2.Agrees (p'.run commands).2 := by
  induction commands generalizing p p' with
  | nil => exact ⟨rfl, h⟩
  | cons command rest ih =>
      obtain ⟨hevents, hnext⟩ := h.perform command
      obtain ⟨hrest, hend⟩ := ih hnext
      rw [Walker.run, Walker.run]
      exact ⟨congrArg₂ (· ++ ·) hevents hrest, hend⟩

/-- Two calls come to the same in either order: each does what it does in the other order,
nothing but the order of the probes is different after them, and nobody can tell later on. -/
structure Swappable (p : Walker) (c d : WalkerCommand) : Prop where
  first : (p.perform c).1 = ((p.perform d).2.perform c).1
  second : ((p.perform c).2.perform d).1 = (p.perform d).1
  slots : (p.run [c, d]).2.slots = (p.run [d, c]).2.slots
  root : (p.run [c, d]).2.root = (p.run [d, c]).2.root
  nextWalk : (p.run [c, d]).2.nextWalk = (p.run [d, c]).2.nextWalk
  pending : (p.run [c, d]).2.pending.Perm (p.run [d, c]).2.pending
  later : ∀ rest, ((p.run [c, d]).2.run rest).1 = ((p.run [d, c]).2.run rest).1

theorem walk?_complete_of_ne {probe : Probe} {raw : Option UInt64} {s : Nat}
    (hs : s ≠ probe.slot) : (p.perform (.complete probe raw)).2.walk? s = p.walk? s := by
  rw [perform_complete]
  cases (p.walk? probe.slot).bind (Walk.takes? probe raw) with
  | none => rfl
  | some w => exact walk?_drive_of_ne hs

theorem drive_drive {t : Nat} (hne : slot ≠ t) (v : Walk) :
    ((p.drive slot w).2.drive t v).2.Agrees ((p.drive t v).2.drive slot w).2 ∧
      ((p.drive slot w).2.drive t v).2.pending.Perm ((p.drive t v).2.drive slot w).2.pending := by
  simp only [drive_eq]
  refine ⟨⟨Array.setIfInBounds_comm _ _ hne, rfl, rfl⟩, ?_⟩
  rw [List.append_assoc, List.append_assoc]
  exact List.perm_append_comm.append_left _

/-- Answers to two slots may come in either order. -/
theorem swappable_complete (p : Walker) {q r : Probe} (hne : q.slot ≠ r.slot)
    (a b : Option UInt64) : p.Swappable (.complete q a) (.complete r b) := by
  have hq : (p.perform (.complete r b)).2.walk? q.slot = p.walk? q.slot :=
    walk?_complete_of_ne hne
  have hr : (p.perform (.complete q a)).2.walk? r.slot = p.walk? r.slot :=
    walk?_complete_of_ne hne.symm
  have hqr : (p.run [.complete q a, .complete r b]).2 =
      ((p.perform (.complete q a)).2.perform (.complete r b)).2 := rfl
  have hrq : (p.run [.complete r b, .complete q a]).2 =
      ((p.perform (.complete r b)).2.perform (.complete q a)).2 := rfl
  rw [perform_complete _ r, hr, perform_complete p q] at hqr
  rw [perform_complete _ q, hq, perform_complete p r] at hrq
  have hagrees : (p.run [.complete q a, .complete r b]).2.Agrees
      (p.run [.complete r b, .complete q a]).2 ∧
        (p.run [.complete q a, .complete r b]).2.pending.Perm
          (p.run [.complete r b, .complete q a]).2.pending := by
    rw [hqr, hrq]
    cases (p.walk? q.slot).bind (Walk.takes? q a) <;>
      cases (p.walk? r.slot).bind (Walk.takes? r b)
    case some.some w v => exact drive_drive hne v
    all_goals exact ⟨⟨rfl, rfl, rfl⟩, List.Perm.refl _⟩
  obtain ⟨hagrees, hpending⟩ := hagrees
  refine ⟨?_, ?_, hagrees.slots, hagrees.root, hagrees.nextWalk, hpending,
    fun rest => (hagrees.run rest).1⟩
  · rw [perform_complete _ q, perform_complete _ q, hq]
    cases (p.walk? q.slot).bind (Walk.takes? q a) <;> rfl
  · rw [perform_complete _ r, perform_complete p r, hr]
    cases (p.walk? r.slot).bind (Walk.takes? r b) <;> rfl

/-! ## Independence -/

/-- **Walks do not disturb each other.** Whatever is done to a pool of walkers before and
after a request is accepted, the questions and the outcome of its walk are those of a walk
by itself from the root at that time, with the entries of those answers that the walk
takes. And of two answers for different slots either may come first. -/
theorem walks_are_independent (count : Nat) (rootPpn : UInt64) (before : List WalkerCommand) :
    let start := Walker.withSlots count rootPpn
    let p := (start.run before).2
    (∀ request slot after, p.freeSlot? = some slot →
      (start.run (before ++ .translate request :: after)).1.filter (concerns p.nextWalk) =
        (Walk.alone p.root request
          (start.entriesFor p.nextWalk (before ++ .translate request :: after))).map
            (WalkStep.event slot p.nextWalk request)) ∧
      ∀ (q r : Probe) (a b : Option UInt64), q.slot ≠ r.slot →
        p.Swappable (.complete q a) (.complete r b) := by
  intro start p
  refine ⟨fun request slot after hfree => ?_, fun q r a b hne => p.swappable_complete hne a b⟩
  obtain ⟨ha, hp⟩ := once_run before (AnswersOnce.withSlots count rootPpn)
    (ProbesOnce.withSlots count rootPpn)
  -- The number of the walk is new, so nothing that came before is about it.
  obtain ⟨hquiet, hnothing⟩ := run_of_no_walk (p := start) (n := p.nextWalk) before
    (fun s w hw => absurd hw (walk?_withSlots s w)) (.inr (Nat.le_refl _))
  rw [run_append, entriesFor_append, List.filter_append, hquiet, hnothing]
  exact run_of_accepted ha hp hfree after

/-- A second walk starts while one is under way. The root is moved, both are answered in
turn, the second once for a level that it has not come to, and it ends at a page of the
table that it started from. -/
theorem second_walk_is_independent_of_first :
    let start := Walker.withSlots 2 1
    let request : Request := .toLoad 6 ⟨0x8000001123⟩
    let before : List WalkerCommand := [.translate (.toLoad 5 ⟨0⟩)]
    let first : Probe := { slot := 0, walk := 0, level := 3, target := .cache, addr := ⟨0x1000⟩ }
    let second : Probe := { slot := 1, walk := 1, level := 3, target := .cache, addr := ⟨0x1008⟩ }
    let after : List WalkerCommand := [.setRoot 7, .complete first none,
      .complete { second with level := 2 } (some 0x43), .complete second none,
      .complete { first with target := .memory } none,
      .complete { second with target := .memory } (some 0x4000000043)]
    let p := (start.run before).2
    let commands := before ++ .translate request :: after
    p.freeSlot? = some 1 ∧ start.entriesFor 1 commands = [none, some 0x4000000043] ∧
      (start.run commands).1.filter (concerns 1) =
        [.issued second, .issued { second with target := .memory },
          .delivered ⟨1, 6, .ok ⟨0x10000001123⟩⟩] ∧
      first.slot ≠ second.slot ∧ p.Swappable (.complete first none) (.complete second none) := by
  intro start request before first second after p commands
  have hfree : p.freeSlot? = some 1 := by decide +kernel
  have hentries : start.entriesFor 1 commands = [none, some 0x4000000043] := by decide +kernel
  have halone : Walk.alone p.root request [none, some 0x4000000043] =
      [.asks 3 .cache ⟨0x1008⟩, .asks 3 .memory ⟨0x1008⟩, .ends (.ok ⟨0x10000001123⟩)] := by
    decide +kernel
  have hslots : first.slot ≠ second.slot := by decide
  have hnext : p.nextWalk = 1 := by decide +kernel
  obtain ⟨hwalk, hswap⟩ := walks_are_independent 2 1 before
  have hseen : (start.run commands).1.filter (concerns p.nextWalk) =
      (Walk.alone p.root request (start.entriesFor p.nextWalk commands)).map
        (WalkStep.event 1 p.nextWalk request) := hwalk request 1 after hfree
  rw [hnext, hentries, halone] at hseen
  exact ⟨hfree, hentries, hseen, hslots, hswap first second none none hslots⟩

end Walker

end OutOfOrder.Paging
