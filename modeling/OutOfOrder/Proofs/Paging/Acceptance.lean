import OutOfOrder.Proofs.Paging.Lifecycle

/-!
# Which answers are taken

An answer names a slot, a walk, a level and a target. It is taken if the walk in the slot
is that one, stands at that level and waits for that target, and this is to say that the
probe it answers is the one that the slot has out. Nothing else is looked at, not the
address and not the entry.

So what has to be kept out is told by these four, however old it is or made up. A walk
number is never given out again, which keeps out what was meant for an earlier walk in the
slot. And within a walk nothing comes back: it asks the cache before memory and one level
before the next one down, so its questions have a turn (`Probe.turn`), every question that
was answered had an earlier turn than the one that is out, and no answer is taken twice.
-/

namespace OutOfOrder.Paging

/-- The place of a question among those that a walk can ask, in the order in which it asks
them. -/
def Probe.turn (q : Probe) : Nat :=
  2 * (rootLevel - q.level) + if q.target = .memory then 1 else 0

theorem Probe.sameAs_iff {q r : Probe} : q.sameAs r = true ↔
    q.slot = r.slot ∧ q.walk = r.walk ∧ q.level = r.level ∧ q.target = r.target := by
  simp only [sameAs, Bool.and_eq_true, beq_iff_eq, and_assoc]

theorem Probe.turn_eq_of_sameAs {q r : Probe} (h : q.sameAs r = true) : q.turn = r.turn := by
  obtain ⟨-, -, hlevel, htarget⟩ := sameAs_iff.1 h
  rw [turn, turn, hlevel, htarget]

/-- A walk waits at the turn that it has come to. -/
theorem Walk.turn_probeOf {w : Walk} (hw : w.Waits) (slot : Nat) :
    (Walker.probeOf slot w w.awaits).turn = w.rounds := by
  rw [Probe.turn, rounds, Walker.probeOf, awaits]
  rcases hw.asked with ⟨hcache, -⟩ | ⟨hcache, -⟩ <;> rw [hcache] <;> rfl

namespace WalkerEvent

def taken? : WalkerEvent → Option Probe
  | answered probe => some probe
  | _ => none

/-- The answers that were taken, in order. -/
def taken (past : List WalkerEvent) : List Probe := past.filterMap taken?

@[simp]
theorem taken_append (first second : List WalkerEvent) :
    taken (first ++ second) = taken first ++ taken second :=
  List.filterMap_append

theorem countP_answers (past : List WalkerEvent) (n : Nat) :
    past.countP (answers n) = (taken past).countP (·.walk == n) := by
  rw [taken, List.countP_filterMap]
  congr 1
  funext event
  cases event <;> rfl

end WalkerEvent

namespace Walker

open WalkerEvent

variable {p p' : Walker} {past events : List WalkerEvent}

/-- An answer is taken if and only if the slot that it names is busy with the walk that it
names, at that level, and the one probe that the slot has out is for that target. -/
theorem ProbesOnce.complete?_ne_none_iff (hp : ProbesOnce past p) (probe : Probe)
    (raw : Option UInt64) : p.complete? probe raw ≠ none ↔
      ∃ w q, p.walk? probe.slot = some w ∧ w.id = probe.walk ∧ w.level = probe.level ∧
        (outstanding past).filter (·.slot == probe.slot) = [q] ∧ q.target = probe.target := by
  constructor
  · intro htaken
    obtain ⟨⟨response, p'⟩, hcomplete⟩ := Option.ne_none_iff_exists'.1 htaken
    obtain ⟨w, w', hw, hid, hlevel, hanswer, -⟩ := complete?_eq_some hcomplete
    have htarget := (Walk.advance_of_answer (hp.waits _ w hw) hanswer).1
    exact ⟨w, probeOf probe.slot w w.awaits, hw, hid, hlevel, hp.probe _ w hw, htarget.symm⟩
  · rintro ⟨w, q, hw, hid, hlevel, hout, htarget⟩
    rw [hp.probe _ w hw, List.cons.injEq] at hout
    obtain ⟨rfl, -⟩ := hout
    have htarget : w.awaits = probe.target := htarget
    simp only [complete?, hw, ← htarget]
    rw [if_pos ⟨hid, hlevel⟩, Ne, Option.map_eq_none_iff]
    exact Walk.answer?_awaits (hp.waits _ w hw) raw

/-! ## No answer is taken twice -/

/-- The answers that a walk has taken lie behind it, and no two of all that were taken are
to the same question. -/
structure TakenOnce (past : List WalkerEvent) (p : Walker) : Prop where
  behind : ∀ a ∈ taken past, ∀ s w, p.walk? s = some w → w.id = a.walk → a.turn < w.rounds
  once : ∀ q : Probe, (taken past).countP q.sameAs ≤ 1

namespace TakenOnce

theorem withSlots (count : Nat) (rootPpn : UInt64) :
    TakenOnce [] (Walker.withSlots count rootPpn) where
  behind := fun _ ha => absurd ha List.not_mem_nil
  once := fun _ => Nat.zero_le 1

/-- Whatever is taken has not been taken before. -/
theorem once_answered (ht : TakenOnce past p) {probe : Probe} {w : Walk} (hwaits : w.Waits)
    (hw : p.walk? probe.slot = some w)
    (hprobe : (probeOf probe.slot w w.awaits).sameAs probe = true) (q : Probe) :
    (taken past ++ [probe]).countP q.sameAs ≤ 1 := by
  rw [List.countP_append, List.countP_singleton]
  split
  · next hsame =>
      -- An answer like this one would be as far on as the walk that takes this one.
      have hnone : (taken past).countP q.sameAs = 0 := by
        refine List.countP_eq_zero.2 fun a ha hold => ?_
        have hid : w.id = a.walk := by
          rw [← (Probe.sameAs_iff.1 hold).2.1, (Probe.sameAs_iff.1 hsame).2.1]
          exact (Probe.sameAs_iff.1 hprobe).2.1
        have hturn : a.turn = w.rounds := by
          rw [← Probe.turn_eq_of_sameAs hold, Probe.turn_eq_of_sameAs hsame,
            ← Probe.turn_eq_of_sameAs hprobe, Walk.turn_probeOf hwaits]
        have hbehind := ht.behind a ha probe.slot w hw hid
        omega
      omega
  · exact ht.once q

theorem called (ht : TakenOnce past p) (ha : AnswersOnce past p) (hp : ProbesOnce past p)
    (hcall : Called p events p') : TakenOnce (past ++ events) p' := by
  cases hcall with
  | idle hslots hnext =>
      rw [List.append_nil]
      exact ⟨fun a hmem s w hw => ht.behind a hmem s w (by rwa [walk?, hslots] at hw), ht.once⟩
  | @begins p' slot request w hslot hid hrequest hrounds hwaits hslots hnext =>
      have htaken : taken (past ++ [accepted request, issued (probeOf slot w w.awaits)]) =
          taken past := (taken_append _ _).trans (List.append_nil _)
      refine ⟨fun a hmem s u hu hwalk => ?_, htaken ▸ ht.once⟩
      rw [htaken] at hmem
      obtain ⟨-, hnew⟩ | ⟨-, hold⟩ := walk?_set hslots hu
      · -- No answer was taken under a number that was not given out.
        obtain rfl := Option.some.inj hnew
        have hfresh := hp.fresh w.id (Nat.le_of_eq hid.symm)
        rw [countP_answers, List.countP_eq_zero] at hfresh
        exact absurd (beq_iff_eq.2 hwalk.symm) (hfresh a hmem)
      · exact ht.behind a hmem s u hold hwalk
  | @proceeds p' probe w w' hw hprobe hproceeds hslots hnext =>
      have hwaits := hp.waits _ w hw
      have htaken : taken (past ++ [answered probe, issued (probeOf probe.slot w' w'.awaits)]) =
          taken past ++ [probe] := taken_append _ _
      refine ⟨fun a hmem s u hu hwalk => ?_, htaken ▸ ht.once_answered hwaits hw hprobe⟩
      rw [htaken, List.mem_append, List.mem_singleton] at hmem
      obtain ⟨rfl, hnew⟩ | ⟨hs, hold⟩ := walk?_set hslots hu
      · obtain rfl := Option.some.inj hnew
        refine Nat.lt_of_le_of_lt ?_ hproceeds.rounds
        rcases hmem with hmem | rfl
        · exact Nat.le_of_lt (ht.behind a hmem _ w hw (hproceeds.id.symm.trans hwalk))
        · exact Nat.le_of_eq
            ((Probe.turn_eq_of_sameAs hprobe).symm.trans (Walk.turn_probeOf hwaits _))
      · rcases hmem with hmem | rfl
        · exact ht.behind a hmem s u hold hwalk
        · exact absurd (ha.distinct s _ u w hold hw
            (hwalk.trans (ProbesOnce.walk_eq_of_sameAs hprobe))) hs
  | @ends p' probe w outcome hw hprobe hslots hnext =>
      have htaken : taken (past ++ [answered probe, delivered ⟨w.id, w.request.id, outcome⟩]) =
          taken past ++ [probe] := taken_append _ _
      refine ⟨fun a hmem s u hu hwalk => ?_,
        htaken ▸ ht.once_answered (hp.waits _ w hw) hw hprobe⟩
      rw [htaken, List.mem_append, List.mem_singleton] at hmem
      obtain ⟨-, hnew⟩ | ⟨hs, hold⟩ := walk?_set hslots hu
      · cases hnew
      · rcases hmem with hmem | rfl
        · exact ht.behind a hmem s u hold hwalk
        · exact absurd (ha.distinct s _ u w hold hw
            (hwalk.trans (ProbesOnce.walk_eq_of_sameAs hprobe))) hs

theorem run (commands : List WalkerCommand) (ht : TakenOnce past p) (ha : AnswersOnce past p)
    (hp : ProbesOnce past p) : TakenOnce (past ++ (p.run commands).1) (p.run commands).2 := by
  induction commands generalizing past p with
  | nil =>
      rw [Walker.run, List.append_nil]
      exact ht
  | cons command rest ih =>
      have hcall := called_perform hp.waits command
      have hrest := ih (ht.called ha hp hcall) (ha.called hcall) (hp.called ha hcall)
      rw [List.append_assoc] at hrest
      exact hrest

end TakenOnce

/-! ## Runs -/

/-- The answers that are taken are those to the probes that are out, and to no others. -/
structure Acceptance (past : List WalkerEvent) (p : Walker) : Prop where
  /-- Of the probe that is answered, the slot, the walk, the level and the target count. -/
  taken_iff : ∀ probe raw, p.complete? probe raw ≠ none ↔
    ∃ w q, p.walk? probe.slot = some w ∧ w.id = probe.walk ∧ w.level = probe.level ∧
      (outstanding past).filter (·.slot == probe.slot) = [q] ∧ q.target = probe.target
  address : ∀ probe raw addr, p.complete? { probe with addr } raw = p.complete? probe raw
  /-- An answer that is not taken leaves everything as it is, and nothing happens. -/
  refused : ∀ probe raw, p.complete? probe raw = none → p.perform (.complete probe raw) = ([], p)
  /-- No question is answered twice, sent or not. -/
  once : ∀ q : Probe, (taken past).countP q.sameAs ≤ 1
  /-- An answer that was taken is not taken again. -/
  spent : ∀ a ∈ taken past, ∀ q : Probe, q.sameAs a = true → ∀ raw, p.complete? q raw = none
  /-- Neither is any for a walk that has ended, whoever has its slot. -/
  ended : ∀ r ∈ responses past, ∀ probe : Probe, probe.walk = r.walk →
    ∀ raw, p.complete? probe raw = none

/-- **Exactly the probe that is out is accepted.** Whatever is done to a pool of walkers, in
whatever order and with whatever answers, an answer is taken if and only if it is to the
one probe that its slot has out. -/
theorem only_probe_that_is_out_accepted (count : Nat) (rootPpn : UInt64)
    (commands : List WalkerCommand) :
    Acceptance ((Walker.withSlots count rootPpn).run commands).1
      ((Walker.withSlots count rootPpn).run commands).2 := by
  obtain ⟨ha, hp⟩ := once_run commands (AnswersOnce.withSlots count rootPpn)
    (ProbesOnce.withSlots count rootPpn)
  have ht := TakenOnce.run commands (TakenOnce.withSlots count rootPpn)
    (AnswersOnce.withSlots count rootPpn) (ProbesOnce.withSlots count rootPpn)
  rw [List.nil_append] at ha hp ht
  refine {
    taken_iff := hp.complete?_ne_none_iff
    address := fun _ _ _ => rfl
    refused := fun probe raw hnone => by rw [perform, hnone]
    once := ht.once
    spent := fun a hmem q hsame raw => ?_
    ended := fun r hmem probe hwalk raw => ?_ }
  · refine Decidable.byContradiction fun htaken => ?_
    obtain ⟨w, r, hw, hid, hlevel, hout, htarget⟩ := (hp.complete?_ne_none_iff q raw).1 htaken
    rw [hp.probe _ w hw, List.cons.injEq] at hout
    obtain ⟨rfl, -⟩ := hout
    have hprobe : (probeOf q.slot w w.awaits).sameAs q = true :=
      Probe.sameAs_iff.2 ⟨rfl, hid, hlevel, htarget⟩
    have hturn : a.turn = w.rounds := by
      rw [← Probe.turn_eq_of_sameAs hsame, ← Probe.turn_eq_of_sameAs hprobe,
        Walk.turn_probeOf (hp.waits _ w hw)]
    have hbehind := ht.behind a hmem q.slot w hw (hid.trans (Probe.sameAs_iff.1 hsame).2.1)
    omega
  · refine Decidable.byContradiction fun htaken => ?_
    obtain ⟨w, -, hw, hid, -⟩ := (hp.complete?_ne_none_iff probe raw).1 htaken
    exact ha.unanswered _ w hw (List.mem_map.2 ⟨r, hmem, (hid.trans hwalk).symm⟩)

/-- Two walks in one slot, one after the other. The second has asked the cache, as the first
had, but an answer to the first is not taken; nor is one from memory, which was not asked, nor
one to the second again. -/
example :
    let first : Probe := { slot := 0, walk := 0, level := 3, target := .cache, addr := ⟨0⟩ }
    let second : Probe := { first with walk := 1 }
    let commands : List WalkerCommand := [.translate (.toLoad 5 ⟨0⟩), .complete first none,
      .complete { first with target := .memory } none, .translate (.toLoad 6 ⟨0⟩),
      .complete first none, .complete { second with target := .memory } none,
      .complete { second with addr := ⟨8⟩ } none, .complete second none]
    (taken ((Walker.withSlots 1 0).run commands).1).map (fun q => (q.walk, q.target)) =
      [(0, .cache), (0, .memory), (1, .cache)] := by decide +kernel

end Walker

end OutOfOrder.Paging
