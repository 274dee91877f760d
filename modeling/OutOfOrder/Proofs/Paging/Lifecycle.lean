import OutOfOrder.Proofs.Paging.Calls

/-!
# Every walk ends, and is answered once

Two invariants of a history carry this. Numbers are given out one for each
request, so a request that was accepted is in a slot under its number or in the
responses, and `AnswersOnce` says that it is never in both. And a walk whose
probe is answered asks again in the same call or gives up its slot, so
`ProbesOnce` can say that each busy slot has one probe out.

That a walk ends comes from the second. A walk asks at most twice at each of four
levels, so how far it has come bounds the answers that it has taken, and a walk
that has taken eight has nothing left to ask.
-/

namespace OutOfOrder.Paging.Walker

open WalkerEvent

variable {p p' : Walker} {slot : Nat} {past events : List WalkerEvent}

/-! ## Requests and responses -/

/-- Every request that was accepted is answered or in a slot, and not both. -/
structure AnswersOnce (past : List WalkerEvent) (p : Walker) : Prop where
  number : p.nextWalk = (requests past).length
  request : ∀ s w, p.walk? s = some w → (requests past)[w.id]? = some w.request
  distinct : ∀ s t v w, p.walk? s = some v → p.walk? t = some w → v.id = w.id → s = t
  answer : ∀ r ∈ responses past, ∃ request, (requests past)[r.walk]? = some request ∧
    r.id = request.id
  once : ((responses past).map Response.walk).Nodup
  unanswered : ∀ s w, p.walk? s = some w → w.id ∉ (responses past).map Response.walk
  count : (requests past).length = (responses past).length + p.busy

namespace AnswersOnce

theorem withSlots (count : Nat) (rootPpn : UInt64) :
    AnswersOnce [] (Walker.withSlots count rootPpn) where
  number := rfl
  request := fun s w hw => absurd hw (walk?_withSlots s w)
  distinct := fun s t v w hv => absurd hv (walk?_withSlots s v)
  answer := fun r hr => absurd hr List.not_mem_nil
  once := List.nodup_nil
  unanswered := fun _ _ _ => List.not_mem_nil
  count := by
    rw [busy, Walker.withSlots, Array.countP_replicate]
    rfl

theorem id_lt (ha : AnswersOnce past p) {s : Nat} {w : Walk} (hw : p.walk? s = some w) :
    w.id < p.nextWalk := by
  rw [ha.number]
  exact (List.getElem?_eq_some_iff.1 (ha.request s w hw)).1

theorem of_kept (ha : AnswersOnce past p) (hnext : p'.nextWalk = p.nextWalk)
    (hbusy : p'.busy = p.busy)
    (hkept : ∀ s w', p'.walk? s = some w' →
      ∃ w, p.walk? s = some w ∧ w'.id = w.id ∧ w'.request = w.request)
    (hrequests : requests events = []) (hresponses : responses events = []) :
    AnswersOnce (past ++ events) p' := by
  have hrequests : requests (past ++ events) = requests past := by
    rw [requests_append, hrequests, List.append_nil]
  have hresponses : responses (past ++ events) = responses past := by
    rw [responses_append, hresponses, List.append_nil]
  exact {
    number := by
      rw [hnext, hrequests, ha.number]
    request := by
      intro s w hw
      obtain ⟨u, hu, hid, hrequest⟩ := hkept s w hw
      rw [hrequests, hid, hrequest]
      exact ha.request s u hu
    distinct := by
      intro s t v w hv hw heq
      obtain ⟨v', hv', hid, -⟩ := hkept s v hv
      obtain ⟨w', hw', hid', -⟩ := hkept t w hw
      exact ha.distinct s t v' w' hv' hw' (hid.symm.trans (heq.trans hid'))
    answer := by
      rw [hrequests, hresponses]
      exact ha.answer
    once := by
      rw [hresponses]
      exact ha.once
    unanswered := by
      intro s w hw
      obtain ⟨u, hu, hid, -⟩ := hkept s w hw
      rw [hresponses, hid]
      exact ha.unanswered s u hu
    count := by
      rw [hrequests, hresponses, hbusy, ha.count] }

theorem begins (ha : AnswersOnce past p) {request : Request} {probe : Probe} {w : Walk}
    (hslot : p.slots[slot]? = some none) (hid : w.id = p.nextWalk)
    (hrequest : w.request = request) (hslots : p'.slots = p.slots.setIfInBounds slot (some w))
    (hnext : p'.nextWalk = p.nextWalk + 1) :
    AnswersOnce (past ++ [.accepted request, .issued probe]) p' := by
  have hrequests : requests (past ++ [.accepted request, .issued probe]) =
      requests past ++ [request] := requests_append _ _
  have hresponses : responses (past ++ [.accepted request, .issued probe]) = responses past :=
    (responses_append _ _).trans (List.append_nil _)
  have hkeep : ∀ {i : Nat} {r : Request}, (requests past)[i]? = some r →
      (requests past ++ [request])[i]? = some r := by
    intro i r hr
    rw [List.getElem?_append_left (List.getElem?_eq_some_iff.1 hr).1, hr]
  have hnew : w.id = (requests past).length := hid.trans ha.number
  exact {
    number := by
      rw [hnext, hrequests, List.length_append, ha.number]
      rfl
    request := by
      intro s u hu
      rw [hrequests]
      obtain ⟨-, rfl⟩ | ⟨-, hold⟩ := (walk?_set hslots hu).imp_left (And.imp_right Option.some.inj)
      · rw [hnew, List.getElem?_concat_length, hrequest]
      · exact hkeep (ha.request s u hold)
    distinct := by
      intro s t u v hu hv heq
      -- The new number is above all that were given out before.
      have hone : ∀ {s u}, p.walk? s = some u → u.id ≠ w.id := fun hold =>
        hid ▸ Nat.ne_of_lt (ha.id_lt hold)
      obtain ⟨rfl, hu⟩ | ⟨-, hu⟩ := walk?_set hslots hu <;>
        obtain ⟨rfl, hv⟩ | ⟨-, hv⟩ := walk?_set hslots hv
      · rfl
      · exact absurd (heq.symm.trans (congrArg Walk.id (Option.some.inj hu)).symm) (hone hv)
      · exact absurd (heq.trans (congrArg Walk.id (Option.some.inj hv)).symm) (hone hu)
      · exact ha.distinct s t u v hu hv heq
    answer := by
      intro r hr
      rw [hresponses] at hr
      obtain ⟨r', hr', hrid⟩ := ha.answer r hr
      exact ⟨r', hrequests ▸ hkeep hr', hrid⟩
    once := by
      rw [hresponses]
      exact ha.once
    unanswered := by
      intro s u hu
      rw [hresponses]
      obtain ⟨-, rfl⟩ | ⟨-, hold⟩ := (walk?_set hslots hu).imp_left (And.imp_right Option.some.inj)
      · -- No response can be for a request that was not accepted before.
        intro hmem
        obtain ⟨r, hr, hwalk⟩ := List.mem_map.1 hmem
        obtain ⟨r', hr', -⟩ := ha.answer r hr
        have hlt := (List.getElem?_eq_some_iff.1 hr').1
        rw [hwalk, hnew] at hlt
        exact Nat.lt_irrefl _ hlt
      · exact ha.unanswered s u hold
    count := by
      have hbusy : p'.busy + 0 = p.busy + 1 := busy_set hslots hslot
      have hcount := ha.count
      rw [hrequests, hresponses, List.length_append, List.length_singleton]
      omega }

theorem ends (ha : AnswersOnce past p) {probe : Probe} {w : Walk}
    {outcome : Except PageFault PhysAddr} (hw : p.walk? slot = some w)
    (hslots : p'.slots = p.slots.setIfInBounds slot none) (hnext : p'.nextWalk = p.nextWalk) :
    AnswersOnce (past ++ [.answered probe, .delivered ⟨w.id, w.request.id, outcome⟩]) p' := by
  have hrequests : requests (past ++ [.answered probe,
      .delivered ⟨w.id, w.request.id, outcome⟩]) = requests past :=
    (requests_append _ _).trans (List.append_nil _)
  have hresponses : responses (past ++ [.answered probe,
      .delivered ⟨w.id, w.request.id, outcome⟩]) =
        responses past ++ [⟨w.id, w.request.id, outcome⟩] := responses_append _ _
  have hold : ∀ {s u}, p'.walk? s = some u → s ≠ slot ∧ p.walk? s = some u := fun hu =>
    (walk?_set hslots hu).resolve_left fun h => nomatch h.2
  exact {
    number := by
      rw [hnext, hrequests, ha.number]
    request := by
      intro s u hu
      rw [hrequests]
      exact ha.request s u (hold hu).2
    distinct := by
      intro s t u v hu hv heq
      exact ha.distinct s t u v (hold hu).2 (hold hv).2 heq
    answer := by
      intro r hr
      rw [hrequests]
      rw [hresponses, List.mem_append, List.mem_singleton] at hr
      obtain hr | rfl := hr
      · exact ha.answer r hr
      · exact ⟨w.request, ha.request slot w hw, rfl⟩
    once := by
      rw [hresponses, List.map_append]
      refine List.nodup_append.2 ⟨ha.once, by simp, fun a hmem b hb heq => ?_⟩
      have heq : a = w.id := heq.trans (List.mem_singleton.1 hb)
      exact ha.unanswered slot w hw (heq ▸ hmem)
    unanswered := by
      intro s u hu
      rw [hresponses, List.map_append, List.mem_append, not_or]
      refine ⟨ha.unanswered s u (hold hu).2, fun hmem => (hold hu).1 ?_⟩
      exact ha.distinct s slot u w (hold hu).2 hw (List.mem_singleton.1 hmem)
    count := by
      have hbusy : p'.busy + 1 = p.busy + 0 := busy_set hslots (lt_size_of_walk? hw).1
      have hcount := ha.count
      rw [hrequests, hresponses, List.length_append, List.length_singleton]
      omega }

theorem called (ha : AnswersOnce past p) (hcall : Called p events p') :
    AnswersOnce (past ++ events) p' := by
  cases hcall with
  | idle hslots hnext =>
      have hwalk : ∀ s, p'.walk? s = p.walk? s := fun s => by rw [walk?, hslots, walk?]
      exact ha.of_kept hnext (by rw [busy, hslots, busy])
        (fun s w hw => ⟨w, hwalk s ▸ hw, rfl, rfl⟩) rfl rfl
  | begins hslot hid hrequest hrounds hwaits hslots hnext =>
      exact ha.begins hslot hid hrequest hslots hnext
  | @proceeds p' probe w w' hw hprobe hproceeds hslots hnext =>
      have hbusy : p'.busy + 1 = p.busy + 1 := busy_set hslots (lt_size_of_walk? hw).1
      refine ha.of_kept hnext (by omega) (fun s u hu => ?_) rfl rfl
      obtain ⟨rfl, hnew⟩ | ⟨-, hold⟩ := walk?_set hslots hu
      · obtain rfl := Option.some.inj hnew
        exact ⟨w, hw, hproceeds.id, hproceeds.request⟩
      · exact ⟨u, hold, rfl, rfl⟩
  | ends hw hprobe hslots hnext => exact ha.ends hw hslots hnext

end AnswersOnce

/-! ## Probes and answers -/

/-- Every walk in a slot has one probe out, and has taken no more answers than it
needed to come where it is. -/
structure ProbesOnce (past : List WalkerEvent) (p : Walker) : Prop where
  waits : ∀ s w, p.walk? s = some w → w.Waits
  probe : ∀ s w, p.walk? s = some w →
    (outstanding past).filter (·.slot == s) = [probeOf s w w.awaits]
  idle : ∀ q ∈ outstanding past, p.walk? q.slot ≠ none
  rounds : ∀ s w, p.walk? s = some w → past.countP (answers w.id) ≤ w.rounds
  fresh : ∀ n, p.nextWalk ≤ n → past.countP (answers n) = 0
  bounded : ∀ n, past.countP (answers n) ≤ 8

theorem countP_answered {probe : Probe} {last : WalkerEvent} {n : Nat}
    (hlast : answers n last = false) :
    (past ++ [.answered probe, last]).countP (answers n) =
      past.countP (answers n) + if probe.walk = n then 1 else 0 := by
  rw [List.countP_append, List.countP_cons, List.countP_singleton, hlast]
  simp [answers]

theorem filter_probeOf (s slot : Nat) (w : Walk) (target : ProbeTarget) :
    [probeOf slot w target].filter (·.slot == s) =
      if s = slot then [probeOf slot w target] else [] := by
  simp only [List.filter_cons, List.filter_nil, probeOf, beq_iff_eq, @eq_comm Nat slot]

namespace ProbesOnce

theorem withSlots (count : Nat) (rootPpn : UInt64) :
    ProbesOnce [] (Walker.withSlots count rootPpn) where
  waits := fun s w hw => absurd hw (walk?_withSlots s w)
  probe := fun s w hw => absurd hw (walk?_withSlots s w)
  idle := fun _ hq => absurd hq List.not_mem_nil
  rounds := fun s w hw => absurd hw (walk?_withSlots s w)
  fresh := fun _ _ => rfl
  bounded := fun _ => Nat.zero_le _

theorem begins (hp : ProbesOnce past p) {request : Request} {w : Walk}
    (hslot : p.slots[slot]? = some none) (hid : w.id = p.nextWalk) (hwaits : w.Waits)
    (hslots : p'.slots = p.slots.setIfInBounds slot (some w))
    (hnext : p'.nextWalk = p.nextWalk + 1) :
    ProbesOnce (past ++ [.accepted request, .issued (probeOf slot w w.awaits)]) p' := by
  have hfree : p.walk? slot = none := by rw [walk?, hslot]; rfl
  have hself := walk?_self hslots (Array.getElem?_eq_some_iff.1 hslot).1
  have hout : outstanding (past ++ [.accepted request, .issued (probeOf slot w w.awaits)]) =
      outstanding past ++ [probeOf slot w w.awaits] := outstanding_append _ _
  have hcount : ∀ n, (past ++ [accepted request,
      issued (probeOf slot w w.awaits)]).countP (answers n) = past.countP (answers n) :=
    fun n => List.countP_append
  exact {
    waits := by
      intro s u hu
      obtain ⟨-, hv⟩ | ⟨-, hold⟩ := walk?_set hslots hu
      · exact Option.some.inj hv ▸ hwaits
      · exact hp.waits s u hold
    probe := by
      intro s u hu
      rw [hout, List.filter_append]
      obtain ⟨rfl, hv⟩ | ⟨hs, hold⟩ := walk?_set hslots hu
      · obtain rfl := Option.some.inj hv
        -- The slot was free, so no probe is out for whoever had it before.
        have hnone : (outstanding past).filter (·.slot == s) = [] := by
          refine List.filter_eq_nil_iff.2 fun q hq heq => hp.idle q hq ?_
          rw [eq_of_beq heq, hfree]
        rw [hnone, List.nil_append, filter_probeOf, if_pos rfl]
      · rw [hp.probe s u hold, filter_probeOf, if_neg hs, List.append_nil]
    idle := by
      intro q hq
      rw [hout, List.mem_append, List.mem_singleton] at hq
      by_cases hs : q.slot = slot
      · rw [hs, hself]
        exact Option.some_ne_none w
      · rw [walk?_of_ne hslots hs]
        exact hp.idle q (hq.resolve_right fun heq => hs (heq ▸ rfl))
    rounds := by
      intro s u hu
      rw [hcount]
      obtain ⟨-, hv⟩ | ⟨-, hold⟩ := walk?_set hslots hu
      · rw [← Option.some.inj hv, hp.fresh w.id (Nat.le_of_eq hid.symm)]
        exact Nat.zero_le _
      · exact hp.rounds s u hold
    fresh := by
      intro n hn
      rw [hcount]
      exact hp.fresh n (by omega)
    bounded := by
      intro n
      rw [hcount]
      exact hp.bounded n }

/-- An answer takes the probe of its slot out, and no other. -/
theorem filter_answered (hp : ProbesOnce past p) {probe : Probe} {w : Walk}
    (hw : p.walk? probe.slot = some w)
    (hprobe : (probeOf probe.slot w w.awaits).sameAs probe = true) (s : Nat) :
    ((outstanding past).filter fun q => !q.sameAs probe).filter (·.slot == s) =
      if s = probe.slot then [] else (outstanding past).filter (·.slot == s) := by
  -- What is out for one slot is known, so the slot is picked first.
  have hswap : ((outstanding past).filter fun q => !q.sameAs probe).filter (·.slot == s) =
      ((outstanding past).filter (·.slot == s)).filter fun q => !q.sameAs probe := by
    rw [List.filter_filter, List.filter_filter]
    exact congrArg (List.filter · _) (funext fun q => Bool.and_comm _ _)
  rw [hswap]
  split
  · next hs =>
      rw [hs, hp.probe probe.slot w hw, List.filter_cons_of_neg (by rw [hprobe]; nofun),
        List.filter_nil]
  · next hs =>
      refine List.filter_eq_self.2 fun q hq => ?_
      have hq : q.slot = s := eq_of_beq (List.mem_filter.1 hq).2
      have hne : (q.slot == probe.slot) = false := beq_false_of_ne fun heq => hs (hq ▸ heq)
      rw [Probe.sameAs, hne, Bool.false_and, Bool.false_and, Bool.false_and, Bool.not_false]

theorem walk_eq_of_sameAs {probe : Probe} {w : Walk} {target : ProbeTarget}
    (hprobe : (probeOf probe.slot w target).sameAs probe = true) : probe.walk = w.id := by
  rw [Probe.sameAs, Bool.and_eq_true, Bool.and_eq_true, Bool.and_eq_true] at hprobe
  exact (eq_of_beq hprobe.1.1.2).symm

section

-- An answer is counted for the walk that took it. What the call does after that, be it
-- the next probe or the response, is the event `last`, which is no answer.
variable {probe : Probe} {w : Walk} {last : WalkerEvent} (hp : ProbesOnce past p)
  (hw : p.walk? probe.slot = some w) (hid : probe.walk = w.id)
  (hlast : ∀ n, answers n last = false)

include hp hw hid hlast

theorem count_answered :
    (past ++ [.answered probe, last]).countP (answers w.id) ≤ w.rounds + 1 ∧
      ∀ n, n ≠ w.id →
        (past ++ [.answered probe, last]).countP (answers n) = past.countP (answers n) := by
  have hrounds := hp.rounds probe.slot w hw
  refine ⟨?_, fun n hn => ?_⟩
  · rw [countP_answered (hlast _), if_pos hid]
    omega
  · rw [countP_answered (hlast _), if_neg fun heq => hn (heq.symm.trans hid)]
    rfl

theorem fresh_answered (ha : AnswersOnce past p) (n : Nat) (hn : p.nextWalk ≤ n) :
    (past ++ [.answered probe, last]).countP (answers n) = 0 := by
  have hlt := ha.id_lt hw
  rw [(hp.count_answered hw hid hlast).2 n (by omega), hp.fresh n hn]

theorem bounded_answered (n : Nat) :
    (past ++ [.answered probe, last]).countP (answers n) ≤ 8 := by
  obtain ⟨hself, hother⟩ := hp.count_answered hw hid hlast
  by_cases hn : n = w.id
  · have hlt := w.rounds_lt
    rw [hn]
    omega
  · rw [hother n hn]
    exact hp.bounded n

end

theorem proceeds (hp : ProbesOnce past p) (ha : AnswersOnce past p) {probe : Probe}
    {w w' : Walk} (hw : p.walk? probe.slot = some w)
    (hprobe : (probeOf probe.slot w w.awaits).sameAs probe = true) (hproceeds : w.Proceeds w')
    (hslots : p'.slots = p.slots.setIfInBounds probe.slot (some w'))
    (hnext : p'.nextWalk = p.nextWalk) :
    ProbesOnce (past ++ [.answered probe, .issued (probeOf probe.slot w' w'.awaits)]) p' := by
  have hself := walk?_self hslots (lt_size_of_walk? hw).2
  have hid := walk_eq_of_sameAs hprobe
  have hlast : ∀ n, answers n (.issued (probeOf probe.slot w' w'.awaits)) = false := fun _ => rfl
  have hout : outstanding (past ++ [.answered probe,
      .issued (probeOf probe.slot w' w'.awaits)]) =
        ((outstanding past).filter fun q => !q.sameAs probe)
          ++ [probeOf probe.slot w' w'.awaits] := outstanding_append _ _
  obtain ⟨hcount, hothers⟩ := hp.count_answered hw hid hlast
  exact {
    waits := by
      intro s u hu
      obtain ⟨-, hv⟩ | ⟨-, hold⟩ := walk?_set hslots hu
      · exact Option.some.inj hv ▸ hproceeds.waits
      · exact hp.waits s u hold
    probe := by
      intro s u hu
      rw [hout, List.filter_append, hp.filter_answered hw hprobe s]
      obtain ⟨rfl, hv⟩ | ⟨hs, hold⟩ := walk?_set hslots hu
      · obtain rfl := Option.some.inj hv
        rw [if_pos rfl, List.nil_append, filter_probeOf, if_pos rfl]
      · rw [if_neg hs, hp.probe s u hold, filter_probeOf, if_neg hs, List.append_nil]
    idle := by
      intro q hq
      by_cases hs : q.slot = probe.slot
      · rw [hs, hself]
        exact Option.some_ne_none w'
      · rw [hout, List.mem_append, List.mem_singleton] at hq
        have hq := hq.resolve_right fun heq => hs (heq ▸ rfl)
        rw [walk?_of_ne hslots hs]
        exact hp.idle q (List.mem_filter.1 hq).1
    rounds := by
      intro s u hu
      obtain ⟨-, hv⟩ | ⟨hs, hold⟩ := walk?_set hslots hu
      · have hrounds := hproceeds.rounds
        rw [← Option.some.inj hv, hproceeds.id]
        omega
      · rw [hothers u.id fun heq => hs (ha.distinct s probe.slot u w hold hw heq)]
        exact hp.rounds s u hold
    fresh := hnext ▸ hp.fresh_answered hw hid hlast ha
    bounded := hp.bounded_answered hw hid hlast }

theorem ends (hp : ProbesOnce past p) (ha : AnswersOnce past p) {probe : Probe} {w : Walk}
    {response : Response} (hw : p.walk? probe.slot = some w)
    (hprobe : (probeOf probe.slot w w.awaits).sameAs probe = true)
    (hslots : p'.slots = p.slots.setIfInBounds probe.slot none)
    (hnext : p'.nextWalk = p.nextWalk) :
    ProbesOnce (past ++ [.answered probe, .delivered response]) p' := by
  have hid := walk_eq_of_sameAs hprobe
  have hlast : ∀ n, answers n (.delivered response) = false := fun _ => rfl
  have hout : outstanding (past ++ [.answered probe, .delivered response]) =
      (outstanding past).filter fun q => !q.sameAs probe := outstanding_append _ _
  have hold : ∀ {s u}, p'.walk? s = some u → s ≠ probe.slot ∧ p.walk? s = some u := fun hu =>
    (walk?_set hslots hu).resolve_left fun h => nomatch h.2
  exact {
    waits := fun s u hu => hp.waits s u (hold hu).2
    probe := by
      intro s u hu
      rw [hout, hp.filter_answered hw hprobe s, if_neg (hold hu).1]
      exact hp.probe s u (hold hu).2
    idle := by
      intro q hq
      rw [hout] at hq
      have hs : q.slot ≠ probe.slot := by
        intro heq
        have hmem : q ∈ ((outstanding past).filter fun q => !q.sameAs probe).filter
            (·.slot == probe.slot) := List.mem_filter.2 ⟨hq, beq_iff_eq.2 heq⟩
        rw [hp.filter_answered hw hprobe, if_pos rfl] at hmem
        exact List.not_mem_nil hmem
      rw [walk?_of_ne hslots hs]
      exact hp.idle q (List.mem_filter.1 hq).1
    rounds := by
      intro s u hu
      obtain ⟨hs, hu⟩ := hold hu
      rw [(hp.count_answered hw hid hlast).2 u.id fun heq =>
        hs (ha.distinct s probe.slot u w hu hw heq)]
      exact hp.rounds s u hu
    fresh := hnext ▸ hp.fresh_answered hw hid hlast ha
    bounded := hp.bounded_answered hw hid hlast }

theorem called (hp : ProbesOnce past p) (ha : AnswersOnce past p) (hcall : Called p events p') :
    ProbesOnce (past ++ events) p' := by
  cases hcall with
  | idle hslots hnext =>
      have hwalk : p'.walk? = p.walk? := funext fun s => by rw [walk?, hslots, walk?]
      rw [List.append_nil]
      exact ⟨hwalk ▸ hp.waits, hwalk ▸ hp.probe, hwalk ▸ hp.idle, hwalk ▸ hp.rounds,
        hnext ▸ hp.fresh, hp.bounded⟩
  | begins hslot hid hrequest hrounds hwaits hslots hnext =>
      exact hp.begins hslot hid hwaits hslots hnext
  | proceeds hw hprobe hproceeds hslots hnext =>
      exact hp.proceeds ha hw hprobe hproceeds hslots hnext
  | ends hw hprobe hslots hnext => exact hp.ends ha hw hprobe hslots hnext

end ProbesOnce

/-! ## Runs -/

theorem once_run (commands : List WalkerCommand) (ha : AnswersOnce past p)
    (hp : ProbesOnce past p) :
    AnswersOnce (past ++ (p.run commands).1) (p.run commands).2 ∧
      ProbesOnce (past ++ (p.run commands).1) (p.run commands).2 := by
  induction commands generalizing past p with
  | nil =>
      rw [run, List.append_nil]
      exact ⟨ha, hp⟩
  | cons command rest ih =>
      have hcall := called_perform hp.waits command
      have hrest := ih (ha.called hcall) (hp.called ha hcall)
      rw [List.append_assoc] at hrest
      exact hrest

/-- The answer to a probe that is out is taken. -/
theorem ProbesOnce.complete?_ne_none (hp : ProbesOnce past p) {q : Probe}
    (hq : q ∈ outstanding past) (raw : Option UInt64) : p.complete? q raw ≠ none := by
  obtain ⟨w, hw⟩ := Option.ne_none_iff_exists'.1 (hp.idle q hq)
  have hmem : q ∈ (outstanding past).filter (·.slot == q.slot) :=
    List.mem_filter.2 ⟨hq, beq_self_eq_true q.slot⟩
  rw [hp.probe q.slot w hw, List.mem_singleton] at hmem
  have hwalk : w.id = q.walk := by rw [hmem]; rfl
  have hlevel : w.level = q.level := by rw [hmem]; rfl
  have htarget : q.target = w.awaits := by rw [hmem]; rfl
  simp only [complete?, hw, htarget]
  rw [if_pos ⟨hwalk, hlevel⟩, Ne, Option.map_eq_none_iff]
  exact Walk.answer?_awaits (hp.waits _ w hw) raw

/-- The walkers are as their history says: every request that was accepted is either
answered, once, or on its way with one probe out. -/
structure Lifecycle (past : List WalkerEvent) (p : Walker) : Prop where
  count : (requests past).length = (responses past).length + p.busy
  /-- A walk is for the request of its number. -/
  owner : ∀ s w, p.walk? s = some w → (requests past)[w.id]? = some w.request
  /-- So is a response. -/
  answer : ∀ r ∈ responses past, ∃ request, (requests past)[r.walk]? = some request ∧
    r.id = request.id
  once : ((responses past).map Response.walk).Nodup
  /-- A response is delivered by the call that frees the slot of its walk. -/
  delivers : ∀ command, ∀ r ∈ responses (p.perform command).1, ∃ s w,
    p.walk? s = some w ∧ r.walk = w.id ∧ r.id = w.request.id ∧
      (p.perform command).2.walk? s = none
  /-- A call that frees a slot delivers a response for the walk that was in it. -/
  frees : ∀ command s w, p.walk? s = some w → (p.perform command).2.walk? s = none →
    ∃ r ∈ responses (p.perform command).1, r.walk = w.id
  /-- The one probe that a busy slot has out asks for the entry its walk needs. -/
  probe : ∀ s w, p.walk? s = some w →
    (outstanding past).filter (·.slot == s) = [probeOf s w w.awaits]
  /-- A free slot has no probe out. -/
  idle : ∀ q ∈ outstanding past, p.walk? q.slot ≠ none
  taken : ∀ q ∈ outstanding past, ∀ raw, p.complete? q raw ≠ none
  /-- A walk that starts does not wait without asking. -/
  starts : ∀ request v,
    Walk.advance { id := p.nextWalk, request, level := rootLevel, table := p.root } ≠ .waiting v
  /-- Neither does one that is answered. -/
  resumes : ∀ s w target raw w', p.walk? s = some w → w.answer? target raw = some w' →
    ∀ v, w'.advance ≠ .waiting v
  /-- A walk takes eight answers at most, and has ended when it has taken them. -/
  bounded : ∀ n, past.countP (answers n) ≤ 8
  ends : ∀ s w, p.walk? s = some w → past.countP (answers w.id) < 8

/-- Whatever is done to a pool of walkers, in whatever order and with whatever answers,
every walk is on its way or has ended, and those that have ended were answered once. -/
theorem lifecycle_run (count : Nat) (rootPpn : UInt64) (commands : List WalkerCommand) :
    Lifecycle ((Walker.withSlots count rootPpn).run commands).1
      ((Walker.withSlots count rootPpn).run commands).2 := by
  obtain ⟨ha, hp⟩ := once_run commands (AnswersOnce.withSlots count rootPpn)
    (ProbesOnce.withSlots count rootPpn)
  rw [List.nil_append] at ha hp
  refine {
    count := ha.count
    owner := ha.request
    answer := ha.answer
    once := ha.once
    delivers := fun command => (called_perform hp.waits command).delivers
    frees := fun command s w => (called_perform hp.waits command).frees
    probe := hp.probe
    idle := hp.idle
    taken := fun q hq raw => hp.complete?_ne_none hq raw
    starts := fun request v hwait => ?_
    resumes := fun s w target raw w' hw hanswer v hwait => ?_
    bounded := hp.bounded
    ends := fun s w hw => Nat.lt_of_le_of_lt (hp.rounds s w hw) w.rounds_lt }
  · obtain ⟨w, hprobe, -⟩ := Walk.advance_of_start _ request _
    exact nomatch hprobe.symm.trans hwait
  · obtain ⟨-, ⟨w'', hprobe, -⟩ | ⟨outcome, hdone⟩⟩ :=
      Walk.advance_of_answer (hp.waits s w hw) hanswer
    · exact nomatch hprobe.symm.trans hwait
    · exact nomatch hdone.symm.trans hwait

/-- Neither memory, before it is asked, nor a target that answers twice ends a walk a
second time. -/
example :
    let cache : Probe := { slot := 0, walk := 0, level := 3, target := .cache, addr := ⟨0⟩ }
    let memory : Probe := { cache with target := .memory }
    let commands : List WalkerCommand := [.translate (.toLoad 5 ⟨0⟩), .complete memory none,
      .complete cache none, .complete cache none, .complete memory none, .complete memory none]
    ((responses ((Walker.withSlots 1 0).run commands).1).map Response.id) = [5] := by decide +kernel

end OutOfOrder.Paging.Walker
