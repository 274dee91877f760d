import Mathlib.Data.List.Nodup
import OutOfOrder.Proofs.Paging.InFlight

/-!
# A translation takes as long as its own probes

One walk is followed by its number, and beside it the clock at which its request
was accepted. Every probe that is not answered has a clock at which it will be,
wherever it is: those that a tick has taken are answered at once, those on the
way when they are due, but not before the next tick, and those that wait to be
sent a delay after that (`schedule`). Neither a command nor any part of it moves
such a clock. What the other walks do therefore cannot matter.

So the probe of our walk is answered at the acceptance and the delays of all that
the walk has asked so far (`Punctual`), and if the walk ends with this answer, it
is answered then. A walk asks each target once at a level, hence at most four
times (`Walker.Asks`).
-/

namespace OutOfOrder.Paging

open WalkerEvent

/-! ## How often a walk asks -/

/-- A walk has taken an even number of answers when it asks the cache, and an odd number
when it asks memory, if it takes all that it can. -/
theorem Walk.Waits.rounds_awaits {w : Walk} (hw : w.Waits) :
    w.awaits = .cache ∧ w.rounds % 2 = 0 ∨ w.awaits = .memory ∧ w.rounds % 2 = 1 := by
  rw [awaits, rounds]
  obtain ⟨hcache, -⟩ | ⟨hcache, -⟩ := hw.asked
  · left
    simp [hcache]
  · right
    simp [hcache]

/-- How often walk `n` asked a target. -/
def WalkerEvent.asked (n : Nat) (target : ProbeTarget) (past : List WalkerEvent) : Nat :=
  (sentBy n past).countP (·.target == target)

theorem WalkerEvent.asked_append (n : Nat) (target : ProbeTarget)
    (first second : List WalkerEvent) :
    asked n target (first ++ second) = asked n target first + asked n target second := by
  rw [asked, sentBy_append, List.countP_append, asked, asked]

namespace Walker

variable {p p' : Walker} {past events : List WalkerEvent} {n : Nat}

theorem sentBy_issued (n : Nat) {e : WalkerEvent} (he : e.sent? = none) (slot : Nat) (w : Walk)
    (target : ProbeTarget) :
    sentBy n [e, .issued (probeOf slot w target)] =
      if w.id = n then [probeOf slot w target] else [] := by
  have hsent : sent [e, .issued (probeOf slot w target)] = [probeOf slot w target] :=
    List.filterMap_cons_none he
  rw [sentBy, hsent, List.filter_cons, List.filter_nil]
  simp [probeOf]

theorem asked_issued {e : WalkerEvent} (he : e.sent? = none) (slot : Nat) (w : Walk)
    (target next : ProbeTarget) :
    asked n target [e, .issued (probeOf slot w next)] =
      if w.id = n ∧ next = target then 1 else 0 := by
  rw [asked, sentBy_issued n he]
  by_cases hid : w.id = n <;> by_cases hnext : next = target <;> simp [hid, hnext, probeOf]

/-- Walk `n` has started and not disappeared, and has asked each target once at most at
each of the levels it has come by. -/
structure Asks (n : Nat) (past : List WalkerEvent) (p : Walker) : Prop where
  lt : n < p.nextWalk
  here : (∃ s w, p.walk? s = some w ∧ w.id = n) ∨ ∃ r ∈ responses past, r.walk = n
  walks : ∀ s w, p.walk? s = some w → w.id = n →
    asked n .cache past ≤ w.rounds / 2 + 1 ∧ asked n .memory past ≤ (w.rounds + 1) / 2
  bounded : asked n .cache past ≤ 4 ∧ asked n .memory past ≤ 4
  asks : sentBy n past ≠ []

namespace Asks

/-- A call in which walk `n` asks nothing leaves it where it is, or ends it. -/
theorem of_silent (h : Asks n past p) (hnext : p.nextWalk ≤ p'.nextWalk)
    (hsilent : sentBy n events = [])
    (hhere : ∀ s w, p.walk? s = some w → w.id = n →
      (∃ s w, p'.walk? s = some w ∧ w.id = n) ∨ ∃ r ∈ responses events, r.walk = n)
    (hwalks : ∀ s w, p'.walk? s = some w → w.id = n → p.walk? s = some w) :
    Asks n (past ++ events) p' := by
  have hasked : ∀ target, asked n target (past ++ events) = asked n target past := fun target => by
    rw [asked, sentBy_append, hsilent, List.append_nil, asked]
  exact {
    lt := Nat.lt_of_lt_of_le h.lt hnext
    here := by
      rw [responses_append]
      obtain ⟨s, w, hw, hid⟩ | ⟨r, hr, hid⟩ := h.here
      · exact (hhere s w hw hid).imp_right fun hr =>
          hr.imp fun r hr => ⟨List.mem_append_right _ hr.1, hr.2⟩
      · exact .inr ⟨r, List.mem_append_left _ hr, hid⟩
    walks := by
      intro s w hw hid
      rw [hasked, hasked]
      exact h.walks s w (hwalks s w hw hid) hid
    bounded := by
      rw [hasked, hasked]
      exact h.bounded
    asks := by
      rw [sentBy_append, hsilent, List.append_nil]
      exact h.asks }

theorem proceeds (h : Asks n past p) (ha : ∀ s t v w, p.walk? s = some v → p.walk? t = some w →
    v.id = w.id → s = t) {probe : Probe} {w w' : Walk} (hw : p.walk? probe.slot = some w)
    (hproceeds : w.Proceeds w') (hslots : p'.slots = p.slots.setIfInBounds probe.slot (some w'))
    (hnext : p'.nextWalk = p.nextWalk) (hid : w.id = n) :
    Asks n (past ++ [.answered probe, .issued (probeOf probe.slot w' w'.awaits)]) p' := by
  have hid' : w'.id = n := hproceeds.id.trans hid
  have hself := walk?_self hslots (lt_size_of_walk? hw).2
  have hbefore := h.walks probe.slot w hw hid
  have hrounds := hproceeds.rounds
  have hlt := w'.rounds_lt
  have hasked : ∀ target, asked n target
      (past ++ [.answered probe, .issued (probeOf probe.slot w' w'.awaits)]) =
        asked n target past + if w'.awaits = target then 1 else 0 := by
    intro target
    rw [asked_append, asked_issued rfl]
    simp only [hid', true_and]
  have hbound : asked n .cache past + (if w'.awaits = .cache then 1 else 0) ≤ w'.rounds / 2 + 1 ∧
      asked n .memory past + (if w'.awaits = .memory then 1 else 0) ≤ (w'.rounds + 1) / 2 := by
    obtain ⟨hawaits, hparity⟩ | ⟨hawaits, hparity⟩ := hproceeds.waits.rounds_awaits <;>
      simp only [hawaits, reduceCtorEq, if_true, if_false] <;> omega
  exact {
    lt := by
      rw [hnext]
      exact h.lt
    here := .inl ⟨probe.slot, w', hself, hid'⟩
    walks := by
      intro s u hu hun
      have hs : s = probe.slot := by
        obtain ⟨hs, -⟩ | ⟨-, hold⟩ := walk?_set hslots hu
        · exact hs
        · exact ha s probe.slot u w hold hw (hun.trans hid.symm)
      rw [hs, hself] at hu
      rw [hasked, hasked, ← Option.some.inj hu]
      exact hbound
    bounded := by
      rw [hasked, hasked]
      omega
    asks := by
      rw [sentBy_append]
      exact fun hnil => h.asks (List.append_eq_nil_iff.1 hnil).1 }

theorem called (h : Asks n past p) (ha : ∀ s t v w, p.walk? s = some v → p.walk? t = some w →
    v.id = w.id → s = t) (hcall : Called p events p') : Asks n (past ++ events) p' := by
  cases hcall with
  | idle hslots hnext =>
      have hwalk : p'.walk? = p.walk? := funext fun s => by rw [walk?, hslots, walk?]
      refine h.of_silent (Nat.le_of_eq hnext.symm) rfl
        (fun s w hw hid => .inl ⟨s, w, ?_, hid⟩) fun s w hw _ => ?_
      · rw [hwalk, hw]
      · rw [← hwalk, hw]
  | @begins p' slot request w hslot hid hrequest hrounds hwaits hslots hnext =>
      -- The new walk has another number, and the slot that it takes was free.
      have hne : w.id ≠ n := fun heq => Nat.ne_of_gt h.lt (hid.symm.trans heq)
      have hfree : p.walk? slot = none := by rw [walk?, hslot]; rfl
      refine h.of_silent (by omega) ?_ (fun s u hu hun => .inl ⟨s, u, ?_, hun⟩) fun s u hu hun => ?_
      · rw [sentBy_issued n rfl, if_neg hne]
      · rw [walk?_of_ne hslots, hu]
        rintro rfl
        rw [hfree] at hu
        cases hu
      · obtain ⟨-, hnew⟩ | ⟨-, hold⟩ := walk?_set hslots hu
        · exact absurd ((congrArg Walk.id (Option.some.inj hnew)).trans hun) hne
        · exact hold
  | @proceeds p' probe w w' hw hprobe hproceeds hslots hnext =>
      by_cases hid : w.id = n
      · exact h.proceeds ha hw hproceeds hslots hnext hid
      · have hid' : w'.id ≠ n := fun heq => hid (hproceeds.id.symm.trans heq)
        refine h.of_silent (Nat.le_of_eq hnext.symm) ?_
          (fun s u hu hun => .inl ⟨s, u, ?_, hun⟩) fun s u hu hun => ?_
        · rw [sentBy_issued n rfl, if_neg hid']
        · rw [walk?_of_ne hslots, hu]
          rintro rfl
          exact hid ((congrArg Walk.id (Option.some.inj (hw.symm.trans hu))).trans hun)
        · obtain ⟨-, hnew⟩ | ⟨-, hold⟩ := walk?_set hslots hu
          · exact absurd ((congrArg Walk.id (Option.some.inj hnew)).trans hun) hid'
          · exact hold
  | @ends p' probe w outcome hw hprobe hslots hnext =>
      refine h.of_silent (Nat.le_of_eq hnext.symm) rfl (fun s u hu hun => ?_) fun s u hu _ => ?_
      · by_cases hs : s = probe.slot
        · rw [hs, hw] at hu
          exact .inr ⟨_, List.mem_singleton_self _,
            (congrArg Walk.id (Option.some.inj hu)).trans hun⟩
        · exact .inl ⟨s, u, (walk?_of_ne hslots hs).trans hu, hun⟩
      · obtain ⟨-, hnew⟩ | ⟨-, hold⟩ := walk?_set hslots hu
        · cases hnew
        · exact hold

end Asks

/-- A request that is accepted starts a walk, which asks the cache. -/
theorem begins_of_accepted {request : Request} (haccepted : p.start? request ≠ none) :
    ∃ slot u w, p.slots[slot]? = some none ∧ u.advance = .probe w w.awaits ∧ w.Waits ∧
      u.id = p.nextWalk ∧ w.id = p.nextWalk ∧ w.rounds = 0 ∧
        p.perform (.translate request) = (.accepted request :: u.events slot,
          ({ p with nextWalk := p.nextWalk + 1 }.drive slot u).2) := by
  rw [start?, Ne, Option.map_eq_none_iff] at haccepted
  obtain ⟨slot, hslot⟩ := Option.ne_none_iff_exists'.1 haccepted
  obtain ⟨w, hadvance, hwaits, hid, -, hrounds⟩ :=
    Walk.advance_of_start p.nextWalk request p.root
  refine ⟨slot, _, w, getElem?_of_freeSlot? hslot, hadvance, hwaits, rfl, hid, hrounds, ?_⟩
  rw [perform_translate, hslot]

theorem Asks.of_accepted {request : Request} (haccepted : p.start? request ≠ none)
    (hothers : ∀ s w, p.walk? s = some w → w.id < p.nextWalk) :
    Asks p.nextWalk (p.perform (.translate request)).1 (p.perform (.translate request)).2 := by
  obtain ⟨slot, u, w, hslot, hadvance, hwaits, -, hid, hrounds, hperform⟩ :=
    begins_of_accepted haccepted
  have hlt := (Array.getElem?_eq_some_iff.1 hslot).1
  rw [hperform, Walk.events_of_probe hadvance, drive_of_probe hadvance]
  have hawaits : w.awaits = .cache := by
    obtain ⟨hawaits, -⟩ | ⟨-, hodd⟩ := hwaits.rounds_awaits
    · exact hawaits
    · rw [hrounds] at hodd
      cases hodd
  have hasked : ∀ target, asked p.nextWalk target
      [.accepted request, .issued (probeOf slot w w.awaits)] =
        if ProbeTarget.cache = target then 1 else 0 := fun target => by
    rw [asked_issued rfl, hawaits]
    simp only [hid, true_and]
  exact {
    lt := Nat.lt_succ_self _
    here := .inl ⟨slot, w, walk?_self rfl hlt, hid⟩
    walks := by
      intro s v hv hn
      rw [hasked, hasked]
      obtain ⟨-, hv⟩ | ⟨-, hold⟩ := walk?_set rfl hv
      · rw [← Option.some.inj hv, hrounds]
        decide
      · exact absurd hn (Nat.ne_of_lt (hothers s v hold))
    bounded := by
      rw [hasked, hasked]
      decide
    asks := by
      rw [sentBy_issued _ rfl, if_pos hid]
      exact List.cons_ne_nil _ _ }

theorem responses_translate (p : Walker) (request : Request) :
    responses (p.perform (.translate request)).1 = [] := by
  by_cases haccepted : p.start? request = none
  · rw [perform, haccepted]
    rfl
  · obtain ⟨slot, u, w, -, hadvance, -, -, -, -, hperform⟩ := begins_of_accepted haccepted
    rw [hperform, Walk.events_of_probe hadvance]
    rfl

end Walker

/-! ## When probes are answered -/

namespace Walk

variable {w : Walk} {slot n : Nat}

/-- A walk that asks does so once, and does not end. -/
theorem sends_of_mem {q : Probe} (hq : q ∈ w.sends slot) :
    w.sends slot = [q] ∧ w.reply? = none ∧ q.walk = w.id := by
  rw [sends, reply?] at *
  cases hadvance : w.advance with
  | probe next target =>
      rw [hadvance] at hq
      obtain rfl := List.mem_singleton.1 hq
      exact ⟨rfl, rfl, id_advance (congrArg Progress.walk? hadvance)⟩
  | waiting next =>
      rw [hadvance] at hq
      cases hq
  | finished outcome =>
      rw [hadvance] at hq
      cases hq

theorem walk_of_reply? {r : Response} (hr : w.reply? = some r) :
    w.sends slot = [] ∧ r.walk = w.id := by
  rw [sends, reply?] at *
  cases hadvance : w.advance with
  | probe next target =>
      rw [hadvance] at hr
      cases hr
  | waiting next =>
      rw [hadvance] at hr
      cases hr
  | finished outcome =>
      rw [hadvance] at hr
      cases hr
      exact ⟨rfl, rfl⟩

theorem filter_sends_of_ne (hn : w.id ≠ n) : (w.sends slot).filter (·.walk == n) = [] := by
  refine List.filter_eq_nil_iff.2 fun q hq heq => hn ?_
  rw [← (sends_of_mem hq).2.2, eq_of_beq heq]

theorem delivered_mem_events {r : Response} (hr : .delivered r ∈ w.events slot) :
    w.reply? = some r := by
  obtain hr | hr := List.mem_append.1 hr
  · obtain ⟨q, -, hq⟩ := List.mem_map.1 hr
    cases hq
  · obtain ⟨r', hr', heq⟩ := List.mem_map.1 hr
    cases heq
    exact Option.mem_toList.1 hr'

end Walk

namespace Walker

variable {p : Walker} {past : List WalkerEvent} {out : List Probe} {q : Probe}

/-- No two probes that are out belong to one walk. -/
theorem Attended.walk_ne (h : Attended past p (q :: out)) : ∀ r ∈ out, r.walk ≠ q.walk := by
  intro r hr heq
  have hmem : ∀ r ∈ q :: out, ∃ w, p.walk? r.slot = some w ∧ w.id = r.walk := by
    intro r hr
    obtain ⟨w, hw, hprobe⟩ := h.probes.eq_probeOf (h.out.subset hr)
    exact ⟨w, hw, by rw [hprobe]; rfl⟩
  obtain ⟨v, hv, hvid⟩ := hmem r (List.mem_cons_of_mem _ hr)
  obtain ⟨w, hw, hwid⟩ := hmem q List.mem_cons_self
  -- Both are in the slot of the walk, and that slot has one probe out.
  have hslot : r.slot = q.slot :=
    h.answers.distinct _ _ v w hv hw (hvid.trans (heq.trans hwid.symm))
  have hone := h.filter_slot hw
  rw [List.filter_cons, if_pos (beq_self_eq_true q.slot), List.cons.injEq] at hone
  have hmem : r ∈ out.filter (·.slot == q.slot) := List.mem_filter.2 ⟨hr, beq_iff_eq.2 hslot⟩
  rw [hone.2] at hmem
  cases hmem

/-- The walk of a probe that is out has not been answered. -/
theorem Attended.undelivered (h : Attended past p out) (hq : q ∈ out) :
    q.walk ∉ (responses past).map Response.walk := by
  obtain ⟨w, hw, hprobe⟩ := h.probes.eq_probeOf (h.out.subset hq)
  rw [hprobe]
  exact h.answers.unanswered _ w hw

end Walker

namespace Mmu

variable {M : Type} {m m' : Mmu M}

/-- The probes that are not answered yet, of which a tick is about to answer `ready`, each
with the clock at which it will be answered. -/
def schedule (m : Mmu M) (ready : List Probe) : List (Nat × Probe) :=
  ready.map (m.clock, ·) ++ m.inFlight.map (fun sent => (max sent.1 (m.clock + 1), sent.2))
    ++ m.walker.pending.map fun q => (m.clock + max 1 (m.latency q.target), q)

theorem snd_schedule (m : Mmu M) (ready : List Probe) :
    (m.schedule ready).map Prod.snd = m.unanswered ready := by
  rw [schedule, List.map_append, List.map_append, List.map_map, List.map_map, List.map_map,
    unanswered, probes]
  exact congrArg₂ (· ++ m.inFlight.map Prod.snd ++ ·) (List.map_id _) (List.map_id _)

/-- A probe that is sent is answered when it would be while it waits. -/
theorem schedule_collect (m : Mmu M) (ready : List Probe) :
    m.collect.schedule ready = m.schedule ready := by
  have hmax : ∀ target, max (m.clock + m.latency target) (m.clock + 1) =
      m.clock + max 1 (m.latency target) := fun target => by omega
  simp only [schedule, collect, List.map_append, List.map_map, List.map_nil, List.append_nil,
    List.append_assoc, Function.comp_def, hmax]

/-- The probes that a tick takes are those that are answered at its clock. -/
theorem schedule_begun (hpending : m.walker.pending = []) :
    (m.begun.schedule m.ready).Perm (m.schedule []) := by
  let due : Nat × Probe → Bool := fun sent => sent.1 ≤ m.clock + 1
  let clocked : Nat × Probe → Nat × Probe := fun sent => (max sent.1 (m.clock + 1), sent.2)
  have hready : m.ready.map (m.clock + 1, ·) = (m.inFlight.filter due).map clocked := by
    rw [ready, List.map_map]
    refine List.map_congr_left fun sent hsent => ?_
    have hdue := of_decide_eq_true (List.mem_filter.1 hsent).2
    exact Prod.ext (by simp only [Function.comp, clocked]; omega) rfl
  have hwaiting : (m.inFlight.filter fun sent => !due sent).map
      (fun sent => (max sent.1 (m.clock + 1 + 1), sent.2)) =
        (m.inFlight.filter fun sent => !due sent).map clocked := by
    refine List.map_congr_left fun sent hsent => ?_
    have hlate := (List.mem_filter.1 hsent).2
    simp only [due, Bool.not_eq_true', decide_eq_false_iff_not] at hlate
    exact Prod.ext (by simp only [clocked]; omega) rfl
  have hbegun : m.begun.schedule m.ready =
      (m.inFlight.filter due ++ m.inFlight.filter fun sent => !due sent).map clocked := by
    rw [List.map_append, ← hready, ← hwaiting]
    simp only [schedule, begun, hpending, List.map_nil, List.append_nil]
    rfl
  have hbefore : m.schedule [] = m.inFlight.map clocked := by
    simp only [schedule, hpending, List.map_nil, List.append_nil, List.nil_append]
    rfl
  rw [hbegun, hbefore]
  exact (List.filter_append_perm due m.inFlight).map clocked

theorem schedule_of_pending (m m' : Mmu M) (ready : List Probe) {sent : List Probe}
    (hclock : m'.clock = m.clock) (hlatency : m'.latency = m.latency)
    (hflight : m'.inFlight = m.inFlight)
    (hpending : m'.walker.pending = m.walker.pending ++ sent) :
    m'.schedule ready =
      m.schedule ready ++ sent.map fun q => (m.clock + max 1 (m.latency q.target), q) := by
  rw [schedule, schedule, hclock, hlatency, hflight, hpending, List.map_append,
    List.append_assoc, List.append_assoc, List.append_assoc]

/-- Between commands nothing is answered before the next tick. -/
theorem clock_lt_of_mem_schedule (hpending : m.walker.pending = []) {e : Nat × Probe}
    (he : e ∈ m.schedule []) : m.clock < e.1 := by
  rw [schedule, hpending, List.map_nil, List.map_nil, List.append_nil, List.nil_append] at he
  obtain ⟨sent, -, rfl⟩ := List.mem_map.1 he
  exact Nat.lt_of_lt_of_le (Nat.lt_succ_self _) (Nat.le_max_right _ _)

/-- The clock at which a walk is answered next that started at `c` and sent `probes`. -/
def due (config : MmuConfig) (c : Nat) (probes : List Probe) : Nat := c + config.duration probes

theorem due_append (config : MmuConfig) (c : Nat) (first second : List Probe) :
    due config c (first ++ second) = due config c first + config.duration second := by
  rw [due, MmuConfig.duration, List.map_append, List.sum_append, ← Nat.add_assoc]
  rfl

/-- Walk `n`, which started at clock `c`, is answered when all that it has asked takes no
longer, and if it has ended, it ended then. -/
structure Punctual (config : MmuConfig) (n c : Nat) (past : List (Nat × WalkerEvent)) (m : Mmu M)
    (ready : List Probe) : Prop where
  delay : ∀ target, max 1 (m.latency target) = config.delay target
  clock : ∀ e ∈ past, e.1 ≤ m.clock
  answered : ∀ e ∈ m.schedule ready, e.2.walk = n →
    e.1 = due config c (sentBy n (past.map Prod.snd))
  delivered : ∀ t r, (t, .delivered r) ∈ past → r.walk = n →
    t = due config c (sentBy n (past.map Prod.snd))

namespace Punctual

variable {config : MmuConfig} {n c : Nat} {past : List (Nat × WalkerEvent)} {ready : List Probe}

/-- A walk `u` is driven, and what it asks is added to the schedule `rest`. If it is walk
`n`, it was due at this clock, and is neither on the schedule nor answered. -/
theorem driven {rest : List (Nat × Probe)} {first : WalkerEvent} {slot : Nat} {u : Walk}
    (delay : ∀ target, max 1 (m.latency target) = config.delay target)
    (clock : ∀ e ∈ past, e.1 ≤ m.clock)
    (answered : ∀ e ∈ rest, e.2.walk = n → e.1 = due config c (sentBy n (past.map Prod.snd)))
    (delivered : ∀ t r, (t, .delivered r) ∈ past → r.walk = n →
      t = due config c (sentBy n (past.map Prod.snd)))
    (hfirst : first.sent? = none ∧ first.response? = none)
    (hu : u.id = n → m.clock = due config c (sentBy n (past.map Prod.snd)) ∧
      (∀ e ∈ rest, e.2.walk ≠ n) ∧ ∀ t r, (t, .delivered r) ∈ past → r.walk ≠ n)
    (hclock : m'.clock = m.clock) (hlatency : m'.latency = m.latency)
    (hschedule : m'.schedule ready =
      rest ++ (u.sends slot).map fun q => (m.clock + max 1 (m.latency q.target), q)) :
    Punctual config n c (past ++ (first :: u.events slot).map (m.clock, ·)) m' ready := by
  have hsent : sent (first :: u.events slot) = u.sends slot :=
    (List.filterMap_cons_none hfirst.1).trans (Walker.sent_events slot u)
  have hdue : due config c (sentBy n ((past ++ (first :: u.events slot).map
      (m.clock, ·)).map Prod.snd)) =
        due config c (sentBy n (past.map Prod.snd)) +
          config.duration ((u.sends slot).filter (·.walk == n)) := by
    rw [List.map_append, snd_map_mk, sentBy_append, due_append, ← hsent]
    rfl
  have hother : u.id ≠ n → due config c (sentBy n ((past ++ (first :: u.events slot).map
      (m.clock, ·)).map Prod.snd)) = due config c (sentBy n (past.map Prod.snd)) := fun hid => by
    rw [hdue, Walk.filter_sends_of_ne hid]
    rfl
  exact {
    delay := hlatency ▸ delay
    clock := by
      intro e he
      rw [hclock]
      obtain he | he := List.mem_append.1 he
      · exact clock e he
      · obtain ⟨event, -, rfl⟩ := List.mem_map.1 he
        exact Nat.le_refl _
    answered := by
      intro e he hn
      rw [hschedule, List.mem_append] at he
      obtain he | he := he
      · by_cases hid : u.id = n
        · exact absurd hn ((hu hid).2.1 e he)
        · rw [hother hid]
          exact answered e he hn
      · -- The walk asks anew, and waits a delay longer than it has waited so far.
        obtain ⟨q, hq, rfl⟩ := List.mem_map.1 he
        obtain ⟨hsends, -, hwalk⟩ := Walk.sends_of_mem hq
        have hfilter : [q].filter (·.walk == n) = [q] := by
          rw [List.filter_cons, if_pos (beq_iff_eq.2 hn), List.filter_nil]
        rw [hdue, hsends, hfilter, ← (hu (hwalk.symm.trans hn)).1]
        exact congrArg (m.clock + ·) (delay q.target)
    delivered := by
      intro t r hr hn
      obtain hr | hr := List.mem_append.1 hr
      · by_cases hid : u.id = n
        · exact absurd hn ((hu hid).2.2 t r hr)
        · rw [hother hid]
          exact delivered t r hr hn
      · obtain ⟨event, hevent, heq⟩ := List.mem_map.1 hr
        obtain ⟨rfl, rfl⟩ := Prod.mk.inj heq
        obtain hevent | hevent := List.mem_cons.1 hevent
        · rw [← hevent] at hfirst
          cases hfirst.2
        · obtain ⟨hsends, hwalk⟩ := Walk.walk_of_reply? (Walk.delivered_mem_events hevent)
          rw [hdue, hsends, ← (hu (hwalk.symm.trans hn)).1]
          rfl }

theorem starts (h : Punctual config n c past m []) (hlt : n < m.walker.nextWalk)
    (request : Request) :
    Punctual config n c (past ++ (m.walker.perform (.translate request)).1.map (m.clock, ·))
      { m with walker := (m.walker.perform (.translate request)).2 } [] := by
  rw [Walker.perform_translate]
  cases m.walker.freeSlot? with
  | none =>
      rw [List.map_nil, List.append_nil]
      exact h
  | some slot =>
      dsimp only
      refine driven h.delay h.clock h.answered h.delivered ⟨rfl, rfl⟩ (fun hid => ?_) rfl rfl ?_
      · exact absurd hid (Nat.ne_of_gt hlt)
      · exact m.schedule_of_pending _ [] rfl rfl rfl (Walker.pending_drive _ slot _)

theorem serves [EntryMemory M] {earlier : List WalkerEvent} {probe : Probe}
    (hattended : m.walker.Attended (earlier ++ past.map Prod.snd) (m.unanswered (probe :: ready)))
    (h : Punctual config n c past m (probe :: ready)) :
    Punctual config n c
      (past ++ (m.walker.perform (.complete probe (m.resolve probe).1)).1.map (m.clock, ·))
      (m.serve probe).2 ready := by
  have htaken := hattended.complete?_ne_none (m.resolve probe).1
  rw [Walker.complete?_eq, Ne, Option.map_eq_none_iff] at htaken
  rw [serve_snd, Walker.perform_complete]
  cases htakes : (m.walker.walk? probe.slot).bind (Walk.takes? probe (m.resolve probe).1) with
  | none => exact absurd htakes htaken
  | some w =>
      obtain ⟨u, -, hu⟩ := Option.bind_eq_some_iff.1 htakes
      have hid : w.id = probe.walk := (Walk.takes?_eq_some hu).2.1
      dsimp only
      refine driven h.delay h.clock
        (fun e he => h.answered e (List.mem_cons_of_mem _ he)) h.delivered ⟨rfl, rfl⟩
        (fun hn => ⟨?_, fun e he => ?_, fun t r hr hwalk => ?_⟩) rfl rfl ?_
      · exact h.answered (m.clock, probe) List.mem_cons_self (hid.symm.trans hn)
      · have hmem : e.2 ∈ m.unanswered ready := by
          rw [← snd_schedule]
          exact List.mem_map_of_mem he
        rw [← hn, hid]
        exact hattended.walk_ne e.2 hmem
      · have hmem : r ∈ responses (earlier ++ past.map Prod.snd) := by
          rw [responses_append]
          exact List.mem_append_right _ (List.mem_filterMap.2 ⟨_, List.mem_map_of_mem hr, rfl⟩)
        refine hattended.undelivered List.mem_cons_self ?_
        rw [← hid, hn, ← hwalk]
        exact List.mem_map_of_mem hmem
      · exact m.schedule_of_pending _ ready rfl rfl rfl (Walker.pending_drive _ probe.slot w)

end Punctual

variable [EntryMemory M] {config : MmuConfig} {n c : Nat} {earlier : List WalkerEvent}

/-- All that is known of walk `n` in a run that begins when it is accepted, after
`earlier`. -/
structure Timed (config : MmuConfig) (n c : Nat) (earlier : List WalkerEvent)
    (past : List (Nat × WalkerEvent)) (m : Mmu M) (ready : List Probe) : Prop where
  attended : m.walker.Attended (earlier ++ past.map Prod.snd) (m.unanswered ready)
  asks : m.walker.Asks n (past.map Prod.snd)
  punctual : Punctual config n c past m ready

theorem preserved_timed (config : MmuConfig) (n c : Nat) (earlier : List WalkerEvent) :
    Preserved (M := M) (Timed config n c earlier) where
  starts := by
    intro past m request hpending h
    have hasks := h.asks.called h.attended.answers.distinct (m.walker.called_translate request)
    refine ⟨(preserved_attended earlier).starts request hpending h.attended, ?_,
      h.punctual.starts h.asks.lt request⟩
    rw [List.map_append, snd_map_mk]
    exact hasks
  begins := by
    intro past m hpending h
    refine ⟨(preserved_attended earlier).begins hpending h.attended, h.asks, {
      delay := h.punctual.delay
      clock := fun e he => Nat.le_succ_of_le (h.punctual.clock e he)
      answered := fun e he => h.punctual.answered e ((schedule_begun hpending).subset he)
      delivered := h.punctual.delivered }⟩
  serves := by
    intro past m probe ready h
    have hasks := h.asks.called h.attended.answers.distinct
      (Walker.called_complete h.attended.probes.waits probe (m.resolve probe).1)
    refine ⟨(preserved_attended earlier).serves h.attended, ?_, h.punctual.serves h.attended⟩
    rw [List.map_append, snd_map_mk, serve_snd]
    exact hasks
  collects := by
    intro past m h
    refine ⟨(preserved_attended earlier).collects h.attended, ⟨h.asks.lt, h.asks.here,
      h.asks.walks, h.asks.bounded, h.asks.asks⟩, {
        delay := h.punctual.delay
        clock := h.punctual.clock
        answered := fun e he => h.punctual.answered e (m.schedule_collect [] ▸ he)
        delivered := h.punctual.delivered }⟩
  changes := by
    intro past m root cache memory h
    refine ⟨(preserved_attended earlier).changes root cache memory h.attended, ⟨h.asks.lt,
      h.asks.here, h.asks.walks, h.asks.bounded, h.asks.asks⟩,
      ⟨h.punctual.delay, h.punctual.clock, h.punctual.answered, h.punctual.delivered⟩⟩

omit [EntryMemory M] in
theorem walker_start?_ne_none {request : Request} (haccepted : m.start? request ≠ none) :
    m.walker.start? request ≠ none := by
  rw [start?, Ne, Option.map_eq_none_iff] at haccepted
  exact haccepted

/-- A walk that is accepted is known from its start. -/
theorem timed_of_accepted {request : Request} (hpending : m.walker.pending = [])
    (hdelay : ∀ target, max 1 (m.latency target) = config.delay target)
    (hattended : m.walker.Attended earlier m.probes) (haccepted : m.start? request ≠ none) :
    Timed config m.walker.nextWalk m.clock earlier
      ((m.walker.perform (.translate request)).1.map (m.clock, ·))
      (m.perform (.translate request)).2 [] := by
  have haccepted := walker_start?_ne_none haccepted
  have hunanswered : m.unanswered [] = m.probes := by
    rw [unanswered, hpending, List.append_nil, List.nil_append]
  have hlt : ∀ e ∈ m.schedule [], e.2.walk < m.walker.nextWalk := by
    intro e he
    have hmem : e.2 ∈ m.unanswered [] := by
      rw [← snd_schedule]
      exact List.mem_map_of_mem he
    rw [hunanswered] at hmem
    obtain ⟨w, hw, hprobe⟩ := hattended.probes.eq_probeOf (hattended.out.subset hmem)
    rw [hprobe]
    exact hattended.answers.id_lt hw
  have hpunctual : Punctual config m.walker.nextWalk m.clock
      ((m.walker.perform (.translate request)).1.map (m.clock, ·))
      { m with walker := (m.walker.perform (.translate request)).2 } [] := by
    obtain ⟨slot, u, w, -, -, -, -, -, -, hperform⟩ := Walker.begins_of_accepted haccepted
    rw [hperform, ← List.nil_append (List.map _ _)]
    refine Punctual.driven hdelay (fun e he => absurd he List.not_mem_nil)
      (fun e he hn => absurd hn (Nat.ne_of_lt (hlt e he)))
      (fun t r hr => absurd hr List.not_mem_nil) ⟨rfl, rfl⟩
      (fun _ => ⟨rfl, fun e he => Nat.ne_of_lt (hlt e he), fun t r hr => absurd hr
        List.not_mem_nil⟩) rfl rfl ?_
    exact m.schedule_of_pending _ [] rfl rfl rfl (Walker.pending_drive _ slot u)
  rw [perform_translate hpending]
  refine (preserved_timed config m.walker.nextWalk m.clock earlier).collects ⟨?_, ?_, hpunctual⟩
  · rw [snd_map_mk]
    refine (hattended.translate request).perm (.of_eq ?_)
    rw [← hunanswered]
    exact m.unanswered_of_pending _ [] rfl (m.walker.pending_translate request)
  · rw [snd_map_mk]
    exact Walker.Asks.of_accepted haccepted fun s w hw => hattended.answers.id_lt hw

/-! ## What is known at the end of a run -/

namespace Timed

variable {past : List (Nat × WalkerEvent)}

omit [EntryMemory M]

theorem duration_eq (config : MmuConfig) (probes : List Probe) :
    config.duration probes =
      probes.countP (·.target == .cache) * config.delay .cache +
        probes.countP (·.target == .memory) * config.delay .memory ∧
      probes.length = probes.countP (·.target == .cache) + probes.countP (·.target == .memory) := by
  induction probes with
  | nil => simp [MmuConfig.duration]
  | cons probe rest ih =>
      obtain ⟨hsum, hlength⟩ := ih
      have hcons : config.duration (probe :: rest) =
          config.delay probe.target + config.duration rest := List.sum_cons
      rw [hcons, hsum, List.length_cons, hlength, List.countP_cons, List.countP_cons]
      cases probe.target <;> simp [Nat.add_mul] <;> omega

/-- A walk asks eight times at most, four times each of the targets. -/
theorem bounded (h : Timed config n c earlier past m []) :
    1 ≤ (sentBy n (past.map Prod.snd)).length ∧ (sentBy n (past.map Prod.snd)).length ≤ 8 ∧
      due config c (sentBy n (past.map Prod.snd)) ≤
        c + 4 * (config.delay .cache + config.delay .memory) := by
  obtain ⟨hcache, hmemory⟩ := h.asks.bounded
  obtain ⟨hsum, hlength⟩ := duration_eq config (sentBy n (past.map Prod.snd))
  rw [asked] at hcache hmemory
  refine ⟨List.length_pos_iff.2 h.asks.asks, by omega, ?_⟩
  rw [due, hsum, Nat.mul_add]
  have hcaches := Nat.mul_le_mul_right (config.delay .cache) hcache
  have hmemories := Nat.mul_le_mul_right (config.delay .memory) hmemory
  omega

/-- A walk that is due has ended, at the clock at which it was due. -/
theorem delivered (h : Timed config n c earlier past m []) (hpending : m.walker.pending = [])
    (hdue : due config c (sentBy n (past.map Prod.snd)) ≤ m.clock) :
    ∃ r, (due config c (sentBy n (past.map Prod.snd)), .delivered r) ∈ past ∧ r.walk = n := by
  obtain ⟨s, w, hw, hid⟩ | ⟨r, hr, hn⟩ := h.asks.here
  · -- The probe of the walk is in flight, and will be answered later than now.
    have hmem := h.attended.out.symm.subset (h.attended.probes.mem_outstanding hw)
    rw [← snd_schedule] at hmem
    obtain ⟨e, he, hprobe⟩ := List.mem_map.1 hmem
    have hanswered := h.punctual.answered e he (by rw [hprobe]; exact hid)
    have hlater := clock_lt_of_mem_schedule hpending he
    omega
  · obtain ⟨t, ht⟩ := exists_delivered hr
    have hdelivered := h.punctual.delivered t r ht hn
    exact ⟨r, hdelivered ▸ ht, hn⟩

theorem undelivered (h : Timed config n c earlier past m [])
    (hdue : m.clock < due config c (sentBy n (past.map Prod.snd))) :
    ∀ r ∈ responses (past.map Prod.snd), r.walk ≠ n := by
  intro r hr hn
  obtain ⟨t, ht⟩ := exists_delivered hr
  have hclock : t ≤ m.clock := h.punctual.clock _ ht
  have hdelivered := h.punctual.delivered t r ht hn
  omega

/-- A response for the walk bears the identifier of its request. -/
theorem id_of_walk (h : Timed config n c earlier past m []) {request : Request}
    {others : List Request} (hn : n = (requests earlier).length)
    (hrequests : requests (past.map Prod.snd) = request :: others) {r : Response}
    (hr : r ∈ responses (past.map Prod.snd)) (hwalk : r.walk = n) : r.id = request.id := by
  obtain ⟨found, hfound, hid⟩ := h.attended.answers.answer r (by
    rw [responses_append]
    exact List.mem_append_right _ hr)
  rw [requests_append, hrequests, hwalk, hn, List.getElem?_append_right (Nat.le_refl _),
    Nat.sub_self] at hfound
  rw [hid, ← Option.some.inj hfound]

/-- A walk is answered once. -/
theorem filter_responses (h : Timed config n c earlier past m []) {r : Response}
    (hr : r ∈ responses (past.map Prod.snd)) (hn : r.walk = n) :
    (responses (past.map Prod.snd)).filter (·.walk == n) = [r] := by
  have honce := h.attended.answers.once
  rw [responses_append, List.map_append] at honce
  have hcount := List.nodup_iff_count_le_one.1 (List.nodup_append.1 honce).2.1 n
  rw [List.count, List.countP_map, List.countP_eq_length_filter] at hcount
  have hmem : r ∈ (responses (past.map Prod.snd)).filter (·.walk == n) :=
    List.mem_filter.2 ⟨hr, beq_iff_eq.2 hn⟩
  obtain ⟨r', hr'⟩ := List.length_eq_one_iff.1
    (Nat.le_antisymm hcount (List.length_pos_of_mem hmem))
  have hsame : (responses (past.map Prod.snd)).filter (·.walk == n) = [r'] := hr'
  rw [hsame, List.mem_singleton] at hmem
  rw [hsame, hmem]

end Timed

/-- A response is delivered by a tick, which brings the clock to when it is delivered. -/
theorem tick_of_delivered {commands : List (MmuCommand M)} (hpending : m.walker.pending = [])
    {t : Nat} {r : Response} (hr : (t, .delivered r) ∈ m.timeline commands) :
    ∃ before after, commands = before ++ .tick :: after ∧ (m.run before).2.clock + 1 = t ∧
      r ∈ (m.run before).2.tick.1 := by
  obtain ⟨before, command, after, rfl, hevent, hclock⟩ := exists_of_mem_timeline hr
  have hresponse : r ∈ responses ((m.run before).2.events command) :=
    List.mem_filterMap.2 ⟨_, hevent, rfl⟩
  cases command with
  | tick =>
      rw [responses_events (pending_run hpending before)] at hresponse
      exact ⟨before, after, rfl, (clock_tick _).symm.trans hclock.symm, hresponse⟩
  | translate request =>
      rw [events, Walker.responses_translate] at hresponse
      cases hresponse
  | flush => cases hresponse
  | setRoot rootPpn => cases hresponse
  | write memory => cases hresponse

theorem requests_timeline {request : Request} (haccepted : m.walker.start? request ≠ none)
    (after : List (MmuCommand M)) :
    ∃ others, requests ((m.timeline (.translate request :: after)).map Prod.snd) =
      request :: others := by
  obtain ⟨slot, u, w, -, -, -, -, -, -, hperform⟩ := Walker.begins_of_accepted haccepted
  refine ⟨requests (u.events slot) ++
    requests (((m.perform (.translate request)).2.timeline after).map Prod.snd), ?_⟩
  rw [timeline, List.map_append, snd_map_mk, requests_append, events, hperform]
  rfl

/-- The latencies are those of the parameters. -/
theorem delay_run {memory : M} (hstart : create config memory = .ok m)
    (commands : List (MmuCommand M)) :
    ∀ target, max 1 ((m.run commands).2.latency target) = config.delay target := by
  have hlaw : Preserved fun _ (m : Mmu M) _ =>
      ∀ target, max 1 (m.latency target) = config.delay target :=
    { starts := fun request _ h => h
      begins := fun _ h => h
      serves := fun h => by rw [serve_snd]; exact h
      collects := fun h => h
      changes := fun _ _ _ h => h }
  have heq := eq_of_create hstart
  have hfresh : m.walker.pending = [] ∧
      ∀ target, max 1 (m.latency target) = config.delay target := by
    rw [heq]
    exact ⟨rfl, fun target => by cases target <;> rfl⟩
  exact hlaw.run [] hfresh.1 hfresh.2 commands

/-- **A translation takes as long as its own probes.** A request is accepted after some
commands, and others follow. The walk that it starts sends between one and eight
probes, and is due when as many cycles have passed as these take. If that clock is
reached, the tick that brings it delivers the one response to the request; before it,
there is none. -/
theorem response_when_own_probes_are_answered {memory : M} {start : Mmu M}
    (hstart : create config memory = .ok start) (before after : List (MmuCommand M))
    (request : Request) (haccepted : (start.run before).2.start? request ≠ none) :
    let m := (start.run before).2
    let commands := .translate request :: after
    let sent := sentBy m.walker.nextWalk ((m.timeline commands).map Prod.snd)
    let due := m.clock + config.duration sent
    1 ≤ sent.length ∧ sent.length ≤ 8 ∧
      due ≤ m.clock + 4 * (max 1 config.cacheLatency + max 1 config.memoryLatency) ∧
      (due ≤ (m.run commands).2.clock → ∃ earlier later r, after = earlier ++ .tick :: later ∧
        (m.run (.translate request :: earlier)).2.clock + 1 = due ∧
        r ∈ (m.run (.translate request :: earlier)).2.tick.1 ∧
        r.walk = m.walker.nextWalk ∧ r.id = request.id ∧
        (m.run commands).1.filter (·.walk == m.walker.nextWalk) = [r]) ∧
      ((m.run commands).2.clock < due →
        ∀ r ∈ (m.run commands).1, r.walk ≠ m.walker.nextWalk) := by
  intro m commands sent due
  obtain ⟨hattended, hpending⟩ := attended_run hstart before
  have hbegun := timed_of_accepted hpending (delay_run hstart before) hattended haccepted
  have hclock : (m.perform (.translate request)).2.clock = m.clock := by
    rw [perform_translate hpending]
    rfl
  have htimed : Timed config m.walker.nextWalk m.clock ((start.timeline before).map Prod.snd)
      (m.timeline commands) (m.run commands).2 [] := by
    have htimeline : m.timeline commands =
        (m.walker.perform (.translate request)).1.map (m.clock, ·) ++
          (m.perform (.translate request)).2.timeline after := by
      rw [timeline, hclock]
      rfl
    rw [htimeline]
    exact (preserved_timed config _ _ _).run _ (pending_perform hpending _) hbegun after
  have hpending' := pending_run hpending commands
  have hresponses := responses_timeline hpending commands
  refine ⟨htimed.bounded.1, htimed.bounded.2.1, htimed.bounded.2.2, fun hdue => ?_, fun hdue => ?_⟩
  · obtain ⟨r, hr, hn⟩ := htimed.delivered hpending' hdue
    have hmem : r ∈ responses ((m.timeline commands).map Prod.snd) :=
      List.mem_filterMap.2 ⟨_, List.mem_map_of_mem hr, rfl⟩
    have hone := htimed.filter_responses hmem hn
    rw [hresponses] at hone
    obtain ⟨others, hrequests⟩ := requests_timeline (walker_start?_ne_none haccepted) after
    obtain ⟨pre, later, hsplit, hdue, htick⟩ := tick_of_delivered hpending hr
    cases pre with
    | nil =>
        have hhead : MmuCommand.translate request = .tick := (List.cons.inj hsplit).1
        cases hhead
    | cons command earlier =>
        obtain ⟨rfl, rfl⟩ := List.cons.inj hsplit
        refine ⟨earlier, later, r, rfl, hdue, htick, hn, ?_, hone⟩
        exact htimed.id_of_walk hattended.answers.number hrequests hmem hn
  · rw [← hresponses]
    exact htimed.undelivered hdue

/-- A second walk starts while the first is under way, and goes through two levels. A
cache without latency takes a cycle like one with latency one, and neither a flush nor
a third walk delays the answer. -/
theorem second_walk_answered_after_its_four_probes :
    let tables : PhysAddr → Option UInt64 := fun a =>
      if a.val = 0x1000 then some 0x801 else if a.val = 0x2000 then some 0x10000043 else none
    let config : MmuConfig :=
      { walkers := 3, cacheEntries := 1, cacheLatency := 0, memoryLatency := 2, rootPpn := 1 }
    let start : Mmu (PhysAddr → Option UInt64) :=
      { walker := .withSlots 3 1, cache := .withSize 1, memory := tables,
        cacheLatency := 0, memoryLatency := 2 }
    let request : Request := .toLoad 6 ⟨0x1234567⟩
    let before : List (MmuCommand (PhysAddr → Option UInt64)) := [.translate (.toLoad 5 ⟨0⟩), .tick]
    let after : List (MmuCommand (PhysAddr → Option UInt64)) :=
      [.tick, .translate (.toLoad 7 ⟨0⟩), .tick, .flush, .tick, .setRoot 7, .tick, .flush, .tick,
        .tick, .tick]
    let m := (start.run before).2
    let sent := sentBy m.walker.nextWalk ((m.timeline (.translate request :: after)).map Prod.snd)
    create config tables = .ok start ∧ m.start? request ≠ none ∧ m.clock = 1 ∧
      sent.map Probe.target = [.cache, .memory, .cache, .memory] ∧
      m.clock + config.duration sent = 7 ∧
      ∃ earlier later r, after = earlier ++ .tick :: later ∧
        (m.run (.translate request :: earlier)).2.clock + 1 = 7 ∧
        r ∈ (m.run (.translate request :: earlier)).2.tick.1 ∧ r.id = 6 := by
  intro tables config start request before after m sent
  have hstart : create config tables = .ok start := rfl
  have haccepted : m.start? request ≠ none := Option.isSome_iff_ne_none.1 (by decide +kernel)
  have hclock : m.clock = 1 := by decide +kernel
  have hsent : sent.map Probe.target = [.cache, .memory, .cache, .memory] := by decide +kernel
  have hdue : m.clock + config.duration sent = 7 := by decide +kernel
  obtain ⟨-, -, -, hanswered, -⟩ :=
    response_when_own_probes_are_answered hstart before after request haccepted
  obtain ⟨earlier, later, r, hsplit, htick, hr, -, hid, -⟩ := hanswered (by decide +kernel)
  exact ⟨hstart, haccepted, hclock, hsent, hdue, earlier, later, r, hsplit,
    htick.trans (by decide +kernel), hr, hid⟩

end Mmu

end OutOfOrder.Paging
