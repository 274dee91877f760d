import OutOfOrder.Paging.Walker
import OutOfOrder.Proofs.Paging.Walk

/-!
# Many walks do not disturb one

The walkers share slots, a queue of probes and a counter, and an answer names
its walk only by number. So one walk is followed here among all others, by its
number. Wherever a slot holds a walk of that number, it is the same walk
further on. And a probe of that number that a walk could still take asks for
the very entry that the walk needs.

The first follows from the counter, which gives every walk a number of its own
(`Numbered`). The second is why a late answer does no harm: what has moved on
in the meantime is at a lower level, and refuses it.
-/

namespace OutOfOrder.Paging

/-- If the response is for this walk, it is the one that the reference gives. -/
def Response.Answers (read : PhysAddr → Option UInt64) (origin : Walk) (r : Response) : Prop :=
  r.walk = origin.id → r.id = origin.request.id ∧ r.outcome = origin.reference read

/-- The walk is not above the level of the probe, and if it is at that level, the
probe asks for the entry that the walk needs. -/
def Probe.Fits (q : Probe) (w : Walk) : Prop :=
  w.level ≤ q.level ∧ (w.level = q.level → q.addr = w.entryAddr)

/-- A probe that fits a walk fits it later on. -/
theorem Probe.Fits.of_follows {q : Probe} {w w' : Walk} {read : PhysAddr → Option UInt64}
    (h : q.Fits w) (hfollows : w.Follows read w') : q.Fits w' := by
  obtain ⟨hle, haddr⟩ := h
  have hbelow := hfollows.level
  refine ⟨Nat.le_trans hbelow hle, fun hsame => ?_⟩
  rw [hfollows.entryAddr (by omega)]
  exact haddr (by omega)

namespace Walker

variable {p p' : Walker} {slot : Nat} {w w' : Walk}

/-! ## Slots -/

theorem walk?_of_ne {s : Nat} {v : Option Walk} (hp : p'.slots = p.slots.setIfInBounds slot v)
    (hs : s ≠ slot) : p'.walk? s = p.walk? s := by
  rw [walk?, hp, Array.getElem?_setIfInBounds_ne (Ne.symm hs), walk?]

/-- After a write to a slot, a walk is the one written or was there before. -/
theorem walk?_set {s : Nat} {v : Option Walk} (hp : p'.slots = p.slots.setIfInBounds slot v)
    (h : p'.walk? s = some w) : s = slot ∧ v = some w ∨ s ≠ slot ∧ p.walk? s = some w := by
  by_cases hs : s = slot
  · subst hs
    rw [walk?, hp, Array.getElem?_setIfInBounds_self] at h
    split at h
    · exact .inl ⟨rfl, h⟩
    · cases h
  · rw [walk?_of_ne hp hs] at h
    exact .inr ⟨hs, h⟩

theorem walk?_self {v : Option Walk} (hp : p'.slots = p.slots.setIfInBounds slot v)
    (hlt : slot < p.slots.size) : p'.walk? slot = v := by
  rw [walk?, hp, Array.getElem?_setIfInBounds_self_of_lt hlt]
  rfl

theorem walk?_withSlots {count : Nat} {rootPpn : UInt64} (s : Nat) (w : Walk) :
    (Walker.withSlots count rootPpn).walk? s ≠ some w := by
  rw [walk?, Walker.withSlots, Array.getElem?_replicate]
  split <;> nofun

theorem lt_size_of_walk? (hw : p.walk? slot = some w) :
    p.slots[slot]? = some (some w) ∧ slot < p.slots.size := by
  have hslot := Option.join_eq_some_iff.1 hw
  exact ⟨hslot, (Array.getElem?_eq_some_iff.1 hslot).1⟩

theorem busy_set {v old : Option Walk} (hp : p'.slots = p.slots.setIfInBounds slot v)
    (hold : p.slots[slot]? = some old) :
    p'.busy + (if old.isSome then 1 else 0) = p.busy + if v.isSome then 1 else 0 := by
  obtain ⟨hlt, hget⟩ := Array.getElem?_eq_some_iff.1 hold
  have hle := Array.boole_getElem_le_countP (p := Option.isSome) hlt
  rw [busy, hp, Array.setIfInBounds_def, dif_pos hlt, Array.countP_set, busy]
  rw [hget] at hle ⊢
  omega

theorem drive_of_probe {target : ProbeTarget} (h : w.advance = .probe w' target) :
    p.drive slot w = (none, { p with
      slots := p.slots.setIfInBounds slot (some w')
      pending := p.pending ++ [probeOf slot w' target] }) := by
  rw [drive, h]

theorem drive_of_waiting (h : w.advance = .waiting w') :
    p.drive slot w = (none, { p with slots := p.slots.setIfInBounds slot (some w') }) := by
  rw [drive, h]

theorem drive_of_finished {outcome : Except PageFault PhysAddr}
    (h : w.advance = .finished outcome) :
    p.drive slot w = (some ⟨w.id, w.request.id, outcome⟩,
      { p with slots := p.slots.setIfInBounds slot none }) := by
  rw [drive, h]

/-- What is left in the slots after a walk was driven: that walk further on, and
the others. -/
theorem walk?_drive {s : Nat} {v : Walk} (h : (p.drive slot w).2.walk? s = some v) :
    s = slot ∧ v.id = w.id ∨ s ≠ slot ∧ p.walk? s = some v := by
  cases hadvance : w.advance with
  | probe w' target =>
      rw [drive_of_probe hadvance] at h
      refine (walk?_set rfl h).imp (fun hs => ⟨hs.1, ?_⟩) id
      exact Walk.id_advance ((congrArg Progress.walk? hadvance).trans hs.2)
  | waiting w' =>
      rw [drive_of_waiting hadvance] at h
      refine (walk?_set rfl h).imp (fun hs => ⟨hs.1, ?_⟩) id
      exact Walk.id_advance ((congrArg Progress.walk? hadvance).trans hs.2)
  | finished outcome =>
      rw [drive_of_finished hadvance] at h
      exact (walk?_set rfl h).imp (fun hs => nomatch hs.2) id

/-- What is sent when a walk was driven: at most one probe, with its number. -/
theorem mem_pending_drive {q : Probe} (h : q ∈ (p.drive slot w).2.pending) :
    q ∈ p.pending ∨ q.walk = w.id := by
  cases hadvance : w.advance with
  | probe w' target =>
      rw [drive_of_probe hadvance] at h
      refine (List.mem_append.1 h).imp id fun hq => ?_
      rw [List.mem_singleton.1 hq]
      exact Walk.id_advance (congrArg Progress.walk? hadvance)
  | waiting w' => rw [drive_of_waiting hadvance] at h; exact .inl h
  | finished outcome => rw [drive_of_finished hadvance] at h; exact .inl h

/-- Driving a walk answers no other. -/
theorem walk_of_drive {response : Response} (h : response ∈ (p.drive slot w).1) :
    response.walk = w.id := by
  cases hadvance : w.advance with
  | probe w' target => rw [drive_of_probe hadvance] at h; cases h
  | waiting w' => rw [drive_of_waiting hadvance] at h; cases h
  | finished outcome => rw [drive_of_finished hadvance] at h; cases h; rfl

theorem nextWalk_drive (p : Walker) (slot : Nat) (w : Walk) :
    (p.drive slot w).2.nextWalk = p.nextWalk := by
  rw [drive]
  split <;> rfl

/-- An answer that is taken is taken by the walk in the slot it names, which has
the number and the level it names. -/
theorem complete?_eq_some {probe : Probe} {raw : Option UInt64} {response : Option Response}
    (h : p.complete? probe raw = some (response, p')) :
    ∃ w w', p.walk? probe.slot = some w ∧ w.id = probe.walk ∧ w.level = probe.level ∧
      w.answer? probe.target raw = some w' ∧ p.drive probe.slot w' = (response, p') := by
  rw [complete?] at h
  split at h
  · cases h
  · next w hw =>
      split at h
      · next hfits =>
          obtain ⟨w', hanswer, hdrive⟩ := Option.map_eq_some_iff.1 h
          exact ⟨w, w', hw, hfits.1, hfits.2, hanswer, hdrive⟩
      · cases h

/-! ## Numbers -/

/-- Every walk and every probe, on the way in `out` or still pending, has a
number that was given out. -/
structure Numbered (p : Walker) (out : List Probe) : Prop where
  walks : ∀ s w, p.walk? s = some w → w.id < p.nextWalk
  probes : ∀ q ∈ p.pending ++ out, q.walk < p.nextWalk

theorem numbered_withSlots (count : Nat) (rootPpn : UInt64) :
    (withSlots count rootPpn).Numbered [] where
  walks := fun s w hw => absurd hw (walk?_withSlots s w)
  probes := fun _ hq => nomatch hq

theorem Numbered.of_subset {out out' : List Probe} (hp : p.Numbered out)
    (hout : out' ⊆ out) : p.Numbered out' where
  walks := hp.walks
  probes := fun q hq => hp.probes q <| by
    rw [List.mem_append] at hq ⊢
    exact hq.imp id fun hq => hout hq

theorem Numbered.collect {out : List Probe} (hp : p.Numbered out) :
    Numbered { p with pending := [] } (out ++ p.pending) where
  walks := hp.walks
  probes := fun q (hq : q ∈ out ++ p.pending) =>
    hp.probes q (List.mem_append.2 (List.mem_append.1 hq).symm)

theorem Numbered.setRoot {out : List Probe} (hp : p.Numbered out) (rootPpn : UInt64) :
    (p.setRoot rootPpn).Numbered out :=
  ⟨hp.walks, hp.probes⟩

theorem Numbered.drive {out : List Probe} (hp : p.Numbered out) (hw : w.id < p.nextWalk)
    (slot : Nat) : (p.drive slot w).2.Numbered out where
  walks := by
    intro s v hv
    rw [nextWalk_drive]
    obtain ⟨-, hid⟩ | ⟨-, hold⟩ := walk?_drive hv
    · rw [hid]; exact hw
    · exact hp.walks s v hold
  probes := by
    intro q hq
    rw [nextWalk_drive]
    rcases List.mem_append.1 hq with hq | hq
    · obtain hq | hid := mem_pending_drive hq
      · exact hp.probes q (List.mem_append_left _ hq)
      · rw [hid]; exact hw
    · exact hp.probes q (List.mem_append_right _ hq)

/-! ## One walk among many -/

/-- Every walk with the number of `origin` follows it, and every probe of that
number fits it. -/
structure Tracks (read : PhysAddr → Option UInt64) (origin : Walk) (p : Walker)
    (out : List Probe) : Prop where
  lt : origin.id < p.nextWalk
  walks : ∀ s w, p.walk? s = some w → w.id = origin.id → origin.Follows read w
  probes : ∀ q ∈ p.pending ++ out, q.walk = origin.id →
    ∀ w, p.walk? q.slot = some w → w.id = origin.id → q.Fits w

variable {read : PhysAddr → Option UInt64} {origin : Walk} {out out' : List Probe}

theorem Tracks.of_subset (ht : Tracks read origin p out) (hout : out' ⊆ out) :
    Tracks read origin p out' where
  lt := ht.lt
  walks := ht.walks
  probes := fun q hq => ht.probes q <| by
    rw [List.mem_append] at hq ⊢
    exact hq.imp id fun hq => hout hq

/-- Probes that are taken are on their way. -/
theorem Tracks.collect (ht : Tracks read origin p out) :
    Tracks read origin { p with pending := [] } (out ++ p.pending) where
  lt := ht.lt
  walks := ht.walks
  probes := fun q (hq : q ∈ out ++ p.pending) =>
    ht.probes q (List.mem_append.2 (List.mem_append.1 hq).symm)

theorem Tracks.setRoot (ht : Tracks read origin p out) (rootPpn : UInt64) :
    Tracks read origin (p.setRoot rootPpn) out :=
  ⟨ht.lt, ht.walks, ht.probes⟩

/-- A slot may be left with a walk that follows `origin` and that all probes fit,
or with one of another number, or free; and what is sent from it has to fit
what is left there. -/
theorem Tracks.update (ht : Tracks read origin p out) {v : Option Walk} {sent : List Probe}
    (hslots : p'.slots = p.slots.setIfInBounds slot v)
    (hpending : p'.pending = p.pending ++ sent) (hnext : p'.nextWalk = p.nextWalk)
    (hwalk : ∀ w', v = some w' → w'.id = origin.id → origin.Follows read w' ∧
      ∀ q ∈ p.pending ++ out, q.walk = origin.id → q.slot = slot → q.Fits w')
    (hsent : ∀ q ∈ sent, q.walk = origin.id → q.slot = slot ∧
      ∀ w', v = some w' → q.Fits w') :
    Tracks read origin p' out where
  lt := hnext ▸ ht.lt
  walks := by
    intro s w' hw' hid
    obtain ⟨-, hv⟩ | ⟨-, hold⟩ := walk?_set hslots hw'
    · exact (hwalk w' hv hid).1
    · exact ht.walks s w' hold hid
  probes := by
    intro q hq hnumber w' hw' hid
    rw [hpending, List.mem_append, List.mem_append, or_right_comm, ← List.mem_append] at hq
    obtain ⟨hs, hv⟩ | ⟨hs, hold⟩ := walk?_set hslots hw'
    · rcases hq with hq | hq
      · exact (hwalk w' hv hid).2 q hq hnumber hs
      · exact (hsent q hq hnumber).2 w' hv
    · rcases hq with hq | hq
      · exact ht.probes q hq hnumber w' hold hid
      · exact absurd (hsent q hq hnumber).1 hs

/-- Driving another walk is no concern of this one. -/
theorem Tracks.drive_other (ht : Tracks read origin p out) (hw : w.id ≠ origin.id)
    (slot : Nat) : Tracks read origin (p.drive slot w).2 out := by
  cases hadvance : w.advance with
  | probe w' target =>
      have hid := Walk.id_advance (congrArg Progress.walk? hadvance)
      rw [drive_of_probe hadvance]
      refine ht.update rfl rfl rfl (fun v hv hnumber => ?_) fun q hq hnumber => ?_
      · rw [← Option.some.inj hv, hid] at hnumber
        exact absurd hnumber hw
      · rw [List.mem_singleton.1 hq] at hnumber
        exact absurd (hid.symm.trans hnumber) hw
  | waiting w' =>
      have hid := Walk.id_advance (congrArg Progress.walk? hadvance)
      rw [drive_of_waiting hadvance]
      refine ht.update rfl (List.append_nil _).symm rfl (fun v hv hnumber => ?_)
        fun q hq => nomatch hq
      rw [← Option.some.inj hv, hid] at hnumber
      exact absurd hnumber hw
  | finished outcome =>
      rw [drive_of_finished hadvance]
      exact ht.update rfl (List.append_nil _).symm rfl (fun v hv => nomatch hv)
        fun q hq => nomatch hq

theorem fits_probeOf (slot : Nat) (w : Walk) (target : ProbeTarget) :
    (probeOf slot w target).Fits w :=
  ⟨Nat.le_refl _, fun _ => rfl⟩

/-- A new walk is tracked from its start, and is not answered at once. -/
theorem Numbered.tracks_start (hp : p.Numbered out) {request : Request}
    {response : Option Response} (h : p.start? request = some (response, p'))
    (read : PhysAddr → Option UInt64) :
    response = none ∧ Tracks read
      { id := p.nextWalk, request, level := rootLevel, table := p.root } p' out := by
  obtain ⟨slot, -, hdrive⟩ := Option.map_eq_some_iff.1 h
  let origin : Walk := { id := p.nextWalk, request, level := rootLevel, table := p.root }
  have hbefore : Tracks read origin { p with nextWalk := p.nextWalk + 1 } out :=
    { lt := Nat.lt_succ_self _
      walks := fun s w hw hid => absurd hid (Nat.ne_of_lt (hp.walks s w hw))
      probes := fun q hq hid => absurd hid (Nat.ne_of_lt (hp.probes q hq)) }
  have hask : origin.advance = .probe { origin with lookup.cache := .pending } .cache :=
    Walk.ask_of_lookup_eq rfl
  rw [drive_of_probe hask] at hdrive
  obtain ⟨rfl, rfl⟩ := Prod.mk.inj hdrive
  refine ⟨rfl, hbefore.update rfl rfl rfl (fun w' hw' _ => ?_) fun q hq _ => ?_⟩
  · obtain rfl := Option.some.inj hw'
    refine ⟨?_, fun q hq hid => absurd hid (Nat.ne_of_lt (hp.probes q hq))⟩
    exact {
      waits := ⟨Nat.le_refl _, rfl, .inl ⟨rfl, rfl⟩⟩
      id := rfl
      request := rfl
      reference := rfl
      level := Nat.le_refl _
      entryAddr := fun _ => rfl }
  · obtain rfl := List.mem_singleton.1 hq
    refine ⟨rfl, fun w' hw' => ?_⟩
    obtain rfl := Option.some.inj hw'
    exact fits_probeOf slot _ .cache

/-- Answered faithfully, the walk stays on its way, and if it ends, it ends as the
reference does. -/
theorem Tracks.drive_answered (ht : Tracks read origin p out) (hslot : p.walk? slot = some w)
    (hid : w.id = origin.id) {target : ProbeTarget} {raw : Option UInt64}
    (hanswer : w.answer? target raw = some w')
    (hraw : Walk.Faithful read w.entryAddr raw target) :
    Tracks read origin (p.drive slot w').2 out ∧
      ∀ response ∈ (p.drive slot w').1, response.id = origin.request.id ∧
        response.outcome = origin.reference read := by
  have hfollows := ht.walks slot w hslot hid
  obtain ⟨known, hknown⟩ := Walk.answer?_eq_some hanswer
  obtain ⟨w'', next, hadvance, hnext⟩ | hadvance :=
    Walk.advance_answer hfollows.waits hanswer hraw
  · rw [drive_of_probe hadvance]
    refine ⟨ht.update rfl rfl rfl (fun v hv _ => ?_) (fun q hq _ => ?_), fun _ h => nomatch h⟩
    · obtain rfl := Option.some.inj hv
      refine ⟨hfollows.trans hnext, fun q hq hnumber hq' => ?_⟩
      exact (ht.probes q hq hnumber w (hq' ▸ hslot) hid).of_follows hnext
    · obtain rfl := List.mem_singleton.1 hq
      refine ⟨rfl, fun v hv => ?_⟩
      obtain rfl := Option.some.inj hv
      exact fits_probeOf slot _ next
  · rw [drive_of_finished hadvance]
    refine ⟨ht.update rfl (List.append_nil _).symm rfl (fun v hv => nomatch hv)
      (fun q hq => nomatch hq), fun response hresponse => ?_⟩
    obtain rfl := Option.some.inj hresponse
    rw [hknown, hfollows.reference]
    exact ⟨congrArg Request.id hfollows.request, rfl⟩

/-- Whichever walk an answer is for, this one stays on its way, as long as answers
to it are faithful. -/
theorem Tracks.complete? (ht : Tracks read origin p out) {probe : Probe} (hprobe : probe ∈ out)
    {raw : Option UInt64} (hraw : Walk.Faithful read probe.addr raw probe.target)
    {response : Option Response} (h : p.complete? probe raw = some (response, p')) :
    Tracks read origin p' out ∧ ∀ r ∈ response, r.Answers read origin := by
  obtain ⟨w, w', hslot, hnumber, hlevel, hanswer, hdrive⟩ := complete?_eq_some h
  obtain ⟨known, hknown⟩ := Walk.answer?_eq_some hanswer
  by_cases hid : w.id = origin.id
  · have hfits := ht.probes probe (List.mem_append_right _ hprobe) (hnumber.symm.trans hid) w
      hslot hid
    rw [hfits.2 hlevel] at hraw
    obtain ⟨htracks, hright⟩ := ht.drive_answered hslot hid hanswer hraw
    rw [hdrive] at htracks hright
    exact ⟨htracks, fun r hr _ => hright r hr⟩
  · have hid' : w'.id ≠ origin.id := by rw [hknown]; exact hid
    have htracks := ht.drive_other hid' probe.slot
    rw [hdrive] at htracks
    refine ⟨htracks, fun r hr hr' => absurd (Eq.trans ?_ hr') hid'⟩
    rw [show response = (p.drive probe.slot w').1 by rw [hdrive]] at hr
    exact (walk_of_drive hr).symm

/-- A new walk is no concern of one that is on its way. -/
theorem Tracks.start? (ht : Tracks read origin p out) {request : Request}
    {response : Option Response} (h : p.start? request = some (response, p')) :
    Tracks read origin p' out ∧ ∀ r ∈ response, r.Answers read origin := by
  obtain ⟨slot, -, hdrive⟩ := Option.map_eq_some_iff.1 h
  have hnext : Tracks read origin { p with nextWalk := p.nextWalk + 1 } out :=
    { lt := Nat.lt_succ_of_lt ht.lt, walks := ht.walks, probes := ht.probes }
  have htracks := hnext.drive_other
    (w := { id := p.nextWalk, request, level := rootLevel, table := p.root })
    (Nat.ne_of_gt ht.lt) slot
  rw [hdrive] at htracks
  refine ⟨htracks, fun r hr heq => absurd (heq.symm.trans ?_) (Nat.ne_of_lt ht.lt)⟩
  exact walk_of_drive (by rw [hdrive]; exact hr)

/-! ## Numbers among answers and starts -/

theorem Numbered.complete? (hp : p.Numbered out) {probe : Probe} {raw : Option UInt64}
    {response : Option Response} (h : p.complete? probe raw = some (response, p')) :
    p'.Numbered out := by
  obtain ⟨w, w', hslot, -, -, hanswer, hdrive⟩ := complete?_eq_some h
  obtain ⟨known, hknown⟩ := Walk.answer?_eq_some hanswer
  have hw : w'.id < p.nextWalk := by
    rw [hknown]
    exact hp.walks probe.slot w hslot
  have hnumbered := hp.drive hw probe.slot
  rw [hdrive] at hnumbered
  exact hnumbered

theorem Numbered.start? (hp : p.Numbered out) {request : Request}
    {response : Option Response} (h : p.start? request = some (response, p')) :
    p'.Numbered out := by
  obtain ⟨slot, -, hdrive⟩ := Option.map_eq_some_iff.1 h
  have hnext : Numbered { p with nextWalk := p.nextWalk + 1 } out :=
    { walks := fun s w hw => Nat.lt_succ_of_lt (hp.walks s w hw)
      probes := fun q hq => Nat.lt_succ_of_lt (hp.probes q hq) }
  have hnumbered := hnext.drive
    (w := { id := p.nextWalk, request, level := rootLevel, table := p.root })
    (Nat.lt_succ_self _) slot
  rw [hdrive] at hnumbered
  exact hnumbered

end Walker

end OutOfOrder.Paging
