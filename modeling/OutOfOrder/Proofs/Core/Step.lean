import OutOfOrder.Core.Command

/-!
# A run is a sequence of small steps

A command can do many things at once: a single cycle fetches, admits, promotes
and commits. What a law has to be checked against is not the command but the
small steps it is made of, of which there are few. This file names them, once,
and shows that every run is a sequence of them whose events are the history of
the run.

A law about runs then needs two things, that a fresh core has it and that every
step keeps it (`Steps.keeps`). And a law about one event is a law about one
step, taken in the state that the events before it led to (`Steps.split`).
-/

namespace OutOfOrder.Core

variable {W : Type} [Surroundings W]

/-- The smallest things that happen to a core, each with the event that it
leaves in the history, if it leaves one. -/
inductive Step : Core W → Option Event → Core W → Prop
  | activate (c : Core W) : Step c (some (.told .activate)) c.activate
  | deactivate (c : Core W) : Step c (some (.told .deactivate)) c.deactivate
  | arm (c : Core W) (budget : Nat) : Step c (some (.told (.arm budget))) (c.arm budget)
  | issued (c : Core W) (h : Handle) : Step c (some (.told (.issued h))) (c.issued h)
  | executing (c : Core W) (h : Handle) :
      Step c (some (.told (.executing h))) (c.executing h)
  | executed (c : Core W) (h : Handle) : Step c (some (.told (.executed h))) (c.executed h)
  | performed (c : Core W) (h : Handle) :
      Step c (some (.told (.performed h))) (c.performed h)
  | replay (c : Core W) (h : Handle) : Step c (some (.told (.replay h))) (c.replay h)
  | fetch (c : Core W) : Step c none c.fetch
  | tick (c : Core W) : Step c none c.tick
  | decode (c : Core W) : Step c none c.decode
  | rest {c : Core W} (hqueue : c.queue.isEmpty) (hdrained : c.isDrained) :
      Step c none { c with
        world := (FrontEnd.askOutstanding c.world).2
        busy := (FrontEnd.askOutstanding c.world).1 }
  | recover {c : Core W} (hrecovering : c.recovery.recovering) (hdrained : c.isDrained) :
      Step c (some .recovered) c.finishRecovery
  | charge (c : Core W) (cause : StallCause) (slots : Nat) (enabled : Bool) :
      Step c none { c with stats := c.stats.chargeStall cause slots enabled }
  /-- The cluster refuses an operation that the core would have taken. -/
  | refuse {c : Core W} {op : MicroOp} {cause : StallCause} {world : W}
      (hroom : c.refusal? op = none)
      (hanswer : Cluster.hazard? c.world op = (some cause, world)) :
      Step c none { c with world }
  /-- An operation is admitted, from outside or from the front of the queue. -/
  | accept {c : Core W} {op : MicroOp} {world : W} {queue : InstructionQueue}
      (hroom : c.refusal? op = none)
      (hanswer : Cluster.hazard? c.world op = (none, world))
      (hqueue : queue = c.queue ∨ c.queue.next? = some (op, queue)) :
      Step c (some (.admitted ({ c with world }.admitOp op).1))
        { ({ c with world }.admitOp op).2 with queue }
  /-- The cluster keeps the top of the reorder buffer where it is. -/
  | holdRob {c : Core W} {h : Handle} {op : MicroOp} {world : W}
      (htop : c.rob.top? = some h) (hop : c.pool.get? h = some op)
      (hanswer : Cluster.mayPromote c.world op c.recovery.flushing = (false, world)) :
      Step c none { c with world }
  | promote {c : Core W} {h : Handle} {op : MicroOp} {world : W}
      (htop : c.rob.top? = some h) (hop : c.pool.get? h = some op)
      (hanswer : Cluster.mayPromote c.world op c.recovery.flushing = (true, world)) :
      Step c none { c with world, rob := c.rob.pop, retiring := c.retiring.push h }
  /-- A handle that names nothing leaves the reorder buffer. -/
  | dropRob {c : Core W} {h : Handle} (htop : c.rob.top? = some h)
      (hop : c.pool.get? h = none) : Step c none { c with rob := c.rob.pop }
  | sample (c : Core W) :
      Step c none { c with
        stats := c.stats.sampleBuffers c.rob.size c.retiring.size c.sampling }
  /-- The cluster keeps the top of the retiring buffer where it is. -/
  | holdRetiring {c : Core W} {h : Handle} {op : MicroOp} {world : W}
      (htop : c.retiring.top? = some h) (hop : c.pool.get? h = some op)
      (hanswer : Cluster.mayCommit c.world op c.recovery.flushing = (false, world)) :
      Step c none { c with world }
  | commit {c : Core W} {h : Handle} {op : MicroOp} {world : W}
      (htop : c.retiring.top? = some h) (hop : c.pool.get? h = some op)
      (hdelay : op.executedAt + c.config.retireDelay < c.clock)
      (hanswer : Cluster.mayCommit c.world op c.recovery.flushing = (true, world)) :
      Step c (some (.committed ⟨h, op⟩)) ({ c with world }.commit h op)
  /-- A handle that names nothing leaves the retiring buffer. -/
  | dropRetiring {c : Core W} {h : Handle} (htop : c.retiring.top? = some h)
      (hop : c.pool.get? h = none) : Step c none { c with retiring := c.retiring.pop }

/-- What commits is the operation at the top of the retiring buffer, and the cluster has
let it. -/
theorem granted_of_committed {c d : Core W} {n : NamedOp}
    (h : Step c (some (.committed n)) d) :
    c.retiring.top? = some n.handle ∧ c.op? n.handle = some n.op ∧
      (Cluster.mayCommit c.world n.op c.recovery.flushing).1 = true := by
  cases h with
  | commit htop hop hdelay hanswer => exact ⟨htop, hop, congrArg Prod.fst hanswer⟩

/-- Steps one after the other, with their events in order. -/
inductive Steps : Core W → List Event → Core W → Prop
  | refl (c : Core W) : Steps c [] c
  | silent {c d e : Core W} {events : List Event} (hstep : Step c none d)
      (hrest : Steps d events e) : Steps c events e
  | event {c d e : Core W} {event : Event} {events : List Event}
      (hstep : Step c (some event) d) (hrest : Steps d events e) :
      Steps c (event :: events) e

namespace Steps

theorem one_silent {c d : Core W} (h : Step c none d) : Steps c [] d :=
  .silent h (.refl d)

theorem one {c d : Core W} {event : Event} (h : Step c (some event) d) :
    Steps c [event] d :=
  .event h (.refl d)

theorem append {c d e : Core W} {first second : List Event} (h : Steps c first d)
    (h' : Steps d second e) : Steps c (first ++ second) e := by
  induction h with
  | refl => exact h'
  | silent hstep _ ih => exact .silent hstep (ih h')
  | event hstep _ ih => exact .event hstep (ih h')

theorem snoc {c d e : Core W} {events : List Event} {event : Option Event}
    (h : Steps c events d) (hstep : Step d event e) : Steps c (events ++ event.toList) e := by
  cases event with
  | none => exact h.append (one_silent hstep)
  | some event => exact h.append (one hstep)

/-- A law about a state and the history that led to it holds after any steps if
every step keeps it. -/
theorem keeps {P : List Event → Core W → Prop}
    (hkeep : ∀ {past c event d}, P past c → Step c event d → P (past ++ event.toList) d)
    {events : List Event} {c d : Core W} (h : Steps c events d) (hc : P [] c) :
    P events d := by
  have hfrom : ∀ past, P past c → P (past ++ events) d := by
    clear hc
    induction h with
    | refl => intro past hc; simpa using hc
    | silent hstep _ ih => intro past hc; simpa using ih _ (hkeep hc hstep)
    | event hstep _ ih => intro past hc; simpa using ih _ (hkeep hc hstep)
  exact hfrom [] hc

/-- So does a law that every step keeps if what it admits is offered as it should be,
provided that everything is. -/
theorem keeps_of_admissions {P : List Event → Core W → Prop} {offered : Admission → Prop}
    (hkeep : ∀ {past c event d}, P past c → Step c event d →
      (∀ a ∈ Event.admissions event.toList, offered a) → P (past ++ event.toList) d)
    {events : List Event} {c d : Core W} (h : Steps c events d)
    (hall : ∀ a ∈ Event.admissions events, offered a) (hc : P [] c) : P events d := by
  refine h.keeps (P := fun past e => (∀ a ∈ Event.admissions past, offered a) → P past e)
    (fun hpast hstep hall => ?_) (fun _ => hc) hall
  rw [Event.admissions_append] at hall
  exact hkeep (hpast fun a ha => hall a (List.mem_append_left _ ha)) hstep
    fun a ha => hall a (List.mem_append_right _ ha)

/-- An event of a history happened in a step, between the steps of what came
before it and the steps of what came after. -/
theorem split {events : List Event} {c e : Core W} (h : Steps c events e) :
    ∀ {earlier later : List Event} {event : Event}, events = earlier ++ event :: later →
      ∃ d d', Steps c earlier d ∧ Step d (some event) d' ∧ Steps d' later e := by
  induction h with
  | refl => intro earlier later event heq; simp at heq
  | silent hstep _ ih =>
      intro earlier later event heq
      obtain ⟨d, d', hd, hmid, hd'⟩ := ih heq
      exact ⟨d, d', .silent hstep hd, hmid, hd'⟩
  | event hstep hrest ih =>
      intro earlier later event heq
      cases earlier with
      | nil =>
          obtain ⟨rfl, rfl⟩ := List.cons.inj heq
          exact ⟨_, _, .refl _, hstep, hrest⟩
      | cons first earlier =>
          rw [List.cons_append, List.cons.injEq] at heq
          obtain ⟨rfl, heq⟩ := heq
          obtain ⟨d, d', hd, hmid, hd'⟩ := ih heq
          exact ⟨d, d', .event hstep hd, hmid, hd'⟩

end Steps

/-! ## What a cycle is made of -/

/-- An offer ends in one of three ways: the core refuses it, the cluster refuses
it, or it is admitted. -/
theorem add_cases (c : Core W) (op : MicroOp) :
    (∃ cause, c.refusal? op = some cause ∧ c.add op = (.error ⟨cause, op⟩, c)) ∨
      (∃ cause world, c.refusal? op = none ∧
        Cluster.hazard? c.world op = (some cause, world) ∧
        c.add op = (.error ⟨cause, op⟩, { c with world })) ∨
      ∃ world, c.refusal? op = none ∧ Cluster.hazard? c.world op = (none, world) ∧
        c.add op = (.ok ({ c with world }.admitOp op).1, ({ c with world }.admitOp op).2) := by
  cases hroom : c.refusal? op with
  | some cause => exact .inl ⟨cause, rfl, by simp only [add, hroom]⟩
  | none =>
      cases hanswer : Cluster.hazard? c.world op with
      | mk answer world =>
          cases answer with
          | some cause =>
              exact .inr (.inl ⟨cause, world, rfl, rfl, by simp only [add, hroom, hanswer]⟩)
          | none => exact .inr (.inr ⟨world, rfl, rfl, by simp only [add, hroom, hanswer]⟩)

theorem steps_add (c : Core W) (op : MicroOp) :
    Steps c ((Reply.admission (c.add op).1).events (.add op)) (c.add op).2 := by
  obtain ⟨cause, -, hadd⟩ | ⟨cause, world, hroom, hanswer, hadd⟩ | ⟨world, hroom, hanswer, hadd⟩ :=
    add_cases c op
  · rw [hadd]; exact .refl c
  · rw [hadd]; exact .one_silent (.refuse hroom hanswer)
  · rw [hadd]; exact .one (.accept hroom hanswer (.inl rfl))

theorem steps_dispatchUpTo (width : Nat) (c : Core W) :
    Steps c ((dispatchUpTo width c).1.admitted.map .admitted) (dispatchUpTo width c).2 := by
  induction width generalizing c with
  | zero => exact .refl c
  | succ width ih =>
      rw [dispatchUpTo]
      cases hnext : c.queue.next? with
      | none => exact .refl c
      | some next =>
          obtain ⟨op, queue⟩ := next
          obtain ⟨cause, -, hadd⟩ | ⟨cause, world, hroom, hanswer, hadd⟩ |
            ⟨world, hroom, hanswer, hadd⟩ := add_cases c op
          · simp only [hadd]; exact .refl c
          · simp only [hadd]; exact .one_silent (.refuse hroom hanswer)
          · simp only [hadd]
            exact .event (.accept hroom hanswer (.inr hnext)) (ih _)

theorem steps_dispatch (c : Core W) :
    Steps c (c.dispatch.1.map .admitted) c.dispatch.2 := by
  have hcharge : ∀ (d : Dispatched) (c : Core W), Steps c [] (c.chargeUnused d) := by
    intro d c
    rw [chargeUnused]
    split
    · exact .refl c
    · exact .one_silent (.charge c _ _ _)
  simpa [dispatch] using
    (steps_dispatchUpTo c.config.issueWidth c).append (hcharge _ _)

theorem steps_promoteUpTo (n : Nat) (c : Core W) : Steps c [] (promoteUpTo n c) := by
  induction n generalizing c with
  | zero => exact .refl c
  | succ n ih =>
      rw [promoteUpTo]
      split
      · exact .refl c
      · next h htop =>
          split
          · next hop => exact .silent (.dropRob htop hop) (ih _)
          · next op hop =>
              split
              · next world hanswer => exact .one_silent (.holdRob htop hop hanswer)
              · next world hanswer => exact .silent (.promote htop hop hanswer) (ih _)

theorem steps_commitUpTo (n : Nat) (c : Core W) :
    Steps c ((commitUpTo n c).1.map .committed) (commitUpTo n c).2 := by
  induction n generalizing c with
  | zero => exact .refl c
  | succ n ih =>
      rw [commitUpTo]
      split
      · exact .refl c
      · next h htop =>
          split
          · next hop => exact .silent (.dropRetiring htop hop) (ih _)
          · next op hop =>
              split
              · exact .refl c
              · next hdelay =>
                  split
                  · next world hanswer =>
                      exact .one_silent (.holdRetiring htop hop hanswer)
                  · next world hanswer =>
                      exact .event (.commit htop hop (by omega) hanswer) (ih _)

theorem steps_retire (c : Core W) : Steps c (c.retire.1.map .committed) c.retire.2 := by
  have hpromote : Steps c [] c.promote :=
    (steps_promoteUpTo c.rob.size c).append (.one_silent (.sample _))
  exact hpromote.append (steps_commitUpTo c.config.retireWidth c.promote)

theorem steps_workCycle (c : Core W) :
    Steps c (c.workCycle.1.admitted.map .admitted ++ c.workCycle.1.committed.map .committed)
      c.workCycle.2 := by
  rw [workCycle]
  split
  · exact (steps_dispatch c).append (steps_retire c.dispatch.2)
  · next hqueue =>
      split
      · next hdrained => exact .one_silent (.rest (by simpa using hqueue) hdrained)
      · exact steps_retire c

theorem recovered_workCycle (c : Core W) : c.workCycle.1.recovered = false := by
  rw [workCycle]
  split
  · rfl
  · split <;> rfl

/-- What comes before the work of a cycle leaves no events. -/
theorem steps_fetch_tick_decode (c : Core W) : Steps c [] c.fetch.tick.decode :=
  .silent (.fetch c) (.silent (.tick _) (.one_silent (.decode _)))

theorem steps_busyCycle (c : Core W) :
    Steps c ((Reply.cycle c.busyCycle.1).events .advance) c.busyCycle.2 := by
  refine .silent (.decode c) ?_
  rw [busyCycle]
  generalize c.decode = c
  dsimp only
  split
  · simpa [Reply.events, recovered_workCycle] using steps_workCycle c
  · next hrecovering =>
      split
      · next hdrained =>
          simpa [Reply.events] using
            Steps.event (.recover (by simpa using hrecovering) hdrained)
              (steps_workCycle c.finishRecovery)
      · exact .silent (.charge c _ _ _) (steps_retire _)

theorem steps_advance (c : Core W) :
    Steps c ((Reply.cycle c.advance.1).events .advance) c.advance.2 := by
  rw [advance]
  split
  · exact .refl c
  · refine .silent (.fetch c) (.silent (.tick _) ?_)
    dsimp only
    split
    · exact steps_busyCycle _
    · exact .refl _

theorem steps_perform (c : Core W) (command : Command) :
    Steps c ((c.perform command).1.events command) (c.perform command).2 := by
  cases command with
  | activate => exact .one (.activate c)
  | deactivate => exact .one (.deactivate c)
  | advance => exact steps_advance c
  | add op => exact steps_add c op
  | issued h => exact .one (.issued c h)
  | executing h => exact .one (.executing c h)
  | executed h => exact .one (.executed c h)
  | performed h => exact .one (.performed c h)
  | replay h => exact .one (.replay c h)
  | arm budget => exact .one (.arm c budget)

/-- A run is a sequence of steps, and their events are its history. -/
theorem steps_run (c : Core W) (commands : List Command) :
    Steps c (c.history commands) (c.run commands).2 := by
  induction commands generalizing c with
  | nil => exact .refl c
  | cons command rest ih => exact (steps_perform c command).append (ih _)

/-- A command tells the core nothing but itself. -/
theorem eq_of_told_mem_events {command told : Command} {reply : Reply}
    (h : .told told ∈ reply.events command) : told = command := by
  cases reply with
  | done => exact Event.told.inj (List.mem_singleton.1 h)
  | cycle report =>
      rw [Reply.events] at h
      simp only [List.mem_append, List.mem_map, reduceCtorEq, and_false, exists_false,
        or_false] at h
      split at h <;> simp at h
  | admission result => cases result <;> simp [Reply.events] at h

/-- A run tells the core nothing but its commands. -/
theorem mem_of_told_mem_history {c : Core W} {told : Command} {commands : List Command}
    (h : .told told ∈ c.history commands) : told ∈ commands := by
  induction commands generalizing c with
  | nil => cases h
  | cons command rest ih =>
      rcases List.mem_append.1 h with hfirst | hrest
      · exact List.mem_cons.2 (.inl (eq_of_told_mem_events hfirst))
      · exact List.mem_cons_of_mem command (ih hrest)

/-- A command is a request, or tells the core of none. -/
theorem request_or_silent (c : Core W) (command : Command) :
    (∃ h, command = .replay h) ∨ (∀ h, command ≠ .replay h) ∧
      ∀ h, .told (.replay h) ∉ (c.perform command).1.events command := by
  by_cases hrequest : ∃ h, command = .replay h
  · exact .inl hrequest
  · exact .inr ⟨fun h heq => hrequest ⟨h, heq⟩,
      fun h hmem => hrequest ⟨h, (eq_of_told_mem_events hmem).symm⟩⟩

end OutOfOrder.Core
