import Mathlib.Data.List.Infix
import OutOfOrder.Proofs.Core.Barrier
import OutOfOrder.Proofs.Core.Clock
import OutOfOrder.Proofs.Core.Delay
import OutOfOrder.Proofs.Core.Resync

/-!
# How long a drain takes

A recovery ends in the cycle that finds both buffers empty. Until then the core only
retires, so once everything in flight has executed and the cluster keeps nothing back,
the end is a matter of counting. No operation waits for its delay longer than the last one
to execute. From then on every cycle commits as many operations as it may, and when none is
left it takes one more cycle to find that out.

The count goes down in every cycle, by its first part while the delay lasts and by its
second part after that (`Draining.ends`). What the cycles leave in the history does not
need it: whether a recovery ends or not, a core that recovers admits nothing from the queue, and
so before the end there is nothing but commits.

What the cluster is asked is on record. That it keeps nothing back is an assumption on the
answers from the start of the drain on, whatever they were before.
-/

namespace OutOfOrder

/-- An answer of the cluster that keeps nothing back: what has executed is promoted when it
asks to be, and what asks for its commit commits. -/
def Call.favourable : Call → Bool
  | mayPromote op _ granted => granted || !op.isExecuted
  | mayCommit _ _ granted => granted
  | _ => true

namespace Core

variable {W : Type} [Surroundings W] {c d e : Core (Recorded W)} {events : List Event}

/-! ## Favourable answers -/

theorem calls_prefix_steps (hsteps : Steps c events d) : c.world.calls <+: d.world.calls :=
  hsteps.keeps (P := fun _ e => c.world.calls <+: e.world.calls)
    (fun hpast hstep => by
      obtain ⟨new, hasked⟩ := asked_step hstep
      rw [hasked.calls]
      exact hpast.trans (List.prefix_append _ _)) (List.prefix_refl _)

/-- Whatever the cluster was asked from `c` to `d`, it kept nothing back. -/
def Favoured (c d : Core (Recorded W)) : Prop :=
  ∀ call ∈ d.world.calls.drop c.world.calls.length, call.favourable = true

instance (c d : Core (Recorded W)) : Decidable (Favoured c d) :=
  inferInstanceAs (Decidable (∀ call ∈ _, _))

namespace Favoured

theorem first (h : Favoured c d) (hrest : Steps e events d) : Favoured c e :=
  fun call hcall => h call (((calls_prefix_steps hrest).drop _).subset hcall)

theorem last (h : Favoured c d) (hfirst : Steps c events e) : Favoured e d :=
  fun call hcall =>
    h call (List.drop_subset_drop_left _ (calls_prefix_steps hfirst).length_le hcall)

omit [Surroundings W] in
theorem answer (h : Favoured c d) {call : Call} (hcalls : d.world.calls = c.world.calls ++ [call]) :
    call.favourable = true := by
  refine h call ?_
  rw [hcalls, List.drop_left]
  exact List.mem_singleton_self call

end Favoured

/-! ## What stays -/

/-- An operation that stays in flight stays as it is unless something is reported. -/
theorem op?_of_untold (hc : c.Consistent) (hsteps : Steps c events d)
    (huntold : ∀ command, .told command ∉ events) (hnone : Event.admissions events = [])
    {h : Handle} (hmem : h ∈ d.inFlight) : h ∈ c.inFlight ∧ d.op? h = c.op? h := by
  refine (hsteps.keeps (P := fun past e => e.Consistent ∧ ((∀ command, .told command ∉ past) →
    Event.admissions past = [] → ∀ h ∈ e.inFlight, h ∈ c.inFlight ∧ e.op? h = c.op? h)) ?_
    ⟨hc, fun _ _ h hmem => ⟨hmem, rfl⟩⟩).2 huntold hnone h hmem
  rintro past e event e' ⟨he, hpast⟩ hstep
  refine ⟨he.step hstep, fun huntold hnone h hmem => ?_⟩
  simp only [List.mem_append, not_or, Option.mem_toList] at huntold
  rw [Event.admissions_append, List.append_eq_nil_iff] at hnone
  rcases he.mem_inFlight_of_step hstep hmem with hold | ⟨a, rfl, -⟩
  · obtain ⟨hbefore, hop⟩ := hpast (fun command => (huntold command).1) hnone.1 h hold
    have hkept : (e'.pool.get? h).map id = (e.pool.get? h).map id := by
      refine he.kept_step hstep hold hmem fun {_ op op'} hevent hchange => ?_
      cases hchange with
      | retired =>
          subst hevent
          exact absurd hmem (he.not_mem_of_committed hstep)
      | issued | executing | executed | performed | replayed =>
          exact absurd hevent (huntold _).2
    rw [Option.map_id_fun, id_eq, id_eq] at hkept
    exact ⟨hbefore, hkept.trans hop⟩
  · cases hnone.2

/-! ## The phases of a cycle -/

/-- Promotion empties the reorder buffer if everything in it has executed. -/
theorem rob_promoteUpTo (n : Nat) (hc : c.Consistent) (hn : c.rob.size ≤ n)
    (hexecuted : ∀ h ∈ c.rob.toList, ∃ op, c.op? h = some op ∧ op.isExecuted = true)
    (hfavoured : Favoured c (promoteUpTo n c)) : (promoteUpTo n c).rob.toList = [] := by
  induction n generalizing c with
  | zero =>
      rw [promoteUpTo, ← List.length_eq_zero_iff, RingBuffer.length_toList hc.rob]
      exact Nat.le_zero.1 hn
  | succ n ih =>
      rw [promoteUpTo] at hfavoured ⊢
      cases htop : c.rob.top? with
      | none => rwa [RingBuffer.top?_eq_head? hc.rob, List.head?_eq_none_iff] at htop
      | some h =>
          have hcons := Consistent.toList_eq_cons hc.rob htop
          obtain ⟨op, hop, hdone⟩ := hexecuted h (hcons ▸ List.mem_cons_self)
          rw [op?] at hop
          simp only [htop, hop] at hfavoured ⊢
          cases hanswer : Cluster.mayPromote c.world op c.recovery.flushing with
          | mk granted world =>
              rw [hanswer] at hfavoured
              cases granted with
              | false =>
                  have hrefused := hfavoured.answer (Recorded.calls_mayPromote hanswer)
                  simp [Call.favourable, hdone] at hrefused
              | true =>
                  have hstep : Step c none _ := .promote htop hop hanswer
                  refine ih (hc.promote htop world) ?_ (fun k hk => ?_)
                    (hfavoured.last (.one_silent hstep))
                  · have hlength := congrArg List.length hcons
                    rw [List.length_cons, RingBuffer.length_toList hc.rob,
                      RingBuffer.length_toList (RingBuffer.wellFormed_pop hc.rob)] at hlength
                    show c.rob.pop.size ≤ n
                    omega
                  · exact hexecuted k (hcons ▸ List.mem_cons_of_mem h hk)

/-- Commits are made up to the width if every delay has passed. -/
theorem le_length_commitUpTo (n : Nat) (hc : c.Consistent)
    (hready : ∀ h ∈ c.retiring.toList, ∃ op, c.op? h = some op ∧
      op.executedAt + c.config.retireDelay < c.clock)
    (hfavoured : Favoured c (commitUpTo n c).2) :
    min n c.retiring.toList.length ≤ (commitUpTo n c).1.length := by
  induction n generalizing c with
  | zero => exact Nat.le_of_eq (Nat.zero_min _)
  | succ n ih =>
      rw [commitUpTo] at hfavoured ⊢
      cases htop : c.retiring.top? with
      | none =>
          rw [RingBuffer.top?_eq_head? hc.retiring, List.head?_eq_none_iff] at htop
          simp [htop]
      | some h =>
          have hcons := Consistent.toList_eq_cons hc.retiring htop
          obtain ⟨op, hop, hdelay⟩ := hready h (hcons ▸ List.mem_cons_self)
          rw [op?] at hop
          simp only [htop, hop, Nat.not_le.2 hdelay, if_false] at hfavoured ⊢
          cases hanswer : Cluster.mayCommit c.world op c.recovery.flushing with
          | mk granted world =>
              rw [hanswer] at hfavoured
              cases granted with
              | false =>
                  have hrefused := hfavoured.answer (Recorded.calls_mayCommit hanswer)
                  cases hrefused
              | true =>
                  have hstep : Step c (some (.committed ⟨h, op⟩))
                      ({ c with world }.commit h op) := .commit htop hop hdelay hanswer
                  have hrest : ({ c with world }.commit h op).retiring.toList =
                      c.retiring.pop.toList := by rw [retiring_commit]
                  have hleft := ih (hc.step hstep) (fun k hk => ?_)
                    (hfavoured.last (.one hstep))
                  · rw [hrest] at hleft
                    rw [hcons, List.length_cons, List.length_cons, Nat.succ_min_succ]
                    exact Nat.succ_le_succ hleft
                  · obtain ⟨op', hop', hready'⟩ := hready k
                      (hcons ▸ List.mem_cons_of_mem h (hrest ▸ hk))
                    have hsame := (op?_of_untold hc (.one hstep) (by simp) rfl
                      (List.mem_append_left _ hk)).2
                    exact ⟨op', hsame.trans hop', by
                      rw [config_step hstep]
                      exact Nat.lt_of_lt_of_le hready' (clock_le_step hstep)⟩

/-- Steps without events leave alone what is in flight. -/
theorem inFlight_of_silent (hc : c.Consistent) (hsteps : Steps c [] d) :
    d.inFlight = c.inFlight := by
  have hmoved := commits_append_inFlight hc hsteps
  rwa [show Event.commits [] = [] from rfl, show Event.admissions [] = [] from rfl, List.map_nil,
    List.map_nil, List.nil_append, List.append_nil] at hmoved

/-- Both phases together retire whatever the width allows, once everything has executed and
waited. -/
theorem le_length_retire (hc : c.Consistent)
    (hready : ∀ h ∈ c.inFlight, ∃ op, c.op? h = some op ∧ op.isExecuted = true ∧
      op.executedAt + c.config.retireDelay < c.clock)
    (hfavoured : Favoured c c.retire.2) :
    min c.config.retireWidth c.inFlight.length ≤ c.retire.1.length := by
  have hpromotes : Steps c [] c.promote :=
    (steps_promoteUpTo c.rob.size c).append (.one_silent (.sample _))
  have hcommits : Steps c.promote (c.retire.1.map .committed) c.retire.2 :=
    steps_commitUpTo c.config.retireWidth c.promote
  have hrob : c.promote.rob.toList = [] :=
    rob_promoteUpTo c.rob.size hc (Nat.le_refl _)
      (fun h hmem => by
        obtain ⟨op, hop, hdone, -⟩ := hready h (List.mem_append_right _ hmem)
        exact ⟨op, hop, hdone⟩)
      ((hfavoured.first hcommits).first (.one_silent (.sample _)))
  have hretiring : c.promote.retiring.toList = c.inFlight := by
    have hmoved := inFlight_of_silent hc hpromotes
    rwa [inFlight, hrob, List.append_nil] at hmoved
  rw [← hretiring]
  refine le_length_commitUpTo c.config.retireWidth (hc.steps hpromotes) (fun h hmem => ?_)
    (hfavoured.last hpromotes)
  obtain ⟨op, hop, -, hdelay⟩ := hready h (hretiring ▸ hmem)
  have hsame := (op?_of_untold hc hpromotes (fun _ => List.not_mem_nil) rfl
    (List.mem_append_left _ hmem)).2
  rw [config_steps hpromotes]
  exact ⟨op, hsame.trans hop, Nat.lt_of_lt_of_le hdelay (clock_le_steps hpromotes)⟩

/-! ## A cycle of a drain -/

/-- A core that drains: what is in flight has executed, none of it after the clock stood at
`stamp`. -/
structure Draining (stamp : Nat) (c : Core (Recorded W)) : Prop where
  consistent : c.Consistent
  active : c.active = true
  busy : c.busy = true
  recovering : c.recovery.recovering = true
  executed : ∀ h ∈ c.inFlight, ∃ op, c.op? h = some op ∧ op.isExecuted = true ∧
    op.executedAt ≤ stamp

namespace Draining

variable {stamp : Nat}

theorem advance_eq (hd : Draining stamp c) : c.advance = c.fetch.tick.busyCycle := by
  rcases advance_cases hd.active with ⟨-, heq⟩ | ⟨hidle, -⟩
  · exact heq
  · rw [busy_tick, busy_fetch hd.busy] at hidle
    cases hidle

/-- A core that is drained ends its recovery. -/
theorem recovered_of_drained (hd : Draining stamp c) (hflight : c.inFlight = []) :
    c.advance.1.recovered = true := by
  obtain ⟨hrecovery, -, -⟩ := fetch_tick_decode c
  have hsteps := steps_fetch_tick_decode c
  have hdrained : c.fetch.tick.decode.isDrained = true :=
    (hd.consistent.steps hsteps).isDrained_iff.2
      ((inFlight_of_silent hd.consistent hsteps).trans hflight)
  rw [hd.advance_eq, busyCycle]
  dsimp only
  rw [hrecovery, hd.recovering, hdrained]
  rfl

/-- A core that is not drained retires and does nothing else. -/
theorem advance_eq_retire (hd : Draining stamp c) (hflight : c.inFlight ≠ []) :
    ∃ d, Steps c [] d ∧ c.clock < d.clock ∧ d.busy = true ∧ c.advance.2 = d.retire.2 ∧
      (Reply.cycle c.advance.1).events .advance = d.retire.1.map .committed := by
  have hopen : ¬ c.isDrained = true := fun hdrained =>
    hflight (hd.consistent.isDrained_iff.1 hdrained)
  have hwork : c.HasWork := by
    by_contra hidle
    exact hopen (not_hasWork_iff.1 hidle).2
  obtain ⟨hadmitted, hrecovered⟩ := (advance_of_recovering hd.recovering).resolve_left
    fun hended => hopen hended.1
  obtain ⟨d, hsteps, hsame, -, hcommitted, hresult⟩ :=
    endsInRetire_busyCycle (hasWork_decode ((hasWork_fetch_tick c).2 hwork))
  rw [← hd.advance_eq] at hsteps hcommitted hresult
  rw [hadmitted, hrecovered] at hsteps
  refine ⟨d, (steps_fetch_tick_decode c).append hsteps, ?_, ?_, hresult, ?_⟩
  · calc c.clock < c.fetch.tick.clock := by rw [clock_fetch_tick]; exact Nat.lt_succ_self _
      _ ≤ d.clock := clock_le_steps (.silent (.decode _) hsteps)
  · rw [hsame, (unmoved_decode _).busy, busy_tick, busy_fetch hd.busy]
  · rw [Reply.events, hadmitted, hrecovered, hcommitted]
    rfl

/-- The core goes on draining, and once the delay is over it has the width less to drain. -/
theorem advance (hd : Draining stamp c) (hflight : c.inFlight ≠ [])
    (hfavoured : Favoured c c.advance.2) :
    Draining stamp c.advance.2 ∧ c.advance.2.inFlight.length ≤ c.inFlight.length ∧
      (stamp + c.config.retireDelay ≤ c.clock →
        c.advance.2.inFlight.length ≤ c.inFlight.length - c.config.retireWidth) := by
  obtain ⟨d, hquiet, hclock, hbusy, hresult, hevents⟩ := hd.advance_eq_retire hflight
  have hc := hd.consistent
  have hsteps := steps_advance c
  rw [hevents] at hsteps
  have hcount := congrArg List.length (commits_append_inFlight hc hsteps)
  rw [Event.commits_map_committed, Event.admissions_map_committed, List.map_nil,
    List.append_nil, List.length_append, List.length_map] at hcount
  refine ⟨{
    consistent := hc.steps hsteps
    active := (active_advance c).trans hd.active
    busy := by rw [hresult, (unmoved_retire d).busy, hbusy]
    recovering := (admitted_le_replayPoint hc hd.recovering hsteps (by simp)).1
    executed := fun h hmem => by
      obtain ⟨hbefore, hop⟩ :=
        op?_of_untold hc hsteps (by simp) (Event.admissions_map_committed _) hmem
      rw [hop]
      exact hd.executed h hbefore }, by omega, fun hpassed => ?_⟩
  have hsame := inFlight_of_silent hc hquiet
  have hwidth := le_length_retire (hc.steps hquiet)
    (fun h hmem => by
      obtain ⟨hbefore, hop⟩ := op?_of_untold hc hquiet (fun _ => List.not_mem_nil) rfl hmem
      obtain ⟨op, hop', hdone, hstamp⟩ := hd.executed h hbefore
      rw [config_steps hquiet]
      exact ⟨op, hop.trans hop', hdone, by omega⟩)
    (hresult ▸ hfavoured.last hquiet)
  rw [config_steps hquiet, hsame] at hwidth
  omega

/-- Whatever is left after a full batch fills fewer cycles. -/
theorem batches_lt {width n left : Nat} (hwidth : 0 < width) (hn : 0 < n)
    (hleft : left ≤ n - width) : (left + width - 1) / width < (n + width - 1) / width := by
  rcases Nat.lt_or_ge n width with hlast | hfull
  · have hnone : left = 0 := by omega
    rw [hnone, Nat.zero_add, Nat.div_eq_of_lt (Nat.sub_one_lt (by omega))]
    exact Nat.div_pos (by omega) hwidth
  · calc (left + width - 1) / width < (left + width - 1) / width + 1 := Nat.lt_succ_self _
      _ = (left + width - 1 + width) / width := (Nat.add_div_right _ hwidth).symm
      _ ≤ (n + width - 1) / width := Nat.div_le_div_right (by omega)

/-- The delay that is left and the batches that are left go down by one in every cycle,
first the one and then the other. After that there is one cycle to go. -/
theorem ends {cycles : Nat} (hd : Draining stamp c) (hwidth : 0 < c.config.retireWidth)
    (hfavoured : Favoured c (c.run (List.replicate cycles .advance)).2)
    (hcycles : stamp + c.config.retireDelay - c.clock +
      (c.inFlight.length + c.config.retireWidth - 1) / c.config.retireWidth < cycles) :
    .recovered ∈ c.history (List.replicate cycles .advance) := by
  induction cycles generalizing c with
  | zero => cases hcycles
  | succ cycles ih =>
      have hrest := steps_run c.advance.2 (List.replicate cycles .advance)
      show .recovered ∈ (Reply.cycle c.advance.1).events .advance ++
        c.advance.2.history (List.replicate cycles .advance)
      by_cases hflight : c.inFlight = []
      · have hended := hd.recovered_of_drained hflight
        rw [Reply.events, hended]
        exact List.mem_cons_self
      · have hfavoured : Favoured c (c.advance.2.run (List.replicate cycles .advance)).2 :=
          hfavoured
        obtain ⟨hd', hless, hmuch⟩ := hd.advance hflight (hfavoured.first hrest)
        have hconfig := config_steps (steps_advance c)
        refine List.mem_append_right _ (ih hd' (hconfig ▸ hwidth)
          (hfavoured.last (steps_advance c)) ?_)
        rw [hconfig, clock_advance hd.active]
        rcases Nat.lt_or_ge c.clock (stamp + c.config.retireDelay) with hwaits | hpassed
        · have hbatches : (c.advance.2.inFlight.length + c.config.retireWidth - 1) /
              c.config.retireWidth ≤
              (c.inFlight.length + c.config.retireWidth - 1) / c.config.retireWidth :=
            Nat.div_le_div_right (by omega)
          omega
        · have hbatches := batches_lt hwidth (List.length_pos_of_ne_nil hflight) (hmuch hpassed)
          omega

end Draining

/-! ## What a drain leaves in the history -/

/-- Until a recovery ends there are commits, and nothing else. -/
theorem history_of_recovering (hc : c.Consistent) (hrecovering : c.recovery.recovering = true)
    (cycles : Nat) :
    (∃ ops : List NamedOp, c.history (List.replicate cycles .advance) = ops.map .committed) ∨
      ∃ ops : List NamedOp, ∃ later, c.history (List.replicate cycles .advance) =
        ops.map .committed ++ .recovered :: later := by
  induction cycles generalizing c with
  | zero => exact .inl ⟨[], rfl⟩
  | succ cycles ih =>
      have hhistory : c.history (List.replicate (cycles + 1) .advance) =
          (Reply.cycle c.advance.1).events .advance ++
            c.advance.2.history (List.replicate cycles .advance) := rfl
      rcases advance_of_recovering hrecovering with ⟨-, hended⟩ | ⟨hadmitted, hlasts⟩
      · rw [Reply.events, hended] at hhistory
        exact .inr ⟨[], _, hhistory⟩
      · have hevents : (Reply.cycle c.advance.1).events .advance =
            c.advance.1.committed.map .committed := by
          rw [Reply.events, hadmitted, hlasts]
          rfl
        have hsteps := steps_advance c
        rw [hevents] at hhistory hsteps
        have hstill := (admitted_le_replayPoint hc hrecovering hsteps (by simp)).1
        rcases ih (hc.steps hsteps) hstill with ⟨ops, hrest⟩ | ⟨ops, later, hrest⟩
        · exact .inl ⟨c.advance.1.committed ++ ops, by rw [hhistory, hrest, List.map_append]⟩
        · exact .inr ⟨c.advance.1.committed ++ ops, later, by
            rw [hhistory, hrest, List.map_append, List.append_assoc]⟩

/-- What commits before a recovery ends is what was in flight, as it was. -/
theorem committed_of_drained {ops : List NamedOp} {later : List Event} (hc : c.Consistent)
    (hsteps : Steps c (ops.map .committed ++ .recovered :: later) d) :
    ops.map (·.handle) = c.inFlight ∧ ∀ n ∈ ops, c.op? n.handle = some n.op := by
  obtain ⟨e, e', hbefore, hends, -⟩ := hsteps.split rfl
  constructor
  · have hempty : e.inFlight = [] := by
      cases hends with
      | recover _ hdrained => exact (hc.steps hbefore).isDrained_iff.1 hdrained
    have hmoved := commits_append_inFlight hc hbefore
    rwa [Event.commits_map_committed, Event.admissions_map_committed, hempty, List.append_nil,
      List.map_nil, List.append_nil] at hmoved
  · intro n hn
    obtain ⟨first, last, rfl⟩ := List.append_of_mem hn
    rw [List.map_append, List.map_cons] at hbefore
    obtain ⟨b, b', hfirst, hcommit, -⟩ := hbefore.split rfl
    have hmem : n.handle ∈ b.inFlight :=
      (hc.steps hfirst).inFlight_committed hcommit ▸ List.mem_cons_self
    rw [← (op?_of_untold hc hfirst (by simp) (Event.admissions_map_committed _) hmem).2]
    exact get?_of_committed hcommit

/-- What is reported executed is stamped at the latest now. -/
theorem executed_of_reported {config : CoreConfig} {hart : Nat} {world : W}
    {start : Core (Recorded W)} (hstart : create config hart ⟨world, []⟩ = .ok start)
    (commands : List Command) {h : Handle} (hmem : h ∈ (start.run commands).2.inFlight)
    (hreported : Event.stage (start.history commands) h = .executed) :
    ∃ op, (start.run commands).2.op? h = some op ∧ op.isExecuted = true ∧
      op.executedAt ≤ (start.run commands).2.clock := by
  have hsteps := steps_run start commands
  obtain ⟨op, hop, -⟩ := ((Consistent.of_create hstart).steps hsteps).live h hmem
  have hstage := StagesAsTold.of_steps hstart hsteps h hmem
  rw [op?, hop, Option.map_some, hreported, Option.some.injEq] at hstage
  have hdone : op.isExecuted = true := by rw [MicroOp.isExecuted, hstage]; rfl
  have hstamp : ((start.run commands).2.op? h).map (·.completion?) =
      some (some (op.origin, op.executedAt)) := by
    rw [op?, hop, Option.map_some, MicroOp.completion?, hdone]
    rfl
  obtain ⟨_, ⟨before, between, hcommands, -, -, -, hclock⟩, -⟩ :=
    stamped_as_told hstart commands hmem hstamp
  refine ⟨op, hop, hdone, ?_⟩
  rw [← hclock, hcommands, run_append]
  exact clock_le_steps (steps_run _ _)

theorem retireWidth_pos {config : CoreConfig} (h : config.validate = .ok ()) :
    0 < config.retireWidth := by
  have hwidth := applies_eq_false_of_first h (config.retireWidth == 0, .zeroWidth "retire_width")
    (by simp)
  exact Nat.pos_of_ne_zero fun heq => by simp [heq] at hwidth

/-- **A drain ends.** Whatever surrounds a core and whatever was done to it, if it is active
and busy and recovers, and everything in flight has been reported executed, then it takes
no longer than this until the recovery is over, as long as the cluster keeps nothing back and
nothing else is done to the core: the retire delay, a cycle for each batch of the retire
width, full or not, and one more. Before the end of the recovery nothing happens but the
commits of what was in flight, in order and as it was. -/
theorem drain_ends {config : CoreConfig} {hart : Nat} {world : W} {start : Core (Recorded W)}
    (hstart : create config hart ⟨world, []⟩ = .ok start) (commands : List Command)
    (hactive : (start.run commands).2.active = true) (hbusy : (start.run commands).2.busy = true)
    (hrecovering : (start.run commands).2.recovery.recovering = true)
    (hexecuted : ∀ h ∈ (start.run commands).2.inFlight,
      Event.stage (start.history commands) h = .executed) :
    let c := (start.run commands).2
    let cycles := List.replicate (config.retireDelay +
      (c.inFlight.length + config.retireWidth - 1) / config.retireWidth + 1) Command.advance
    Favoured c (c.run cycles).2 → (c.run cycles).2.recovery.recovering = false ∧
      ∃ ops : List NamedOp, ∃ later,
        c.history cycles = ops.map .committed ++ .recovered :: later ∧
        ops.map (·.handle) = c.inFlight ∧ ∀ n ∈ ops, c.op? n.handle = some n.op := by
  intro c cycles hfavoured
  have hsteps : Steps start (start.history commands) c := steps_run start commands
  have hc : c.Consistent := (Consistent.of_create hstart).steps hsteps
  obtain ⟨hvalid, hfresh⟩ := create_eq hstart
  have hconfig : c.config = config := by
    rw [config_steps hsteps, hfresh]
    rfl
  have hdraining : Draining c.clock c := {
    consistent := hc
    active := hactive
    busy := hbusy
    recovering := hrecovering
    executed := fun h hmem => executed_of_reported hstart commands hmem (hexecuted h hmem) }
  have hended : .recovered ∈ c.history cycles := by
    refine hdraining.ends (hconfig ▸ retireWidth_pos hvalid) hfavoured ?_
    rw [hconfig]
    omega
  have hcycles : Steps c (c.history cycles) (c.run cycles).2 := steps_run c cycles
  have hsilent : ∀ k, .told (.replay k) ∉ c.history cycles := fun k hmem => by
    cases List.eq_of_mem_replicate (mem_of_told_mem_history hmem)
  refine ⟨Bool.eq_false_iff.2 fun hstill =>
    (recovering_before_steps hcycles hsilent hstill).2 hended, ?_⟩
  rcases history_of_recovering hc hrecovering _ with ⟨ops, hnone⟩ | ⟨ops, later, hhistory⟩
  · rw [hnone] at hended
    simp at hended
  · obtain ⟨hhandles, hops⟩ := committed_of_drained hc (hhistory ▸ hcycles)
    exact ⟨ops, later, hhistory, hhandles, hops⟩

/-- Three loads have executed when the first of them is replayed. They commit two at a time,
once a cycle of delay is over, and the fourth cycle ends the recovery and goes on with the
load that has come in meanwhile. -/
theorem drain_of_three_loads_ends :
    let load : Nat → MicroOp := fun id => { id, pc := 0, inst := { opcode := .load } }
    let config : CoreConfig := { retireDelay := 1, retireWidth := 2 }
    let world : Obliging := { buckets := [[load 1, load 2, load 3], [load 4]] }
    let start : Core (Recorded Obliging) := .initial config 0 ⟨world, []⟩
    let commands : List Command := [.activate, .advance, .executed ⟨2, 3⟩, .executed ⟨0, 1⟩,
      .replay ⟨0, 1⟩, .executed ⟨1, 2⟩]
    let cycles := List.replicate 4 Command.advance
    create config 0 ⟨world, []⟩ = .ok start ∧
      (start.run commands).2.active = true ∧ (start.run commands).2.busy = true ∧
      (start.run commands).2.recovery.recovering = true ∧
      (∀ h ∈ (start.run commands).2.inFlight,
        Event.stage (start.history commands) h = .executed) ∧
      (start.run commands).2.inFlight = [⟨0, 1⟩, ⟨1, 2⟩, ⟨2, 3⟩] ∧
      Favoured (start.run commands).2 ((start.run commands).2.run cycles).2 ∧
      ((start.run commands).2.run (cycles.take 3)).2.recovery.recovering = true ∧
      ((start.run commands).2.run cycles).2.recovery.recovering = false ∧
      ∃ ops : List NamedOp, ∃ later,
        (start.run commands).2.history cycles = ops.map .committed ++ .recovered :: later ∧
        ops.map (·.handle) = (start.run commands).2.inFlight := by
  intro load config world start commands cycles
  have hstart : create config 0 ⟨world, []⟩ = .ok start := rfl
  have hactive : (start.run commands).2.active = true := by decide +kernel
  have hbusy : (start.run commands).2.busy = true := by decide +kernel
  have hrecovering : (start.run commands).2.recovery.recovering = true := by decide +kernel
  have hexecuted : ∀ h ∈ (start.run commands).2.inFlight,
      Event.stage (start.history commands) h = .executed := by decide +kernel
  have hflight : (start.run commands).2.inFlight = [⟨0, 1⟩, ⟨1, 2⟩, ⟨2, 3⟩] := by
    decide +kernel
  have hfavoured : Favoured (start.run commands).2 ((start.run commands).2.run cycles).2 := by
    decide +kernel
  have hcycles : List.replicate (config.retireDelay + ((start.run commands).2.inFlight.length +
      config.retireWidth - 1) / config.retireWidth + 1) Command.advance = cycles := by
    decide +kernel
  have hdrain := drain_ends hstart commands hactive hbusy hrecovering hexecuted
  dsimp only at hdrain
  rw [hcycles] at hdrain
  obtain ⟨hended, ops, later, hhistory, hhandles, -⟩ := hdrain hfavoured
  exact ⟨hstart, hactive, hbusy, hrecovering, hexecuted, hflight, hfavoured, by decide +kernel,
    hended, ops, later, hhistory, hhandles⟩

end Core

end OutOfOrder
