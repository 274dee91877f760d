import Mathlib.Data.List.Induction
import OutOfOrder.Proofs.Paging.Independence

/-!
# Probes stay in their tables

The address of a probe is the sum of the table of its walk and eight times a table index, in
words that can overflow. It cannot leave the table because tables are pages: a table starts at
a page number shifted left, so its twelve low bits are clear, and an index has nine bits.

The tables come from outside, the root from whoever owns the walkers and the others from the
entries that a walk is told, and both may be anything. Where a walk stands is read off the
past: `pointersFor` are the entries that led walk `n` further down, and `baseAfter` says where
the last of them leads. Each of them leads one level down, so there are as many as levels
between the root and the walk (`StandsAt`).
-/

namespace OutOfOrder.Paging

/-! ## Entries that lead to a table -/

/-- The entry leads to a table of the next level. -/
def Entry.isPointer (e : Entry) : Bool := !e.isMalformed && !e.isLeaf

/-- The entry that a walk is told, if it leads to a table. -/
def Entry.pointer? (raw : Option UInt64) : Option Entry := (raw.map mk).filter isPointer

theorem Walk.pointer?_of_descend {w : Walk} {raw : UInt64} {table : PhysAddr}
    (hjudge : w.judge ⟨raw⟩ = .descend table) :
    Entry.pointer? (some raw) = some ⟨raw⟩ ∧
      table = PhysAddr.ofPage (Entry.mk raw).ppn 0 := by
  rw [judge] at hjudge
  split at hjudge
  · cases hjudge
  · next hmalformed =>
      split at hjudge
      · cases hjudge
      · next hleaf =>
          split at hjudge
          · cases hjudge
          · refine ⟨?_, (Verdict.descend.inj hjudge).symm⟩
            simp [Entry.pointer?, Entry.isPointer, hmalformed, hleaf]

/-- The start of the table that the last of the pointers leads to, or without one of the table
in page `rootPpn`. Of that page number the bits that do not fit are lost. -/
def baseAfter (rootPpn : UInt64) (pointers : List Entry) : Nat :=
  match pointers.getLast? with
  | none => rootPpn.toNat * 4096 % 2 ^ 64
  | some e => e.ppn.toNat * 4096

theorem baseAfter_append_singleton (rootPpn : UInt64) (pointers : List Entry) (e : Entry) :
    baseAfter rootPpn (pointers ++ [e]) = e.ppn.toNat * 4096 := by
  simp [baseAfter]

theorem baseAfter_mod (rootPpn : UInt64) (pointers : List Entry) :
    baseAfter rootPpn pointers % 4096 = 0 := by
  unfold baseAfter
  split <;> omega

/-! ## The addresses of a table -/

/-- The probe asks for an entry of the table, for the one that the address selects at the
level of the probe. -/
structure InTable (table : PhysAddr) (vaddr : VirtAddr) (probe : Probe) : Prop where
  level : probe.level ≤ rootLevel
  base : table.val.toNat % 4096 = 0
  /-- The probe is in the page of the table, -/
  page : table.val.toNat ≤ probe.addr.val.toNat ∧
    probe.addr.val.toNat < table.val.toNat + 4096
  /-- at the place of an entry, -/
  word : probe.addr.val.toNat % 8 = 0
  /-- and nothing is lost when the place is added to the start of the table. -/
  addr : probe.addr.val.toNat =
    table.val.toNat + 8 * (vaddr.val.toNat / 2 ^ (12 + 9 * probe.level) % 512)

theorem Walk.inTable {w : Walk} (hlevel : w.level ≤ rootLevel)
    (hbase : w.table.val.toNat % 4096 = 0) (slot : Nat) (target : ProbeTarget) :
    InTable w.table w.request.vaddr (Walker.probeOf slot w target) := by
  have hindex : w.request.vaddr.val.toNat / 2 ^ (12 + 9 * w.level) % 512 < 512 :=
    Nat.mod_lt _ (by decide)
  have hbound := w.table.val.toNat_lt
  -- The last entry of the last page still has an address.
  have haddr : w.entryAddr.val.toNat = w.table.val.toNat +
      8 * (w.request.vaddr.val.toNat / 2 ^ (12 + 9 * w.level) % 512) := by
    rw [w.entryAddr_eq hlevel, Reference.entryAddr, UInt64.toNat_ofNat', Nat.pow_eq]
    omega
  exact {
    level := hlevel
    base := hbase
    page := by
      show _ ≤ w.entryAddr.val.toNat ∧ w.entryAddr.val.toNat < _
      omega
    word := by
      show w.entryAddr.val.toNat % 8 = 0
      omega
    addr := haddr }

/-- The page number of the table that a call makes the root. -/
def WalkerCommand.rootPpn? : WalkerCommand → Option UInt64
  | setRoot rootPpn => some rootPpn
  | _ => none

namespace Walker

open WalkerEvent

variable {p p' : Walker} {n : Nat} {command : WalkerCommand} {commands : List WalkerCommand}
  {past events : List WalkerEvent}

/-- A probe that is sent is the one of the walk that is in its slot then. -/
theorem Called.issues (hcall : Called p events p') {probe : Probe}
    (hprobe : .issued probe ∈ events) :
    ∃ slot w, p'.walk? slot = some w ∧ probe = probeOf slot w w.awaits := by
  cases hcall with
  | idle => cases hprobe
  | @begins p' slot request w hslot hid hrequest hrounds hwaits hslots hnext =>
      refine ⟨slot, w, walk?_self hslots (Array.getElem?_eq_some_iff.1 hslot).1, ?_⟩
      simpa using hprobe
  | @proceeds p' q w w' hw hq hproceeds hslots hnext =>
      refine ⟨q.slot, w', walk?_self hslots (lt_size_of_walk? hw).2, ?_⟩
      simpa using hprobe
  | ends => simp at hprobe

/-! ## The past of a walk -/

/-- The page number of the root after the commands. -/
def lastRoot (rootPpn : UInt64) (commands : List WalkerCommand) : UInt64 :=
  (commands.filterMap WalkerCommand.rootPpn?).getLastD rootPpn

theorem root_perform (p : Walker) (command : WalkerCommand) :
    (p.perform command).2.root =
      command.rootPpn?.elim p.root fun rootPpn => PhysAddr.ofPage rootPpn 0 := by
  cases command with
  | setRoot rootPpn => rfl
  | popProbe =>
      rw [perform, popProbe?]
      cases p.pending <;> rfl
  | translate request =>
      rw [perform_translate]
      cases p.freeSlot? with
      | none => rfl
      | some slot =>
          dsimp only
          rw [drive_eq]
          rfl
  | complete probe raw =>
      rw [perform_complete]
      cases (p.walk? probe.slot).bind (Walk.takes? probe raw) with
      | none => rfl
      | some w =>
          dsimp only
          rw [drive_eq]
          rfl

theorem lastRoot_cons (rootPpn : UInt64) (command : WalkerCommand)
    (rest : List WalkerCommand) :
    lastRoot rootPpn (command :: rest) = lastRoot (command.rootPpn?.getD rootPpn) rest := by
  rw [lastRoot, List.filterMap_cons]
  cases command.rootPpn? with
  | none => rfl
  | some ppn => exact List.getLastD_cons

theorem root_run (rootPpn : UInt64) (commands : List WalkerCommand)
    (hroot : p.root = PhysAddr.ofPage rootPpn 0) :
    (p.run commands).2.root = PhysAddr.ofPage (lastRoot rootPpn commands) 0 := by
  induction commands generalizing p rootPpn with
  | nil => exact hroot
  | cons command rest ih =>
      have hnext : (p.perform command).2.root =
          PhysAddr.ofPage (command.rootPpn?.getD rootPpn) 0 := by
        rw [root_perform, hroot]
        cases command.rootPpn? <;> rfl
      rw [lastRoot_cons]
      exact ih _ hnext

/-- The entry that a call brings to walk `n`, if it leads to a table. -/
def pointerFor? (p : Walker) (n : Nat) (command : WalkerCommand) : Option Entry :=
  (p.told? n command).bind Entry.pointer?

/-- The entries that lead walk `n` further down in a run, in their order. -/
def pointersFor (p : Walker) (n : Nat) (commands : List WalkerCommand) : List Entry :=
  (p.entriesFor n commands).filterMap Entry.pointer?

theorem pointersFor_append_singleton (p : Walker) (n : Nat) (commands : List WalkerCommand)
    (command : WalkerCommand) :
    p.pointersFor n (commands ++ [command]) =
      p.pointersFor n commands ++ ((p.run commands).2.pointerFor? n command).toList := by
  rw [pointersFor, entriesFor_append, List.filterMap_append, pointerFor?, entriesFor, entriesFor,
    List.append_nil]
  cases (p.run commands).2.told? n command with
  | none => rfl
  | some raw => cases hraw : Entry.pointer? raw <;> simp [pointersFor, hraw]

variable (count : Nat) (rootPpn : UInt64)

/-- After the commands walk `n`, which is for the request, stands at a table of the level: at
the root table of the time when the request was accepted, or at the table that its last
pointer leads to. -/
structure StandsAt (commands : List WalkerCommand) (n : Nat) (request : Request) (level : Nat)
    (table : PhysAddr) : Prop where
  base : ∃ before after, commands = before ++ .translate request :: after ∧
    ((withSlots count rootPpn).run before).2.freeSlot? ≠ none ∧
    ((withSlots count rootPpn).run before).2.nextWalk = n ∧
    table.val.toNat = baseAfter (lastRoot rootPpn before)
      ((withSlots count rootPpn).pointersFor n commands)
  depth : level + ((withSlots count rootPpn).pointersFor n commands).length = rootLevel

variable {count : Nat} {rootPpn : UInt64}

namespace StandsAt

variable {request : Request} {level : Nat} {table : PhysAddr}

theorem level_le (h : StandsAt count rootPpn commands n request level table) :
    level ≤ rootLevel :=
  h.depth ▸ Nat.le_add_right _ _

theorem base_mod (h : StandsAt count rootPpn commands n request level table) :
    table.val.toNat % 4096 = 0 := by
  obtain ⟨before, after, -, -, -, hbase⟩ := h.base
  rw [hbase]
  exact baseAfter_mod _ _

/-- A walk starts at the root table, and has been told nothing. -/
theorem starts (hfree : ((withSlots count rootPpn).run commands).2.freeSlot? ≠ none)
    (hnumber : ((withSlots count rootPpn).run commands).2.nextWalk = n) :
    StandsAt count rootPpn (commands ++ [.translate request]) n request rootLevel
      ((withSlots count rootPpn).run commands).2.root := by
  obtain ⟨-, hnothing⟩ := run_of_no_walk (p := withSlots count rootPpn) (n := n) commands
    (fun s w hw => absurd hw (walk?_withSlots s w)) (.inr (Nat.le_of_eq hnumber))
  have hpointers : (withSlots count rootPpn).pointersFor n (commands ++ [.translate request]) =
      [] := by
    rw [pointersFor_append_singleton, pointersFor, hnothing]
    rfl
  refine ⟨⟨commands, [], rfl, hfree, hnumber, ?_⟩, ?_⟩
  · rw [hpointers, root_run rootPpn commands rfl, PhysAddr.toNat_ofPage]
    rfl
  · rw [hpointers]
    rfl

/-- A call that leads the walk nowhere leaves it where it stands. -/
theorem stays (h : StandsAt count rootPpn commands n request level table)
    (hnone : ((withSlots count rootPpn).run commands).2.pointerFor? n command = none) :
    StandsAt count rootPpn (commands ++ [command]) n request level table := by
  have hpointers : (withSlots count rootPpn).pointersFor n (commands ++ [command]) =
      (withSlots count rootPpn).pointersFor n commands := by
    rw [pointersFor_append_singleton, hnone]
    exact List.append_nil _
  obtain ⟨before, after, rfl, hstart⟩ := h.base
  refine ⟨⟨before, after ++ [command], by simp, ?_⟩, ?_⟩
  · rw [hpointers]
    exact hstart
  · rw [hpointers]
    exact h.depth

/-- A pointer leads it one level down. -/
theorem descends (h : StandsAt count rootPpn commands n request level table) {e : Entry}
    (hpointer : ((withSlots count rootPpn).run commands).2.pointerFor? n command = some e)
    (hlevel : level ≠ 0) :
    StandsAt count rootPpn (commands ++ [command]) n request (level - 1)
      (PhysAddr.ofPage e.ppn 0) := by
  have hpointers : (withSlots count rootPpn).pointersFor n (commands ++ [command]) =
      (withSlots count rootPpn).pointersFor n commands ++ [e] := by
    rw [pointersFor_append_singleton, hpointer]
    rfl
  obtain ⟨before, after, rfl, hfree, hnumber, -⟩ := h.base
  refine ⟨⟨before, after ++ [command], by simp, hfree, hnumber, ?_⟩, ?_⟩
  · rw [hpointers, baseAfter_append_singleton, e.toNat_ofPage, e.toNat_ppn]
  · have hdepth := h.depth
    rw [hpointers, List.length_append, List.length_singleton]
    omega

theorem resumes {v w : Walk} {raw : Option UInt64} {progress : Progress}
    (h : StandsAt count rootPpn commands v.id v.request v.level v.table)
    (htold : ((withSlots count rootPpn).run commands).2.told? v.id command = some raw)
    (hresumes : v.Resumes raw progress) (hw : progress.walk? = some w) :
    StandsAt count rootPpn (commands ++ [command]) w.id w.request w.level w.table := by
  have hpointer : ((withSlots count rootPpn).run commands).2.pointerFor? v.id command =
      Entry.pointer? raw := by
    rw [pointerFor?, htold]
    rfl
  cases hresumes with
  | misses hcache =>
      obtain rfl := Option.some.inj hw
      exact h.stays hpointer
  | descends hjudge =>
      obtain ⟨hentry, rfl⟩ := Walk.pointer?_of_descend hjudge
      obtain rfl := Option.some.inj hw
      exact h.descends (hpointer.trans hentry) (Walk.level_ne_zero_of_descend hjudge)
  | ends => cases hw

end StandsAt

/-! ## Every walk stands at its table -/

/-- A walk with a new number has just been started, and starts at the root. -/
theorem begins_of_le (ha : AnswersOnce past p) {s : Nat} {w : Walk}
    (hw : (p.perform command).2.walk? s = some w) (hnew : p.nextWalk ≤ w.id) :
    command = .translate w.request ∧ p.freeSlot? ≠ none ∧ p.nextWalk = w.id ∧
      w.level = rootLevel ∧ w.table = p.root := by
  have hold : p.walk? s ≠ some w := fun hold => absurd (ha.id_lt hold) (Nat.not_lt.2 hnew)
  cases command with
  | setRoot rootPpn => exact absurd hw hold
  | popProbe =>
      rw [perform, popProbe?] at hw
      cases hpending : p.pending <;> rw [hpending] at hw <;> exact absurd hw hold
  | translate request =>
      rw [perform_translate] at hw
      cases hfree : p.freeSlot? with
      | none =>
          rw [hfree] at hw
          exact absurd hw hold
      | some slot =>
          rw [hfree] at hw
          let origin : Walk := { id := p.nextWalk, request, level := rootLevel, table := p.root }
          have hask : origin.advance = .probe { origin with lookup.cache := .pending } .cache :=
            Walk.ask_of_lookup_eq rfl
          dsimp only at hw
          rw [drive_of_probe hask] at hw
          obtain ⟨-, hstart⟩ | ⟨-, hkept⟩ := walk?_set (p := p) rfl hw
          · obtain rfl := Option.some.inj hstart
            exact ⟨rfl, Option.some_ne_none slot, rfl, rfl, rfl⟩
          · exact absurd hkept hold
  | complete probe raw =>
      rw [perform_complete] at hw
      cases htaken : (p.walk? probe.slot).bind (Walk.takes? probe raw) with
      | none =>
          rw [htaken] at hw
          exact absurd hw hold
      | some v' =>
          rw [htaken] at hw
          obtain ⟨v, hv, htakes⟩ := Option.bind_eq_some_iff.1 htaken
          obtain ⟨hid, hid', -⟩ := Walk.takes?_eq_some htakes
          obtain ⟨-, heq⟩ | ⟨-, hkept⟩ := walk?_drive hw
          · have hlt := ha.id_lt hv
            omega
          · exact absurd hkept hold

theorem standsAt_run (count : Nat) (rootPpn : UInt64) (commands : List WalkerCommand) (s : Nat)
    (w : Walk) (hw : ((withSlots count rootPpn).run commands).2.walk? s = some w) :
    StandsAt count rootPpn commands w.id w.request w.level w.table := by
  induction commands using List.reverseRecOn generalizing s w with
  | nil => exact absurd hw (walk?_withSlots s w)
  | append_singleton commands command ih =>
      obtain ⟨ha, hp⟩ := once_run commands (AnswersOnce.withSlots count rootPpn)
        (ProbesOnce.withSlots count rootPpn)
      rw [run_append] at hw
      have hw : (((withSlots count rootPpn).run commands).2.perform command).2.walk? s = some w :=
        hw
      by_cases hnew : ((withSlots count rootPpn).run commands).2.nextWalk ≤ w.id
      · obtain ⟨rfl, hfree, hnumber, hlevel, htable⟩ := begins_of_le ha hw hnew
        rw [hlevel, htable]
        exact StandsAt.starts hfree hnumber
      · cases htold : ((withSlots count rootPpn).run commands).2.told? w.id command with
        | none =>
            obtain ⟨-, hkept⟩ := perform_of_told?_eq_none htold (.inl (Nat.not_le.1 hnew))
            refine (ih s w ((hkept s w rfl).1 hw)).stays ?_
            rw [pointerFor?, htold]
            rfl
        | some raw =>
            obtain ⟨t, v, target, v', hv, hid, hanswer, -, hdrive⟩ :=
              perform_of_told?_eq_some htold
            obtain ⟨-, hresumes⟩ := Walk.resumes_of_answer (hp.waits t v hv) hanswer
            rw [hdrive, drive_eq] at hw
            rw [← hid] at htold
            obtain ⟨-, hnext⟩ | ⟨hs, hold⟩ := walk?_set (p := _) rfl hw
            · exact (ih t v hv).resumes htold hresumes hnext
            · exact absurd (ha.distinct s t w v hold hv hid.symm) hs

/-- **Probes stay in their tables.** Whatever page numbers the root is given and whatever
entries the walks are told, each walk stands at a page, that of the root when its request was
accepted or that of the last pointer that it was told, and what the next call sends is for the
entry in that page that the address of the request selects. -/
theorem probes_stay_in_their_tables (count : Nat) (rootPpn : UInt64)
    (commands : List WalkerCommand) :
    let p := ((withSlots count rootPpn).run commands).2
    p.root.val.toNat = (lastRoot rootPpn commands).toNat * 4096 % 2 ^ 64 ∧
      (∀ s w, p.walk? s = some w → w.table.val.toNat % 4096 = 0 ∧
        StandsAt count rootPpn commands w.id w.request w.level w.table) ∧
      ∀ command probe, .issued probe ∈ (p.perform command).1 → ∃ request table,
        StandsAt count rootPpn (commands ++ [command]) probe.walk request probe.level table ∧
          InTable table request.vaddr probe := by
  intro p
  have hwalk := standsAt_run count rootPpn commands
  refine ⟨?_, fun s w hw => ⟨(hwalk s w hw).base_mod, hwalk s w hw⟩,
    fun command probe hprobe => ?_⟩
  · have hroot : p.root = PhysAddr.ofPage (lastRoot rootPpn commands) 0 :=
      root_run rootPpn commands rfl
    rw [hroot, PhysAddr.toNat_ofPage]
  · obtain ⟨-, hp⟩ := once_run commands (AnswersOnce.withSlots count rootPpn)
      (ProbesOnce.withSlots count rootPpn)
    obtain ⟨slot, w, hw, rfl⟩ := (called_perform hp.waits command).issues hprobe
    have hstands : StandsAt count rootPpn (commands ++ [command]) w.id w.request w.level
        w.table := by
      refine standsAt_run count rootPpn (commands ++ [command]) slot w ?_
      rw [run_append]
      exact hw
    exact ⟨w.request, w.table, hstands, w.inTable hstands.level_le hstands.base_mod _ _⟩

/-- The last entry of the last page is asked for at the last word of all. -/
example :
    let request : Request := .toLoad 5 ⟨0xffffffffffff⟩
    ((withSlots 1 0xfffffffffffff).perform (.translate request)).2.pending =
      [{ slot := 0, walk := 0, level := 3, target := .cache, addr := ⟨0xfffffffffffffff8⟩ }] := by
  decide +kernel

end Walker

end OutOfOrder.Paging
