import Mathlib.Data.List.FinRange
import Mathlib.Data.Fintype.Basic
import Mathlib.Logic.Function.Basic
import Jeos.Lib.Run
import Jeos.Types

/-!
# Completions of block requests

`blk_submit_sync` and `blk_complete` of `blk.c` on one device, with the driver of `ahci.c` and
its port. Any number of calls interleave : each access to the device record, the request or the
port is a step of its own, and so are the transfers of the port and its interrupts.

The device has one `current_req`, and an interrupt completes that request, whichever transfer it
was raised for. If no call stores its request while another one's is in `current_req`, every
interrupt completes the request of its own transfer, and every caller gets the status of that
(`own_completions`). With two calls at once the second one is completed by the transfer of the
first (`completion_stolen`).
-/

namespace Jeos

/-- Where a call of `blk_submit_sync` is. -/
inductive BlkPhase where
  /-- not called yet -/
  | absent
  /-- `current_req` is stored -/
  | entered
  /-- the port's interrupts are cleared -/
  | cleared
  | chosen (slot : Fin 32)
  /-- header and table of the slot are written -/
  | filled (slot : Fin 32)
  /-- the port was not busy -/
  | ready (slot : Fin 32)
  /-- `submit` has failed -/
  | refused
  /-- the command is issued -/
  | waiting
  /-- `done` was seen, and `current_req` is 0 again -/
  | leaving
  /-- returned -1 because `submit` failed -/
  | rejected
  | returned (status : ℤ)
  deriving DecidableEq

/-- `done` and `status` of `struct blk_request`, where its call is, and how its transfer has
ended. -/
structure BlkRequest where
  done : Bool
  status : ℤ
  phase : BlkPhase
  outcome : Option ℤ

/-- A port : the commands issued, the request each slot's header and table describe, the command
the port works on, whether it has stopped after an error, the bit TFES of its interrupt status,
and its bit in the interrupt status of the controller. -/
structure HbaPort (ρ : Type*) where
  ci : Fin 32 → Bool
  table : Fin 32 → Option ρ
  running : Option (Fin 32 × ρ)
  halted : Bool
  tfes : Bool
  is : Bool

/-- Where the interrupt handler is. -/
inductive Isr (ρ : Type*) where
  | idle
  /-- in front of `blk_complete` with this status -/
  | acked (status : ℤ)
  /-- `blk_complete` has read `current_req` -/
  | completing (status : ℤ) (r : ρ)
  deriving DecidableEq

/-- A device with its port. `finished` are the transfers that have ended since the last
interrupt, `serving` those the interrupt in service was raised for. `handled` lists for each
interrupt the transfers it was raised for and the request it set `done` of. -/
structure BlkState (ρ : Type*) where
  req : ρ → BlkRequest
  currentReq : Option ρ
  port : HbaPort ρ
  isr : Isr ρ
  finished : List ρ
  serving : List ρ
  handled : List (List ρ × Option ρ)

inductive BlkEvent (ρ : Type*) where
  /-- `dev->current_req = &req` -/
  | enter (r : ρ)
  /-- `ahci_port_clear_interrupts` -/
  | clearInterrupts (r : ρ)
  /-- `ahci_find_slot` -/
  | findSlot (r : ρ)
  | fillTable (r : ρ)
  /-- the loop of `ahci_submit_dma` ends -/
  | awaitReady (r : ρ)
  /-- `port->ci = 1 << slot` -/
  | issue (r : ρ)
  /-- the error path of `blk_submit_sync` -/
  | reject (r : ρ)
  /-- the loop of `blk_submit_sync` ends -/
  | leave (r : ρ)
  | ret (r : ρ)
  /-- the port takes up the command of a slot -/
  | fetch (slot : Fin 32)
  /-- the port ends its command, with an error or without -/
  | finish (failed : Bool)
  /-- `ahci_irq_handler` reads and clears the interrupt status -/
  | irqAck
  /-- `blk_complete` reads `current_req` -/
  | irqLookup
  /-- `blk_complete` sets `status` and `done` -/
  | irqDone

namespace BlkState

set_option linter.unusedSectionVars false

variable {ρ : Type*} [DecidableEq ρ] (s : BlkState ρ)

def setReq (r : ρ) (q : BlkRequest) : BlkState ρ :=
  { s with req := Function.update s.req r q }

/-- The call of `r` goes on to `p`. -/
def goto (r : ρ) (p : BlkPhase) : BlkState ρ := s.setReq r { s.req r with phase := p }

/-- `ahci_find_slot`; `sact` stays 0. -/
def findSlot : Option (Fin 32) := (List.finRange 32).find? fun i => !s.port.ci i

/-- The status that `ahci_irq_handler` passes on. -/
def irqStatus (tfes : Bool) : ℤ := if tfes then -1 else 0

/-- The port ends the command of a slot. After an error the command stays in `ci`, and the port
stops. -/
def finish (slot : Fin 32) (r : ρ) (failed : Bool) : BlkState ρ :=
  { s.setReq r { s.req r with outcome := some (irqStatus failed) } with
    port :=
      { s.port with
        ci := if failed then s.port.ci else Function.update s.port.ci slot false
        running := none
        halted := failed
        tfes := s.port.tfes || failed
        is := true }
    finished := s.finished ++ [r] }

/-- The interrupt handler returns. -/
def endIrq (woken : Option ρ) : BlkState ρ :=
  { s with isr := .idle, serving := [], handled := s.handled ++ [(s.serving, woken)] }

/-- The steps of `blk_submit_sync`, `ahci_submit` and `ahci_irq_handler`, and those of the port. -/
def step : BlkEvent ρ → Option (BlkState ρ)
  | .enter r =>
    if (s.req r).phase = .absent then
      some { s.setReq r ⟨false, 0, .entered, none⟩ with currentReq := some r }
    else none
  | .clearInterrupts r =>
    if (s.req r).phase = .entered then
      some { s.goto r .cleared with port := { s.port with tfes := false } }
    else none
  | .findSlot r =>
    if (s.req r).phase = .cleared then
      match s.findSlot with
      | some slot => some (s.goto r (.chosen slot))
      | none => some (s.goto r .refused)
    else none
  | .fillTable r =>
    match (s.req r).phase with
    | .chosen slot => some
        { s.goto r (.filled slot) with
          port := { s.port with table := Function.update s.port.table slot (some r) } }
    | _ => none
  | .awaitReady r =>
    match (s.req r).phase with
    | .filled slot => if s.port.running.isNone then some (s.goto r (.ready slot)) else none
    | _ => none
  | .issue r =>
    match (s.req r).phase with
    | .ready slot => some
        { s.goto r .waiting with
          port := { s.port with ci := Function.update s.port.ci slot true } }
    | _ => none
  | .reject r =>
    if (s.req r).phase = .refused then some { s.goto r .rejected with currentReq := none }
    else none
  | .leave r =>
    if (s.req r).phase = .waiting ∧ (s.req r).done then
      some { s.goto r .leaving with currentReq := none }
    else none
  | .ret r =>
    if (s.req r).phase = .leaving then some (s.goto r (.returned (s.req r).status)) else none
  | .fetch slot =>
    match s.port.running, s.port.table slot with
    | none, some r =>
      if s.port.ci slot ∧ s.port.halted = false then
        some { s with port := { s.port with running := some (slot, r) } }
      else none
    | _, _ => none
  | .finish failed =>
    match s.port.running with
    | some (slot, r) => some (s.finish slot r failed)
    | none => none
  | .irqAck =>
    if s.port.is ∧ s.isr = .idle then
      some
        { s with
          port := { s.port with tfes := false, is := false }
          isr := .acked (irqStatus s.port.tfes)
          finished := []
          serving := s.finished }
    else none
  | .irqLookup =>
    match s.isr with
    | .acked status =>
      match s.currentReq with
      | some r => some { s with isr := .completing status r }
      | none => some (s.endIrq none)
    | _ => none
  | .irqDone =>
    match s.isr with
    | .completing status r =>
      some ((s.setReq r { s.req r with status := status, done := true }).endIrq (some r))
    | _ => none

/-- The device after `blk_register`, and no call. -/
def init : BlkState ρ where
  req := fun _ => ⟨false, 0, .absent, none⟩
  currentReq := none
  port := ⟨fun _ => false, fun _ => none, none, false, false, false⟩
  isr := .idle
  finished := []
  serving := []
  handled := []

/-! ## The claims on a state -/

/-- Every interrupt was raised for one transfer and completed its request, every `done` was set
by such an interrupt, every transfer that has ended has completed its request or has its
interrupt on the way, and every caller got the status of its own transfer. -/
structure OwnCompletions (s : BlkState ρ) : Prop where
  completions : ∀ c ∈ s.handled, ∃ r, c = ([r], some r)
  woken : ∀ r, (s.req r).done = true → ([r], some r) ∈ s.handled
  delivered : ∀ r, (s.req r).outcome ≠ none →
    (s.req r).done = true ∨ r ∈ s.finished ∨ r ∈ s.serving
  statuses : ∀ r status, (s.req r).phase = .returned status → (s.req r).outcome = some status

end BlkState

/-- The call has its request in `current_req` unless another one has replaced it : it has stored
it there and not yet stored 0. -/
def BlkPhase.Active : BlkPhase → Prop
  | .absent | .leaving | .rejected | .returned _ => False
  | _ => True

instance BlkPhase.decidableActive : DecidablePred BlkPhase.Active
  | .absent | .leaving | .rejected | .returned _ => .isFalse id
  | .entered | .cleared | .chosen _ | .filled _ | .ready _ | .refused | .waiting => .isTrue trivial

namespace BlkState

variable {ρ : Type*} [DecidableEq ρ]

/-- No call stores its request while another one is active. -/
def Exclusive (s : BlkState ρ) : BlkEvent ρ → Prop
  | .enter _ => ∀ r, ¬(s.req r).phase.Active
  | _ => True

instance [Fintype ρ] (s : BlkState ρ) : ∀ e, Decidable (s.Exclusive e)
  | .enter _ => inferInstanceAs (Decidable (∀ r, ¬(s.req r).phase.Active))
  | .clearInterrupts _ | .findSlot _ | .fillTable _ | .awaitReady _ | .issue _ | .reject _
  | .leave _ | .ret _ | .fetch _ | .finish _ | .irqAck | .irqLookup | .irqDone => .isTrue trivial

end BlkState

/-! ## One request at a time -/

/-- How far the one request of the device is. -/
inductive BlkStage (ρ : Type*) where
  | idle
  | preparing (r : ρ)
  | inFlight (r : ρ) (slot : Fin 32)
  /-- the transfer has ended -/
  | raised (r : ρ) (status : ℤ)
  | acked (r : ρ) (status : ℤ)
  | completing (r : ρ) (status : ℤ)
  | completed (r : ρ)

/-- The call is in `ops.submit`. -/
def BlkPhase.Preparing : BlkPhase → Prop
  | .entered | .cleared | .chosen _ | .filled _ | .ready _ | .refused => True
  | _ => False

theorem BlkPhase.Preparing.active {p : BlkPhase} (hp : p.Preparing) : p.Active := by
  cases p <;> trivial

/-- A request whose call has not begun, or is past its store of 0. -/
def BlkRequest.Rested (q : BlkRequest) : Prop :=
  match q.phase with
  | .absent | .rejected => q.done = false ∧ q.outcome = none
  | .leaving => q.done = true ∧ q.outcome = some q.status
  | .returned status => q.done = true ∧ q.outcome = some status
  | _ => False

namespace BlkStage

variable {ρ : Type*}

def owner : BlkStage ρ → Option ρ
  | .idle => none
  | .preparing r | .inFlight r _ | .raised r _ | .acked r _ | .completing r _ | .completed r =>
    some r

/-- The owner's request in a stage. -/
def Fits (q : BlkRequest) : BlkStage ρ → Prop
  | .idle => True
  | .preparing _ => q.phase.Preparing ∧ q.done = false ∧ q.outcome = none
  | .inFlight _ _ => q.phase = .waiting ∧ q.done = false ∧ q.outcome = none
  | .raised _ status | .acked _ status | .completing _ status =>
    q.phase = .waiting ∧ q.done = false ∧ q.outcome = some status
  | .completed _ => q.phase = .waiting ∧ q.done = true ∧ q.outcome = some q.status

/-- The interrupt status and the handler in a stage. -/
def Interrupt (s : BlkState ρ) : BlkStage ρ → Prop
  | .raised r status =>
    s.finished = [r] ∧ s.serving = [] ∧ s.isr = .idle ∧ BlkState.irqStatus s.port.tfes = status
  | .acked r status =>
    s.finished = [] ∧ s.serving = [r] ∧ s.isr = .acked status ∧ s.port.is = false ∧
      s.port.tfes = false
  | .completing r status =>
    s.finished = [] ∧ s.serving = [r] ∧ s.isr = .completing status r ∧ s.port.is = false ∧
      s.port.tfes = false
  | _ =>
    s.finished = [] ∧ s.serving = [] ∧ s.isr = .idle ∧ s.port.is = false ∧ s.port.tfes = false

end BlkStage

namespace BlkState

set_option linter.unusedSectionVars false

variable {ρ : Type*} [DecidableEq ρ]

/-- The device in a stage. -/
structure InStage (s : BlkState ρ) (g : BlkStage ρ) : Prop where
  current : s.currentReq = g.owner
  own : ∀ r, g.owner = some r → g.Fits (s.req r)
  others : ∀ r, g.owner ≠ some r → (s.req r).Rested
  table : ∀ r slot, (s.req r).phase = .filled slot ∨ (s.req r).phase = .ready slot →
    s.port.table slot = some r
  slots : ∀ slot, s.port.ci slot = true → s.port.halted = false →
    ∃ r, g = .inFlight r slot ∧ s.port.table slot = some r
  running : ∀ slot r, s.port.running = some (slot, r) →
    g = .inFlight r slot ∧ s.port.halted = false
  interrupt : g.Interrupt s
  completions : ∀ c ∈ s.handled, ∃ r, c = ([r], some r)
  woken : ∀ r, (s.req r).done = true → ([r], some r) ∈ s.handled

variable {s s' : BlkState ρ} {g : BlkStage ρ} {r : ρ}

theorem inStage_init : InStage (init : BlkState ρ) .idle where
  current := rfl
  own r hr := nomatch hr
  others _ _ := ⟨rfl, rfl⟩
  table _ _ h := by rcases h with h | h <;> cases h
  slots _ h := nomatch h
  running _ _ h := nomatch h
  interrupt := ⟨rfl, rfl, rfl, rfl, rfl⟩
  completions _ h := nomatch h
  woken _ h := nomatch h

/-- Only the owner is active. -/
theorem InStage.owner_eq (h : InStage s g) (hr : (s.req r).phase.Active) : g.owner = some r := by
  by_contra hne
  have hrest := h.others r hne
  unfold BlkRequest.Rested at hrest
  unfold BlkPhase.Active at hr
  split at hrest <;> simp_all

/-- After a change of the owner's request the others rest, as long as that one rests too if it is
no owner any more. -/
theorem InStage.others_update {g' : BlkStage ρ} {q : BlkRequest} (h : InStage s g)
    (hg : g.owner = some r) (hq : g'.owner = some r ∨ q.Rested) :
    ∀ r', g'.owner ≠ some r' → (Function.update s.req r q r').Rested := by
  intro r' hr'
  by_cases hrr : r' = r
  · subst hrr
    rw [Function.update_self]
    exact hq.resolve_left hr'
  · rw [Function.update_of_ne hrr]
    exact h.others r' fun hr => hrr (Option.some.inj (hr.symm.trans hg))

/-- A request that is neither filled nor ready has no claim on a table. -/
theorem InStage.table_update {q : BlkRequest} (h : InStage s g) (hq : ¬q.phase.Preparing) :
    ∀ r' slot, (Function.update s.req r q r').phase = .filled slot ∨
      (Function.update s.req r q r').phase = .ready slot → s.port.table slot = some r' := by
  intro r' slot hr'
  by_cases hrr : r' = r
  · subst hrr
    rw [Function.update_self] at hr'
    rcases hr' with hr' | hr' <;> exact absurd (by rw [hr']; trivial) hq
  · rw [Function.update_of_ne hrr] at hr'
    exact h.table r' slot hr'

/-- A change of a request that keeps `done`. -/
theorem InStage.woken_update {q : BlkRequest} (h : InStage s g) (hq : q.done = (s.req r).done) :
    ∀ r', (Function.update s.req r q r').done = true → ([r'], some r') ∈ s.handled := by
  intro r' hr'
  by_cases hrr : r' = r
  · subst hrr
    rw [Function.update_self, hq] at hr'
    exact h.woken r' hr'
  · rw [Function.update_of_ne hrr] at hr'
    exact h.woken r' hr'

/-- Outside `inFlight` no command is issued. -/
theorem InStage.no_command (h : InStage s g) (hg : ∀ r slot, g ≠ .inFlight r slot) {slot : Fin 32}
    (hc : s.port.ci slot = true) (hh : s.port.halted = false) : False := by
  obtain ⟨r, hr, -⟩ := h.slots slot hc hh
  exact hg r slot hr

theorem InStage.not_running (h : InStage s g) (hg : ∀ r slot, g ≠ .inFlight r slot)
    {slot : Fin 32} (hr : s.port.running = some (slot, r)) : False :=
  hg r slot (h.running slot r hr).1

/-- The stage of a call that sees `done`. -/
theorem InStage.completed (h : InStage s g) (hr : (s.req r).phase = .waiting)
    (hd : (s.req r).done = true) : g = .completed r := by
  have hown := h.owner_eq (by rw [hr]; trivial)
  have hfits := h.own r hown
  cases g with
  | idle => cases hown
  | preparing => rw [BlkStage.Fits, hr] at hfits; exact hfits.1.elim
  | completed => rw [Option.some.inj hown]
  | _ => rw [BlkStage.Fits, hd] at hfits; cases hfits.2.1

/-! ## The steps of a call -/

/-- A call that starts while no other one is active. -/
theorem InStage.enter (h : InStage s g) (hx : s.Exclusive (.enter r))
    (hr : (s.req r).phase = .absent) :
    InStage { s.setReq r ⟨false, 0, .entered, none⟩ with currentReq := some r }
      (.preparing r) := by
  have hidle : g = .idle := by
    cases g with
    | idle => rfl
    | preparing r' =>
      exact absurd (h.own r' rfl).1.active (hx r')
    | inFlight r' | completed r' | raised r' | acked r' | completing r' =>
      exact absurd (by rw [(h.own r' rfl).1]; trivial) (hx r')
  subst hidle
  have hdone : (s.req r).done = false := by
    have := h.others r (by simp [BlkStage.owner])
    unfold BlkRequest.Rested at this
    rw [hr] at this
    exact this.1
  refine ⟨rfl, ?_, ?_, ?_, ?_, ?_, h.interrupt, h.completions, ?_⟩
  · rintro r' ⟨⟩
    simp [BlkStage.Fits, setReq, BlkPhase.Preparing]
  · intro r' hr'
    have hne : r' ≠ r := fun e => hr' (congrArg some e.symm)
    simp only [setReq, Function.update_of_ne hne]
    exact h.others r' nofun
  · intro r' slot hr'
    by_cases hrr : r' = r
    · subst hrr
      simp [setReq] at hr'
    · simp only [setReq, Function.update_of_ne hrr] at hr'
      exact h.table r' slot hr'
  · exact fun slot hc hh => (h.no_command nofun hc hh).elim
  · exact fun slot r' hrun => (h.not_running nofun hrun).elim
  · exact h.woken_update hdone.symm

/-- A call goes on in `ops.submit`. -/
theorem InStage.advance (h : InStage s (.preparing r)) {p : BlkPhase} (hp : p.Preparing)
    {t : Fin 32 → Option ρ} (ht : ∀ slot, p = .filled slot ∨ p = .ready slot → t slot = some r) :
    InStage { s.goto r p with port := { s.port with table := t } } (.preparing r) := by
  refine ⟨h.current, ?_, h.others_update rfl (Or.inl rfl), ?_, ?_, ?_, h.interrupt,
    h.completions, h.woken_update rfl⟩
  · rintro r' ⟨⟩
    simpa [BlkStage.Fits, goto, setReq, hp] using (h.own r rfl).2
  · intro r' slot hr'
    by_cases hrr : r' = r
    · subst hrr
      exact ht slot (by simpa [goto, setReq] using hr')
    · simp only [goto, setReq, Function.update_of_ne hrr] at hr'
      have hrest := h.others r' fun e => hrr (Option.some.inj e).symm
      unfold BlkRequest.Rested at hrest
      rcases hr' with hr' | hr' <;> simp [hr'] at hrest
  · exact fun slot hc hh => (h.no_command nofun hc hh).elim
  · exact fun slot r' hrun => (h.not_running nofun hrun).elim

/-- The stage of a call in `ops.submit`. -/
theorem InStage.preparing (h : InStage s g) (hr : (s.req r).phase.Preparing) :
    g = .preparing r := by
  have hown := h.owner_eq hr.active
  have hfits := h.own r hown
  cases g with
  | idle => cases hown
  | preparing r' => rw [Option.some.inj hown]
  | _ => rw [hfits.1] at hr; exact hr.elim

theorem InStage.issue {slot : Fin 32} (h : InStage s (.preparing r))
    (hr : (s.req r).phase = .ready slot) :
    InStage { s.goto r .waiting with
      port := { s.port with ci := Function.update s.port.ci slot true } } (.inFlight r slot) := by
  refine ⟨h.current, ?_, h.others_update rfl (Or.inl rfl), h.table_update id, ?_, ?_,
    h.interrupt, h.completions, h.woken_update rfl⟩
  · rintro r' ⟨⟩
    simpa [BlkStage.Fits, goto, setReq] using (h.own r rfl).2
  · intro slot' hc hh
    have hs : slot' = slot := by
      by_contra hne
      change Function.update s.port.ci slot true slot' = true at hc
      rw [Function.update_of_ne hne] at hc
      exact h.no_command nofun hc hh
    exact ⟨r, by rw [hs], by rw [hs]; exact h.table r slot (Or.inr hr)⟩
  · exact fun slot' r' hrun => (h.not_running nofun hrun).elim

theorem InStage.reject (h : InStage s (.preparing r)) :
    InStage { s.goto r .rejected with currentReq := none } .idle := by
  refine ⟨rfl, nofun, h.others_update rfl (Or.inr (h.own r rfl).2), h.table_update id, ?_, ?_,
    h.interrupt, h.completions, h.woken_update rfl⟩
  · exact fun slot hc hh => (h.no_command nofun hc hh).elim
  · exact fun slot' r' hrun => (h.not_running nofun hrun).elim

theorem InStage.leave (h : InStage s g) (hr : (s.req r).phase = .waiting)
    (hd : (s.req r).done = true) :
    InStage { s.goto r .leaving with currentReq := none } .idle := by
  obtain rfl := h.completed hr hd
  refine ⟨rfl, nofun, h.others_update rfl (Or.inr (h.own r rfl).2), h.table_update id, ?_, ?_,
    h.interrupt, h.completions, h.woken_update rfl⟩
  · exact fun slot hc hh => (h.no_command nofun hc hh).elim
  · exact fun slot' r' hrun => (h.not_running nofun hrun).elim

theorem InStage.ret (h : InStage s g) (hr : (s.req r).phase = .leaving) :
    InStage (s.goto r (.returned (s.req r).status)) g := by
  have hne : g.owner ≠ some r := by
    intro hown
    have hfits := h.own r hown
    cases g with
    | idle => cases hown
    | preparing => rw [BlkStage.Fits, hr] at hfits; exact hfits.1.elim
    | _ => rw [BlkStage.Fits, hr] at hfits; cases hfits.1
  have hrest := h.others r hne
  rw [BlkRequest.Rested, hr] at hrest
  refine ⟨h.current, ?_, ?_, h.table_update id, h.slots, h.running, ?_, h.completions,
    h.woken_update rfl⟩
  · intro r' hr'
    have hrr : r' ≠ r := fun e => hne (e ▸ hr')
    simpa only [goto, setReq, Function.update_of_ne hrr] using h.own r' hr'
  · intro r' hr'
    by_cases hrr : r' = r
    · subst hrr
      simpa [goto, setReq, BlkRequest.Rested] using hrest
    · simpa only [goto, setReq, Function.update_of_ne hrr] using h.others r' hr'
  · cases g <;> exact h.interrupt

/-! ## The port and its interrupts -/

theorem InStage.fetch {slot : Fin 32} (h : InStage s g) (hc : s.port.ci slot = true)
    (hh : s.port.halted = false) (ht : s.port.table slot = some r) :
    InStage { s with port := { s.port with running := some (slot, r) } } g := by
  obtain ⟨r', rfl, ht'⟩ := h.slots slot hc hh
  obtain rfl : r' = r := Option.some.inj (ht'.symm.trans ht)
  refine ⟨h.current, h.own, h.others, h.table, h.slots, ?_, h.interrupt, h.completions, h.woken⟩
  intro slot' r'' hrun
  obtain ⟨rfl, rfl⟩ := Prod.mk.inj (Option.some.inj hrun)
  exact ⟨rfl, hh⟩

theorem InStage.finish {slot : Fin 32} (h : InStage s g) (hrun : s.port.running = some (slot, r))
    (failed : Bool) : InStage (s.finish slot r failed) (.raised r (irqStatus failed)) := by
  obtain ⟨rfl, hworks⟩ := h.running slot r hrun
  obtain ⟨hphase, hdone, -⟩ := h.own r rfl
  obtain ⟨hfin, hserv, hisr, -, htfes⟩ := h.interrupt
  refine ⟨h.current, ?_, h.others_update rfl (Or.inl rfl),
    h.table_update (by rw [hphase]; exact id),
    ?_, nofun, ⟨by simp [BlkState.finish, hfin], hserv, hisr, by simp [BlkState.finish, htfes]⟩,
    h.completions, h.woken_update rfl⟩
  · rintro r' ⟨⟩
    simp [BlkStage.Fits, BlkState.finish, setReq, hphase, hdone]
  · intro slot' hc hh
    obtain rfl : failed = false := hh
    change Function.update s.port.ci slot false slot' = true at hc
    have hne : slot' ≠ slot := by
      rintro rfl
      simp at hc
    rw [Function.update_of_ne hne] at hc
    -- the only command of a port that works is the one that has ended
    obtain ⟨r', hr', -⟩ := h.slots slot' hc hworks
    injection hr' with _ hslot
    exact absurd hslot.symm hne

theorem InStage.irqAck (h : InStage s g) (his : s.port.is = true) :
    ∃ g', InStage
      { s with
        port := { s.port with tfes := false, is := false }
        isr := .acked (irqStatus s.port.tfes)
        finished := []
        serving := s.finished } g' := by
  cases g with
  | raised r status =>
    obtain ⟨hfin, -, -, hst⟩ := h.interrupt
    exact ⟨.acked r status, h.current, h.own, h.others, h.table,
      fun slot hc hh => (h.no_command nofun hc hh).elim,
      fun slot r hrun => (h.not_running nofun hrun).elim,
      ⟨rfl, hfin, by rw [hst], rfl, rfl⟩, h.completions, h.woken⟩
  | _ =>
    have := h.interrupt.2.2.2.1
    rw [his] at this
    cases this

/-- In service of an interrupt `blk_complete` finds the request of its transfer. -/
theorem InStage.irqLookup {status : ℤ} (h : InStage s g) (hi : s.isr = .acked status) :
    ∃ r, s.currentReq = some r ∧
      InStage { s with isr := .completing status r } (.completing r status) := by
  cases g with
  | acked r status' =>
    obtain ⟨hfin, hserv, hisr, his, htfes⟩ := h.interrupt
    obtain rfl : status' = status := by
      rw [hi] at hisr
      injection hisr with hst
      exact hst.symm
    exact ⟨r, h.current, h.current, h.own, h.others, h.table,
      fun slot hc hh => (h.no_command nofun hc hh).elim,
      fun slot r hrun => (h.not_running nofun hrun).elim,
      ⟨hfin, hserv, rfl, his, htfes⟩, h.completions, h.woken⟩
  | _ =>
    have := h.interrupt.2.2.1
    rw [hi] at this
    cases this

theorem InStage.irqDone {status : ℤ} (h : InStage s g) (hi : s.isr = .completing status r) :
    InStage ((s.setReq r { s.req r with status := status, done := true }).endIrq (some r))
      (.completed r) := by
  cases g with
  | completing r' status' =>
    obtain ⟨hfin, hserv, hisr, his, htfes⟩ := h.interrupt
    obtain ⟨rfl, rfl⟩ : status = status' ∧ r = r' := by
      rw [hi] at hisr
      injection hisr with hst hr
      exact ⟨hst, hr⟩
    obtain ⟨hphase, -, hout⟩ := h.own r rfl
    refine ⟨h.current, ?_, h.others_update rfl (Or.inl rfl),
      h.table_update (by rw [hphase]; exact id),
      fun slot hc hh => (h.no_command nofun hc hh).elim,
      fun slot r hrun => (h.not_running nofun hrun).elim, ⟨hfin, rfl, rfl, his, htfes⟩, ?_, ?_⟩
    · rintro r' ⟨⟩
      simp [BlkStage.Fits, endIrq, setReq, hphase, hout]
    · intro c hc
      rcases List.mem_append.1 hc with hc | hc
      · exact h.completions c hc
      · exact ⟨r, by rw [List.mem_singleton.1 hc]; exact congrArg (·, some r) hserv⟩
    · intro r' hr'
      by_cases hrr : r' = r
      · subst hrr
        exact List.mem_append_right _ (by simp [setReq, hserv])
      · simp only [endIrq, setReq, Function.update_of_ne hrr] at hr'
        exact List.mem_append_left _ (h.woken r' hr')
  | _ =>
    have := h.interrupt.2.2.1
    rw [hi] at this
    cases this

/-! ## Runs -/

/-- A step of a run without two active calls. -/
theorem InStage.step {e : BlkEvent ρ} (h : InStage s g) (hx : s.Exclusive e)
    (hs : s.step e = some s') : ∃ g', InStage s' g' := by
  cases e with
  | enter r =>
    simp only [BlkState.step] at hs
    split_ifs at hs with hr
    obtain rfl := Option.some.inj hs
    exact ⟨_, h.enter hx hr⟩
  | clearInterrupts r =>
    simp only [BlkState.step] at hs
    split_ifs at hs with hr
    obtain rfl := Option.some.inj hs
    obtain rfl := h.preparing (r := r) (by rw [hr]; trivial)
    have htfes := h.interrupt.2.2.2.2
    refine ⟨.preparing r, ?_⟩
    rw [← htfes]
    exact h.advance (p := .cleared) trivial (by simp)
  | findSlot r =>
    simp only [BlkState.step] at hs
    split_ifs at hs with hr
    obtain rfl := h.preparing (r := r) (by rw [hr]; trivial)
    split at hs
    · obtain rfl := Option.some.inj hs
      exact ⟨_, h.advance (p := .chosen _) trivial (by simp)⟩
    · obtain rfl := Option.some.inj hs
      exact ⟨_, h.advance (p := .refused) trivial (by simp)⟩
  | fillTable r =>
    simp only [BlkState.step] at hs
    split at hs
    · rename_i slot hr
      obtain rfl := Option.some.inj hs
      obtain rfl := h.preparing (r := r) (by rw [hr]; trivial)
      refine ⟨_, h.advance (p := .filled slot) trivial ?_⟩
      intro slot' hslot
      obtain rfl : slot = slot' := by simpa using hslot
      exact Function.update_self ..
    · cases hs
  | awaitReady r =>
    simp only [BlkState.step] at hs
    split at hs
    · rename_i slot hr
      split_ifs at hs
      obtain rfl := Option.some.inj hs
      obtain rfl := h.preparing (r := r) (by rw [hr]; trivial)
      refine ⟨_, h.advance (p := .ready slot) trivial ?_⟩
      intro slot' hslot
      obtain rfl : slot = slot' := by simpa using hslot
      exact h.table r slot (Or.inl hr)
    · cases hs
  | issue r =>
    simp only [BlkState.step] at hs
    split at hs
    · rename_i slot hr
      obtain rfl := Option.some.inj hs
      obtain rfl := h.preparing (r := r) (by rw [hr]; trivial)
      exact ⟨_, h.issue hr⟩
    · cases hs
  | reject r =>
    simp only [BlkState.step] at hs
    split_ifs at hs with hr
    obtain rfl := Option.some.inj hs
    obtain rfl := h.preparing (r := r) (by rw [hr]; trivial)
    exact ⟨_, h.reject⟩
  | leave r =>
    simp only [BlkState.step] at hs
    split_ifs at hs with hr
    obtain rfl := Option.some.inj hs
    exact ⟨_, h.leave hr.1 hr.2⟩
  | ret r =>
    simp only [BlkState.step] at hs
    split_ifs at hs with hr
    obtain rfl := Option.some.inj hs
    exact ⟨_, h.ret hr⟩
  | fetch slot =>
    simp only [BlkState.step] at hs
    split at hs
    · rename_i r _ ht
      split_ifs at hs with hc
      obtain rfl := Option.some.inj hs
      exact ⟨_, h.fetch hc.1 hc.2 ht⟩
    · cases hs
  | finish failed =>
    simp only [BlkState.step] at hs
    split at hs
    · rename_i slot r hrun
      obtain rfl := Option.some.inj hs
      exact ⟨_, h.finish hrun failed⟩
    · cases hs
  | irqAck =>
    simp only [BlkState.step] at hs
    split_ifs at hs with hi
    obtain rfl := Option.some.inj hs
    exact h.irqAck hi.1
  | irqLookup =>
    simp only [BlkState.step] at hs
    split at hs
    · rename_i status hi
      obtain ⟨r, hr, hlook⟩ := h.irqLookup hi
      split at hs
      · rename_i r' hr'
        obtain rfl : r' = r := Option.some.inj (hr'.symm.trans hr)
        obtain rfl := Option.some.inj hs
        exact ⟨_, hlook⟩
      · rename_i hr'
        cases hr'.symm.trans hr
    · cases hs
  | irqDone =>
    simp only [BlkState.step] at hs
    split at hs
    · rename_i status r hi
      obtain rfl := Option.some.inj hs
      exact ⟨_, h.irqDone hi⟩
    · cases hs

/-- In every stage the completions are right. -/
theorem InStage.ownCompletions (h : InStage s g) : OwnCompletions s where
  completions := h.completions
  woken := h.woken
  delivered r hr := by
    by_cases hown : g.owner = some r
    · have hfits := h.own r hown
      have hirq := h.interrupt
      cases g with
      | idle => cases hown
      | preparing | inFlight => exact absurd hfits.2.2 hr
      | raised r' =>
        obtain rfl := Option.some.inj hown
        exact Or.inr (Or.inl (by rw [hirq.1]; exact List.mem_singleton_self _))
      | acked r' | completing r' =>
        obtain rfl := Option.some.inj hown
        exact Or.inr (Or.inr (by rw [hirq.2.1]; exact List.mem_singleton_self _))
      | completed => exact Or.inl hfits.2.1
    · have hrest := h.others r hown
      unfold BlkRequest.Rested at hrest
      split at hrest
      · exact absurd hrest.2 hr
      · exact absurd hrest.2 hr
      · exact Or.inl hrest.1
      · exact Or.inl hrest.1
      · exact hrest.elim
  statuses r status hr := by
    have hne : g.owner ≠ some r := by
      intro hown
      have hfits := h.own r hown
      cases g with
      | idle => cases hown
      | preparing => rw [BlkStage.Fits, hr] at hfits; exact hfits.1.elim
      | _ => rw [BlkStage.Fits, hr] at hfits; cases hfits.1
    have hrest := h.others r hne
    rw [BlkRequest.Rested, hr] at hrest
    exact hrest.2

/-- In every run in which no call of `blk_submit_sync` stores its request while another one is
active, in any order of its steps, the completions and the statuses are right in every state. -/
theorem own_completions {es : List (BlkEvent ρ)}
    (hx : Run.EachStep step Exclusive (init : BlkState ρ) es) :
    Run.Always step OwnCompletions (init : BlkState ρ) es :=
  (Run.always_of_eachStep (I := fun s => ∃ g, InStage s g)
    (fun _ _ _ ⟨_, h⟩ hx hs => h.step hx hs) ⟨_, inStage_init⟩ hx).mono
      fun _ ⟨_, h⟩ => h.ownCompletions

/-- While request 0 waits for its transfer, request 1 stores itself : the transfer of 0 ends,
and 1 returns its status with its own command not taken up. -/
theorem completion_stolen :
    ¬∀ (es : List (BlkEvent ℕ)) (s : BlkState ℕ), Run.run step init es = some s →
      OwnCompletions s := by
  intro hall
  have hrun : (Run.run step (init : BlkState ℕ)
      [.enter 0, .clearInterrupts 0, .findSlot 0, .fillTable 0, .awaitReady 0, .issue 0, .enter 1,
        .clearInterrupts 1, .findSlot 1, .fillTable 1, .awaitReady 1, .issue 1, .fetch 0,
        .finish false, .irqAck, .irqLookup, .irqDone, .leave 1, .ret 1]).map
      (fun s => (s.handled, (s.req 1).phase, (s.req 1).outcome)) =
        some ([([0], some 1)], .returned 0, none) := by decide
  obtain ⟨s, hs, heq⟩ := Option.map_eq_some_iff.1 hrun
  obtain ⟨hhandled, hphase, hout⟩ : s.handled = [([0], some 1)] ∧
      (s.req 1).phase = .returned 0 ∧ (s.req 1).outcome = none := by
    simpa only [Prod.mk.injEq] using heq
  have hstatus := (hall _ s hs).statuses 1 0 hphase
  rw [hout] at hstatus
  cases hstatus

/-- Two calls one after the other, the first one with an error. -/
theorem own_completions_two :
    Run.Always step OwnCompletions (init : BlkState Bool)
      [.enter false, .clearInterrupts false, .findSlot false, .fillTable false, .awaitReady false,
        .issue false, .fetch 0, .finish true, .irqAck, .irqLookup, .irqDone, .leave false,
        .enter true, .ret false, .clearInterrupts true, .findSlot true] :=
  own_completions (by decide)

end BlkState

end Jeos
