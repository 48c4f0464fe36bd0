import Mathlib.Data.List.Basic
import RHKernel.Lib.Step

/-!
# Requests of the virtio disk

`virtio_cmd` has one set of descriptors, one bounce buffer and one status byte, and a turn keeps two
calls from using them at once. A call takes its request as completed as soon as the index of the
used ring is not the one that the driver remembers, and the driver counts on only after such a call.
The device completes the requests in their order, some time after they were made available.

A call that times out leaves its request to the device and the remembered index behind. The late
completion then looks like that of the next request: the next call reports a status and a buffer
that belong to the abandoned request. As long as the remembered index is that of the available ring
when a request is made available, a call that returns 0 reports its own request.
-/

namespace RHKernel.VirtioBlk

open Relation

/-- The indices of the rings have 16 bits. -/
def indexSize : ℕ := 65536

/-- `VIRTIO_BLK_S_OK`. -/
def statusOk : UInt8 := 0

/-- The call that has the turn: the number of its request, the index it compares with, and what
`virtio_wait_complete` has returned. -/
structure Turn where
  request : ℕ
  expected : ℕ
  completed : Option Bool

/-- A call that has returned, with the request that wrote the status byte and the buffer last. -/
structure Returned where
  request : ℕ
  result : Int
  writer : Option ℕ

/-- `virtio_disk` and its device. `submitted` counts the requests made available, and `statuses`
lists the results of those completed: `avail[1]` and `used[1]` are the low bits of the numbers. -/
structure Disk where
  submitted : ℕ
  statuses : List UInt8
  lastUsed : ℕ
  status : UInt8
  writer : Option ℕ
  turn : Option Turn
  returned : List Returned

/-- The disk after its queue was set up. -/
def Disk.fresh : Disk := ⟨0, [], 0, 0, none, none, []⟩

def Disk.availIdx (d : Disk) : ℕ := d.submitted % indexSize

def Disk.usedIdx (d : Disk) : ℕ := d.statuses.length % indexSize

/-- What happens to the disk: a call takes the turn and makes its request available, the device
completes the next request, the wait of the call ends, or the call returns. -/
inductive Event where
  | submit
  | complete (status : UInt8)
  | wake (completed : Bool)
  | finish

/-- The parts of `virtio_cmd`, and the device between them. -/
def Disk.step (d : Disk) : Event → Option Disk
  | .submit =>
    if d.turn.isSome then none
    else some { d with
      submitted := d.submitted + 1, status := 0xff, writer := none
      turn := some ⟨d.submitted, d.lastUsed, none⟩ }
  | .complete status =>
    if d.statuses.length < d.submitted then some { d with
      statuses := d.statuses ++ [status], status, writer := some d.statuses.length }
    else none
  -- the wait sees that the index has changed, or gives up after a look that saw no change
  | .wake completed => do
    let t ← d.turn
    if t.completed = none ∧ (completed ↔ d.usedIdx ≠ t.expected) then
      some { d with turn := some { t with completed } }
    else none
  | .finish => do
    let t ← d.turn
    let completed ← t.completed
    if completed ∧ d.usedIdx ≠ t.expected then
      some { d with
        lastUsed := (t.expected + 1) % indexSize, turn := none
        returned := ⟨t.request, if d.status = statusOk then 0 else -1, d.writer⟩ :: d.returned }
    else some { d with turn := none, returned := ⟨t.request, -1, d.writer⟩ :: d.returned }

def Disk.Step (d d' : Disk) : Prop := ∃ e, d.step e = some d'

/-- One event; a request is made available only while no earlier call has timed out, so that the
remembered index is that of the available ring. -/
def Disk.SyncStep (d d' : Disk) : Prop :=
  ∃ e, (e matches .submit → d.lastUsed = d.availIdx) ∧ d.step e = some d'

/-- A call that returned 0 reports its own request, which the device has completed. -/
def Disk.Own (d : Disk) (r : Returned) : Prop :=
  r.result = 0 → d.statuses[r.request]? = some statusOk ∧ r.writer = some r.request

/-- The state of the call that has the turn. -/
structure Disk.Current (d : Disk) (t : Turn) : Prop where
  request : d.submitted = t.request + 1
  expected : t.expected = t.request % indexSize
  lastUsed : d.lastUsed = t.expected
  -- earlier requests are completed
  earlier : t.request ≤ d.statuses.length
  written : d.statuses.length = d.submitted →
    d.statuses[t.request]? = some d.status ∧ d.writer = some t.request

structure Disk.Inv (d : Disk) : Prop where
  le : d.statuses.length ≤ d.submitted
  current : ∀ t ∈ d.turn, d.Current t
  idle : d.turn = none → d.lastUsed = d.availIdx → d.statuses.length = d.submitted
  own : ∀ r ∈ d.returned, d.Own r

variable {d d' : Disk} {t : Turn} {r : Returned} {e : Event}

theorem Disk.fresh_inv : Disk.fresh.Inv :=
  ⟨Nat.le_refl _, nofun, fun _ _ => rfl, nofun⟩

/-- A call that looks at the index after the change finds its own request completed. -/
theorem Disk.Current.completed (h : d.Current t) (hle : d.statuses.length ≤ d.submitted)
    (hne : d.usedIdx ≠ t.expected) : d.statuses.length = d.submitted := by
  have h₁ := h.earlier
  have h₂ := h.request
  rw [h.expected, usedIdx] at hne
  have : d.statuses.length ≠ t.request := fun heq => hne (heq ▸ rfl)
  omega

theorem Disk.Inv.submit (h : d.Inv) (hsync : d.lastUsed = d.availIdx)
    (hs : d.step .submit = some d') : d'.Inv := by
  simp only [step] at hs
  split_ifs at hs with hturn
  rw [Option.not_isSome_iff_eq_none] at hturn
  cases hs
  have hlen := h.idle hturn hsync
  exact {
    le := Nat.le_succ_of_le h.le
    current := by
      rintro t ⟨⟩
      exact ⟨rfl, hsync, rfl, Nat.le_of_eq hlen.symm, fun heq => by simp [hlen] at heq⟩
    idle := nofun
    own := h.own }

theorem Disk.Inv.complete {status : UInt8} (h : d.Inv) (hs : d.step (.complete status) = some d') :
    d'.Inv := by
  simp only [step] at hs
  split_ifs at hs with hlt
  cases hs
  exact {
    le := by rwa [List.length_append]
    current := fun t ht => by
      have hc := h.current t ht
      have hreq := hc.request
      have hearlier := hc.earlier
      obtain heq : t.request = d.statuses.length := by omega
      exact ⟨hreq, hc.expected, hc.lastUsed, by simp [heq], fun _ => by simp [heq]⟩
    idle := fun hnone hsync => absurd (h.idle hnone hsync) (Nat.ne_of_lt hlt)
    own := fun r hr h0 => by
      obtain ⟨h₁, h₂⟩ := h.own r hr h0
      exact ⟨(List.getElem?_append_left (List.getElem?_eq_some_iff.mp h₁).1).trans h₁, h₂⟩ }

theorem Disk.Inv.wake {completed : Bool} (h : d.Inv) (hs : d.step (.wake completed) = some d') :
    d'.Inv := by
  obtain ⟨t, ht, hs⟩ := Option.bind_eq_some_iff.mp hs
  split_ifs at hs with hw
  cases hs
  have ⟨h₁, h₂, h₃, h₄, h₅⟩ := h.current t ht
  exact ⟨h.le, fun _ h' => Option.some.inj h' ▸ ⟨h₁, h₂, h₃, h₄, h₅⟩, nofun, h.own⟩

theorem Disk.Inv.finish (h : d.Inv) (hs : d.step .finish = some d') : d'.Inv := by
  obtain ⟨t, ht, hs⟩ := Option.bind_eq_some_iff.mp hs
  obtain ⟨completed, -, hs⟩ := Option.bind_eq_some_iff.mp hs
  have hc := h.current t ht
  split at hs
  case isTrue hdone =>
    cases hs
    have hlen := hc.completed h.le hdone.2
    obtain ⟨hstatus, hwriter⟩ := hc.written hlen
    refine ⟨h.le, nofun, fun _ _ => hlen, List.forall_mem_cons.mpr ⟨fun h0 => ?_, h.own⟩⟩
    have hok : d.status = statusOk := by
      by_contra hne
      cases (if_neg hne).symm.trans h0
    exact ⟨hok ▸ hstatus, hwriter⟩
  case isFalse =>
    cases hs
    refine ⟨h.le, nofun, fun _ hsync => ?_, List.forall_mem_cons.mpr ⟨nofun, h.own⟩⟩
    -- the driver has not counted the request, so the remembered index stays behind
    have h₁ := hc.request
    have h₂ := hc.expected
    have h₃ := hc.lastUsed
    simp only [availIdx, indexSize] at hsync h₂
    omega

theorem Disk.SyncStep.inv (h : d.Inv) (hs : d.SyncStep d') : d'.Inv := by
  obtain ⟨e, hsync, hs⟩ := hs
  cases e with
  | submit => exact h.submit (hsync rfl) hs
  | complete status => exact h.complete hs
  | wake completed => exact h.wake hs
  | finish => exact h.finish hs

/-- If no request is made available after a timeout, then every call that returns 0 has seen the
completion of its own request. -/
theorem returned_own (hrun : ReflTransGen Disk.SyncStep .fresh d) : ∀ r ∈ d.returned, d.Own r :=
  (Step.run_invariant (I := Disk.Inv) hrun Disk.fresh_inv fun h hs => hs.inv h).own

theorem returned_own_first :
    ∃ d, ReflTransGen Disk.SyncStep .fresh d ∧ (∃ r ∈ d.returned, r.result = 0) ∧
      ∀ r ∈ d.returned, d.Own r :=
  have hrun := (((ReflTransGen.single ⟨.submit, fun _ => rfl, rfl⟩).tail
    ⟨.complete statusOk, nofun, rfl⟩).tail ⟨.wake true, nofun, rfl⟩).tail ⟨.finish, nofun, rfl⟩
  ⟨_, hrun, ⟨_, List.mem_cons_self, rfl⟩, returned_own hrun⟩

/-- After a timeout the next call returns 0 with the status and the buffer of the abandoned request,
while its own request is not completed. -/
theorem exists_returned_other :
    ∃ d, ReflTransGen Disk.Step .fresh d ∧ ∃ r ∈ d.returned, r.result = 0 ∧
      d.statuses[r.request]? = none ∧ r.writer ≠ some r.request :=
  Step.exists_run (f := Disk.step) (l := [.submit, .wake false, .finish, .submit,
    .complete statusOk, .wake true, .finish]) (fun e _ _ _ h => ⟨e, h⟩) (by decide)

end RHKernel.VirtioBlk
