import Libogc.Library.GuardedReach
import Libogc.Si.Serial

/-!
# `SI_Sync`

`SI_Sync` waits in a loop for `TSTART` to be clear and completes the active
transfer in a critical section of its own. In between the interrupt handler may
complete that transfer and start the next one, an alarm may expire, and another
thread may ask for a transfer. The hardware finishes the transfer that was
started last, and sets `TCINT`; the records of what was started, finished and
completed are not read. A callback of 0 is NULL, with which a transfer raises
no interrupt.
-/

set_option autoImplicit false

namespace Libogc.SerialSync
open Option GuardedReach ByteStore Serial Prod

/-- `started` counts the transfers, and the last one is the active one.
`polled` are the threads that have left the loop of `SI_Sync`. -/
structure Bus where
  si : Si
  tcint : Bool
  started : ℕ
  finished : List (ℕ × Bytes)
  completed : List (ℕ × Bytes)
  polled : ℕ → Bool

def busInit (mem : Bytes) : Bus where
  si := siInit mem
  tcint := false
  started := 0
  finished := []
  completed := []
  polled _ := false

def maskNull (si : Si) : Si :=
  if si.cntrl.callback = some 0 then { si with
    cntrl := { si.cntrl with callback := none }
    csr := { si.csr with tcintmsk := false } }
  else si

/-- The driver has done something that may have started a transfer. Starting
one clears `TCINT`. -/
def noteStart (si : Si) (s : Bus) : Bus :=
  if s.si.cntrl.chan = none ∧ si.cntrl.chan ≠ none then
    { s with si := maskNull si, tcint := false, started := s.started+1 }
  else { s with si := si }

def completeActive (time : ℕ) (s : Bus) : Bus :=
  match s.si.cntrl.chan with
  | none => { s with
    si := { s.si with csr := { s.si.csr with tstart := false } }
    tcint := false }
  | some c => { s with
    si := siCompletetransfer time c s.si
    tcint := false
    completed := s.completed ++ [(s.started,s.si.regs)] }

def dropCallback (s : Bus) : Bus :=
  { s with si := { s.si with cntrl := { s.si.cntrl with callback := none } } }

def nextOf : Option (Fin 4) → List (Fin 4)
  | some c => after c
  | none => after ⟨3,by decide⟩

/-- `__si_interrupthandler` for a complete transfer, up to the callback. -/
def interrupted (time : ℕ) (nows : List ℕ) (s : Bus) : Bus :=
  let t := completeActive time (dropCallback s)
  noteStart (siTransfernext ((nextOf s.si.cntrl.chan).zip nows) t.si) t

/-- The critical section of `SI_Sync`; `__si_transfernext(4)` begins at
channel 1. -/
def synced (time : ℕ) (nows : List ℕ) (s : Bus) : Bus :=
  let t := completeActive time s
  noteStart (siTransfernext ((after ⟨0,by decide⟩).zip nows) t.si) t

def hardwareDone (resp : Bytes) (s : Bus) : Bus := { s with
  si := { s.si with regs := resp, csr := { s.si.csr with tstart := false } }
  tcint := true
  finished := s.finished ++ [(s.started,resp)] }

inductive BusEvent where
  | transfer (x : Xfer) (usDelay now set : ℕ)
  | alarm (c : Fin 4)
  | hardware (resp : Bytes)
  | interrupt (time : ℕ) (nows : List ℕ)
  | poll (thread : ℕ)
  | sync (thread time : ℕ) (nows : List ℕ)

def busStep (wii : Bool) : BusEvent → Bus → Option Bus
  | .transfer x usDelay now set, s => some (noteStart (siTransfer wii x usDelay now set s.si).2 s)
  | .alarm c, s => some (noteStart (siAlarmhandler c (setAlarm c none s.si)) s)
  | .hardware resp, s => if s.si.csr.tstart then some (hardwareDone resp s) else none
  | .interrupt time nows, s =>
    if s.tcint && s.si.csr.tcintmsk then some (interrupted time nows s) else none
  | .poll i, s =>
    if s.si.csr.tstart then none else some { s with polled := Function.update s.polled i true }
  | .sync i time nows, s =>
    if s.polled i then
      some { synced time nows s with polled := Function.update s.polled i false }
    else none

def StillClear : BusEvent → Bus → Prop
  | .sync _ _ _, s => s.si.csr.tstart = false
  | _, _ => True

/-- The active transfer is under way or has been finished by the hardware. -/
structure Truthful (s : Bus) : Prop where
  active : s.si.cntrl.chan ≠ none → s.si.csr.tstart = false → (s.started,s.si.regs) ∈ s.finished
  interrupt : s.tcint = true → s.si.csr.tstart = false
  running : s.si.csr.tstart = true → s.si.cntrl.chan ≠ none
  completed : ∀ e ∈ s.completed, e ∈ s.finished

section Steps

variable {s : Bus} {si : Si}

def Starts (s si : Si) : Prop :=
  (s.cntrl.chan = none ∧ si.cntrl.chan ≠ none ∧ si.csr.tstart = true) ∨
    (si.cntrl.chan = s.cntrl.chan ∧ si.csr = s.csr ∧ si.regs = s.regs)

theorem transfer_starts (wii : Bool) (x : Xfer) (usDelay now set : ℕ) (s : Si) :
    Starts s (siTransfer wii x usDelay now set s).2 := by
  rcases transfer_cases wii x usDelay now set s with ⟨-,he⟩ | ⟨-,⟨e,he⟩ | ⟨hn,he⟩ | ⟨-,-,he⟩⟩
  · rw [he]
    exact .inr ⟨rfl,rfl,rfl⟩
  · rw [he]
    exact .inr ⟨rfl,rfl,rfl⟩
  · rw [he]
    exact .inl ⟨hn,nofun,rfl⟩
  · rw [he]
    exact .inr ⟨rfl,rfl,rfl⟩

theorem alarm_starts (c : Fin 4) (s : Si) : Starts s (siAlarmhandler c (setAlarm c none s)) := by
  rcases alarmhandler_cases c (setAlarm c none s) with ⟨-,he⟩ | ⟨p,-,hn,he⟩
  · rw [he]
    exact .inr ⟨rfl,rfl,rfl⟩
  · rw [he]
    exact .inl ⟨hn,nofun,rfl⟩

theorem transfernext_starts (l : List (Fin 4 × ℕ)) (s : Si) : Starts s (siTransfernext l s) := by
  by_cases hn : s.cntrl.chan = none
  · rcases transfernext_cases l hn with ⟨-,he⟩ | ⟨e,-,p,-,-,he⟩
    · rw [he]
      exact .inr ⟨rfl,rfl,rfl⟩
    · rw [he]
      exact .inl ⟨hn,nofun,rfl⟩
  · rw [transfernext_busy l hn]
    exact .inr ⟨rfl,rfl,rfl⟩

theorem maskNull_bus (si : Si) : (maskNull si).cntrl.chan = si.cntrl.chan ∧
    (maskNull si).csr.tstart = si.csr.tstart := by
  unfold maskNull
  split <;> exact ⟨rfl,rfl⟩

theorem noteStart_truthful (h : Truthful s) (hs : Starts s.si si) : Truthful (noteStart si s) := by
  unfold noteStart
  rcases hs with ⟨hn,hc,ht⟩ | ⟨hc,ht,hr⟩
  · rw [if_pos ⟨hn,hc⟩]
    have htrue : (maskNull si).csr.tstart = true := (maskNull_bus si).2.trans ht
    refine ⟨fun _ hf => absurd (htrue.symm.trans hf) nofun,nofun,fun _ => ?_,h.completed⟩
    rw [(maskNull_bus si).1]
    exact hc
  · rw [if_neg (fun hb => hb.2 (hc.trans hb.1))]
    refine ⟨?_,?_,?_,h.completed⟩
    · intro ha hf
      rw [hc] at ha
      rw [ht] at hf
      rw [hr]
      exact h.active ha hf
    · intro hi
      rw [ht]
      exact h.interrupt hi
    · intro hr
      rw [hc]
      rw [ht] at hr
      exact h.running hr

theorem completeActive_truthful (time : ℕ) (h : Truthful s) (hf : s.si.csr.tstart = false) :
    Truthful (completeActive time s) := by
  unfold completeActive
  cases hc : s.si.cntrl.chan with
  | none =>
    exact ⟨fun ha => absurd hc ha,fun _ => rfl,nofun,h.completed⟩
  | some c =>
    refine ⟨fun ha => absurd rfl ha,fun _ => rfl,nofun,?_⟩
    intro e he
    rcases List.mem_append.mp he with he | he
    · exact h.completed e he
    · rw [List.mem_singleton.mp he]
      exact h.active (by rw [hc]; exact nofun) hf

variable {wii : Bool} {a : BusEvent} {t : Bus}

theorem busStep_truthful (h : Truthful s)
    (hok : StillClear a s) (hs : busStep wii a s = some t) : Truthful t := by
  cases a with
  | transfer x usDelay now set =>
    cases hs
    exact noteStart_truthful h (transfer_starts wii x usDelay now set s.si)
  | alarm c =>
    cases hs
    exact noteStart_truthful h (alarm_starts c s.si)
  | hardware resp =>
    rw [busStep, ite_none_right_eq_some] at hs
    obtain ⟨-,hs⟩ := hs
    cases hs
    refine ⟨fun _ _ => ?_,fun _ => rfl,nofun,fun e he => ?_⟩
    · exact List.mem_append_right _ (List.mem_singleton_self _)
    · exact List.mem_append_left _ (h.completed e he)
  | interrupt time nows =>
    rw [busStep, ite_none_right_eq_some, Bool.and_eq_true] at hs
    obtain ⟨⟨hi,-⟩,hs⟩ := hs
    cases hs
    have hd : Truthful (dropCallback s) := ⟨h.active,h.interrupt,h.running,h.completed⟩
    exact noteStart_truthful (completeActive_truthful time hd (h.interrupt hi))
      (transfernext_starts _ _)
  | poll i =>
    rw [busStep, ite_none_left_eq_some] at hs
    obtain ⟨-,hs⟩ := hs
    cases hs
    exact ⟨h.active,h.interrupt,h.running,h.completed⟩
  | sync i time nows =>
    rw [busStep, ite_none_right_eq_some] at hs
    obtain ⟨-,hs⟩ := hs
    cases hs
    have hd := noteStart_truthful (completeActive_truthful time h hok)
      (transfernext_starts ((after ⟨0,by decide⟩).zip nows) _)
    exact ⟨hd.active,hd.interrupt,hd.running,hd.completed⟩

theorem noteStart_running (h : Truthful s) (hs : Starts s.si si) (hr : s.si.csr.tstart = true) :
    (noteStart si s).si.csr.tstart = true := by
  unfold noteStart
  rw [if_neg (fun hb => h.running hr hb.1)]
  rcases hs with ⟨hn,-⟩ | ⟨-,ht,-⟩
  · exact absurd hn (h.running hr)
  · change si.csr.tstart = true
    rw [ht]
    exact hr

theorem busStep_running (h : Truthful s)
    (hok : StillClear a s) (hs : busStep wii a s = some t) (hr : s.si.csr.tstart = true)
    (ha : ∀ resp, a ≠ .hardware resp) : t.si.csr.tstart = true := by
  cases a with
  | transfer x usDelay now set =>
    cases hs
    exact noteStart_running h (transfer_starts wii x usDelay now set s.si) hr
  | alarm c =>
    cases hs
    exact noteStart_running h (alarm_starts c s.si) hr
  | hardware resp => exact absurd rfl (ha resp)
  | interrupt time nows =>
    rw [busStep, ite_none_right_eq_some, Bool.and_eq_true] at hs
    exact absurd (hr.symm.trans (h.interrupt hs.1.1)) nofun
  | poll i =>
    rw [busStep, if_pos hr] at hs
    exact absurd hs nofun
  | sync i time nows => exact absurd (hr.symm.trans hok) nofun

end Steps

theorem init_truthful (mem : Bytes) : Truthful (busInit mem) :=
  ⟨fun h => absurd rfl h,nofun,nofun,nofun⟩

/-- In a run in which no transfer is under way at the critical sections of
`SI_Sync`, every completed transfer had been finished by the hardware and the
registers held its response, and only the hardware ends a transfer. -/
theorem sync_completes_finished (wii : Bool) (mem : Bytes) {s : Bus}
    (h : Reach (busStep wii) StillClear (busInit mem) s) :
    (∀ e ∈ s.completed, e ∈ s.finished) ∧
      ∀ a t, StillClear a s → busStep wii a s = some t → s.si.csr.tstart = true →
        (∀ resp, a ≠ .hardware resp) → t.si.csr.tstart = true := by
  have ht : Truthful s :=
    reach_invariant (init_truthful mem) (fun _ _ _ hi hok hs => busStep_truthful hi hok hs) h
  exact ⟨ht.completed,fun a t hok hs hr ha => busStep_running ht hok hs hr ha⟩

def stillClear : BusEvent → Bus → Bool
  | .sync _ _ _, s => !s.si.csr.tstart
  | _, _ => true

theorem stillClear_ok {a : BusEvent} {s : Bus} (h : stillClear a s = true) : StillClear a s := by
  cases a with
  | sync i time nows => simpa [stillClear, StillClear] using h
  | _ => trivial

/-- A transfer without a callback is completed by `SI_Sync`, which starts the
one that waits for the bus. -/
theorem sync_completes_finished_second : ∃ s, Reach (busStep false) StillClear
    (busInit fun _ => 0) s ∧ s.completed.map Prod.fst = [1] ∧ s.started = 2 ∧
    (∀ e ∈ s.completed, e ∈ s.finished) ∧
      ∀ a t, StillClear a s → busStep false a s = some t → s.si.csr.tstart = true →
        (∀ resp, a ≠ .hardware resp) → t.si.csr.tstart = true := by
  have hrun : (runChecked (busStep false) stillClear
      [.transfer ⟨0,0,1,16,3,0⟩ 0 5 5, .transfer ⟨1,0,1,32,8,9⟩ 0 6 6, .hardware (fun _ => 1),
        .poll 3, .sync 3 8 [8, 8, 8, 8]] (busInit fun _ => 0)).any
      (fun s => decide (s.completed.map fst = [1] ∧ s.started = 2)) = true := by
    decide +kernel
  obtain ⟨s,hreach,h1,h2⟩ := run_reaches (fun _ _ => stillClear_ok) hrun
  exact ⟨s,hreach,h1,h2,sync_completes_finished false _ hreach⟩

/-- Thread 3 has seen the first transfer end. The interrupt handler completes
it and starts the second one, and then the critical section of thread 3
completes the second one, which the hardware has not finished. -/
theorem sync_completes_running : ∃ s t, Reach (busStep false) (fun _ _ => True)
    (busInit fun _ => 0) s ∧ busStep false (.sync 3 9 [9, 9, 9, 9]) s = some t ∧
    s.si.csr.tstart = true ∧ t.si.csr.tstart = false ∧ t.completed.map Prod.fst = [1, 2] ∧
    t.finished.map Prod.fst = [1] := by
  have hrun : (runChecked (busStep false) (fun _ _ => true)
      [.transfer ⟨0,0,1,16,3,7⟩ 0 5 5, .transfer ⟨1,0,1,32,8,9⟩ 0 6 6, .hardware (fun _ => 1),
        .poll 3, .interrupt 8 [8, 8, 8, 8]] (busInit fun _ => 0)).any
      (fun s => decide (s.si.csr.tstart = true ∧ ∃ t ∈ busStep false (.sync 3 9 [9, 9, 9, 9]) s,
        t.si.csr.tstart = false ∧ t.completed.map fst = [1, 2] ∧
          t.finished.map fst = [1])) = true := by
    decide +kernel
  obtain ⟨s,hreach,htrue,t,ht,hd⟩ := run_reaches (fun _ _ _ => trivial) hrun
  exact ⟨s,t,hreach,ht,htrue,hd⟩

end Libogc.SerialSync
