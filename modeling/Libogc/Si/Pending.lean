import Libogc.Si.Transfers

/-!
# Packets that wait

A packet waits for its alarm or for the end of the transfer on the bus. When
the alarm expires on a busy bus, only that end is left, and the driver then
compares the tick with the fire time of the packet once more. The alarm is set
in nanoseconds, which are rounded down twice, so it can expire a tick before
the fire time.
-/

set_option autoImplicit false

namespace Libogc.SerialPending
open Option Function GuardedReach ByteStore Serial SerialTransfers List

def Awaited (time : ℕ) (s : Si) : Prop :=
  ∀ c p, s.packet c = some p → s.alarm c = none → p.fire ≤ time ∧ s.cntrl.chan ≠ none

/-- An alarm that finds the bus busy does not come before its packet is due. -/
def onTime (a : Event) (s : Serial) : Prop :=
  ∀ c now p, a = .alarm c now → s.si.cntrl.chan ≠ none → s.si.packet c = some p → p.fire ≤ now

section Steps

variable {s : Si} {c : Fin 4} {t t' : ℕ}

theorem setAlarm_other {d : Fin 4} {a : Option ℕ} (hd : d ≠ c) :
    (setAlarm c a s).alarm d = s.alarm d := by
  exact update_of_ne hd a s.alarm

theorem Awaited.later (h : Awaited t s) (ht : t ≤ t') : Awaited t' s :=
  fun c p hp ha => ⟨(h c p hp ha).1.trans ht,(h c p hp ha).2⟩

theorem start_awaited {p : SiPacket}
    (h : ∀ d q, d ≠ c → s.packet d = some q → s.alarm d = none → q.fire ≤ t) :
    Awaited t (startPacket c p s) := by
  intro d q hq ha
  have hpk : (startPacket c p s).packet = update s.packet c none := rfl
  rw [hpk] at hq
  by_cases hd : d = c
  · rw [hd, update_self] at hq
    cases hq
  · rw [update_of_ne hd] at hq
    exact ⟨h d q hd hq ha,some_ne_none c⟩

theorem pend_awaited (h : Awaited t s) (x : Xfer) {fire : ℕ}
    (hx : s.alarm x.chan = none → fire ≤ t ∧ s.cntrl.chan ≠ none) : Awaited t (pend x fire s) := by
  intro d q hq ha
  have hpk : (pend x fire s).packet = update s.packet x.chan
    (some ⟨x.out,x.outLen,x.inBuf,x.inLen,x.cb,fire⟩) := rfl
  rw [hpk] at hq
  by_cases hd : d = x.chan
  · subst hd
    rw [update_self] at hq
    cases hq
    exact hx ha
  · rw [update_of_ne hd] at hq
    exact h d q hq ha

variable {now time : ℕ} {nows : List ℕ}

theorem transfer_awaited (h : Awaited t s) (wii : Bool) (x : Xfer) {usDelay set : ℕ}
    (hn : t ≤ now) (hset : now ≤ set) : Awaited set (siTransfer wii x usDelay now set s).2 := by
  have hlater := h.later (hn.trans hset)
  rcases transfer_cases wii x usDelay now set s with
    ⟨-,heq⟩ | ⟨hb,⟨e,heq⟩ | ⟨hn,heq⟩ | ⟨hbus,hfire,heq⟩⟩ <;> rw [heq]
  · exact hlater
  · have hal : (setAlarm x.chan (some e) s).alarm = update s.alarm x.chan (some e) := rfl
    refine pend_awaited ?_ x ?_
    · intro d q hq ha
      rw [hal] at ha
      by_cases hd : d = x.chan
      · rw [hd, update_self] at ha
        cases ha
      · rw [update_of_ne hd] at ha
        exact hlater d q hq ha
    · intro ha
      rw [hal, update_self] at ha
      cases ha
  · intro d q hq ha
    exact ⟨(hlater d q hq ha).1,some_ne_none x.chan⟩
  · exact pend_awaited hlater x (fun _ => ⟨hfire.trans hset,hbus⟩)

theorem alarm_awaited (h : Awaited t s) (hn : t ≤ now)
    (hon : ∀ p, s.cntrl.chan ≠ none → s.packet c = some p → p.fire ≤ now) :
    Awaited now (siAlarmhandler c (setAlarm c none s)) := by
  have hother : ∀ d q, d ≠ c → s.packet d = some q → (setAlarm c none s).alarm d = none →
      q.fire ≤ now ∧ s.cntrl.chan ≠ none := by
    intro d q hd hq ha
    have ha' : s.alarm d = none := (setAlarm_other hd).symm.trans ha
    exact h.later hn d q hq ha'
  rcases alarmhandler_cases c (setAlarm c none s) with ⟨hor,heq⟩ | ⟨p,hp,hb,heq⟩ <;> rw [heq]
  · intro d q hq ha
    by_cases hd : d = c
    · subst hd
      have hbus : s.cntrl.chan ≠ none := by
        rcases hor with hnone | hbus
        · rw [hnone] at hq
          cases hq
        · exact hbus
      exact ⟨hon q hbus hq,hbus⟩
    · exact hother d q hd hq ha
  · exact start_awaited (fun d q hd hq ha => (hother d q hd hq ha).1)

theorem chain_bounds (h : (time::nows).IsChain (· ≤ ·)) :
    (∀ n ∈ nows, time ≤ n ∧ n ≤ nows.getLastD time) ∧ time ≤ nows.getLastD time := by
  induction nows generalizing time with
  | nil => exact ⟨fun _ hn => absurd hn not_mem_nil,le_refl time⟩
  | cons n nows ih =>
    obtain ⟨hle,hrest⟩ := isChain_cons_cons.mp h
    obtain ⟨hall,hlast⟩ := ih hrest
    rw [getLastD_cons]
    refine ⟨fun m hm => ?_,hle.trans hlast⟩
    rcases mem_cons.mp hm with rfl | hm
    · exact ⟨hle,hlast⟩
    · exact ⟨hle.trans (hall m hm).1,(hall m hm).2⟩

theorem after_zip (c d : Fin 4) (hl : nows.length = 4) :
    ∃ e ∈ (Serial.after c).zip nows, e.1 = d := by
  have hmem : d ∈ Serial.after c := by
    revert c d
    decide
  have hmap : ((Serial.after c).zip nows).map Prod.fst = Serial.after c := by
    rw [map_fst_zip]
    rw [hl]
    rfl
  rw [← hmap] at hmem
  obtain ⟨e,he,hed⟩ := mem_map.mp hmem
  exact ⟨e,he,hed⟩

theorem complete_awaited (h : Awaited t s) (hc : s.cntrl.chan = some c)
    (ht : t ≤ time) (hl : nows.length = 4) (hch : (time::nows).IsChain (· ≤ ·))
    (resp : Bytes) (sisr : ℕ) (comerr : Bool) :
    Awaited (nows.getLastD time) (siComplete time nows resp sisr comerr s).2 := by
  obtain ⟨hall,hlast⟩ := chain_bounds hch
  rw [complete_eq hc]
  rcases transfernext_cases ((Serial.after c).zip nows) (s := completed time c resp s) rfl
    with ⟨hlate,heq⟩ | ⟨e,-,p,-,-,heq⟩ <;> dsimp only <;> rw [heq]
  · intro d q hq ha
    obtain ⟨e,he,rfl⟩ := after_zip c d hl
    have hfire := (h e.1 q hq ha).1
    have hnow := (hall e.2 (of_mem_zip he).2).1
    have hlt := hlate e he q hq
    omega
  · refine start_awaited (fun d q hd hq ha => ?_)
    have ha' : s.alarm d = none := (setAlarm_other hd).symm.trans ha
    exact (h d q hq ha').1.trans (ht.trans hlast)

theorem step_awaited (wii : Bool) {a : Event} {s : Serial} (h : Awaited s.time s.si)
    (hp : possible a s) (hon : onTime a s) :
    Awaited (serialStep wii a s).time (serialStep wii a s).si := by
  cases a with
  | transfer x usDelay now set =>
    have hstep : (transferStep wii x usDelay now set s).time = set ∧
        (transferStep wii x usDelay now set s).si = (siTransfer wii x usDelay now set s.si).2 := by
      unfold transferStep
      split
      · rename_i si heq
        rw [heq]
        exact ⟨rfl,rfl⟩
      · rename_i si heq
        rw [heq]
        exact ⟨rfl,(noteStart_kept si _).2⟩
    rw [serialStep, hstep.1, hstep.2]
    exact transfer_awaited h wii x hp.1 hp.2
  | complete time nows resp sisr comerr =>
    obtain ⟨hne,ht,hl,hch⟩ := hp
    obtain ⟨c,hc⟩ := ne_none_iff_exists'.mp hne
    have hsi : (completeStep time nows resp sisr comerr s).si =
        (siComplete time nows resp sisr comerr s.si).2 := (noteStart_kept _ _).2
    rw [serialStep, hsi]
    exact complete_awaited h hc ht hl hch resp sisr comerr
  | alarm c now =>
    have hsi : (alarmStep c now s).si = siAlarmhandler c (setAlarm c none s.si) :=
      (noteStart_kept _ _).2
    rw [serialStep, hsi]
    exact alarm_awaited h hp.1 (fun p hb hq => hon c now p rfl hb hq)

end Steps

/-- In a run whose alarms are on time a packet that waits while the bus is free
has its alarm. -/
theorem packets_awaited (wii : Bool) (mem : Bytes) {s : Serial} (h : SerialRun wii onTime mem s)
    (hfree : s.si.cntrl.chan = none) {c : Fin 4} (hc : s.si.packet c ≠ none) :
    s.si.alarm c ≠ none := by
  have hinit : Awaited (serialInit mem).time (serialInit mem).si := fun _ _ hp => by cases hp
  have hi : Awaited s.time s.si := by
    refine reach_invariant (P := fun s => Awaited s.time s.si) hinit ?_ h
    intro a s s' hi hok hs
    cases hs
    exact step_awaited wii hi hok.1 hok.2
  obtain ⟨p,hp⟩ := ne_none_iff_exists'.mp hc
  exact fun ha => (hi c p hp ha).2 hfree

def isAlarm : Event → Bool
  | .alarm _ _ => true
  | _ => false

/-- The first channel is to wait for a microsecond while the second is on the
bus. -/
def delayEvents : List Event :=
  [.transfer ⟨1,0,1,16,3,7⟩ 0 0 0, .transfer ⟨0,0,1,32,3,9⟩ 1 0 0]

theorem packets_awaited_delay : ∃ s, SerialRun false onTime (fun _ => 0) s ∧
    s.si.cntrl.chan = none ∧ (s.si.packet 0).isSome = true ∧ s.si.alarm 0 ≠ none ∧
    s.si.alarm 0 = some 39 := by
  have hrun : (runChecked (fun a s => some (serialStep false a s))
      (fun a s => admits a s && !isAlarm a)
      (delayEvents ++ [.complete 20 [20, 20, 20, 20] (fun _ => 1) 0 false])
      (serialInit (fun _ => 0))).any (fun s => decide (s.si.cntrl.chan = none ∧
        (s.si.packet 0).isSome = true ∧ s.si.alarm 0 = some 39)) = true := by decide +kernel
  have htime : ∀ (a : Event) (s : Serial), (!isAlarm a) = true → onTime a s := by
    rintro a s h c now p rfl
    exact absurd h Bool.false_ne_true
  obtain ⟨s,hreach,h1,h2,h3⟩ := run_reaches (check_and (fun _ _ => admits_possible) htime) hrun
  exact ⟨s,hreach,h1,h2,packets_awaited false _ hreach h1 (isSome_iff_ne_none.mp h2),h3⟩

/-- The alarm expires a tick early on a busy bus, and the transfer on the bus is
complete before the packet is due. -/
theorem early_alarm_strands : ∃ s, SerialRun false (fun _ _ => True) (fun _ => 0) s ∧
    s.si.cntrl.chan = none ∧ (s.si.packet 0).isSome = true ∧ s.si.alarm 0 = none := by
  have hrun : (runChecked (fun a s => some (serialStep false a s)) admits
      (delayEvents ++ [.alarm 0 39, .complete 39 [39, 39, 39, 39] (fun _ => 1) 0 false])
      (serialInit (fun _ => 0))).any (fun s => decide (s.si.cntrl.chan = none ∧
        (s.si.packet 0).isSome = true ∧ s.si.alarm 0 = none)) = true := by decide +kernel
  exact run_reaches (fun _ _ h => ⟨admits_possible h,trivial⟩) hrun

end Libogc.SerialPending
