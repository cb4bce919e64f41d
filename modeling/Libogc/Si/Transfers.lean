import Libogc.Library.GuardedReach
import Libogc.Si.Serial
import Mathlib.Data.List.Nodup
import Mathlib.Data.List.Perm.Basic

/-!
# Transfers from acceptance to delivery

`Serial` numbers the transfers that `SI_Transfer` has accepted, and records
which of them each packet and the bus hold, which have been started and which
have been delivered to their callbacks. No function of the driver reads these
records. The callback runs in the handler; the transfers that it asks for are
steps of their own, and so is the one that the handler may ask for itself.
-/

set_option autoImplicit false

namespace Libogc.SerialTransfers
open Option Function GuardedReach ByteStore Serial Bool

structure Delivery where
  id : ℕ
  cb : ℕ
  chan : Fin 4
  result : ℕ
  addr : ℕ
  bytes : List UInt8
  deriving DecidableEq, Repr

structure Serial where
  si : Si
  time : ℕ
  accepted : List Xfer
  pendingId : Fin 4 → Option ℕ
  busId : Option ℕ
  started : List ℕ
  delivered : List Delivery

def serialInit (mem : Bytes) : Serial where
  si := siInit mem
  time := 0
  accepted := []
  pendingId _ := none
  busId := none
  started := []
  delivered := []

inductive Event where
  | transfer (x : Xfer) (usDelay now set : ℕ)
  | complete (time : ℕ) (nows : List ℕ) (resp : Bytes) (sisr : ℕ) (comerr : Bool)
  | alarm (c : Fin 4) (now : ℕ)

def noteStart (si : Si) (s : Serial) : Serial :=
  match s.si.cntrl.chan, si.cntrl.chan with
  | none, some c => { s with
    si := si
    busId := s.pendingId c
    pendingId := update s.pendingId c none
    started := s.started ++ (s.pendingId c).toList }
  | _, _ => { s with si := si }

def noteAccepted (x : Xfer) (s : Serial) : Serial :=
  { s with
    accepted := s.accepted ++ [x]
    pendingId := update s.pendingId x.chan (some s.accepted.length) }

def responseBytes (regs : Bytes) (n : ℕ) : List UInt8 := (List.range n).map regs

def noteDelivered (resp : Bytes) (cb : Option (ℕ × Fin 4 × ℕ)) (s : Serial) : Serial :=
  { s with
    si := { s.si with cntrl := { s.si.cntrl with chan := none } }
    busId := none
    delivered := s.delivered ++ (match cb, s.busId with
      | some (cb, c, ret), some i =>
        [⟨i,cb,c,ret,s.si.cntrl.inBuf,responseBytes resp s.si.cntrl.inBytes⟩]
      | _, _ => []) }

def transferStep (wii : Bool) (x : Xfer) (usDelay now set : ℕ) (s : Serial) : Serial :=
  match siTransfer wii x usDelay now set s.si with
  | (false, si) => { s with si := si, time := set }
  | (true, si) => { noteStart si (noteAccepted x s) with time := set }

def completeStep (time : ℕ) (nows : List ℕ) (resp : Bytes) (sisr : ℕ) (comerr : Bool)
    (s : Serial) : Serial :=
  let r := siComplete time nows resp sisr comerr s.si
  { noteStart r.2 (noteDelivered resp r.1 s) with time := nows.getLastD time }

def alarmStep (c : Fin 4) (now : ℕ) (s : Serial) : Serial :=
  { noteStart (siAlarmhandler c (setAlarm c none s.si)) s with time := now }

def serialStep (wii : Bool) (a : Event) (s : Serial) : Serial :=
  match a with
  | .transfer x usDelay now set => transferStep wii x usDelay now set s
  | .complete time nows resp sisr comerr => completeStep time nows resp sisr comerr s
  | .alarm c now => alarmStep c now s

/-- The clock does not go back, a transfer is complete when one is on the bus,
and an alarm expires when it is set and its tick has come. -/
def possible (a : Event) (s : Serial) : Prop :=
  match a with
  | .transfer _ _ now set => s.time ≤ now ∧ now ≤ set
  | .complete time nows _ _ _ => s.si.cntrl.chan ≠ none ∧ s.time ≤ time ∧ nows.length = 4 ∧
    (time::nows).IsChain (· ≤ ·)
  | .alarm c now => s.time ≤ now ∧ ∃ e, s.si.alarm c = some e ∧ e ≤ now

/-! The numbers of the packets. -/

def pendingIds (f : Fin 4 → Option ℕ) : List ℕ := (List.finRange 4).filterMap f

variable {c : Fin 4} {s : Serial} (wii : Bool)

theorem pendingIds_take {f : Fin 4 → Option ℕ} {i : ℕ} (h : f c = some i) :
    (pendingIds f).Perm (i::pendingIds (update f c none)) := by
  have hnd := List.nodup_finRange 4
  have hc := List.mem_finRange c
  have hrest : ((List.finRange 4).erase c).filterMap (update f c none) =
      ((List.finRange 4).erase c).filterMap f := by
    apply List.filterMap_congr
    intro d hd
    have hne : d ≠ c := (hnd.mem_erase_iff.mp hd).1
    exact update_of_ne hne none f
  have hf := (List.perm_cons_erase hc).filterMap f
  have hg := (List.perm_cons_erase hc).filterMap (update f c none)
  rw [List.filterMap_cons_some h] at hf
  rw [List.filterMap_cons_none (update_self c none f), hrest] at hg
  exact hf.trans (hg.symm.cons i)

theorem pendingIds_put {f : Fin 4 → Option ℕ} (i : ℕ) (h : f c = none) :
    (pendingIds (update f c (some i))).Perm (i::pendingIds f) := by
  have ht := pendingIds_take (update_self c (some i) f)
  rwa [update_idem, ← h, update_eq_self] at ht

/-! Every accepted transfer is in one place. -/

def Right (accepted : List Xfer) (d : Delivery) : Prop :=
  ∃ x, accepted[d.id]? = some x ∧ d.cb = x.cb ∧ d.chan = x.chan ∧ d.addr = x.inBuf ∧
    d.bytes.length = x.inLen

structure Tracked (s : Serial) : Prop where
  waits : ∀ c p, s.si.packet c = some p →
    ∃ i, s.pendingId c = some i ∧ s.accepted[i]? = some (p.xfer c)
  empty : ∀ c, s.si.packet c = none → s.pendingId c = none
  bus : ∀ c, s.si.cntrl.chan = some c → ∃ i x, s.busId = some i ∧ s.accepted[i]? = some x ∧
    x.chan = c ∧ s.si.cntrl = ⟨some c,x.inLen,x.inBuf,some x.cb⟩
  free : s.si.cntrl.chan = none → s.busId = none
  apart : ∀ c, s.si.packet c ≠ none → s.si.cntrl.chan ≠ some c
  order : s.started = s.delivered.map (·.id) ++ s.busId.toList
  once : (pendingIds s.pendingId ++ s.started).Perm (List.range s.accepted.length)
  right : ∀ d ∈ s.delivered, Right s.accepted d

section Moves

variable {s : Serial} {si : Si} {c : Fin 4}

theorem Tracked.congr (h : Tracked s) (si : Si) (hp : si.packet = s.si.packet)
    (hc : si.cntrl = s.si.cntrl ∨ si.cntrl.chan = none ∧ s.si.cntrl.chan = none) :
    Tracked { s with si := si } := by
  have hchan : si.cntrl.chan = s.si.cntrl.chan := by
    rcases hc with hc | ⟨h1,h2⟩
    · rw [hc]
    · rw [h1, h2]
  refine ⟨fun c p hq => h.waits c p (hp ▸ hq),fun c hq => h.empty c (hp ▸ hq),fun c hb => ?_,
    fun hb => h.free (hchan ▸ hb),fun c hq hb => h.apart c (hp ▸ hq) (hchan ▸ hb),h.order,h.once,
    h.right⟩
  rcases hc with hc | ⟨h1,-⟩
  · obtain ⟨i,x,hi,hx,hxc,hcn⟩ := h.bus c (hchan ▸ hb)
    exact ⟨i,x,hi,hx,hxc,hc.trans hcn⟩
  · have hb' : si.cntrl.chan = some c := hb
    rw [h1] at hb'
    cases hb'

theorem Tracked.timed (h : Tracked s) (t : ℕ) : Tracked { s with time := t } :=
  ⟨h.waits,h.empty,h.bus,h.free,h.apart,h.order,h.once,h.right⟩

theorem noteStart_kept (si : Si) (s : Serial) :
    (noteStart si s).delivered = s.delivered ∧ (noteStart si s).si = si := by
  unfold noteStart
  split <;> exact ⟨rfl,rfl⟩

theorem noteStart_still (h : si.cntrl.chan = s.si.cntrl.chan) :
    noteStart si s = { s with si := si } := by
  unfold noteStart
  rw [h]
  cases s.si.cntrl.chan <;> rfl

theorem still_tracked (h : Tracked s) (si : Si) (hp : si.packet = s.si.packet)
    (hc : si.cntrl = s.si.cntrl) : Tracked (noteStart si s) := by
  rw [noteStart_still (by rw [hc])]
  exact h.congr si hp (.inl hc)

theorem noteStart_started (hb : s.si.cntrl.chan = none) (h : si.cntrl.chan = some c) :
    noteStart si s = { s with
      si := si
      busId := s.pendingId c
      pendingId := update s.pendingId c none
      started := s.started ++ (s.pendingId c).toList } := by
  unfold noteStart
  rw [hb, h]

theorem start_tracked (h : Tracked s) {p : SiPacket} (hb : s.si.cntrl.chan = none)
    (hp : s.si.packet c = some p) (hpk : si.packet = update s.si.packet c none)
    (hcn : si.cntrl = ⟨some c,p.inBytes,p.inBuf,some p.callback⟩) : Tracked (noteStart si s) := by
  obtain ⟨i,hi,hx⟩ := h.waits c p hp
  have hself : si.packet c = none := by rw [hpk, update_self]
  have hother : ∀ d, d ≠ c → si.packet d = s.si.packet d := fun d hd => by
    rw [hpk, update_of_ne hd]
  have hchan : si.cntrl.chan = some c := by rw [hcn]
  rw [noteStart_started hb hchan, hi]
  refine ⟨fun d q hq => ?_,fun d hq => ?_,fun d hd => ?_,fun hn => ?_,fun d hq hd => ?_,?_,?_,
    h.right⟩
  · have hd : d ≠ c := by
      rintro rfl
      exact absurd (hself.symm.trans hq) (by simp)
    obtain ⟨j,hj,hy⟩ := h.waits d q ((hother d hd).symm.trans hq)
    exact ⟨j,(update_of_ne hd none s.pendingId).trans hj,hy⟩
  · by_cases hd : d = c
    · subst hd
      exact update_self d none s.pendingId
    · exact (update_of_ne hd none s.pendingId).trans
        (h.empty d ((hother d hd).symm.trans hq))
  · obtain rfl : c = d := mem_unique hchan hd
    exact ⟨i,p.xfer c,rfl,hx,rfl,hcn⟩
  · exact absurd (hchan.symm.trans hn) (by simp)
  · obtain rfl : c = d := mem_unique hchan hd
    exact hq hself
  · have hbus := h.free hb
    rw [h.order, hbus]
    simp
  · have htake := (pendingIds_take hi).append_right s.started
    refine (List.Perm.trans ?_ htake.symm).trans h.once
    rw [← List.append_assoc]
    exact List.perm_append_singleton i _

theorem right_append {accepted : List Xfer} {d : Delivery} (h : Right accepted d) (x : Xfer) :
    Right (accepted ++ [x]) d := by
  obtain ⟨y,hy,hrest⟩ := h
  have hlt : d.id < accepted.length := (List.getElem?_eq_some_iff.mp hy).1
  exact ⟨y,(List.getElem?_append_left hlt).trans hy,hrest⟩

theorem accepted_append {accepted : List Xfer} {i : ℕ} {y : Xfer} (h : accepted[i]? = some y)
    (x : Xfer) : (accepted ++ [x])[i]? = some y :=
  (List.getElem?_append_left (List.getElem?_eq_some_iff.mp h).1).trans h

theorem pend_tracked (h : Tracked s) {x : Xfer} {fire : ℕ} (hb : busyChan x.chan s.si = false)
    (hpk : si.packet = update s.si.packet x.chan
      (some ⟨x.out,x.outLen,x.inBuf,x.inLen,x.cb,fire⟩)) (hcn : si.cntrl = s.si.cntrl) :
    Tracked { noteAccepted x s with si := si } := by
  simp only [busyChan, or_eq_false_iff, decide_eq_false_iff_not,
    isSome_eq_false_iff, isNone_iff_eq_none] at hb
  obtain ⟨hfree,hbus⟩ := hb
  have hself : si.packet x.chan = some ⟨x.out,x.outLen,x.inBuf,x.inLen,x.cb,fire⟩ := by
    rw [hpk, update_self]
  have hother : ∀ d, d ≠ x.chan → si.packet d = s.si.packet d := fun d hd => by
    rw [hpk, update_of_ne hd]
  have hnone := h.empty x.chan hfree
  refine ⟨fun d q hq => ?_,fun d hq => ?_,fun d hd => ?_,fun hn => h.free (hcn ▸ hn),
    fun d hq hd => ?_,h.order,?_,fun d hd => right_append (h.right d hd) x⟩
  · by_cases hd : d = x.chan
    · subst hd
      obtain rfl := mem_unique hself hq
      exact ⟨s.accepted.length,update_self _ _ _,by simp [noteAccepted, SiPacket.xfer]⟩
    · obtain ⟨j,hj,hy⟩ := h.waits d q ((hother d hd).symm.trans hq)
      exact ⟨j,(update_of_ne hd _ s.pendingId).trans hj,accepted_append hy x⟩
  · have hd : d ≠ x.chan := by
      rintro rfl
      exact absurd (hself.symm.trans hq) (by simp)
    exact (update_of_ne hd _ s.pendingId).trans (h.empty d ((hother d hd).symm.trans hq))
  · obtain ⟨i,y,hi,hy,hyc,hyn⟩ := h.bus d (hcn ▸ hd)
    exact ⟨i,y,hi,accepted_append hy x,hyc,hcn.trans hyn⟩
  · have hd' : s.si.cntrl.chan = some d := hcn ▸ hd
    by_cases hdx : d = x.chan
    · exact hbus (hdx ▸ hd')
    · exact h.apart d (fun hn => hq ((hother d hdx).trans hn)) hd'
  · have hput := (pendingIds_put s.accepted.length hnone).append_right s.started
    refine hput.trans ?_
    change (s.accepted.length::(pendingIds s.pendingId ++ s.started)).Perm
      (List.range (s.accepted ++ [x]).length)
    rw [List.length_append, List.length_singleton, List.range_succ]
    exact (h.once.cons _).trans (List.perm_append_singleton _ _).symm

theorem direct_tracked (h : Tracked s) {x : Xfer} (hb : busyChan x.chan s.si = false)
    (hn : s.si.cntrl.chan = none) (hpk : si.packet = s.si.packet)
    (hcn : si.cntrl = ⟨some x.chan,x.inLen,x.inBuf,some x.cb⟩) :
    Tracked (noteStart si (noteAccepted x s)) := by
  have hw := @pend_tracked s (pend x 0 s.si) h x 0 hb rfl rfl
  have hfree : s.si.packet x.chan = none := by
    simpa [busyChan] using (or_eq_false_iff.mp hb).1
  have hst := @start_tracked _ si x.chan hw _ hn (update_self _ _ _)
    (by
      change si.packet = update (update s.si.packet x.chan _) x.chan none
      rw [update_idem, hpk, ← hfree, update_eq_self]) hcn
  have hchan : si.cntrl.chan = some x.chan := by rw [hcn]
  rw [noteStart_started (s := { noteAccepted x s with si := pend x 0 s.si }) hn hchan] at hst
  rw [noteStart_started (s := noteAccepted x s) hn hchan]
  exact hst

theorem deliver_tracked (h : Tracked s) (hc : s.si.cntrl.chan = some c) (resp : Bytes) (ret : ℕ) :
    ∃ i x, s.busId = some i ∧ s.accepted[i]? = some x ∧ x.chan = c ∧
      s.si.cntrl = ⟨some c,x.inLen,x.inBuf,some x.cb⟩ ∧
      Tracked (noteDelivered resp (some (x.cb, c, ret)) s) ∧
      (noteDelivered resp (some (x.cb, c, ret)) s).delivered =
        s.delivered ++ [⟨i,x.cb,c,ret,x.inBuf,responseBytes resp x.inLen⟩] := by
  obtain ⟨i,x,hi,hx,hxc,hcn⟩ := h.bus c hc
  have hdel : (noteDelivered resp (some (x.cb, c, ret)) s).delivered =
      s.delivered ++ [⟨i,x.cb,c,ret,x.inBuf,responseBytes resp x.inLen⟩] := by
    unfold noteDelivered
    rw [hi, hcn]
  have hnone : ∀ d, (noteDelivered resp (some (x.cb, c, ret)) s).si.cntrl.chan ≠ some d :=
    fun d hd => some_ne_none d hd.symm
  refine ⟨i,x,hi,hx,hxc,hcn,⟨h.waits,h.empty,fun d hd => absurd hd (hnone d),fun _ => rfl,
    fun d _ => hnone d,?_,h.once,?_⟩,hdel⟩
  · rw [hdel]
    change s.started = _ ++ []
    rw [h.order, hi]
    simp
  · rw [hdel]
    intro d hd
    rcases List.mem_append.mp hd with hd | hd
    · exact h.right d hd
    · obtain rfl := List.mem_singleton.mp hd
      exact ⟨x,hx,rfl,hxc.symm,rfl,by simp [responseBytes]⟩

end Moves

/-! Steps. -/

section Steps

variable {s : Serial}

theorem alarm_tracked (h : Tracked s) (c : Fin 4) (now : ℕ) : Tracked (alarmStep c now s) := by
  refine Tracked.timed ?_ now
  rcases alarmhandler_cases c (setAlarm c none s.si) with ⟨-,heq⟩ | ⟨p,hp,hb,heq⟩
  · rw [heq]
    exact still_tracked h _ rfl rfl
  · rw [heq]
    exact start_tracked h hb hp rfl rfl

theorem transfer_tracked (h : Tracked s) (wii : Bool) (x : Xfer) (usDelay now set : ℕ) :
    Tracked (transferStep wii x usDelay now set s) := by
  have hpend : ∀ si : Si, ∀ fire, busyChan x.chan s.si = false → si.cntrl = s.si.cntrl →
      si.packet = s.si.packet → Tracked (noteStart (pend x fire si) (noteAccepted x s)) := by
    intro si fire hb hcn hpk
    have hstill : (pend x fire si).cntrl.chan = (noteAccepted x s).si.cntrl.chan :=
      congrArg SiCntrl.chan hcn
    rw [noteStart_still hstill]
    exact pend_tracked h hb (by rw [← hpk]; rfl) hcn
  unfold transferStep
  rcases transfer_cases wii x usDelay now set s.si with
    ⟨-,heq⟩ | ⟨hb,⟨e,heq⟩ | ⟨hn,heq⟩ | ⟨-,-,heq⟩⟩ <;> rw [heq]
  · exact h.timed set
  · exact (hpend (setAlarm x.chan (some e) s.si) _ hb rfl rfl).timed set
  · exact (@direct_tracked s (siStarted x s.si) h x hb hn rfl rfl).timed set
  · exact (hpend s.si _ hb rfl rfl).timed set

def completed (time : ℕ) (c : Fin 4) (resp : Bytes) (s : Si) : Si :=
  siCompletetransfer time c { s with
    regs := resp
    cntrl := { s.cntrl with callback := none } }

theorem complete_eq {si : Si} (hc : si.cntrl.chan = some c) (time : ℕ) (nows : List ℕ)
    (resp : Bytes) (sisr : ℕ) (comerr : Bool) : siComplete time nows resp sisr comerr si =
      (si.cntrl.callback.map (fun cb => (cb, c, siResult c sisr comerr)),
        siTransfernext ((after c).zip nows) (completed time c resp si)) := by
  unfold siComplete
  rw [hc]
  rfl

theorem complete_spec (h : Tracked s) (hc : s.si.cntrl.chan = some c) (time : ℕ) (nows : List ℕ)
    (resp : Bytes) (sisr : ℕ) (comerr : Bool) :
    Tracked (completeStep time nows resp sisr comerr s) ∧
      ∃ i x, s.busId = some i ∧ s.accepted[i]? = some x ∧
        (completeStep time nows resp sisr comerr s).delivered = s.delivered ++
          [⟨i,x.cb,x.chan,siResult x.chan sisr comerr,x.inBuf,responseBytes resp x.inLen⟩] ∧
        (completeStep time nows resp sisr comerr s).si.mem =
          blit resp 0 x.inBuf x.inLen s.si.mem := by
  obtain ⟨i,x,hi,hx,hxc,hcn,ht,hdel⟩ := deliver_tracked h hc resp (siResult c sisr comerr)
  have hcb : s.si.cntrl.callback = some x.cb := by rw [hcn]
  have hmem : (completed time c resp s.si).mem = blit resp 0 x.inBuf x.inLen s.si.mem := by
    change copyIn s.si.cntrl.inBuf s.si.cntrl.inBytes resp s.si.mem = _
    rw [hcn, copyIn_blit]
  subst hxc
  -- the next packet, if one is due, is started from the state without the complete one
  have hnext : Tracked (noteStart (siTransfernext ((after x.chan).zip nows)
        (completed time x.chan resp s.si))
      (noteDelivered resp (some (x.cb, x.chan, siResult x.chan sisr comerr)) s)) ∧
      (siTransfernext ((after x.chan).zip nows) (completed time x.chan resp s.si)).mem =
        (completed time x.chan resp s.si).mem := by
    rcases transfernext_cases ((after x.chan).zip nows) (s := completed time x.chan resp s.si) rfl
      with ⟨-,heq⟩ | ⟨e,-,p,hp,-,heq⟩
    · have hstill : (completed time x.chan resp s.si).cntrl.chan = (noteDelivered resp
          (some (x.cb, x.chan, siResult x.chan sisr comerr)) s).si.cntrl.chan := rfl
      rw [heq, noteStart_still hstill]
      exact ⟨ht.congr _ rfl (.inr ⟨rfl,rfl⟩),rfl⟩
    · rw [heq]
      exact ⟨start_tracked ht rfl hp rfl rfl,rfl⟩
  have hstep : completeStep time nows resp sisr comerr s = { noteStart
      (siTransfernext ((after x.chan).zip nows) (completed time x.chan resp s.si))
      (noteDelivered resp (some (x.cb, x.chan, siResult x.chan sisr comerr)) s) with
      time := nows.getLastD time } := by
    unfold completeStep
    rw [complete_eq hc, hcb]
    rfl
  rw [hstep]
  refine ⟨hnext.1.timed _,i,x,hi,hx,?_,?_⟩
  · exact (noteStart_kept _ _).1.trans hdel
  · change (noteStart _ _).si.mem = _
    rw [(noteStart_kept _ _).2, hnext.2, hmem]

theorem transfer_silent (x : Xfer) (usDelay now set : ℕ) :
    (transferStep wii x usDelay now set s).delivered = s.delivered ∧
      (transferStep wii x usDelay now set s).si.mem = s.si.mem := by
  have hkept : ∀ si : Si, si.mem = s.si.mem →
      (noteStart si (noteAccepted x s)).delivered = s.delivered ∧
        (noteStart si (noteAccepted x s)).si.mem = s.si.mem := by
    intro si hm
    obtain ⟨hd,hsi⟩ := noteStart_kept si (noteAccepted x s)
    exact ⟨hd,by rw [hsi, hm]⟩
  unfold transferStep
  rcases transfer_cases wii x usDelay now set s.si with
    ⟨-,heq⟩ | ⟨-,⟨e,heq⟩ | ⟨-,heq⟩ | ⟨-,-,heq⟩⟩ <;> rw [heq]
  · exact ⟨rfl,rfl⟩
  · exact hkept (pend x _ (setAlarm x.chan (some e) s.si)) rfl
  · exact hkept (siStarted x s.si) rfl
  · exact hkept (pend x _ s.si) rfl

theorem alarm_silent (c : Fin 4) (now : ℕ) : (alarmStep c now s).delivered = s.delivered ∧
    (alarmStep c now s).si.mem = s.si.mem := by
  refine ⟨(noteStart_kept _ _).1,(congrArg Si.mem (noteStart_kept _ _).2).trans ?_⟩
  rcases alarmhandler_cases c (setAlarm c none s.si) with ⟨-,heq⟩ | ⟨p,-,-,heq⟩ <;> rw [heq] <;> rfl

theorem step_tracked {a : Event} (h : Tracked s) (hp : possible a s) :
    Tracked (serialStep wii a s) := by
  cases a with
  | transfer x usDelay now set => exact transfer_tracked h wii x usDelay now set
  | complete time nows resp sisr comerr =>
    obtain ⟨c,hc⟩ := ne_none_iff_exists'.mp hp.1
    exact (complete_spec h hc time nows resp sisr comerr).1
  | alarm c now => exact alarm_tracked h c now

end Steps

theorem init_tracked (mem : Bytes) : Tracked (serialInit mem) where
  waits _ _ h := by cases h
  empty _ _ := rfl
  bus _ h := by cases h
  free _ := rfl
  apart _ h := absurd rfl h
  order := rfl
  once := by
    change (pendingIds (fun _ => none) ++ []).Perm []
    rw [List.append_nil, pendingIds, List.filterMap_none]
  right _ h := absurd h List.not_mem_nil

def SerialRun (wii : Bool) (cond : Event → Serial → Prop) (mem : Bytes) : Serial → Prop :=
  Reach (fun a s => some (serialStep wii a s)) (fun a s => possible a s ∧ cond a s) (serialInit mem)

/-- The numbers of the accepted transfers are those that wait and those that
have been started, each once, and a transfer that has been started is delivered
or on the bus. -/
structure DeliveredOnce (wii : Bool) (s : Serial) : Prop where
  exclusive : s.started = s.delivered.map (·.id) ++ s.busId.toList
  once : (pendingIds s.pendingId ++ s.started).Perm (List.range s.accepted.length)
  held : ∀ c, (s.si.packet c).isSome = (s.pendingId c).isSome
  onBus : s.si.cntrl.chan.isSome = s.busId.isSome
  right : ∀ d ∈ s.delivered, Right s.accepted d
  refused : ∀ x usDelay now set, (siTransfer wii x usDelay now set s.si).1 = false ↔
    s.si.packet x.chan ≠ none ∨ s.si.cntrl.chan = some x.chan
  completes : ∀ time nows resp sisr comerr, s.si.cntrl.chan ≠ none →
    ∃ i x, s.busId = some i ∧ s.accepted[i]? = some x ∧
      (completeStep time nows resp sisr comerr s).delivered = s.delivered ++
        [⟨i,x.cb,x.chan,siResult x.chan sisr comerr,x.inBuf,responseBytes resp x.inLen⟩] ∧
      (completeStep time nows resp sisr comerr s).si.mem = blit resp 0 x.inBuf x.inLen s.si.mem
  silent : ∀ a, (∀ time nows resp sisr comerr, a ≠ .complete time nows resp sisr comerr) →
    (serialStep wii a s).delivered = s.delivered ∧ (serialStep wii a s).si.mem = s.si.mem

theorem tracked_once (h : Tracked s) : DeliveredOnce wii s where
  exclusive := h.order
  once := h.once
  held c := by
    cases hp : s.si.packet c with
    | none => rw [h.empty c hp]; rfl
    | some p =>
      obtain ⟨i,hi,-⟩ := h.waits c p hp
      rw [hi]
      rfl
  onBus := by
    cases hb : s.si.cntrl.chan with
    | none => rw [h.free hb]; rfl
    | some c =>
      obtain ⟨i,x,hi,-⟩ := h.bus c hb
      rw [hi]
      rfl
  right := h.right
  refused x usDelay now set := by
    have hbusy : busyChan x.chan s.si = true ↔
        s.si.packet x.chan ≠ none ∨ s.si.cntrl.chan = some x.chan := by
      simp [busyChan, isSome_iff_ne_none]
    rw [← hbusy]
    rcases transfer_cases wii x usDelay now set s.si with
      ⟨hb,heq⟩ | ⟨hb,⟨e,heq⟩ | ⟨-,heq⟩ | ⟨-,-,heq⟩⟩ <;> rw [heq, hb] <;> simp
  completes time nows resp sisr comerr hne := by
    obtain ⟨c,hc⟩ := ne_none_iff_exists'.mp hne
    exact (complete_spec h hc time nows resp sisr comerr).2
  silent a ha := by
    cases a with
    | transfer x usDelay now set => exact transfer_silent wii x usDelay now set
    | complete time nows resp sisr comerr => exact absurd rfl (ha time nows resp sisr comerr)
    | alarm c now => exact alarm_silent c now

theorem reach_tracked {wii : Bool} {cond : Event → Serial → Prop} {mem : Bytes}
    (h : SerialRun wii cond mem s) : Tracked s := by
  refine reach_invariant (init_tracked mem) ?_ h
  intro a s s' hi hok hs
  cases hs
  exact step_tracked wii hi hok.1

def admits (a : Event) (s : Serial) : Bool :=
  match a with
  | .transfer _ _ now set => decide (s.time ≤ now ∧ now ≤ set)
  | .complete time nows _ _ _ => s.si.cntrl.chan.isSome && decide (s.time ≤ time ∧
    nows.length = 4 ∧ (time::nows).IsChain (· ≤ ·))
  | .alarm c now => decide (s.time ≤ now) && (s.si.alarm c).any (fun e => decide (e ≤ now))

theorem admits_possible {a : Event} (h : admits a s = true) : possible a s := by
  cases a with
  | transfer x usDelay now set =>
    rw [admits, decide_eq_true_eq] at h
    exact h
  | complete time nows resp sisr comerr =>
    rw [admits, and_eq_true, isSome_iff_ne_none, decide_eq_true_eq] at h
    exact h
  | alarm c now =>
    rw [admits, and_eq_true, decide_eq_true_eq, any_eq_true] at h
    obtain ⟨ht,e,he,hle⟩ := h
    exact ⟨ht,e,he,of_decide_eq_true hle⟩

theorem transfers_delivered_once (wii : Bool) (mem : Bytes) {s : Serial}
    (h : SerialRun wii (fun _ _ => True) mem s) : DeliveredOnce wii s :=
  tracked_once wii (reach_tracked h)

/-- A transfer on the first channel is delivered while one on the second, which
had to wait, is on the bus. -/
theorem transfers_delivered_second : ∃ s, SerialRun false (fun _ _ => True) (fun _ => 0) s ∧
    s.delivered = [⟨0,7,0,0,16,[1, 1, 1]⟩] ∧ s.busId = some 1 ∧ DeliveredOnce false s := by
  have hrun : (runChecked (fun a s => some (serialStep false a s)) admits
      [.transfer ⟨0,0,1,16,3,7⟩ 0 5 5, .transfer ⟨1,0,1,32,8,9⟩ 0 6 6,
        .complete 8 [8, 8, 8, 8] (fun _ => 1) 0 false] (serialInit (fun _ => 0))).any
      (fun s => decide (s.delivered = [⟨0,7,0,0,16,[1, 1, 1]⟩] ∧ s.busId = some 1)) = true := by
    decide +kernel
  obtain ⟨s,hreach,h1,h2⟩ : ∃ s, SerialRun false (fun _ _ => True) (fun _ => 0) s ∧ _ :=
    run_reaches (fun _ _ h => ⟨admits_possible h,trivial⟩) hrun
  exact ⟨s,hreach,h1,h2,transfers_delivered_once false _ hreach⟩

end Libogc.SerialTransfers
