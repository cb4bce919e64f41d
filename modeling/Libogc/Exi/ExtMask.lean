import Libogc.Exi.Bus

/-!
# The mask of the external interrupts

An external interrupt of a channel is to be let through just if a device is
attached to the channel and the channel is not selected. Each section says what
it does to the attach and select flags of its channel and to that mask, and
leaves the mask of the other channel alone.
-/

set_option autoImplicit false

namespace Libogc.ExtMask
open GuardedReach Interrupt InterruptLines ExiBus BitVec

def extOf (s : Exi) (c : Fin 3) : Bool := enabled s.hw (extIrq c)

section Registers

variable (wii : Bool) (s : Exi) {c d : Fin 3}

theorem extIrq_mem (hd : d ≠ 2) : extIrq d ∈ irqs wii ∧ extIrq d ∉ memLines := by
  have hall : ∀ wii, ∀ d : Fin 3, d ≠ 2 → extIrq d ∈ irqs wii ∧ extIrq d ∉ memLines := by decide
  exact hall wii d hd

theorem ext_irqEnable (hd : d ≠ 2) (m : BitVec 32) :
    extOf (irqEnable wii m s) d = (has m (extIrq d) || extOf s d) :=
  enable_enabled wii m s.hw (extIrq_mem wii hd).1 (extIrq_mem wii hd).2

theorem ext_irqDisable (hd : d ≠ 2) (m : BitVec 32) :
    extOf (irqDisable wii m s) d = (!has m (extIrq d) && extOf s d) :=
  disable_enabled wii m s.hw (extIrq_mem wii hd).1 (extIrq_mem wii hd).2

theorem ext_readReg (hd : d ≠ 2) : extOf s d = (readReg d s).getLsbD 10 := by
  match d, hd with
  | 0, _ => rfl
  | 1, _ => rfl
  | 2, h => exact absurd rfl h

theorem readReg_write (v : BitVec 32) :
    (readReg d (writeReg c v s)).getLsbD 10 = if d = c then v.getLsbD 10
      else (readReg d s).getLsbD 10 := by
  have hself : ∀ r : DevReg 32, ((r.write v).read exiStatus).getLsbD 10 = v.getLsbD 10 :=
    fun r => read_write exiStatus v r (by decide) (by decide)
  match c, d with
  | 0, 0 => exact hself _
  | 1, 1 => exact hself _
  | 2, 2 => exact hself _
  | 0, 1 => rfl
  | 0, 2 => rfl
  | 1, 0 => rfl
  | 1, 2 => rfl
  | 2, 0 => rfl
  | 2, 1 => rfl

theorem ext_writeReg (hd : d ≠ 2) (v : BitVec 32) :
    extOf (writeReg c v s) d = if d = c then v.getLsbD 10 else extOf s d := by
  rw [ext_readReg _ hd, readReg_write, ext_readReg _ hd]

theorem ext_writeReg_same (hd : d ≠ 2) {v : BitVec 32}
    (hv : v.getLsbD 10 = (readReg c s).getLsbD 10) : extOf (writeReg c v s) d = extOf s d := by
  rw [ext_writeReg s hd]
  split
  · rename_i he
    rw [hv, ext_readReg s hd, he]
  · rfl

theorem ext_clearirqs (hd : d ≠ 2) (a b e : Bool) :
    extOf (exiClearirqs c a b e s) d = extOf s d := by
  apply ext_writeReg_same s hd
  have h1 : (if a then (0x2 : BitVec 32) else 0).getLsbD 10 = false := by cases a <;> decide
  have h2 : (if b then (0x8 : BitVec 32) else 0).getLsbD 10 = false := by cases b <;> decide
  have h3 : (if e then exiExtIrq else 0).getLsbD 10 = false := by cases e <;> decide
  simp only [getLsbD_or, h1, h2, h3]
  simp

theorem ext_setinterrupts (hd : d ≠ 2) : extOf (exiSetinterrupts wii c s) d = extOf s d := by
  have hnone : ∀ m, has m (extIrq d) = false →
      extOf (irqEnable wii m s) d = extOf s d ∧ extOf (irqDisable wii m s) d = extOf s d := by
    intro m hm
    rw [ext_irqEnable wii s hd, ext_irqDisable wii s hd, hm]
    simp
  have hexi : ∀ d : Fin 3, d ≠ 2 → has (irqMask .exi0Exi ||| irqMask .exi2Exi) (extIrq d) = false ∧
      has (irqMask .exi1Exi) (extIrq d) = false ∧ has (irqMask .piDebug) (extIrq d) = false := by
    decide
  obtain ⟨h0,h1,h2⟩ := hexi d hd
  unfold exiSetinterrupts
  dsimp only
  split
  · split
    · exact (hnone _ h0).1
    · exact (hnone _ h0).2
  · split
    · exact (hnone _ h1).1
    · exact (hnone _ h1).2
  · split
    · exact (hnone _ h2).1
    · exact (hnone _ h2).2

end Registers

/-! What a section does to its channel, and to the others. -/

/-- After a section on a channel, with the flags and the mask of the channel. -/
structure After (c : Fin 3) (s s' : Exi) (attach select ext : Bool) : Prop where
  attach : (s'.chan c).attach = attach
  select : (s'.chan c).select = select
  ext : c ≠ 2 → extOf s' c = ext
  chan : ∀ d, d ≠ c → s'.chan d = s.chan d
  other : ∀ d, d ≠ 2 → d ≠ c → extOf s' d = extOf s d

def Same (c : Fin 3) (s s' : Exi) : Prop :=
  After c s s' (s.chan c).attach (s.chan c).select (extOf s c)

section Sections

variable (wii : Bool) {s s' s'' : Exi} {c : Fin 3}

theorem same_refl {c : Fin 3} {s : Exi} : Same c s s :=
  ⟨rfl,rfl,fun _ => rfl,fun _ _ => rfl,fun _ _ _ => rfl⟩

variable {a b e : Bool} {x : Channel} {m : BitVec 32} {t : Exi}

theorem Same.trans (h : Same c s s') (h' : After c s' s'' a b e) : After c s s'' a b e :=
  ⟨h'.attach,h'.select,h'.ext,fun d hd => (h'.chan d hd).trans (h.chan d hd),
    fun d h2 hd => (h'.other d h2 hd).trans (h.other d h2 hd)⟩

theorem Same.comp (h : Same c s s') (h' : Same c s' s'') : Same c s s'' :=
  h.trans ⟨h'.attach.trans h.attach,h'.select.trans h.select,fun hc => (h'.ext hc).trans (h.ext hc),
    h'.chan,h'.other⟩

theorem setChan_self (x : Channel) (s : Exi) : (setChan c x s).chan c = x := by
  simp [setChan]

theorem setChan_other {d : Fin 3} (h : d ≠ c) (x : Channel) (s : Exi) :
    (setChan c x s).chan d = s.chan d := by
  simp [setChan, h]

theorem after_setChan (x : Channel) : After c s (setChan c x s) x.attach x.select (extOf s c) :=
  ⟨by rw [setChan_self],by rw [setChan_self],fun _ => rfl,fun _ hd => setChan_other hd x s,
    fun _ _ _ => rfl⟩

theorem After.setFlags (h : After c s s' a b e) {a' b' : Bool}
    (ha : x.attach = a') (hb : x.select = b') : After c s (setChan c x s') a' b' e :=
  ⟨by rw [setChan_self, ha],by rw [setChan_self, hb],fun hc => h.ext hc,
    fun d hd => (setChan_other hd x s').trans (h.chan d hd),h.other⟩

theorem same_setChan (hx : (x.attach,x.select) = ((s.chan c).attach,(s.chan c).select)) :
    Same c s (setChan c x s) := by
  have h := after_setChan (c := c) (s := s) x
  rw [(Prod.mk.inj hx).1, (Prod.mk.inj hx).2] at h
  exact h

theorem same_of_hw (hchan : s'.chan = s.chan) (hext : ∀ d, d ≠ 2 → extOf s' d = extOf s d) :
    Same c s s' :=
  ⟨by rw [hchan],by rw [hchan],fun hc => hext c hc,fun d _ => by rw [hchan],fun d h2 _ => hext d h2⟩

theorem clearirqs_same (a b e : Bool) : Same c s (exiClearirqs c a b e s) :=
  same_of_hw rfl (fun _ hd => ext_clearirqs s hd a b e)

theorem setinterrupts_same : Same c s (exiSetinterrupts wii c s) := by
  refine same_of_hw ?_ (fun _ hd => ext_setinterrupts wii s hd)
  unfold exiSetinterrupts
  dsimp only
  split <;> split <;> rfl

theorem probeIrq_same : Same c s (probeIrq c s) := by
  unfold probeIrq
  split
  · exact (clearirqs_same false false true).comp (same_setChan rfl)
  · exact same_refl

theorem probeTime_same (time : ℕ) : Same c s (probeTime c time s) := by
  unfold probeTime
  split
  · exact same_setChan rfl
  · exact same_refl

theorem probe_same (time : ℕ) : Same c s (exiProbe wii c time s).2 := by
  unfold exiProbe
  split
  · exact same_refl
  split
  · dsimp only
    split
    · exact probeIrq_same.comp (probeTime_same time)
    · exact probeIrq_same.comp (same_setChan rfl)
  split
  · exact same_setChan rfl
  · exact same_refl

theorem lock_same (dev : Fin 3) (cb : Option UnlockCb) : Same c s (exiLock wii c dev cb s).2 := by
  unfold exiLock
  dsimp only
  split
  · split
    · exact same_refl
    · split
      · exact same_refl
      · have hpool : Same c s { s with pool := s.pool-1 } := same_of_hw rfl (fun _ _ => rfl)
        exact hpool.comp (same_setChan rfl)
  · refine Same.comp ?_ (setinterrupts_same wii)
    exact same_setChan rfl

theorem unlock_same : Same c s (exiUnlock wii c s).2.2 := by
  unfold exiUnlock
  dsimp only
  split
  · exact same_refl
  have hlock : Same c s (exiSetinterrupts wii c
      (setChan c { s.chan c with locked := false } s)) := by
    refine Same.comp ?_ (setinterrupts_same wii)
    exact same_setChan rfl
  split
  · exact hlock
  · have hpool : ∀ (t : Exi) (n : ℕ), Same c t { t with pool := n } :=
      fun _ _ => same_of_hw rfl (fun _ _ => rfl)
    exact (hlock.comp (hpool _ _)).comp (same_setChan rfl)

theorem enable_after (hself : c ≠ 2 → has m (extIrq c) = true)
    (hother : ∀ d, d ≠ 2 → d ≠ c → has m (extIrq d) = false) :
    After c s (irqEnable wii m s) (s.chan c).attach (s.chan c).select true :=
  ⟨rfl,rfl,fun hc => by rw [ext_irqEnable wii s hc, hself hc, Bool.true_or],fun _ _ => rfl,
    fun d h2 hd => by rw [ext_irqEnable wii s h2, hother d h2 hd, Bool.false_or]⟩

theorem disable_after (hself : c ≠ 2 → has m (extIrq c) = true)
    (hother : ∀ d, d ≠ 2 → d ≠ c → has m (extIrq d) = false) :
    After c s (irqDisable wii m s) (s.chan c).attach (s.chan c).select false :=
  ⟨rfl,rfl,fun hc => by rw [ext_irqDisable wii s hc, hself hc, Bool.not_true, Bool.false_and],
    fun _ _ => rfl,fun d h2 hd => by
      rw [ext_irqDisable wii s h2, hother d h2 hd, Bool.not_false, Bool.true_and]⟩

def Attaches (c : Fin 3) (s s' : Exi) : Prop :=
  Same c s s' ∨ (s.chan c).attach = false ∧ After c s s' true (s.chan c).select true

theorem attachSection_after (cb : Option ℕ) (time : ℕ) :
    Attaches c s (exiAttachSection wii c cb time s).2 := by
  have hmask : ∀ c : Fin 3, (c ≠ 2 → has (irqMask .exi0Ext >>> (c.val*3)) (extIrq c) = true) ∧
      ∀ d, d ≠ 2 → d ≠ c → has (irqMask .exi0Ext >>> (c.val*3)) (extIrq d) = false := by decide
  have hprobe := probe_same wii (s := s) (c := c) time
  unfold exiAttachSection
  split
  · exact .inl same_refl
  rename_i ha
  split
  · rename_i u hu
    rw [hu] at hprobe
    exact .inl hprobe
  · rename_i u hu
    rw [hu] at hprobe
    refine .inr ⟨by simpa using ha,?_⟩
    have hpre : Same c s
      (setChan c { (exiClearirqs c true false false u).chan c with callbackExt := cb }
        (exiClearirqs c true false false u)) := by
      refine (hprobe.comp (clearirqs_same true false false)).comp ?_
      exact same_setChan rfl
    have hen := hpre.trans (enable_after wii (hmask c).1 (hmask c).2)
    exact hen.setFlags rfl (hen.select.trans hpre.select)

theorem select_word (frq : Fin 8) (cs : BitVec 32) (hcs : cs.getLsbD 10 = false) :
    (selectWord c cs frq s).getLsbD 10 = (readReg c s).getLsbD 10 := by
  have hkeep : ∀ b, (b && (0x405 : BitVec 32).getLsbD 10) = b := by decide
  have hfrq : ∀ frq : Fin 8, (BitVec.ofNat 32 frq.val <<< 4).getLsbD 10 = false := by decide
  simp only [selectWord, getLsbD_or, getLsbD_and, hcs, hfrq, Bool.or_false]
  exact hkeep _

theorem attached_after (h : After c s t (s.chan c).attach (s.chan c).select e) :
    After c s (if (s.chan c).attach then t else s) (s.chan c).attach (s.chan c).select
      (if (s.chan c).attach then e else extOf s c) := by
  split
  · exact h
  · exact same_refl

theorem maskExt_after : After c s (maskExt wii c s) (s.chan c).attach (s.chan c).select
    (!(s.chan c).attach && extOf s c) := by
  have hflag : (!(s.chan c).attach && extOf s c) =
      if (s.chan c).attach then false else extOf s c := by cases (s.chan c).attach <;> rfl
  rw [hflag]
  refine attached_after ?_
  split
  · exact disable_after wii (fun _ => by decide) (by decide)
  · exact disable_after wii (fun _ => by decide) (by decide)
  · exact ⟨rfl,rfl,fun hc => absurd rfl hc,fun _ _ => rfl,fun _ _ _ => rfl⟩

theorem unmaskExt_after : After c s (unmaskExt wii c s) (s.chan c).attach (s.chan c).select
    ((s.chan c).attach || extOf s c) := by
  have hflag : ((s.chan c).attach || extOf s c) =
      if (s.chan c).attach then true else extOf s c := by cases (s.chan c).attach <;> rfl
  rw [hflag]
  refine attached_after ?_
  split
  · exact enable_after wii (fun _ => by decide) (by decide)
  · exact enable_after wii (fun _ => by decide) (by decide)
  · exact ⟨rfl,rfl,fun hc => absurd rfl hc,fun _ _ => rfl,fun _ _ _ => rfl⟩

theorem After.then {f : Bool → Bool → Bool}
    (hset : After c s s' a b (extOf s c)) (hw : Same c s' s'')
    (hm : After c s'' t (s''.chan c).attach (s''.chan c).select
      (f (s''.chan c).attach (extOf s'' c))) : After c s t a b (f a (extOf s c)) := by
  have ha := hw.attach.trans hset.attach
  refine ⟨hm.attach.trans ha,hm.select.trans (hw.select.trans hset.select),?_,?_,?_⟩
  · intro hc
    rw [hm.ext hc, ha, hw.ext hc, hset.ext hc]
  · exact fun d hd => (hm.chan d hd).trans ((hw.chan d hd).trans (hset.chan d hd))
  · exact fun d h2 hd => (hm.other d h2 hd).trans ((hw.other d h2 hd).trans (hset.other d h2 hd))

theorem selected_after (cs : BitVec 32) (hcs : cs.getLsbD 10 = false) (frq : Fin 8) :
    After c s (selected wii c cs frq s) (s.chan c).attach true
      (!(s.chan c).attach && extOf s c) := by
  have hset : After c s (setChan c { s.chan c with select := true } s) (s.chan c).attach true
      (extOf s c) := after_setChan _
  have hw : Same c (setChan c { s.chan c with select := true } s)
      (writeReg c (selectWord c cs frq (setChan c { s.chan c with select := true } s))
        (setChan c { s.chan c with select := true } s)) :=
    same_of_hw rfl (fun d hd => ext_writeReg_same _ hd (select_word frq cs hcs))
  exact hset.then (f := fun a e => !a && e) hw (maskExt_after wii)

def Selects (c : Fin 3) (s : Exi) (r : Bool × Exi) : Prop :=
  Same c s r.2 ∨ After c s r.2 (s.chan c).attach true (!(s.chan c).attach && extOf s c)

theorem cs_bit (dev : Fin 3) : (0x80 <<< dev.val : BitVec 32).getLsbD 10 = false := by
  revert dev
  decide

theorem select_after (dev : Fin 3) (frq : Fin 8) (time : ℕ) :
    Selects c s (exiSelect wii c dev frq time s) := by
  have hsel : ∀ t, Same c s t → Selects c s (if holdsBus c dev t then
      (true, selected wii c (0x80 <<< dev.val) frq t) else (false, t)) := by
    intro t ht
    split
    · have h := ht.trans (selected_after wii _ (cs_bit dev) frq)
      refine .inr ⟨h.attach.trans ht.attach,h.select,fun hc => ?_,h.chan,h.other⟩
      rw [h.ext hc, ht.attach, ht.ext hc]
    · exact .inl ht
  unfold exiSelect
  split
  · exact .inl same_refl
  split
  · exact .inr (selected_after wii _ (cs_bit dev) frq)
  split
  · rename_i t ht
    split at ht
    · have hp := probe_same wii (s := s) (c := c) time
      rw [ht] at hp
      exact .inl hp
    · cases ht
  · rename_i t ht
    split at ht
    · have hp := probe_same wii (s := s) (c := c) time
      rw [ht] at hp
      exact hsel t hp
    · cases ht
      exact hsel s same_refl

theorem selectSD_after (dev : Fin 3) (frq : Fin 8) (probed : Bool) :
    Selects c s (exiSelectSD wii c dev frq probed s) := by
  have hsel := selected_after wii (s := s) (c := c) 0 (by decide) frq
  unfold exiSelectSD
  split
  · exact .inl same_refl
  split
  · exact .inr hsel
  split
  · exact .inl same_refl
  split
  · exact .inr hsel
  · exact .inl same_refl

theorem deselect_after : Same c s (exiDeselect wii c s).2 ∨
    After c s (exiDeselect wii c s).2 (s.chan c).attach false
      ((s.chan c).attach || extOf s c) := by
  unfold exiDeselect
  split
  · exact .inl same_refl
  refine .inr ?_
  have hset : After c s (setChan c { s.chan c with select := false } s) (s.chan c).attach false
      (extOf s c) := after_setChan _
  have hw : ∀ t : Exi, Same c t (writeReg c (readReg c t &&& 0x405) t) := by
    intro t
    refine same_of_hw rfl (fun d hd => ext_writeReg_same _ hd ?_)
    have hkeep : ∀ b, (b && (0x405 : BitVec 32).getLsbD 10) = b := by decide
    rw [getLsbD_and]
    exact hkeep _
  exact hset.then (hw _) (unmaskExt_after wii)

theorem detach_after : Same c s (exiDetach wii c s).2 ∨
    After c s (exiDetach wii c s).2 false (s.chan c).select false := by
  have hmask : ∀ c : Fin 3,
      (c ≠ 2 → has ((irqMask .exi0Exi ||| irqMask .exi0Ext) >>> (c.val*3)) (extIrq c) = true) ∧
      ∀ d, d ≠ 2 → d ≠ c →
        has ((irqMask .exi0Exi ||| irqMask .exi0Ext) >>> (c.val*3)) (extIrq d) = false := by decide
  unfold exiDetach
  dsimp only
  split
  · exact .inl same_refl
  split
  · exact .inl same_refl
  refine .inr ?_
  have hset : After c s (setChan c { s.chan c with attach := false } s) false (s.chan c).select
      (extOf s c) := after_setChan _
  have hdis := disable_after wii (s := setChan c { s.chan c with attach := false } s)
    (hmask c).1 (hmask c).2
  exact ⟨hdis.attach.trans hset.attach,hdis.select.trans hset.select,hdis.ext,
    fun d hd => (hdis.chan d hd).trans (hset.chan d hd),
    fun d h2 hd => (hdis.other d h2 hd).trans (hset.other d h2 hd)⟩

/-- The handler takes the device off and leaves the interrupt as it is, since
the mask that it disables is empty. -/
theorem extIrqHandler_after (hc : c ≠ 2) :
    After c s (extIrqHandler wii c s).2 false (s.chan c).select (extOf s c) := by
  have hmask : ∀ c d : Fin 3, c ≠ 2 → d ≠ 2 →
      has ((irqMask .exi0Exi ||| irqMask .exi0Ext) >>> ((extIrq c).num*3)) (extIrq d) = false := by
    decide
  have hdis : Same c s (irqDisable wii
      ((irqMask .exi0Exi ||| irqMask .exi0Ext) >>> ((extIrq c).num*3)) s) := by
    refine same_of_hw rfl (fun d hd => ?_)
    rw [ext_irqDisable wii s hd, hmask c d hc hd, Bool.not_false, Bool.true_and]
  exact (hdis.comp (clearirqs_same false false true)).setFlags rfl
    ((clearirqs_same false false true).select.trans hdis.select)

theorem identified_same (idtime id : ℕ) : Same c s (exiIdentified c idtime id s).2 := by
  unfold exiIdentified
  dsimp only
  split
  · exact same_refl
  · exact same_setChan rfl

end Sections

/-! Runs. -/

/-- A section of `exi.c`, an interrupt, or a change at the socket of a channel. -/
inductive Event where
  | probe (time : ℕ)
  | attach (cb : Option ℕ) (time : ℕ)
  -- EXI_GetID attaches the device while it reads the identification
  | attachId (time : ℕ)
  | identified (idtime id : ℕ)
  | lock (dev : Fin 3) (cb : Option UnlockCb)
  | unlock
  | select (dev : Fin 3) (frq : Fin 8) (time : ℕ)
  | selectSD (dev : Fin 3) (frq : Fin 8) (probed : Bool)
  | deselect
  | detach
  | ext
  | device (present : Bool) (sts : BitVec 32) (pi0 : BitVec 32)
  deriving DecidableEq, Repr

def deviceChange (c : Fin 3) (present : Bool) (sts pi0 : BitVec 32) (s : Exi) : Exi :=
  let s := setChan c { s.chan c with present := present } s
  { s with hw := { setReg c { reg c s.hw with sts := sts } s.hw with pi0 := pi0 } }

def eventStep (wii : Bool) (a : Fin 3 × Event) (s : Exi) : Exi :=
  match a.2 with
  | .probe time => (exiProbe wii a.1 time s).2
  | .attach cb time => (exiAttach wii a.1 cb time s).2
  | .attachId time => (exiAttachSection wii a.1 none time s).2
  | .identified idtime id => (exiIdentified a.1 idtime id s).2
  | .lock dev cb => (exiLock wii a.1 dev cb s).2
  | .unlock => (exiUnlock wii a.1 s).2.2
  | .select dev frq time => (exiSelect wii a.1 dev frq time s).2
  | .selectSD dev frq probed => (exiSelectSD wii a.1 dev frq probed s).2
  | .deselect => (exiDeselect wii a.1 s).2
  | .detach => (exiDetach wii a.1 s).2
  | .ext => (extIrqHandler wii a.1 s).2
  | .device present sts pi0 => deviceChange a.1 present sts pi0 s

def possible (a : Fin 3 × Event) (s : Exi) : Prop :=
  a.2 = .ext → a.1 ≠ 2 ∧ active s.hw (extIrq a.1) = true

/-- The step reaches `__exi_attach`. -/
def attaching (a : Fin 3 × Event) (s : Exi) : Bool :=
  match a.2 with
  | .attach _ _ => decide ((s.chan a.1).exiIdtime ≠ 0)
  | .attachId _ => true
  | _ => false

/-- No external interrupt comes, and a device is not newly attached to a channel
that is selected. -/
def undisturbed (a : Fin 3 × Event) (s : Exi) : Prop :=
  a.2 ≠ .ext ∧ (attaching a s = true →
    a.1 = 2 ∨ (s.chan a.1).select = false ∨ (s.chan a.1).attach = true)

def Masked (s : Exi) : Prop :=
  ∀ c, c ≠ 2 → extOf s c = ((s.chan c).attach && !(s.chan c).select)

section Events

variable (wii : Bool) {s : Exi} {c : Fin 3}

def Right (c : Fin 3) (attach select ext : Bool) : Prop := c ≠ 2 → ext = (attach && !select)

def Keeps (c : Fin 3) (s s' : Exi) : Prop :=
  ∃ a b e, After c s s' a b e ∧
    (Right c (s.chan c).attach (s.chan c).select (extOf s c) → Right c a b e)

theorem Same.keeps {s' : Exi} (h : Same c s s') : Keeps c s s' := ⟨_,_,_,h,id⟩

theorem select_keeps {r : Bool × Exi} (h : Selects c s r) : Keeps c s r.2 := by
  rcases h with h | h
  · exact h.keeps
  · refine ⟨_,_,_,h,fun hr hc => ?_⟩
    rw [hr hc]
    cases (s.chan c).attach <;> rfl

theorem deselect_keeps : Keeps c s (exiDeselect wii c s).2 := by
  rcases deselect_after wii with h | h
  · exact h.keeps
  · refine ⟨_,_,_,h,fun hr hc => ?_⟩
    rw [hr hc]
    cases (s.chan c).attach <;> rfl

theorem detach_keeps : Keeps c s (exiDetach wii c s).2 := by
  rcases detach_after wii with h | h
  · exact h.keeps
  · exact ⟨_,_,_,h,fun _ _ => rfl⟩

theorem read_sts (r : DevReg 32) (sts : BitVec 32) :
    (DevReg.read exiStatus { r with sts := sts }).getLsbD 10 = (r.read exiStatus).getLsbD 10 := by
  have hmask : ∀ b, (b && exiStatus.getLsbD 10) = false := by decide
  simp only [DevReg.read, getLsbD_or, getLsbD_and, hmask]

theorem device_same (present : Bool) (sts pi0 : BitVec 32) :
    Same c s (deviceChange c present sts pi0 s) := by
  have hset : Same c s (setChan c { s.chan c with present := present } s) := same_setChan rfl
  refine hset.comp (same_of_hw rfl ?_)
  intro d hd
  match c, d with
  | 0, 0 => exact read_sts _ sts
  | 0, 1 => rfl
  | 1, 0 => rfl
  | 1, 1 => exact read_sts _ sts
  | 2, 0 => rfl
  | 2, 1 => rfl
  | 0, 2 => exact absurd rfl hd
  | 1, 2 => exact absurd rfl hd
  | 2, 2 => exact absurd rfl hd

theorem attach_keeps {s' : Exi} (h : Attaches c s s')
    (hsel : c = 2 ∨ (s.chan c).select = false ∨ (s.chan c).attach = true) : Keeps c s s' := by
  rcases h with h | ⟨ha,h⟩
  · exact h.keeps
  · refine ⟨_,_,_,h,fun _ hc => ?_⟩
    rcases hsel with h2 | hs | ht
    · exact absurd h2 hc
    · rw [hs]
      rfl
    · rw [ha] at ht
      cases ht

theorem exiAttach_after (cb : Option ℕ) (time : ℕ) :
    Attaches c s (exiAttach wii c cb time s).2 := by
  unfold exiAttach
  split
  · exact attachSection_after wii cb time
  · exact .inl same_refl

theorem event_keeps (ev : Event) (hu : undisturbed (c, ev) s) :
    Keeps c s (eventStep wii (c, ev) s) := by
  cases ev with
  | probe time => exact (probe_same wii time).keeps
  | attach cb time =>
    change Keeps c s (exiAttach wii c cb time s).2
    unfold exiAttach
    split
    · rename_i hid
      exact attach_keeps (attachSection_after wii cb time) (hu.2 (decide_eq_true hid))
    · exact same_refl.keeps
  | attachId time => exact attach_keeps (attachSection_after wii none time) (hu.2 rfl)
  | identified idtime id => exact (identified_same idtime id).keeps
  | lock dev cb => exact (lock_same wii dev cb).keeps
  | unlock => exact (unlock_same wii).keeps
  | select dev frq time => exact select_keeps (select_after wii dev frq time)
  | selectSD dev frq probed => exact select_keeps (selectSD_after wii dev frq probed)
  | deselect => exact deselect_keeps wii
  | detach => exact detach_keeps wii
  | ext => exact absurd rfl hu.1
  | device present sts pi0 => exact (device_same present sts pi0).keeps

theorem event_other (ev : Event) (hp : possible (c, ev) s) {d : Fin 3} (h2 : d ≠ 2) (hd : d ≠ c) :
    extOf (eventStep wii (c, ev) s) d = extOf s d := by
  have hkeeps : ∀ {s'}, Keeps c s s' → extOf s' d = extOf s d :=
    fun ⟨_,_,_,h,_⟩ => h.other d h2 hd
  have hattach : ∀ {s'}, Attaches c s s' → extOf s' d = extOf s d :=
    fun h => h.elim (fun h => h.other d h2 hd) (fun h => h.2.other d h2 hd)
  cases ev with
  | attach cb time => exact hattach (exiAttach_after wii cb time)
  | attachId time => exact hattach (attachSection_after wii none time)
  | ext => exact (extIrqHandler_after wii (hp rfl).1).other d h2 hd
  | _ => exact hkeeps (event_keeps wii _ ⟨by simp,by simp [attaching]⟩)

theorem keeps_masked {s' : Exi} (h : Keeps c s s') (hm : Masked s) : Masked s' := by
  obtain ⟨a,b,e,hafter,hright⟩ := h
  intro d hd
  by_cases hc : d = c
  · subst hc
    rw [hafter.ext hd, hafter.attach, hafter.select]
    exact hright (hm d) hd
  · rw [hafter.other d hd hc, hafter.chan d hc]
    exact hm d hd

theorem init_masked (hw : Hw) : Masked (exiInit wii hw) := by
  intro c hc
  have h : ∀ t : Exi, extOf (writeReg 0 0x2000 (writeReg 2 0 (writeReg 1 0 (writeReg 0 0 t)))) c
      = false := by
    intro t
    have hzero : (0x2000 : BitVec 32).getLsbD 10 = false ∧ (0 : BitVec 32).getLsbD 10 = false := by
      decide
    match c with
    | 0 => rw [ext_writeReg _ hc, if_pos rfl, hzero.1]
    | 1 => rw [ext_writeReg _ hc, if_neg (by decide), ext_writeReg _ hc, if_neg (by decide),
        ext_writeReg _ hc, if_pos rfl, hzero.2]
    | 2 => exact absurd rfl hc
  exact h _

end Events

/-! The masks over whole runs. -/

/-- A run of the channels of a console from the initialisation, where external
interrupts come when they are let through, and the steps meet a condition. -/
def ExiRun (wii : Bool) (cond : Fin 3 × Event → Exi → Prop) (hw : Hw) : Exi → Prop :=
  Reach (fun a s => some (eventStep wii a s)) (fun a s => possible a s ∧ cond a s) (exiInit wii hw)

/-- In a run that is not disturbed the masks are right; in every run a section
on one channel leaves the mask of the other one alone. -/
theorem ext_masks_follow (wii : Bool) (hw : Hw) :
    (∀ s, ExiRun wii undisturbed hw s → Masked s) ∧
    ∀ s, ExiRun wii (fun _ _ => True) hw s → ∀ c ev, possible (c, ev) s →
      ∀ d, d ≠ 2 → d ≠ c → extOf (eventStep wii (c, ev) s) d = extOf s d := by
  constructor
  · intro s h
    refine reach_invariant (init_masked wii hw) ?_ h
    intro a s s' hm hok hs
    obtain rfl : eventStep wii a s = s' := by simpa using hs
    exact keeps_masked (event_keeps wii a.2 hok.2) hm
  · intro s _ c ev hp d h2 hd
    exact event_other wii ev hp h2 hd

def attachEvents : List (Fin 3 × Event) :=
  [(0, .device true 0x800 0x10), (0, .probe 1), (0, .attachId 12150001),
    (0, .lock 0 (some .unlockedHandler)), (0, .select 0 0 12150001), (0, .deselect), (0, .unlock),
    (0, .detach), (0, .identified 1 4), (0, .attach (some 7) 12150002)]

instance (a : Fin 3 × Event) (s : Exi) : Decidable (possible a s) :=
  inferInstanceAs (Decidable (_ → _))

instance (a : Fin 3 × Event) (s : Exi) : Decidable (undisturbed a s) :=
  inferInstanceAs (Decidable (_ ∧ (_ → _)))

theorem ext_masks_attached : ∃ s, ExiRun false undisturbed blankHw s ∧ Masked s ∧
    (s.chan 0).attach = true ∧ extOf s 0 = true := by
  have hrun : (runChecked (fun a s => some (eventStep false a s))
      (fun a s => decide (possible a s ∧ undisturbed a s)) attachEvents
      (exiInit false blankHw)).any (fun s => decide ((s.chan 0).attach = true ∧ extOf s 0 = true)) =
        true := by
    decide +kernel
  obtain ⟨s,hreach,hd⟩ := run_reaches (fun _ _ => of_decide_eq_true) hrun
  exact ⟨s,hreach,(ext_masks_follow false blankHw).1 s hreach,hd⟩

/-- The device is taken out. Its interrupt detaches it and stays unmasked. -/
theorem removed_device_unmasked : ∃ s, ExiRun false (fun _ _ => True) blankHw s ∧
    (s.chan 0).attach = false ∧ extOf s 0 = true := by
  have hrun : (runChecked (fun a s => some (eventStep false a s))
      (fun a s => decide (possible a s))
      (attachEvents ++ [(0, .device false 0x800 0x10), (0, .ext)])
      (exiInit false blankHw)).any
        (fun s => decide ((s.chan 0).attach = false ∧ extOf s 0 = true)) = true := by
    decide +kernel
  exact run_reaches (fun _ _ h => ⟨of_decide_eq_true h,trivial⟩) hrun

end Libogc.ExtMask
