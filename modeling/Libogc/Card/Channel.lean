import Libogc.Card.Transfer

/-!
# The channel around a command

The functions that give a command to the card, with an answer for each single
call of the EXI driver, and who holds the channel when they have returned.
-/

set_option autoImplicit false

namespace Libogc.CardChannel
open ByteStore CardLayout CardControl CardSystem CardTransfer

/-- Answers of the calls in their order: of `EXI_Select`, of `EXI_ImmEx` with
the command and with the bytes that delay a read, and of `EXI_Dma`. -/
structure Pattern extends Env where
  select : Bool
  latency : Bool

def selectBy (p : Pattern) (s : Card) : Option Card :=
  if s.selected then none else if !p.select then none else some { s with selected := true }

def retryBy (p : Pattern) (s : Card) : ℤ × Card :=
  match selectBy p s with
  | none => (errorNoCard, exiUnlock p.woken s)
  | some s =>
    let s := setupTimeout s
    if !p.imm then (errorNoCard, letGo p.toEnv s)
    else if s.cmd.op = .segment ∧ p.latency = false then (errorNoCard, letGo p.toEnv s)
    else if s.cmd.op = .erase then (errorReady, letGo p.toEnv (eraseIssued s))
    else if !p.dma then (errorNoCard, letGo p.toEnv s)
    else (errorReady, dmaIssued s)

def startBy (txCb exiCb : Option Cb) (p : Pattern) (s : Card) : ℤ × Card :=
  let s := { s with
    txCb := txCb.or s.txCb, exiCb := exiCb.or s.exiCb, unlockCb := some .unlocked }
  match exiLock true s with
  | (false, s) => (errorBusy, s)
  | (true, s) =>
    let s := { s with unlockCb := none }
    match selectBy p s with
    | none => (errorNoCard, exiUnlock p.woken s)
    | some s => (errorReady, setupTimeout s)

def sectorEraseBy (sector : ℕ) (cb : Cb) (p : Pattern) (s : Card) : ℤ × Card :=
  if sector%s.geo.sector ≠ 0 then (errorFatal, s)
  else
    match startBy none (some cb) p
      { s with cmd := ⟨.erase,sector/512*512%16777216⟩, cmdRetries := 3 } with
    | (ret, s) =>
      if ret < 0 then (ret, s)
      else if !p.imm then (errorNoCard, { s with exiCb := none })
      else (ret, letGo p.toEnv (eraseIssued s))

def writePageBy (cb : Cb) (p : Pattern) (s : Card) : ℤ × Card :=
  match startBy none (some cb) p
    { s with cmd := ⟨.page,s.cmdSectorAddr%16777216⟩, cmdRetries := 3 } with
  | (ret, s) =>
    if ret < 0 then (ret, s)
    else if p.imm && p.dma then (errorReady, dmaIssued s)
    else (errorNoCard, letGo p.toEnv { s with exiCb := none })

/-- All three transfers are tried, so the last one may be under way although
the function reports an error. -/
def readSegmentBy (cb : Cb) (p : Pattern) (s : Card) : ℤ × Card :=
  match startBy (some cb) none p
    { s with cmd := ⟨.segment,s.cmdSectorAddr%16777216⟩, cmdRetries := 0 } with
  | (ret, s) =>
    if ret < 0 then (ret, s)
    else if p.imm && p.latency && p.dma then (errorReady, dmaIssued s)
    else (errorNoCard, letGo p.toEnv
      { s with txCb := none, dma := if p.dma then some (s.cmd,s.cmdUsrBuf) else s.dma })

inductive Call
  | erase (sector : ℕ) (cb : Cb)
  | page (cb : Cb)
  | segment (cb : Cb)
  | retry

def callBy (p : Pattern) : Call → Card → ℤ × Card
  | .erase sector cb, s => sectorEraseBy sector cb p s
  | .page cb, s => writePageBy cb p s
  | .segment cb, s => readSegmentBy cb p s
  | .retry, s => retryBy p s

/-- The answers that an environment gives, where the bytes that delay a read
are never refused and no transfer starts behind a refused command. -/
def answers (e : Env) (s : Card) : Pattern :=
  { e with dma := e.imm && e.dma, select := s.attached || e.probe, latency := true }

def lockAt : Call → Option Holder
  | .retry => some .card
  | _ => none

structure Released (s t : Card) : Prop where
  deselected : t.selected = false
  given : t.lock ≠ some .card
  unlocked : s.waiters = [] → t.lock = none

/-- An error leaves the channel released; without one it is released, or the
handler of the transfer that is under way releases it. -/
structure Balanced (p : Pattern) (c : Call) (s : Card) : Prop where
  error : (callBy p c s).1 < 0 → (callBy p c s).1 ≠ errorBusy → Released s (callBy p c s).2
  fine : 0 ≤ (callBy p c s).1 → Released s (callBy p c s).2 ∨
    ∃ cmd b, (callBy p c s).2.dma = some (cmd,b) ∧ ∀ e, Released (callBy p c s).2
      (txHandler e (transferred e cmd b { (callBy p c s).2 with dma := none }))

/-- The erase command of an aligned sector is refused behind the selection. -/
def EraseRefused (p : Pattern) (c : Call) (s : Card) : Prop :=
  (∃ sector cb, c = .erase sector cb ∧ sector%s.geo.sector = 0) ∧ p.select = true ∧ p.imm = false

variable {p : Pattern} {s t u : Card}

/-! What the channel is like behind the single steps. -/

variable (txCb exiCb : Option Cb) (e : Env) (cb : Cb) (w : Bool)

theorem exiUnlock_selected (s : Card) : (exiUnlock w s).selected = s.selected := by
  unfold exiUnlock exiWake
  split
  · rfl
  · split
    · rfl
    · rfl
    · rfl
    · unfold unlockedHandler later
      split <;> rfl

theorem exiUnlock_lock (h : t.lock = some .card) :
    (exiUnlock w t).lock ≠ some .card ∧ (t.waiters = [] → (exiUnlock w t).lock = none) := by
  unfold exiUnlock exiWake
  rw [h]
  dsimp only
  split
  · exact ⟨nofun,fun _ => rfl⟩
  · rename_i hw
    exact ⟨by simp,fun he => absurd (hw.symm.trans he) nofun⟩
  · exact ⟨nofun,fun _ => rfl⟩
  · unfold unlockedHandler later
    split <;> exact ⟨nofun,fun _ => rfl⟩

structure Held (s t : Card) : Prop where
  lock : t.lock = some .card
  waiters : t.waiters = s.waiters

theorem Held.unlocked (h : Held s t) (hs : t.selected = false) (w : Bool) :
    Released s (exiUnlock w t) := by
  obtain ⟨h1,h2⟩ := exiUnlock_lock w h.lock
  exact ⟨(exiUnlock_selected w t).trans hs,h1,fun he => h2 (h.waiters.trans he)⟩

theorem Held.letGo (h : Held s t) (e : Env) : Released s (letGo e t) :=
  Held.unlocked (t := { t with selected := false }) ⟨h.lock,h.waiters⟩ rfl e.woken

theorem selectBy_cases (p : Pattern) (s : Card) :
    s.selected = false ∧ p.select = true ∧ selectBy p s = some { s with selected := true } ∨
      (s.selected = true ∨ p.select = false) ∧ selectBy p s = none := by
  unfold selectBy
  cases hs : s.selected <;> cases hp : p.select <;> simp

def granted (txCb exiCb : Option Cb) (s : Card) : Card :=
  { s with txCb := txCb.or s.txCb, exiCb := exiCb.or s.exiCb, unlockCb := none, lock := some .card }

theorem startBy_eq (p : Pattern) (hl : s.lock = none) :
    startBy txCb exiCb p s = (selectBy p (granted txCb exiCb s)).elim
      (errorNoCard,exiUnlock p.woken (granted txCb exiCb s))
        (fun t => (errorReady,setupTimeout t)) := by
  unfold startBy exiLock granted
  simp only [hl]
  cases selectBy p _ <;> rfl

theorem startBy_cases (p : Pattern) (hl : s.lock = none) : (s.selected = false ∧ p.select = true ∧
        ∃ t, startBy txCb exiCb p s = (errorReady,t) ∧ Held s t) ∨
      (s.selected = true ∨ p.select = false) ∧
        ∃ t, startBy txCb exiCb p s = (errorNoCard,exiUnlock p.woken t) ∧ Held s t ∧
          t.selected = s.selected := by
  rw [startBy_eq txCb exiCb p hl]
  obtain ⟨h1,h2,h3⟩ | ⟨h1,h2⟩ := selectBy_cases p (granted txCb exiCb s)
  · rw [h3]
    exact .inl ⟨h1,h2,_,rfl,rfl,rfl⟩
  · rw [h2]
    exact .inr ⟨h1,_,rfl,⟨rfl,rfl⟩,rfl⟩

/-! With the answers of an environment these are the functions of the driver. -/

theorem selectBy_answers (h : t.attached = s.attached) :
    selectBy (answers e s) t = exiSelect e t := by
  unfold selectBy exiSelect answers
  rw [h]
  cases s.attached <;> cases e.probe <;> rfl

theorem retryBy_answers (s : Card) : retryBy (answers e s) s = retry e s := by
  unfold retryBy retry
  rw [selectBy_answers e rfl]
  cases exiSelect e s with
  | none => rfl
  | some t =>
    cases hi : e.imm <;> simp [answers, hi, letGo]

theorem exiLock_attached (tell : Bool) (s : Card) : (exiLock tell s).2.attached = s.attached := by
  unfold exiLock
  split
  · rfl
  · split <;> rfl

theorem startBy_answers (h : t.attached = s.attached) :
    startBy txCb exiCb (answers e s) t = start txCb exiCb e t := by
  unfold startBy start
  dsimp only
  generalize hu : { t with txCb := _, exiCb := _, unlockCb := some Cb.unlocked } = u
  have ha : u.attached = s.attached := hu ▸ h
  have hl := exiLock_attached true u
  generalize exiLock true u = r at hl
  obtain ⟨ok,v⟩ := r
  cases ok with
  | false => rfl
  | true =>
    have hv : selectBy (answers e s) { v with unlockCb := none } =
        exiSelect e { v with unlockCb := none } := selectBy_answers e (hl.trans ha)
    dsimp only
    rw [hv]
    rfl

theorem callBy_answers (s : Card) (sector : ℕ) (cb : Cb) :
    callBy (answers e s) (.erase sector cb) s = sectorEraseRaw sector cb e s ∧
      callBy (answers e s) (.page cb) s = writePageRaw cb e s ∧
      callBy (answers e s) (.segment cb) s = readSegmentRaw cb e s ∧
      callBy (answers e s) .retry s = retry e s := by
  refine ⟨?_,?_,?_,retryBy_answers e s⟩
  · rw [callBy, sectorEraseBy, startBy_answers none (some cb) e]
    · rfl
    · rfl
  · rw [callBy, writePageBy, writePageRaw, startBy_answers none (some cb) e]
    · generalize start none (some cb) e _ = r
      cases hi : e.imm <;> simp [answers, hi, letGo]
    · rfl
  · rw [callBy, readSegmentBy, readSegmentRaw, startBy_answers (some cb) none e]
    · generalize start (some cb) none e _ = r
      cases hi : e.imm <;> cases hd : e.dma <;> simp [answers, hi, hd, letGo]
    · rfl

/-! How the calls end. -/

def Fine (s : Card) (r : ℤ × Card) : Prop :=
  Released s r.2 ∨ r.1 = errorReady ∧ Held s r.2 ∧ ∃ d, r.2.dma = some d

def Stuck (r : ℤ × Card) : Prop :=
  r.1 < 0 ∧ r.1 ≠ errorBusy ∧ (r.2.selected = true ∨ r.2.lock = some .card)

theorem transferred_held (cmd : Command) (b : Ptr) (h : Held s t) :
    Held s (transferred e cmd b t) := by
  unfold transferred putBytes setWork
  split
  · split
    · split
      · exact ⟨h.lock,h.waiters⟩
      · exact ⟨h.lock,h.waiters⟩
    · exact h
  · exact ⟨h.lock,h.waiters⟩
  · exact h

theorem txHandler_released (h : Held s t) : Released s (txHandler e t) := by
  have hg := h.letGo e
  unfold txHandler later
  dsimp only
  split
  · exact hg
  · exact ⟨hg.deselected,hg.given,hg.unlocked⟩

theorem Fine.balanced {c : Call} (h : Fine s (callBy p c s)) : Balanced p c s := by
  obtain h | ⟨h0,h,d,hd⟩ := h
  · exact ⟨fun _ _ => h,fun _ => .inl h⟩
  · refine ⟨fun hn => absurd (h0 ▸ hn) (by decide),fun _ => .inr ⟨d.1,d.2,hd,fun e => ?_⟩⟩
    exact txHandler_released e (transferred_held e d.1 d.2 ⟨h.lock,rfl⟩)

theorem Stuck.unbalanced {c : Call} (h : Stuck (callBy p c s)) : ¬Balanced p c s := by
  intro hb
  have hr := hb.error h.1 h.2.1
  obtain h | h := h.2.2
  · exact Bool.false_ne_true (hr.deselected.symm.trans h)
  · exact hr.given h

theorem retryBy_ends (hl : s.lock = some .card) :
    s.selected = false ∧ Fine s (retryBy p s) ∨ s.selected = true ∧ Stuck (retryBy p s) := by
  have hs : Held s s := ⟨hl,rfl⟩
  unfold retryBy
  obtain ⟨h1,-,h3⟩ | ⟨h1,h2⟩ := selectBy_cases p s
  · have hsel : Held s (setupTimeout { s with selected := true }) := ⟨hl,rfl⟩
    rw [h3]
    refine .inl ⟨h1,?_⟩
    dsimp only
    generalize setupTimeout { s with selected := true } = u at hsel
    split
    · exact .inl (hsel.letGo _)
    split
    · exact .inl (hsel.letGo _)
    split
    · exact .inl (Held.letGo (t := eraseIssued u) ⟨hsel.lock,hsel.waiters⟩ _)
    split
    · exact .inl (hsel.letGo _)
    · exact .inr ⟨rfl,⟨hsel.lock,hsel.waiters⟩,_,rfl⟩
  · rw [h2]
    cases hsel : s.selected with
    | false => exact .inl ⟨rfl,.inl (hs.unlocked hsel _)⟩
    | true =>
      exact .inr ⟨rfl,show errorNoCard < 0 by decide,show errorNoCard ≠ errorBusy by decide,
        .inl ((exiUnlock_selected _ s).trans hsel)⟩

theorem startBy_ends (s₁ : Card) {txCb exiCb : Option Cb} (go : ℤ × Card → ℤ × Card)
    (hl : s.lock = none) (h1 : s₁.lock = s.lock) (hw : s₁.waiters = s.waiters)
    (hs : s₁.selected = s.selected) (hgo : ∀ r, r.1 < 0 → go r = r)
    (hok : ∀ t, Held s t → p.select = true → Fine s (go (errorReady,t))) :
    s.selected = false ∧ Fine s (go (startBy txCb exiCb p s₁)) ∨
      s.selected = true ∧ Stuck (go (startBy txCb exiCb p s₁)) := by
  obtain ⟨hsel,hp,t,ht,hh⟩ | ⟨hsel,t,ht,hh,hts⟩ := startBy_cases txCb exiCb p (h1.trans hl)
  · rw [ht]
    exact .inl ⟨hs ▸ hsel,hok t ⟨hh.lock,hh.waiters.trans hw⟩ hp⟩
  · rw [ht, hgo _ (show errorNoCard < 0 by decide)]
    rw [hs] at hts
    cases hb : s.selected with
    | false =>
      exact .inl ⟨rfl,.inl (Held.unlocked ⟨hh.lock,hh.waiters.trans hw⟩ (hts.trans hb) _)⟩
    | true =>
      exact .inr ⟨rfl,show errorNoCard < 0 by decide,show errorNoCard ≠ errorBusy by decide,
        .inl ((exiUnlock_selected _ t).trans (hts.trans hb))⟩

theorem writePageBy_ends (hl : s.lock = none) : s.selected = false ∧ Fine s (writePageBy cb p s) ∨
      s.selected = true ∧ Stuck (writePageBy cb p s) := by
  refine startBy_ends { s with cmd := ⟨.page,s.cmdSectorAddr%16777216⟩, cmdRetries := 3 }
    (fun r => if r.1 < 0 then r
      else if p.imm && p.dma then (errorReady,dmaIssued r.2)
      else (errorNoCard,letGo p.toEnv { r.2 with exiCb := none })) hl rfl rfl rfl ?_ ?_
  · exact fun r hr => if_pos hr
  · intro t ht _
    dsimp only
    rw [if_neg (by decide)]
    split
    · exact .inr ⟨rfl,⟨ht.lock,ht.waiters⟩,_,rfl⟩
    · exact .inl (Held.letGo (t := { t with exiCb := none }) ⟨ht.lock,ht.waiters⟩ _)

theorem readSegmentBy_ends (hl : s.lock = none) :
    s.selected = false ∧ Fine s (readSegmentBy cb p s) ∨
      s.selected = true ∧ Stuck (readSegmentBy cb p s) := by
  refine startBy_ends { s with cmd := ⟨.segment,s.cmdSectorAddr%16777216⟩, cmdRetries := 0 }
    (fun r => if r.1 < 0 then r
      else if p.imm && p.latency && p.dma then (errorReady,dmaIssued r.2)
      else (errorNoCard,letGo p.toEnv { r.2 with
        txCb := none, dma := if p.dma then some (r.2.cmd,r.2.cmdUsrBuf) else r.2.dma }))
    hl rfl rfl rfl ?_ ?_
  · exact fun r hr => if_pos hr
  · intro t ht _
    dsimp only
    rw [if_neg (by decide)]
    split
    · exact .inr ⟨rfl,⟨ht.lock,ht.waiters⟩,_,rfl⟩
    · exact .inl (Held.letGo (t := { t with txCb := none, dma := _ }) ⟨ht.lock,ht.waiters⟩ _)

theorem sectorEraseBy_ends (sector : ℕ) (cb : Cb) (hl : s.lock = none)
    (hn : sector%s.geo.sector = 0 → p.select = true → p.imm = true) :
    s.selected = false ∧ Fine s (sectorEraseBy sector cb p s) ∨
      s.selected = true ∧ Stuck (sectorEraseBy sector cb p s) := by
  unfold sectorEraseBy
  split
  · cases hs : s.selected with
    | false =>
      have hne : s.lock ≠ some .card := fun h => absurd (hl.symm.trans h) nofun
      exact .inl ⟨rfl,.inl ⟨hs,hne,fun _ => hl⟩⟩
    | true =>
      exact .inr ⟨rfl,show errorFatal < 0 by decide,show errorFatal ≠ errorBusy by decide,.inl hs⟩
  · rename_i ha
    refine startBy_ends { s with cmd := ⟨.erase,sector/512*512%16777216⟩, cmdRetries := 3 }
      (fun r => if r.1 < 0 then r
        else if !p.imm then (errorNoCard,{ r.2 with exiCb := none })
        else (r.1,letGo p.toEnv (eraseIssued r.2))) hl rfl rfl rfl ?_ ?_
    · exact fun r hr => if_pos hr
    · intro t ht hp
      dsimp only
      rw [if_neg (by decide), if_neg (by simp [hn (not_not.mp ha) hp])]
      exact .inl (Held.letGo (t := eraseIssued t) ⟨ht.lock,ht.waiters⟩ _)

/-- The branch behind the refused command neither deselects nor unlocks. -/
theorem sectorEraseBy_stuck {sector : ℕ} (hl : s.lock = none) (ha : sector%s.geo.sector = 0)
    (hp : p.select = true) (hi : p.imm = false) : Stuck (sectorEraseBy sector cb p s) := by
  unfold sectorEraseBy
  rw [if_neg (not_not.mpr ha)]
  obtain ⟨-,-,t,ht,hh⟩ | ⟨hsel,t,ht,-,hts⟩ := startBy_cases none (some cb) p
    (s := { s with cmd := ⟨.erase,sector/512*512%16777216⟩, cmdRetries := 3 }) hl
  · rw [ht]
    dsimp only
    rw [if_neg (by decide), if_pos (by simp [hi])]
    exact ⟨show errorNoCard < 0 by decide,show errorNoCard ≠ errorBusy by decide,.inr hh.lock⟩
  · have hs : s.selected = true := hsel.resolve_right (fun h => absurd (hp.symm.trans h) nofun)
    rw [ht]
    exact ⟨show errorNoCard < 0 by decide,show errorNoCard ≠ errorBusy by decide,
      .inl ((exiUnlock_selected _ t).trans (hts.trans hs))⟩

theorem channel_balanced (p : Pattern) (c : Call) (s : Card) (hl : s.lock = lockAt c) :
    Balanced p c s ↔ s.selected = false ∧ ¬EraseRefused p c s := by
  have hends : ¬EraseRefused p c s →
      s.selected = false ∧ Fine s (callBy p c s) ∨ s.selected = true ∧ Stuck (callBy p c s) := by
    intro hn
    cases c with
    | erase sector cb =>
      refine sectorEraseBy_ends sector cb hl (fun ha hp => ?_)
      by_contra hi
      exact hn ⟨⟨sector,cb,rfl,ha⟩,hp,by simpa using hi⟩
    | page cb => exact writePageBy_ends cb hl
    | segment cb => exact readSegmentBy_ends cb hl
    | retry => exact retryBy_ends hl
  by_cases hr : EraseRefused p c s
  · refine iff_of_false ?_ (fun h => h.2 hr)
    obtain ⟨⟨sector,cb,rfl,ha⟩,hp,hi⟩ := hr
    exact Stuck.unbalanced (sectorEraseBy_stuck cb hl ha hp hi)
  · obtain ⟨hs,hf⟩ | ⟨hs,hf⟩ := hends hr
    · exact iff_of_true hf.balanced ⟨hs,hr⟩
    · exact iff_of_false hf.unbalanced (fun h => absurd (hs.symm.trans h.1) nofun)

theorem channel_balanced_read : Balanced ⟨fine 0,true,true⟩ (.segment .blockRead) plainCard :=
  (channel_balanced _ _ plainCard rfl).mpr
    ⟨rfl,fun h => by obtain ⟨⟨_,_,hc,-⟩,-⟩ := h; exact nomatch hc⟩

theorem erase_keeps_channel : plainCard.lock = none ∧ plainCard.selected = false ∧
    (callBy ⟨⟨false,true,true,true,0⟩,true,true⟩ (.erase 0 .fatErase) plainCard).1 = errorNoCard ∧
    (callBy ⟨⟨false,true,true,true,0⟩,true,true⟩ (.erase 0 .fatErase) plainCard).2.lock =
      some .card ∧
    (callBy ⟨⟨false,true,true,true,0⟩,true,true⟩ (.erase 0 .fatErase) plainCard).2.selected =
      true :=
  ⟨rfl,rfl,rfl,rfl,rfl⟩

end Libogc.CardChannel
