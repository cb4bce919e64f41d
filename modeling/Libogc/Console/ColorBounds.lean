import Libogc.Console.Colors
import Libogc.Library.GuardedReach
import Mathlib.Tactic.SplitIfs

/-!
# The indices of the colour sequences

A stored index below eight stays in the table with every flag. One of eight to
fifteen does unless the colour is faint and not bright. The commands for bright
foregrounds leave the flag of a converted foreground and clear the one of a
converted background.
-/

set_option autoImplicit false

namespace Libogc.ColorBounds
open List Function Terminal GuardedReach ConsoleColors Nat

def InRange : Access → Prop
  | .args i => i < 16
  | .colorArgs i => 0 ≤ i ∧ i < 3
  | .table stored index => stored < 24 ∧ index < 24

structure Sound (s : Shaded) : Prop where
  log : ∀ a ∈ s.log, InRange a
  fgCustom : s.colors.fgCustom = s.colors.fg.converted
  bgCustom : s.colors.bgCustom = s.colors.bg.converted

/-! Colours. -/

structure Proper (c : Colors) : Prop where
  fgCustom : c.fgCustom = c.fg.converted
  bgCustom : c.bgCustom = c.bg.converted
  fg : ∀ n, c.fg = .index n → n ≤ 7 ∨ n ≤ 15 ∧ (c.faint = true → c.fgBright = true)
  bg : ∀ n, c.bg = .index n → n ≤ 15

section Lookups

variable {c : Colors}

theorem proper_reset : Proper reset := by
  refine ⟨rfl,rfl,fun n hn => ?_,fun n hn => ?_⟩
  · cases hn
    exact .inl (Nat.le_refl 7)
  · cases hn
    exact zero_le 15

theorem fg_lookup {n : ℕ} (h : Proper c) (hn : c.fg = .index n) : n < 24 ∧ fgIndex c < 24 := by
  have hv : c.fg.value = n := by rw [hn]; rfl
  have hfg := h.fg n hn
  rw [fgIndex]
  cases hb : c.bold <;> cases hr : c.fgBright <;> cases hf : c.faint <;>
    simp [hr, hf] at hfg ⊢ <;> omega

theorem bg_lookup {n : ℕ} (h : Proper c) (hn : c.bg = .index n) : n < 24 ∧ bgIndex c < 24 := by
  have hv : c.bg.value = n := by rw [hn]; rfl
  have hbg := h.bg n hn
  rw [bgIndex]
  split_ifs <;> omega

theorem index_of_plain {x : Shade} (h : x.converted = false) : x = .index x.value := by
  cases x with
  | index n => rfl
  | rgb r g b => exact absurd h Bool.noConfusion

theorem clearLookups_inRange (h : Proper c) : ∀ a ∈ clearLookups c, InRange a := by
  intro a ha
  rw [clearLookups] at ha
  split_ifs at ha with hc
  · exact absurd ha not_mem_nil
  · obtain rfl := mem_singleton.mp ha
    have hbg := (bg_lookup h (index_of_plain (h.bgCustom.symm.trans (by simpa using hc)))).1
    exact ⟨hbg,hbg⟩

theorem drawLookups_inRange (h : Proper c) : ∀ a ∈ drawLookups c, InRange a := by
  intro a ha
  rcases mem_append.mp ha with ha | ha
  · split_ifs at ha with hc
    · exact absurd ha not_mem_nil
    · obtain rfl := mem_singleton.mp ha
      exact fg_lookup h (index_of_plain (h.fgCustom.symm.trans (by simpa using hc)))
  · split_ifs at ha with hc
    · exact absurd ha not_mem_nil
    · obtain rfl := mem_singleton.mp ha
      exact bg_lookup h (index_of_plain (h.bgCustom.symm.trans (by simpa using hc)))

theorem newRowLookups_inRange (t : Console) (h : Proper c) :
    ∀ a ∈ newRowLookups t c, InRange a := by
  unfold newRowLookups
  split_ifs
  · exact clearLookups_inRange h
  · exact nofun

theorem printLookups_inRange (b : UInt8) (t : Console) (h : Proper c) :
    ∀ a ∈ printLookups b t c, InRange a := by
  have hdraw := drawLookups_inRange h
  have hrow := newRowLookups_inRange t h
  unfold printLookups
  split_ifs
  · exact nofun
  · exact hdraw
  · exact hdraw
  · exact nofun
  · exact hrow
  · exact nofun
  · exact fun a ha => (mem_append.mp ha).elim (hrow a) (hdraw a)
  · exact hdraw

theorem commandLookups_inRange (b : UInt8) (t : Console) (h : Proper c) :
    ∀ a ∈ commandLookups b t c, InRange a := by
  unfold commandLookups
  split_ifs
  · exact clearLookups_inRange h
  · exact nofun
  · exact clearLookups_inRange h
  · exact nofun
  · exact nofun

end Lookups

/-! The arguments of a colour sequence. -/

def FineAs (code : ℤ) (c : Colors) : Format → Prop
  | .unknown =>
    (code = 2 → c.fgCustom = true ∨ c.fg.value ≤ 7 ∨ c.fgBright = true) ∧
      (90 ≤ code ∧ code ≤ 97 → c.fgCustom = false ∧ c.bgCustom = false)
  | .nonRgb .fg => 0 ≤ code ∧ (8 ≤ code ∧ code ≤ 15 → c.faint = false ∨ c.fgBright = true)
  | .nonRgb .bg => 0 ≤ code
  | .format _ => True
  | .rgb _ => True

instance (code : ℤ) (c : Colors) (f : Format) : Decidable (FineAs code c f) :=
  match f with
  | .unknown => inferInstanceAs (Decidable (_ ∧ _))
  | .nonRgb .fg => inferInstanceAs (Decidable (_ ∧ _))
  | .nonRgb .bg => inferInstanceAs (Decidable (_ ≤ _))
  | .format _ => instDecidableTrue
  | .rgb _ => instDecidableTrue

def Fine (code : ℤ) (w : Scan) : Prop := FineAs code w.colors w.format

instance (code : ℤ) (w : Scan) : Decidable (Fine code w) :=
  inferInstanceAs (Decidable (FineAs _ _ _))

structure Scanned (w : Scan) : Prop where
  proper : Proper w.colors
  log : ∀ a ∈ w.log, InRange a
  first : ∀ side, w.format = .format side → w.args 16 = 0
  count : ∀ side, w.format = .rgb side → 0 ≤ w.args 16 ∧ w.args 16 < 3

section Scan

variable {c : Colors} {w : Scan} {code : ℤ}

section

variable (h : Proper c)
include h

theorem Proper.put_rgb (side : Side) (r g b : ℕ) : Proper (put side (.rgb r g b) true c) := by
  cases side with
  | fg => exact ⟨rfl,h.bgCustom,nofun,h.bg⟩
  | bg => exact ⟨h.fgCustom,rfl,h.fg,nofun⟩

theorem Proper.put_fg {n : ℕ} (hn : n ≤ 7 ∨ n ≤ 15 ∧ (c.faint = true → c.fgBright = true)) :
    Proper (put .fg (.index n) false c) := by
  refine ⟨rfl,h.bgCustom,?_,h.bg⟩
  rintro m ⟨⟩
  exact hn

theorem Proper.put_bg {n : ℕ} (hn : n ≤ 15) : Proper (put .bg (.index n) false c) := by
  refine ⟨h.fgCustom,rfl,h.fg,?_⟩
  rintro m ⟨⟩
  exact hn

theorem Proper.flags (bold faint bright : Bool) (hf : faint = true → c.faint = true) :
    Proper { c with bold := bold, faint := faint, bgBright := bright } :=
  ⟨h.fgCustom,h.bgCustom,fun n hn => (h.fg n hn).imp_right
    (fun hw => ⟨hw.1,fun he => hw.2 (hf he)⟩),h.bg⟩

theorem setColors_proper
    (hfaint : code = 2 → c.fgCustom = true ∨ c.fg.value ≤ 7 ∨ c.fgBright = true)
    (hbright : 90 ≤ code ∧ code ≤ 97 → c.fgCustom = false ∧ c.bgCustom = false) :
    Proper (setColors code c) := by
  have hplain : ∀ n, c.fg = .index n → code = 2 → n ≤ 7 ∨ c.fgBright = true := by
    intro n hn h2
    have hw := hfaint h2
    rw [h.fgCustom, hn] at hw
    exact hw.resolve_left Bool.noConfusion
  refine iteInduction (motive := Proper) (fun _ => proper_reset) (fun _ => ?_)
  refine iteInduction (motive := Proper) (fun _ => h.flags true false c.bgBright nofun)
    (fun _ => ?_)
  refine iteInduction (motive := Proper) (fun h2 => ?_) (fun _ => ?_)
  · refine ⟨h.fgCustom,h.bgCustom,fun n hn => ?_,h.bg⟩
    rcases hplain n hn h2 with hle | hb
    · exact .inl hle
    · exact (h.fg n hn).imp_right (fun hw => ⟨hw.1,fun _ => hb⟩)
  refine iteInduction (motive := Proper) (fun _ => h.flags false c.faint c.bgBright id)
    (fun _ => ?_)
  refine iteInduction (motive := Proper) (fun _ => h.flags false false c.bgBright nofun)
    (fun _ => ?_)
  refine iteInduction (motive := Proper) (fun _ => h.put_fg (.inl (by omega))) (fun _ => ?_)
  refine iteInduction (motive := Proper) (fun _ => h.put_fg (.inl (Nat.le_refl 7))) (fun _ => ?_)
  refine iteInduction (motive := Proper) (fun _ => h.put_bg (by omega)) (fun _ => ?_)
  refine iteInduction (motive := Proper) (fun _ => h.put_bg (zero_le 15)) (fun _ => ?_)
  refine iteInduction (motive := Proper) (fun h90 => ?_) (fun _ => ?_)
  · obtain ⟨hf,hb⟩ := hbright h90
    refine ⟨hf,hb.symm.trans h.bgCustom,?_,h.bg⟩
    rintro n ⟨⟩
    exact .inl (by omega)
  refine iteInduction (motive := Proper) (fun _ => ?_) (fun _ => h)
  exact (h.put_bg (by omega)).flags c.bold false true nofun

theorem nonRgb_proper (side : Side) (hcode : 0 ≤ code)
    (hfg : side = .fg → 8 ≤ code ∧ code ≤ 15 → c.faint = false ∨ c.fgBright = true) :
    Proper (nonRgb side code c) := by
  unfold nonRgb
  split_ifs with h15
  · have hu : (uint32 code : ℤ) = code := by
      unfold uint32
      omega
    cases side with
    | bg => exact h.put_bg (by omega)
    | fg =>
      apply h.put_fg
      by_cases h8 : 8 ≤ code
      · refine .inr ⟨by omega,?_⟩
        intro hf
        exact (hfg rfl ⟨h8,h15⟩).resolve_left (by simp [hf])
      · exact .inl (by omega)
  · exact h.put_rgb side _ _ _
  · exact h.put_rgb side _ _ _
  · exact h

end

theorem rgbArg_scanned {side : Side} (h : Scanned w) (hw : w.format = .rgb side) :
    Scanned (rgbArg side code w) := by
  have hcount := h.count side hw
  have hnext : int32 (w.args 16+1) = w.args 16+1 := by
    unfold int32
    omega
  have hlog : ∀ a ∈ Access.colorArgs (w.args 16)::w.log, InRange a :=
    forall_mem_cons.mpr ⟨hcount,h.log⟩
  unfold rgbArg
  simp only [update_self, hnext]
  split_ifs with h3
  · exact ⟨h.proper.put_rgb side _ _ _,hlog,nofun,nofun⟩
  · refine ⟨h.proper,hlog,fun s hs => ?_,fun s _ => ?_⟩
    · cases hw.symm.trans hs
    · simp only [update_self]
      omega

theorem turn_scanned (h : Scanned w) (hf : Fine code w) : Scanned (turn code w) := by
  unfold turn
  cases hw : w.format with
  | unknown =>
    rw [Fine, hw] at hf
    simp only [consoleSetColorState]
    split_ifs
    · exact ⟨h.proper,h.log,fun _ _ => update_self 16 0 w.args,nofun⟩
    · exact ⟨h.proper,h.log,fun _ _ => update_self 16 0 w.args,nofun⟩
    · exact ⟨setColors_proper h.proper hf.1 hf.2,h.log,fun s hs => absurd (hw.symm.trans hs) nofun,
        fun s hs => absurd (hw.symm.trans hs) nofun⟩
  | format side =>
    have h0 := h.first side hw
    refine ⟨h.proper,h.log,fun s hs => h0,fun s hs => ?_⟩
    change 0 ≤ w.args 16 ∧ w.args 16 < 3
    omega
  | nonRgb side =>
    refine ⟨?_,h.log,nofun,nofun⟩
    cases side with
    | fg =>
      rw [Fine, hw] at hf
      exact nonRgb_proper h.proper .fg hf.1 (fun _ => hf.2)
    | bg =>
      rw [Fine, hw] at hf
      exact nonRgb_proper h.proper .bg hf nofun
  | rgb side => exact rgbArg_scanned h hw

theorem turns_scanned (h : Scanned w) (n : ℕ)
    (hf : ∀ k < n, Fine ((turns k w).args k) (turns k w)) : Scanned (turns n w) := by
  induction n with
  | zero => exact h
  | succ n ih =>
    exact turn_scanned (ih (fun k hk => hf k (lt_succ_of_lt hk))) (hf n (lt_succ_self n))

end Scan

/-! Runs. -/

/-- A digit belongs to one of the first sixteen arguments, and each argument of
a colour sequence is fine in the state in which it is read. -/
def Admitted (b : UInt8) (s : Shaded) : Prop :=
  s.term.state = .building →
    (48 ≤ b ∧ b ≤ 57 → s.term.argIdx < 16) ∧
    (b = 109 → ∀ k < argCount s.term,
      Fine ((turns k (scanStart s)).args k) (turns k (scanStart s)))

instance (b : UInt8) (s : Shaded) : Decidable (Admitted b s) :=
  inferInstanceAs (Decidable (_ → _ ∧ _))

structure Kept (s : Shaded) : Prop where
  proper : Proper s.colors
  log : ∀ a ∈ s.log, InRange a

section Run

variable {s : Shaded}

theorem Kept.sound (h : Kept s) : Sound s := ⟨h.log,h.proper.fgCustom,h.proper.bgCustom⟩

theorem Kept.passed (h : Kept s) (b : UInt8) {as : List Access} (has : ∀ a ∈ as, InRange a) :
    Kept (passed b as s) :=
  ⟨h.proper,fun a ha => (mem_append.mp ha).elim (has a) (h.log a)⟩

theorem scanStart_scanned (h : Kept s) : Scanned (scanStart s) := by
  unfold scanStart
  split_ifs
  · exact ⟨h.proper,forall_mem_cons.mpr ⟨zero_lt_succ 15,h.log⟩,nofun,nofun⟩
  · exact ⟨h.proper,h.log,nofun,nofun⟩

theorem colorCommand_kept (h : Kept s) (hf : ∀ k < argCount s.term,
    Fine ((turns k (scanStart s)).args k) (turns k (scanStart s))) : Kept (colorCommand s) := by
  have hw := turns_scanned (scanStart_scanned h) (argCount s.term) hf
  exact ⟨hw.proper,hw.log⟩

theorem consoleWrite_kept {b : UInt8} (h : Kept s) (hb : Admitted b s) :
    Kept (consoleWrite b s) := by
  have hprint := fun b t => @printLookups_inRange s.colors b t h.proper
  unfold consoleWrite
  cases hs : s.term.state with
  | none =>
    refine h.passed b ?_
    split_ifs
    · exact nofun
    · exact hprint b s.term
  | start =>
    dsimp only
    split_ifs
    · exact ⟨h.proper,h.log⟩
    · refine h.passed b ?_
      exact fun a ha => (mem_append.mp ha).elim (hprint _ _ a) (hprint _ _ a)
  | building =>
    obtain ⟨hdigit,hcolor⟩ := hb hs
    dsimp only
    split_ifs with h1 h2
    · exact h.passed b (forall_mem_singleton.mpr (hdigit h1))
    · exact colorCommand_kept h (hcolor h2)
    · exact h.passed b (commandLookups_inRange b s.term h.proper)

end Run

theorem color_indices_in_range (xres yres : ℕ) {s : Shaded}
    (h : Reach colorStep Admitted (colorInit xres yres) s) : Sound s := by
  have hkept : Kept s := by
    refine reach_invariant ⟨proper_reset,clearLookups_inRange proper_reset⟩ ?_ h
    rintro b s s' hk hb ⟨⟩
    exact consoleWrite_kept hk hb
  exact hkept.sound

/-- A foreground by its three components and a background of the table, with a
character drawn in them. -/
theorem color_indices_in_range_drawn : ∃ s, Reach colorStep Admitted (colorInit 640 480) s ∧
    s.colors.fg = .rgb 1 2 3 ∧ .table 9 9 ∈ s.log ∧ .colorArgs 2 ∈ s.log ∧ Sound s := by
  have hrun : (runChecked colorStep (fun b s => decide (Admitted b s)) [27, 91, 51, 56, 59, 50, 59,
      49, 59, 50, 59, 51, 59, 52, 56, 59, 53, 59, 57, 109, 65] (colorInit 640 480)).any
      (fun s => decide (s.colors.fg = .rgb 1 2 3 ∧ .table 9 9 ∈ s.log ∧ .colorArgs 2 ∈ s.log)) =
      true := by decide +kernel
  obtain ⟨s,hreach,hfg,htable,hargs⟩ := run_reaches (fun _ _ => of_decide_eq_true) hrun
  exact ⟨s,hreach,hfg,htable,hargs,color_indices_in_range 640 480 hreach⟩

/-- Seventeen arguments; a faint foreground `38;5;8`; a background `48;2;1;2;3`
under a bright foreground `91`. -/
theorem color_indices_out_of_range :
    (∃ s, Reach colorStep (fun _ _ => True) (colorInit 640 480) s ∧ .args 16 ∈ s.log ∧
      ¬ Sound s) ∧
    (∃ s, Reach colorStep (fun _ _ => True) (colorInit 640 480) s ∧ .table 8 24 ∈ s.log ∧
      ¬ Sound s) ∧
    ∃ s, Reach colorStep (fun _ _ => True) (colorInit 640 480) s ∧ s.colors.bgCustom = false ∧
      s.colors.bg = .rgb 1 2 3 ∧ .table 276828288 276828288 ∈ s.log ∧ ¬ Sound s := by
  have hargs : (runChecked colorStep (fun _ _ => true)
    [27, 91, 49, 59, 49, 59, 49, 59, 49, 59, 49, 59,
      49, 59, 49, 59, 49, 59, 49, 59, 49, 59, 49, 59, 49, 59, 49, 59, 49, 59, 49, 59, 49, 59, 49]
      (colorInit 640 480)).any (fun s => decide (.args 16 ∈ s.log)) = true := by decide +kernel
  have hfaint :
    (runChecked colorStep (fun _ _ => true) [27, 91, 51, 56, 59, 53, 59, 56, 59, 50, 109, 65]
      (colorInit 640 480)).any (fun s => decide (.table 8 24 ∈ s.log)) = true := by decide +kernel
  have hbright :
    (runChecked colorStep (fun _ _ => true) [27, 91, 52, 56, 59, 50, 59, 49, 59, 50, 59, 51,
      109, 27, 91, 57, 49, 109, 65] (colorInit 640 480)).any (fun s =>
        decide (s.colors.bgCustom = false ∧ s.colors.bg = .rgb 1 2 3 ∧
          .table 276828288 276828288 ∈ s.log)) = true := by decide +kernel
  have hany : ∀ (b : UInt8) (s : Shaded), true = true → True := fun _ _ _ => trivial
  obtain ⟨s,hs,hm⟩ := run_reaches hany hargs
  obtain ⟨t,ht,hm'⟩ := run_reaches hany hfaint
  obtain ⟨u,hu,hflag,hbg,hm''⟩ := run_reaches hany hbright
  exact ⟨⟨s,hs,hm,fun h => absurd (h.log _ hm) (Nat.lt_irrefl 16)⟩,
    ⟨t,ht,hm',fun h => absurd (h.log _ hm').2 (Nat.lt_irrefl 24)⟩,
    u,hu,hflag,hbg,hm'',fun h => absurd (h.log _ hm'').2 (by decide)⟩

end Libogc.ColorBounds
