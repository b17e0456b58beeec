import UnixV6pp.Fs.Calls

/-!
# Paths, seen by one process

`NameI` starts at a directory that belongs to somebody else, takes a reference to it and
passes from one directory to the next.  Whatever it leads to, it has taken one reference
with its lock, or none at all.

* `Steady` — a process in a call that has only references in hand.
* `nameI_spec` — **what `NameI` leaves in hand.**
-/

namespace UnixV6pp

/-- Nothing but references in hand. -/
structure Local.Steady (l : Local) : Prop where
  tearing : l.tearing = none
  settled : Kernel.Settled l
  closingFile : l.closingFile = none
  fresh : ∀ f, l.fresh f = false

theorem Local.steady_empty : Local.empty.Steady :=
  ⟨rfl, ⟨rfl, rfl, rfl, rfl⟩, rfl, fun _ => rfl⟩

/-- References and locks do not matter. -/
theorem Local.Steady.update {l : Local} (h : l.Steady) (refs : Slot → ℕ) (inside : Slot → Bool) :
    ({ l with refs := refs, inside := inside } : Local).Steady :=
  ⟨h.tearing, h.settled, h.closingFile, h.fresh⟩

/-- An inode is borrowed, or none. -/
def Local.lend (l : Local) (b : Option Borrowed) : Local := { l with borrowed := b }

namespace SystemCalls

open Threads Kernel Code FileManager

variable {n : ℕ} {E : Prop} {X : Kernel n → Prop} {ok : Fin n → Kernel n → Action n → Prop}
variable {p : Fin n} {g g' g₀ : Process} {i : Slot}

/-- In a call, and nothing but references in hand. -/
structure Steady (g : Process) : Prop where
  kernel : g.whereabouts = .kernel
  loc : g.loc.Steady

theorem Steady.inCall (h : Steady g) : InCall g := ⟨h.kernel, h.loc.tearing⟩

theorem Steady.borrowed (h : Steady g) : g.loc.borrowed = none := h.loc.settled.2.2.2

theorem Kept.steady (h : Kept E g g') (hg : Steady g) : Steady g' := by
  obtain ⟨J, rfl, -⟩ := h
  exact ⟨hg.kernel, hg.loc.update _ _⟩

theorem Got.steady (h : Got E g i g') (hg : Steady g) : Steady g' := by
  obtain ⟨J, rfl, -⟩ := h
  exact ⟨hg.kernel, hg.loc.update _ _⟩

/-- What `NameI` leads to. -/
def NamePost (E : Prop) (mode : DirectorySearchMode) (g : Process) (r : Found) (g' : Process) :
    Prop :=
  match r with
  | .inode i => mode ≠ .DELETE ∧ Got E g i g'
  | .create i => mode = .CREATE ∧ Got E g i g'
  | .parent i _ => mode = .DELETE ∧ Got E g i g'
  | .null => Kept E g g'

section

variable (hR : Rules E X ok)

include hR

theorem giveUp_spec {mode : DirectorySearchMode} (hgot : Got E g₀ i g) (hg : InCall g) :
    KSpec X ok p g (giveUp i) (NamePost E mode g₀) := by
  refine Spec.then (setError_spec hR) fun _ => ?_
  apply (iPut_spec hR hg hgot.refs_pos).bind
  rintro _ g' rfl
  exact Spec.ret hgot.putBack

theorem nameLoop_spec {mode : DirectorySearchMode} (k : ℕ) (hk : mode = .DELETE → k ≠ 0)
    (hgot : Got E g₀ i g) (hg : InCall g) :
    KSpec X ok p g (nameLoop p mode k i) (NamePost E mode g₀) := by
  induction k generalizing g i with
  | zero =>
    refine Spec.then failed_spec fun error => ?_
    cases error with
    | true => exact giveUp_spec hR hgot hg
    | false => exact Spec.ret ⟨fun h => hk h rfl, hgot⟩
  | succ k ih =>
    have hgive : KSpec X ok p g (giveUp i) (NamePost E mode g₀) := giveUp_spec hR hgot hg
    refine Spec.then either_spec fun refused => ?_
    cases refused with
    | true => exact hgive
    | false =>
      refine Spec.then diskWaits_spec fun _ => Spec.then (mayFail_spec hR) fun _ => ?_
      refine Spec.then either_spec fun found => ?_
      cases found with
      | false =>
        simp only [Bool.false_eq_true, if_false]
        split
        · next hmode =>
          refine Spec.then either_spec fun refused => ?_
          cases refused with
          | true => exact hgive
          | false => exact Spec.ret ⟨hmode.2, hgot⟩
        · exact hgive
      | true =>
        refine Spec.then pickInt_spec fun mIno => ?_
        split
        · next hmode =>
          refine Spec.then either_spec fun refused => ?_
          cases refused with
          | true => exact hgive
          | false => exact Spec.ret ⟨hmode.2, hgot⟩
        · next hmode =>
          -- on to the next directory
          refine Spec.get fun s => ?_
          apply (iPut_spec hR hg hgot.refs_pos).bind
          rintro _ g₁ rfl
          have hcall : InCall (g.putBack i .hand) := ⟨hg.kernel, hg.tearing⟩
          apply (iGet_spec hR hcall).bind
          rintro r g₂ ⟨hr, -⟩
          cases r with
          | none => exact Spec.ret (hgot.putBack.trans hr)
          | some j =>
            refine ih (fun h hzero => hmode ⟨hzero, h⟩) (hgot.putBack.got hr) (hr.inCall hcall)

omit hR in
/-- The directory at which the search starts belongs to the process or to the kernel. -/
theorem viaOk_startOf {s : Kernel n} (hg : Steady (s.view p)) (fromRoot : Bool) :
    s.ViaOk p (startOf p (if fromRoot then .root else .cwd) s)
      (if fromRoot then .root else .cwd) := by
  have htaken : (s.loc p).cdirTaken = false := by
    rw [← loc_view]
    exact hg.loc.settled.2.1
  cases fromRoot with
  | true => exact rfl
  | false =>
    have hcwd := cwd_of_view hg.kernel htaken
    have hcdir : (s.view p).uCdir = (s.proc p).uCdir := (Process.view_of_kernel hg.kernel).2.1
    rwa [hcdir] at hcwd

/-- An inode is borrowed no longer. -/
theorem unborrow_spec {b : Borrowed} (hg : g.whereabouts = .kernel)
    (hborrowed : g.loc.borrowed = some b)
    (hin : E → g.loc.inside b.slot = true → 0 < g.loc.refs b.slot) :
    KSpec X ok p g (perform .unborrow) fun _ g' => g' = g.setLoc (g.loc.lend none) := by
  apply act_spec hR
  · trivial
  · rintro s hs hX rfl
    rw [loc_view] at hborrowed hin
    refine ⟨⟨live_of_view hg, fun he b' hb' hin' => ?_⟩, ?_⟩
    · rw [hborrowed] at hb'
      cases hb'
      exact hin he hin'
    · rw [loc_view]
      exact view_setLoc

omit hR in
/-- What was got while an inode was borrowed. -/
theorem Got.of_lend {b : Borrowed} (hg : g.loc.borrowed = none)
    (h : Got E (g.setLoc (g.loc.lend (some b))) i g') :
    g'.loc.borrowed = some b ∧ Got E g i (g'.setLoc (g'.loc.lend none)) := by
  obtain ⟨J, rfl, hJ⟩ := h
  refine ⟨rfl, J, ?_, hJ⟩
  unfold Process.setLoc Local.lend Local.take
  rw [← hg]

/-- The reference to an inode that is borrowed. -/
theorem getBorrowed_spec {b : Borrowed} (hg : Steady g) :
    KSpec X ok p (g.setLoc (g.loc.lend (some b))) (iGet b.iDev b.iNumber >>= fun _ =>
      perform .unborrow) fun _ g' => Got E g b.slot g' := by
  have hcall : InCall (g.setLoc (g.loc.lend (some b))) := ⟨hg.kernel, hg.loc.tearing⟩
  apply (iGet_spec hR hcall).bind
  rintro r g₂ ⟨hr, hborrows⟩
  obtain rfl := hborrows b.slot ⟨b, rfl, rfl, rfl, rfl⟩
  obtain ⟨hborrowed, hgot⟩ := Got.of_lend hg.borrowed hr
  have hkernel := (hr.inCall hcall).kernel
  apply (unborrow_spec hR hkernel hborrowed fun _ _ => hr.refs_pos).mono
  rintro _ g₃ rfl
  exact hgot

/-- **`NameI`** takes a reference to what it leads to, and the lock. -/
theorem nameI_spec {mode : DirectorySearchMode} (hg : Steady g) :
    KSpec X ok p g (nameI p mode) (NamePost E mode g) := by
  refine Spec.then either_spec fun fromRoot => ?_
  rintro s hI rfl
  apply state_wp.2
  apply bind_wp.2
  have hlive : (s.proc p).live = true := live_of_view hg.kernel
  have hnone : (s.loc p).borrowed = none := (borrowed_of_view rfl).trans hg.borrowed
  refine act_wp hR hI ⟨hlive, viaOk_startOf hg fromRoot, hnone⟩ trivial fun hI₁ => ?_
  generalize startOf p (if fromRoot = true then Via.root else Via.cwd) s = i at *
  generalize (if fromRoot = true then Via.root else Via.cwd) = v at *
  have hview : (s.exec p (.borrow i v)).view p = (s.view p).setLoc ((s.view p).loc.lend
      (some ⟨i, v, (s.inode i).iDev, (s.inode i).iNumber⟩)) := by
    rw [loc_view]
    exact view_setLoc
  have hget := getBorrowed_spec (p := p) hR (b := ⟨i, v, (s.inode i).iDev, (s.inode i).iNumber⟩) hg
  have hrest : ∀ g', Got E (s.view p) i g' → KSpec X ok p g' (do
      let k ← pick
      if k = 0 ∧ mode ≠ .OPEN then giveUp i else nameLoop p mode k i) (NamePost E mode (s.view p)) := by
    intro g' hgot
    refine Spec.pick fun k => ?_
    have hcall := hgot.inCall hg.inCall
    split
    · exact giveUp_spec hR hgot hcall
    · next hmode =>
      refine nameLoop_spec hR k (fun hdelete hzero => hmode ⟨hzero, ?_⟩) hgot hcall
      rw [hdelete]
      decide
  have hall := (hget.bind fun _ => hrest) _ hI₁ hview
  have hsteps := bind_wp.1 (bind_wp.1 hall)
  exact bind_wp.2 hsteps

end

end SystemCalls
end UnixV6pp
