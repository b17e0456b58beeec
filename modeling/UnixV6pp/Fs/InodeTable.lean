import UnixV6pp.Fs.SystemCalls
import UnixV6pp.Fs.View

/-!
# The table of inodes, seen by one process

Specifications of the programs of the inode table: while they run and sleep the tables
stay valid, together with any further property that allowed actions keep, and they leave
the process with the references and locks that they should.

* `Rules` — what is asked of the further property.
* `Kept`, `Got` — the process holds what it held, or one reference more and its lock.
* `iPut_spec`, `iGet_spec`, `iAlloc_spec`, `nFlock_spec` — **the specifications.**
-/

namespace UnixV6pp

/-- Actions that are allowed by what the program itself makes sure of. -/
def Action.plain {n : ℕ} : Action n → Prop
  | .forget _ | .pipe .. | .syncPrele _ => False
  | _ => True

namespace SystemCalls

open Threads Kernel Code Inode

variable {n : ℕ} {E : Prop} {X : Kernel n → Prop} {ok : Fin n → Kernel n → Action n → Prop}

/-- A property that allowed actions keep; with `E` it implies that whoever is inside an inode has
it locked. -/
structure Rules (E : Prop) (X : Kernel n → Prop) (ok : Fin n → Kernel n → Action n → Prop) :
    Prop where
  step : ∀ s p a, s.Valid → X s → Allowed E s p a → a.plain → ok p s a → X (s.exec p a)
  locked : E → ∀ s p i, s.Valid → X s → (s.loc p).inside i = true →
    (s.inode i).locked = true ∧ (s.inode i).iCount ≠ 0

/-- What the code achieves for the process. -/
abbrev Kwp (X : Kernel n → Prop) (ok : Fin n → Kernel n → Action n → Prop) (p : Fin n)
    {β : Type} : KCode n β → (β → Kernel n → Prop) → Kernel n → Prop :=
  wp (fun a s => s.exec p a) (ok p) (fun s => s.Valid ∧ X s) (Kernel.view p)

abbrev KSpec (X : Kernel n → Prop) (ok : Fin n → Kernel n → Action n → Prop) (p : Fin n)
    {β : Type} : Process → KCode n β → (β → Process → Prop) → Prop :=
  Spec (fun a s => s.exec p a) (ok p) (fun s => s.Valid ∧ X s) (Kernel.view p)

theorem bind_wp {p : Fin n} {β γ : Type} {P : KCode n β} {f : β → KCode n γ}
    {R : γ → Kernel n → Prop} {s : Kernel n} :
    Kwp X ok p (P >>= f) R s ↔ Kwp X ok p P (fun b s => Kwp X ok p (f b) R s) s :=
  wp_bind

theorem state_wp {p : Fin n} {γ : Type} {f : Kernel n → KCode n γ} {R : γ → Kernel n → Prop}
    {s : Kernel n} : Kwp X ok p (state >>= f) R s ↔ Kwp X ok p (f s) R s :=
  Iff.rfl

/-- The process is in a call and does not give up a last reference. -/
structure InCall (g : Process) : Prop where
  kernel : g.whereabouts = .kernel
  tearing : g.loc.tearing = none

/-- It holds what it held. -/
def Kept (E : Prop) (g g' : Process) : Prop :=
  ∃ J, g' = g.setLoc { g.loc with inside := J } ∧ (E → J = g.loc.inside)

/-- It holds one more reference to the inode, and its lock. -/
def Got (E : Prop) (g : Process) (i : Slot) (g' : Process) : Prop :=
  ∃ J, g' = g.setLoc { g.loc.take i with inside := J } ∧
    (E → g.loc.inside i = false ∧ J = Function.update g.loc.inside i true)

section

variable {p : Fin n} {s : Kernel n} {g g' g'' : Process} {i : Slot} {src : Source}

theorem Kept.refl : Kept E g g := ⟨g.loc.inside, rfl, fun _ => rfl⟩

theorem Kept.trans (h : Kept E g g') (h' : Kept E g' g'') : Kept E g g'' := by
  obtain ⟨J, rfl, hJ⟩ := h
  obtain ⟨K, rfl, hK⟩ := h'
  exact ⟨K, rfl, fun he => (hK he).trans (hJ he)⟩

theorem Kept.got (h : Kept E g g') (h' : Got E g' i g'') : Got E g i g'' := by
  obtain ⟨J, rfl, hJ⟩ := h
  obtain ⟨K, rfl, hK⟩ := h'
  refine ⟨K, rfl, fun he => ?_⟩
  obtain ⟨hout, hin⟩ := hK he
  obtain rfl := hJ he
  exact ⟨hout, hin⟩

/-- What was got is given back. -/
theorem Got.putBack (h : Got E g i g') : Kept E g (g'.putBack i .hand) := by
  obtain ⟨J, rfl, hJ⟩ := h
  refine ⟨Function.update J i false, ?_, fun he => ?_⟩
  · unfold Process.putBack Process.setLoc Local.give Local.setInside Local.take
    dsimp only
    rw [Function.update_self, Function.update_idem, Nat.add_sub_cancel, Function.update_eq_self]
  · obtain ⟨hout, rfl⟩ := hJ he
    rw [Function.update_idem, ← hout, Function.update_eq_self]

theorem Kept.inCall (h : Kept E g g') (hg : InCall g) : InCall g' := by
  obtain ⟨J, rfl, -⟩ := h
  exact ⟨hg.kernel, hg.tearing⟩

theorem Got.inCall (h : Got E g i g') (hg : InCall g) : InCall g' := by
  obtain ⟨J, rfl, -⟩ := h
  exact ⟨hg.kernel, hg.tearing⟩

theorem Got.refs_pos (h : Got E g i g') : 0 < g'.loc.refs i := by
  obtain ⟨J, rfl, -⟩ := h
  unfold Process.setLoc Local.take
  dsimp only
  rw [Function.update_self]
  exact Nat.succ_pos _

theorem Got.inside (h : Got E g i g') (he : E) : g'.loc.inside i = true := by
  obtain ⟨J, rfl, hJ⟩ := h
  obtain rfl := (hJ he).2
  exact Function.update_self _ _ _

/-! ### Facts that a view carries -/

theorem live_of_view (h : (s.view p).whereabouts = .kernel) : (s.proc p).live = true :=
  Process.live_of_view h

theorem tearing_of_view (hg : s.view p = g) : s.books.tearing p = g.loc.tearing := by
  rw [← hg, loc_view]
  rfl

theorem refs_of_view (hg : s.view p = g) (i : Slot) : s.books.refs p i = g.loc.refs i := by
  rw [← hg, loc_view]
  rfl

theorem borrowed_of_view (hg : s.view p = g) : (s.loc p).borrowed = g.loc.borrowed := by
  rw [← hg, loc_view]

theorem cwd_of_view (hk : (s.view p).whereabouts = .kernel)
    (htaken : (s.loc p).cdirTaken = false) : s.books.cwd p = some (s.view p).uCdir := by
  have hcdir : (s.view p).uCdir = (s.proc p).uCdir := (Process.view_of_kernel hk).2.1
  have hlive : (s.proc p).live = true := live_of_view hk
  change (s.proc p).cwd = _
  unfold Process.cwd
  change (s.proc p).loc.cdirTaken = false at htaken
  rw [hlive, htaken, hcdir]
  rfl

/-! ### Rules -/

variable (hR : Rules E X ok)

include hR

/-- An allowed action, from a given state. -/
theorem act_wp {a : Action n} {Q : Unit → Kernel n → Prop} (hI : s.Valid ∧ X s)
    (ha : Allowed E s p a) (hplain : a.plain)
    (hQ : (s.exec p a).Valid ∧ X (s.exec p a) → Q () (s.exec p a)) :
    Kwp X ok p (perform a) Q s :=
  fun hok => hQ ⟨hI.1.exec ha, hR.step s p a hI.1 hI.2 ha hplain hok⟩

/-- An action allowed by what the process knows. -/
theorem act_spec {a : Action n} {Q : Unit → Process → Prop} (hplain : a.plain)
    (ha : ∀ s : Kernel n, s.Valid → X s → s.view p = g → Allowed E s p a ∧ Q () ((s.exec p a).view p)) :
    KSpec X ok p g (perform a) Q := by
  intro s hI hg
  obtain ⟨ha, hQ⟩ := ha s hI.1 hI.2 hg
  exact act_wp hR hI ha hplain fun hI' => ⟨hI', hQ⟩

/-- An action that the process does not notice. -/
theorem quiet_spec {a : Action n} (hplain : a.plain)
    (ha : ∀ s : Kernel n, s.Valid → s.view p = g → Allowed E s p a)
    (hview : ∀ s : Kernel n, (s.exec p a).view p = s.view p) :
    KSpec X ok p g (perform a) fun _ g' => g' = g :=
  act_spec hR hplain fun s hs _ hg => ⟨ha s hs hg, (hview s).trans hg⟩

theorem setError_spec : KSpec X ok p g (perform .setError) fun _ g' => g' = g := by
  apply quiet_spec hR
  · trivial
  · exact fun _ _ _ => trivial
  · intro s
    change (s.setProc p _).view p = _
    rw [view_setProc]
    rfl

end

/-! ### What is left open -/

section

variable {p : Fin n} {g : Process}

theorem sleeps_spec (k : ℕ) : KSpec X ok p g (sleeps k) fun _ g' => g' = g := by
  induction k with
  | zero => exact Spec.ret rfl
  | succ k ih =>
    unfold sleeps
    apply Spec.sleep.bind
    rintro _ g' rfl
    exact ih

theorem diskWaits_spec : KSpec X ok p g diskWaits fun _ g' => g' = g :=
  Spec.pick sleeps_spec

theorem either_spec : KSpec X ok p g either fun _ g' => g' = g :=
  Spec.pick fun _ => Spec.ret rfl

theorem pickInt_spec : KSpec X ok p g pickInt fun _ g' => g' = g :=
  Spec.pick fun _ => Spec.pick fun _ => Spec.ret rfl

theorem pickFlags_spec : KSpec X ok p g pickFlags fun _ g' => g' = g :=
  Spec.pick fun _ => Spec.ret rfl

theorem failed_spec : KSpec X ok p g (failed p) fun _ g' => g' = g :=
  Spec.get fun _ => Spec.ret rfl

theorem whenever_spec {b : Bool} {k : KCode n Unit} (h : KSpec X ok p g k fun _ g' => g' = g) :
    KSpec X ok p g (whenever b k) fun _ g' => g' = g := by
  cases b with
  | true => exact h
  | false => exact Spec.ret rfl

/-- One step and then the rest, when the step leaves the process as it is. -/
theorem Spec.then {β γ : Type} {P : KCode n β} {f : β → KCode n γ} {R : γ → Process → Prop}
    (h : KSpec X ok p g P fun _ g' => g' = g) (hf : ∀ b, KSpec X ok p g (f b) R) :
    KSpec X ok p g (P >>= f) R := by
  apply h.bind
  rintro b g' rfl
  exact hf b

variable (hR : Rules E X ok)

include hR

theorem mayFail_spec : KSpec X ok p g mayFail fun _ g' => g' = g :=
  Spec.then either_spec fun _ => whenever_spec (setError_spec hR)

/-- The process does not come back. -/
theorem halt_spec {Q : Unit → Process → Prop} : KSpec X ok p g halt Q := by
  intro s hI hg
  refine ⟨hI, fun s' hI' hg' => ⟨fun a ha hok => ?_, fun hgo => by cases hgo⟩⟩
  cases ha
  refine ⟨⟨hI'.1.exec (E := E) trivial, hR.step s' p _ hI'.1 hI'.2 trivial trivial hok⟩, ?_⟩
  change (s'.setProc p _).view p = _
  rw [view_setProc]
  rfl

/-! ### Inodes and the disk -/

theorem iUpdate_spec (i : Slot) : KSpec X ok p g (iUpdate i) fun _ g' => g' = g := by
  refine Spec.get fun s => Spec.then either_spec fun ronly => whenever_spec ?_
  refine Spec.then diskWaits_spec fun _ => Spec.then ?_ fun _ => diskWaits_spec
  exact quiet_spec hR trivial (fun _ _ _ => trivial) fun _ => rfl

theorem iTrunc_spec (i : Slot) : KSpec X ok p g (iTrunc i) fun _ g' => g' = g := by
  refine Spec.get fun s => whenever_spec (Spec.then diskWaits_spec fun _ => ?_)
  exact quiet_spec hR trivial (fun _ _ _ => trivial) fun _ => rfl

theorem freeInode_spec (i : Slot) : KSpec X ok p g (freeInode i) fun _ g' => g' = g := by
  refine Spec.then (iTrunc_spec hR i) fun _ => ?_
  exact quiet_spec hR trivial (fun _ _ _ => trivial) fun _ => rfl

/-! ### `IPut` -/

/-- What is known when a reference is given back. -/
structure CanPut (E : Prop) (s : Kernel n) (p : Fin n) (i : Slot) (src : Source) : Prop
    extends InCall (s.view p) where
  ready : s.books.Ready p i src
  borrowed : src = .hand ∨ (s.loc p).borrowed = none
  keepsDir : E → src.keepsDir

omit hR in
theorem seize_kernel {g : Process} {i : Slot} {src : Source} (h : g.whereabouts = .kernel) :
    (g.seize i src).whereabouts = .kernel := by
  cases src <;> exact h

theorem tearDown_wp {s : Kernel n} {i : Slot} {src : Source} (hI : s.Valid ∧ X s)
    (hput : CanPut E s p i src) (hcount : (s.inode i).iCount = 1) :
    Kwp X ok p (tearDown i src)
      (fun _ s' => (s'.Valid ∧ X s') ∧ s'.view p = (s.view p).seize i src) s := by
  have hlive := live_of_view hput.kernel
  have htearing : s.books.tearing p = none := (tearing_of_view rfl).trans hput.tearing
  unfold tearDown
  apply bind_wp.2
  refine act_wp hR hI ⟨hlive, htearing, hput.ready, hcount, hput.borrowed⟩ trivial fun hI' => ?_
  have hview : (s.exec p (.lockLast i src)).view p = (s.view p).seize i src := view_lockLast
  have hrest : KSpec X ok p ((s.view p).seize i src)
      (do
        let s ← state
        whenever ((s.inode i).iNlink ≤ 0) (freeInode i)
        iUpdate i) fun _ g' => g' = (s.view p).seize i src :=
    Spec.get fun s => Spec.then (whenever_spec (freeInode_spec hR i)) fun _ => iUpdate_spec hR i
  exact hrest _ hI' hview

theorem iPut_wp {s : Kernel n} {i : Slot} {src : Source} (hI : s.Valid ∧ X s)
    (hput : CanPut E s p i src) :
    Kwp X ok p (iPut i src)
      (fun _ s' => (s'.Valid ∧ X s') ∧ s'.view p = (s.view p).putBack i src) s := by
  have hlive := live_of_view hput.kernel
  have htearing : s.books.tearing p = none := (tearing_of_view rfl).trans hput.tearing
  unfold iPut
  apply state_wp.2
  apply bind_wp.2
  by_cases hcount : (s.inode i).iCount = 1
  · rw [decide_eq_true hcount]
    refine wp_mono ?_ (tearDown_wp hR hI hput hcount)
    rintro _ s' ⟨hI', hview⟩
    have hk : (s'.view p).whereabouts = .kernel := by
      rw [hview]
      exact seize_kernel hput.kernel
    have htorn : s'.books.tearing p = some (i, src) := by
      rw [tearing_of_view hview]
      cases src <;> rfl
    have hborrowed : src = .hand ∨ (s'.loc p).borrowed = none := by
      apply hput.borrowed.imp_right
      intro hnone
      rw [borrowed_of_view hview]
      rw [borrowed_of_view rfl] at hnone
      cases src <;> exact hnone
    refine act_wp hR hI' ⟨live_of_view hk, htorn, hborrowed, hput.keepsDir⟩ trivial fun hI'' => ⟨hI'', ?_⟩
    refine (view_release_last hk).trans ?_
    rw [hview, Process.discharge_seize _ _ hput.tearing]
  · rw [decide_eq_false hcount]
    refine act_wp hR hI ?_ trivial fun hI' => ⟨hI', view_release hput.kernel⟩
    exact ⟨hlive, htearing, hput.ready, hcount, hput.borrowed, hput.keepsDir⟩

/-- A reference in hand is given back. -/
theorem iPut_spec {i : Slot} (hg : InCall g) (hrefs : 0 < g.loc.refs i) :
    KSpec X ok p g (iPut i .hand) fun _ g' => g' = g.putBack i .hand := by
  rintro s hI rfl
  have hready : s.books.Ready p i .hand := by
    change 0 < s.books.refs p i
    rwa [refs_of_view rfl]
  exact iPut_wp hR hI ⟨hg, hready, .inl rfl, fun _ => trivial⟩

/-! ### `IGet` -/

omit hR in
theorem isLoaded_some {s : Kernel n} {dev number : ℤ} {i : Slot}
    (h : s.isLoaded dev number = some i) : s.ident i = (dev, number) ∧ (s.inode i).iCount ≠ 0 := by
  have hp := List.find?_some h
  simp only [decide_eq_true_eq] at hp
  exact ⟨Prod.ext hp.1 hp.2.1, hp.2.2⟩

omit hR in
theorem getFreeInode_some {s : Kernel n} {i : Slot} (h : s.getFreeInode = some i) :
    (s.inode i).iCount = 0 := by
  have hp := List.find?_some h
  simpa only [decide_eq_true_eq] using hp

/-- The inode that a process borrows, with its device and number. -/
def Borrows (g : Process) (dev number : ℤ) (i : Slot) : Prop :=
  ∃ b, g.loc.borrowed = some b ∧ b.slot = i ∧ b.iDev = dev ∧ b.iNumber = number

omit hR in
/-- A borrowed inode is in the table, once. -/
theorem Borrows.isLoaded {s : Kernel n} {dev number : ℤ} {i : Slot} (hs : s.Valid)
    (hb : Borrows (s.view p) dev number i) : s.isLoaded dev number = some i := by
  obtain ⟨b, hb, rfl, rfl, rfl⟩ := hb
  rw [loc_view] at hb
  have hcount : (s.inode b.slot).iCount ≠ 0 := (hs.count_pos (.inl (.inr (.inl ⟨b, hb, rfl⟩)))).ne'
  have hident := (hs.borrowed p b hb).1
  cases hl : s.isLoaded b.iDev b.iNumber with
  | none => exact absurd hident.symm (Valid.of_isLoaded_none hl b.slot hcount)
  | some j =>
    obtain ⟨hj, hcountj⟩ := isLoaded_some hl
    rw [hs.unique j b.slot hcountj hcount (hj.trans hident)]

/-- What `IGet` leads to. -/
def GetPost (E : Prop) (g : Process) (dev number : ℤ) (r : Option Slot) (g' : Process) : Prop :=
  (match r with
    | none => Kept E g g'
    | some i => Got E g i g') ∧
  ∀ i, Borrows g dev number i → r = some i

theorem lockedSlot_spec (dev number : ℤ) {s : Kernel n} {a : Action n} (hI : s.Valid ∧ X s)
    (ha : lockedSlot s dev number = some a) (hok : ok p s a) :
    ((s.exec p a).Valid ∧ X (s.exec p a)) ∧ (s.exec p a).view p = s.view p := by
  unfold lockedSlot at ha
  split at ha
  · next i hi =>
    split at ha
    · next hl =>
      cases ha
      have hallowed : Allowed E s p (.want i .pInode) := ⟨hl, (isLoaded_some hi).2, .inl rfl⟩
      refine ⟨⟨hI.1.exec hallowed, hR.step s p _ hI.1 hI.2 hallowed trivial hok⟩, ?_⟩
      exact view_setProc
    · cases ha
  · cases ha

/-- The lock is set of an inode that nobody has inside. -/
theorem got_of_exec {s : Kernel n} {i : Slot} (hI : s.Valid ∧ X s)
    (hnot : ¬((s.inode i).locked = true ∧ (s.inode i).iCount ≠ 0)) :
    Got E (s.view p) i ((s.view p).setLoc (((s.loc p).take i).setInside i true)) := by
  refine ⟨Function.update (s.loc p).inside i true, ?_, fun he => ?_⟩
  · rw [loc_view]
    rfl
  · rw [loc_view]
    refine ⟨?_, rfl⟩
    rw [← Bool.not_eq_true]
    exact fun hin => hnot (hR.locked he s p i hI.1 hI.2 hin)

theorem readInode_spec {i : Slot} (hg : InCall g) (hrefs : 0 < g.loc.refs i) :
    KSpec X ok p g (readInode i) fun r g' =>
      match r with
      | none => g' = g.putBack i .hand
      | some j => j = i ∧ g' = g := by
  refine Spec.then diskWaits_spec fun _ => Spec.then either_spec fun fails => ?_
  cases fails with
  | true =>
    simp only [if_true]
    refine Spec.then (setError_spec hR) fun _ => ?_
    apply (iPut_spec hR hg hrefs).bind
    rintro _ g' rfl
    exact Spec.ret rfl
  | false =>
    simp only [Bool.false_eq_true, if_false]
    refine Spec.then ?_ fun _ => Spec.ret ⟨rfl, rfl⟩
    exact quiet_spec hR trivial (fun _ _ _ => trivial) fun _ => rfl

/-- **`IGet`** gives back what it took when it fails. -/
theorem iGet_spec {dev number : ℤ} (hg : InCall g) :
    KSpec X ok p g (iGet dev number) (GetPost E g dev number) := by
  rintro s hI rfl
  unfold iGet
  apply bind_wp.2
  refine ⟨hI, fun s' hI' hview => ⟨fun a ha hok => ?_, fun hgo => ?_⟩⟩
  · exact lockedSlot_spec hR dev number hI' ha hok
  rw [← hview] at hg ⊢
  have hlive := live_of_view hg.kernel
  have htearing : s'.books.tearing p = none := (tearing_of_view rfl).trans hg.tearing
  apply state_wp.2
  cases hl : s'.isLoaded dev number with
  | some i =>
    obtain ⟨hident, hcount⟩ := isLoaded_some hl
    have hlocked : (s'.inode i).locked = false := by
      dsimp only [lockedSlot] at hgo
      rw [hl] at hgo
      dsimp only at hgo
      split at hgo
      · cases hgo
      · next hnot => exact Bool.eq_false_iff.2 hnot
    dsimp only
    apply bind_wp.2
    refine act_wp hR hI' ⟨hlive, htearing, hcount, hlocked⟩ trivial fun hI'' => ⟨hI'', ?_, ?_⟩
    · change Got E (s'.view p) i ((s'.hold p i).view p)
      rw [view_hold]
      apply got_of_exec hR hI'
      rw [hlocked]
      exact fun h => Bool.false_ne_true h.1
    · intro j hj
      rw [← hj.isLoaded hI'.1, hl]
  | none =>
    have hnot : ∀ j, ¬Borrows (s'.view p) dev number j := by
      intro j hj
      have hsome := hj.isLoaded hI'.1
      rw [hl] at hsome
      cases hsome
    cases hfree : s'.getFreeInode with
    | some i =>
      have hcount := getFreeInode_some hfree
      dsimp only
      apply bind_wp.2
      refine act_wp hR hI' ⟨hlive, htearing, hcount, hl⟩ trivial fun hI'' => ?_
      have hgot : Got E (s'.view p) i ((s'.load p i dev number).view p) := by
        rw [view_load]
        exact got_of_exec hR hI' fun h => h.2 hcount
      have hread := readInode_spec (p := p) hR (hgot.inCall hg) hgot.refs_pos
      refine hread.mono ?_ _ hI'' rfl
      intro r g' hr
      refine ⟨?_, fun j hj => absurd hj (hnot j)⟩
      cases r with
      | none =>
        dsimp only at hr ⊢
        rw [hr]
        exact hgot.putBack
      | some j =>
        obtain ⟨rfl, rfl⟩ := hr
        exact hgot
    | none =>
      dsimp only
      apply bind_wp.2
      refine act_wp hR hI' trivial trivial fun hI'' => ⟨hI'', ?_, fun j hj => absurd hj (hnot j)⟩
      change Kept E (s'.view p) ((s'.setProc p _).view p)
      rw [view_setProc]
      exact Kept.refl

/-! ### `IAlloc` -/

theorem iAllocLoop_spec {dev : ℤ} (k : ℕ) {g₀ : Process} (hkept : Kept E g₀ g) (hg : InCall g) :
    KSpec X ok p g (iAllocLoop dev k) fun r g' =>
      match r with
      | none => Kept E g₀ g'
      | some i => Got E g₀ i g' := by
  induction k generalizing g with
  | zero =>
    exact Spec.then (setError_spec hR) fun _ => Spec.ret hkept
  | succ k ih =>
    unfold iAllocLoop
    refine Spec.then pickInt_spec fun number => ?_
    apply (iGet_spec hR hg).bind
    rintro r g' ⟨hr, -⟩
    cases r with
    | none => exact Spec.ret (hkept.trans hr)
    | some i =>
      dsimp only at hr ⊢
      refine Spec.get fun s => ?_
      split
      · refine Spec.then ?_ fun _ => Spec.ret (hkept.got hr)
        exact quiet_spec hR trivial (fun _ _ _ => trivial) fun _ => rfl
      · apply (iPut_spec hR (hr.inCall hg) hr.refs_pos).bind
        rintro _ g'' rfl
        exact ih (hkept.trans hr.putBack) (hr.putBack.inCall hg)

theorem iAlloc_spec {dev : ℤ} (hg : InCall g) :
    KSpec X ok p g (iAlloc dev) fun r g' =>
      match r with
      | none => Kept E g g'
      | some i => Got E g i g' :=
  Spec.then diskWaits_spec fun _ => Spec.then (Spec.pick fun _ => Spec.ret rfl) fun k =>
    iAllocLoop_spec hR k .refl hg

/-! ### Locks -/

/-- What keeps the inode for the process, as far as it knows. -/
def Holds (g : Process) (i : Slot) : Prop :=
  0 < g.loc.refs i ∨ ∃ b, g.loc.borrowed = some b ∧ b.slot = i

/-- What entitles the process to use the inode, as far as it knows. -/
def Entitled (g : Process) (i : Slot) : Prop :=
  Holds g i ∨ g.whereabouts = .kernel ∧ g.loc.cdirTaken = false ∧ g.uCdir = i

omit hR in
theorem Holds.grip {s : Kernel n} {i : Slot} (h : Holds (s.view p) i) : s.Grip p i := by
  unfold Holds at h
  rw [loc_view] at h
  exact h.imp_right .inl

omit hR in
theorem Entitled.token {s : Kernel n} {i : Slot} (h : Entitled (s.view p) i) : s.Token p i := by
  rcases h with h | ⟨hk, htaken, rfl⟩
  · exact .inl h.grip
  · rw [loc_view] at htaken
    exact .inr (cwd_of_view hk htaken)

theorem nFlock_spec {i : Slot} (hent : Holds g i) :
    KSpec X ok p g (nFlock i) fun _ g' => g' = g.setLoc (g.loc.setInside i true) := by
  rintro s hI rfl
  unfold nFlock
  apply bind_wp.2
  refine ⟨hI, fun s' hI' hview => ⟨fun a ha hok => ?_, fun hgo => ?_⟩⟩
  · dsimp only at ha
    split at ha
    · next hl =>
      cases ha
      have hgrip : s'.Grip p i := Holds.grip (hview ▸ hent)
      have hallowed : Allowed E s' p (.want i (.inode i.val)) :=
        ⟨hl, (hI'.1.count_pos (.inl hgrip)).ne', .inr rfl⟩
      refine ⟨⟨hI'.1.exec hallowed, hR.step s' p _ hI'.1 hI'.2 hallowed trivial hok⟩, ?_⟩
      exact view_setProc
    · cases ha
  · have hlocked : (s'.inode i).locked = false := by
      dsimp only at hgo
      split at hgo
      · cases hgo
      · next hnot => exact Bool.eq_false_iff.2 hnot
    have hgrip : s'.Grip p i := Holds.grip (hview ▸ hent)
    refine act_wp hR hI' ⟨hlocked, hgrip⟩ trivial fun hI'' => ⟨hI'', ?_⟩
    change (s'.lock p i).view p = _
    unfold lock
    rw [view_setInside, ← loc_view]
    change (s'.view p).setLoc ((s'.view p).loc.setInside i true) = _
    rw [hview]

/-- A lock is released. -/
theorem prele_spec {i : Slot} (hg : InCall g) (hent : Entitled g i)
    (hin : E → g.loc.inside i = true) :
    KSpec X ok p g (perform (.prele i)) fun _ g' => g' = g.setLoc (g.loc.setInside i false) := by
  apply act_spec hR
  · trivial
  · rintro s hs hX rfl
    refine ⟨⟨hent.token, (tearing_of_view rfl).trans hg.tearing, fun he => ?_⟩, ?_⟩
    · rw [← loc_view]
      exact hin he
    · change ((s.prele i).setInside p i false).view p = _
      rw [view_setInside, view_prele, ← loc_view, view_prele]

theorem clearLock_spec {i : Slot} (hg : InCall g) (hent : Entitled g i)
    (hin : E → g.loc.inside i = true) :
    KSpec X ok p g (perform (.clearLock i)) fun _ g' =>
      g' = g.setLoc (g.loc.setInside i false) := by
  apply act_spec hR
  · trivial
  · rintro s hs hX rfl
    refine ⟨⟨hent.token, (tearing_of_view rfl).trans hg.tearing, fun he => ?_⟩, ?_⟩
    · rw [← loc_view]
      exact hin he
    · change (s.clearLock p i).view p = _
      unfold clearLock
      rw [view_setInside, ← loc_view]
      rfl

/-! ### `UpdateInodeTable` -/

theorem updateInode_spec (hsync : ∀ s p i, ok p s (.syncPrele i) →
      ∀ q src, s.books.tearing q ≠ some (i, src))
    (hX : ∀ s p i, s.Valid → X s → Allowed E s p (.syncPrele i) → ok p s (.syncPrele i) →
      X (s.exec p (.syncPrele i))) (i : Slot) :
    KSpec X ok p g (updateInode i) fun _ g' => g' = g := by
  rintro s hI rfl
  unfold updateInode
  apply state_wp.2
  cases hb : (!(s.inode i).locked && (s.inode i).iCount != 0) with
  | false => exact ⟨hI, rfl⟩
  | true =>
    have hlocked : (s.inode i).locked = false := by
      rw [Bool.and_eq_true, Bool.not_eq_true'] at hb
      exact hb.1
    change Kwp X ok p (perform (.syncLock i) >>= fun _ => _) _ s
    apply bind_wp.2
    refine act_wp hR hI hlocked trivial fun hI' => ?_
    have hrest : KSpec X ok p (s.view p)
        (do
          iUpdate i
          perform (.syncPrele i)) fun _ g' => g' = s.view p := by
      refine Spec.then (iUpdate_spec hR i) fun _ => ?_
      rintro s' hI'' hview hok
      have hallowed : Allowed E s' p (.syncPrele i) := hsync s' p i hok
      refine ⟨⟨hI''.1.exec hallowed, hX s' p i hI''.1 hI''.2 hallowed hok⟩, ?_⟩
      exact view_prele.trans hview
    exact hrest _ hI' rfl

theorem updateInodeTable_spec (hsync : ∀ s p i, ok p s (.syncPrele i) →
      ∀ q src, s.books.tearing q ≠ some (i, src))
    (hX : ∀ s p i, s.Valid → X s → Allowed E s p (.syncPrele i) → ok p s (.syncPrele i) →
      X (s.exec p (.syncPrele i))) :
    KSpec X ok p g updateInodeTable fun _ g' => g' = g := by
  unfold updateInodeTable
  induction List.finRange 100 with
  | nil => exact Spec.ret rfl
  | cons i is ih => exact Spec.then (updateInode_spec hR hsync hX i) fun _ => ih

end

end SystemCalls
end UnixV6pp
