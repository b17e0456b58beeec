import UnixV6pp.Fs.OpenCalls

/-!
# Who is inside an inode

Between setting `ILOCK` and clearing it a process is inside the inode, and it should be
alone there: the flag is all there is to keep others away.  But the flag does not say
whose it is, and `IPut` clears it whoever has set it.

* `Held` — whoever is inside an inode has it locked and is alone.
* `Held.exec` — **every action keeps this, if `IPut` finds nobody else inside.**
-/

namespace UnixV6pp

open Inode Flags

/-- What a process has of inodes. -/
def Local.grip (l : Local) : (Slot → ℕ) × (Slot → Bool) × Option Borrowed :=
  (l.refs, l.inside, l.borrowed)

/-- Actions that change nothing of it. -/
def Action.handsOff {n : ℕ} : Action n → Prop
  | .lock _ | .prele _ | .clearLock _ | .hold _ | .load .. | .lockLast .. | .release .. => False
  | .borrow .. | .unborrow | .forget _ | .openFile .. | .undoOpen .. | .pipe .. => False
  | _ => True

/-- Actions that unlock nothing. -/
def Action.keepsLocks {n : ℕ} : Action n → Prop
  | .prele _ | .clearLock _ | .release .. | .syncPrele _ | .pipe .. => False
  | _ => True

namespace Kernel

variable {n : ℕ} {s s' : Kernel n} {p q : Fin n} {i j : Slot} {src : Source}

theorem loc_of_view (h : s'.view q = s.view q) : s'.loc q = s.loc q := by
  rw [← loc_view, h, loc_view]

theorem grip_of_view (h : s'.view q = s.view q) : (s'.loc q).grip = (s.loc q).grip := by
  rw [loc_of_view h]

theorem grip_setProc {e : Process} (he : e.loc.grip = (s.loc p).grip) :
    ((s.setProc p e).loc p).grip = (s.loc p).grip := by
  rw [loc_setProc_self]
  exact he

theorem grip_setLoc {l : Local} (hl : l.grip = (s.loc p).grip) :
    ((s.setLoc p l).loc p).grip = (s.loc p).grip :=
  grip_setProc hl

theorem grip_setFd (fd : Fd) (v : Option FileSlot) :
    ((s.setFd p fd v).loc p).grip = (s.loc p).grip :=
  grip_setProc rfl

/-- The other actions do not touch it. -/
theorem grip_exec {a : Action n} (ha : a.handsOff) :
    ((s.exec p a).loc p).grip = (s.loc p).grip := by
  cases a with
  | lock | prele | clearLock | hold | load | lockLast | release | borrow | unborrow | forget |
    openFile | undoOpen | pipe => exact ha.elim
  | leave =>
    change ((s.leave p).loc p).grip = _
    unfold leave
    split
    · exact grip_setProc rfl
    · rfl
  | fAlloc fd f =>
    apply Eq.trans
    · apply grip_setLoc
      rfl
    · exact grip_setFd fd _
  | undoPipe fd f =>
    apply Eq.trans
    · apply grip_setLoc
      rfl
    · exact grip_setFd fd _
  | clearFd fd f =>
    apply Eq.trans
    · apply grip_setLoc
      rfl
    · exact grip_setFd fd _
  | takeFd fd f =>
    apply Eq.trans
    · apply grip_setLoc
      rfl
    · apply grip_setLoc
      rfl
  | syncPrele i => exact grip_of_view view_prele
  | closePipe i => exact grip_of_view ((view_wakeUpAll _).trans (view_wakeUpAll _))
  | clone child => exact grip_of_view view_clone_of_ne
  | exeDec wake =>
    change ((s.exeDec wake).loc p).grip = _
    unfold exeDec
    change ((if wake = true then s.wakeUpAll .exeCnt else s).loc p).grip = _
    split
    · exact grip_of_view (view_wakeUpAll _)
    · rfl
  | iCopy | iTrunc | clearMode | writeDisk | syncLock | clean | setFields | exeInc => rfl
  | _ => exact grip_setProc rfl

/-- A change of one entry that unlocks nothing. -/
theorem locked_setInode {e : InodeEntry} (he : (s.inode i).locked = true → e.locked = true)
    (h : (s.inode j).locked = true) : ((s.setInode i e).inode j).locked = true := by
  unfold setInode
  dsimp only
  by_cases hj : j = i
  · subst hj
    rw [Function.update_self]
    exact he h
  · rw [Function.update_of_ne hj]
    exact h

theorem inode_clone (child : Fin n) (j : Slot) :
    ((s.clone p child).inode j).iFlag = (s.inode j).iFlag := by
  unfold clone
  split
  · rfl
  · dsimp only
    have htext : ∀ r : Kernel n, (r.countText (s.proc p)).inode = r.inode := by
      intro r
      unfold countText
      split <;> rfl
    change ((Function.update _ _ _ : Slot → InodeEntry) j).iFlag = _
    rw [Function.update_apply]
    split
    · next h =>
      rw [htext, h]
      rfl
    · rw [htext]
      rfl

theorem locked_exec {a : Action n} (ha : a.keepsLocks) (h : (s.inode j).locked = true) :
    ((s.exec p a).inode j).locked = true := by
  cases a with
  | prele | clearLock | release | syncPrele | pipe => exact ha.elim
  | want i chan => exact locked_setInode (fun hl => flag_or_left hl) h
  | lock i => exact locked_setInode (fun hl => flag_or_left hl) h
  | hold i =>
    change ((((s.setCount i _).setFlag i _).inode j).locked) = true
    exact locked_setInode (fun hl => flag_or_left hl) (locked_setInode id h)
  | load i dev number => exact locked_setInode (fun _ => (by decide : (ILOCK &&& ILOCK != 0) = true)) h
  | iCopy i => exact locked_setInode id h
  | lockLast i src =>
    change (((s.setFlag i _).takeFrom p i src).inode j).locked = true
    rw [inode_takeFrom]
    exact locked_setInode (fun hl => flag_or_left hl) h
  | iTrunc i => exact locked_setInode (fun hl => flag_or_left hl) h
  | clearMode i => exact locked_setInode id h
  | syncLock i => exact locked_setInode (fun hl => flag_or_left hl) h
  | clean i => exact locked_setInode id h
  | setFields i flag mode nlink => exact locked_setInode (fun hl => flag_or_left hl) h
  | closePipe i => exact locked_setInode id h
  | newText t i => exact locked_setInode id h
  | leave =>
    change ((s.leave p).inode j).locked = true
    unfold leave
    split <;> exact h
  | clone child =>
    unfold InodeEntry.locked at h ⊢
    rwa [show ((s.exec p (.clone child)).inode j).iFlag = (s.inode j).iFlag from inode_clone child j]
  | exeDec wake =>
    change ((s.exeDec wake).inode j).locked = true
    unfold exeDec
    dsimp only
    split <;> exact h
  | _ => exact h

/-- Whoever is inside an inode has it locked, keeps it in the table, and is alone. -/
structure Held (s : Kernel n) : Prop where
  locked : ∀ p i, (s.loc p).inside i = true → (s.inode i).locked = true
  grip : ∀ p i, (s.loc p).inside i = true → s.Grip p i
  alone : ∀ p q i, (s.loc p).inside i = true → (s.loc q).inside i = true → p = q

/-- `IPut` of a reference that is not the last one finds nobody else inside the inode. -/
def PutApart (p : Fin n) (s : Kernel n) : Action n → Prop
  | .release i false _ => ∀ q, q ≠ p → (s.loc q).inside i = false
  | _ => True

theorem Grip.congr (h : s.Grip p j) (hloc : (s'.loc p).grip = (s.loc p).grip)
    (hlost : 0 < s.lost j → 0 < s'.lost j) : s'.Grip p j := by
  have hrefs : (s'.loc p).refs = (s.loc p).refs := congrArg Prod.fst hloc
  have hborrowed : (s'.loc p).borrowed = (s.loc p).borrowed := congrArg (fun r => r.2.2) hloc
  unfold Grip at h ⊢
  change 0 < (s'.loc p).refs j ∨ _
  rw [hrefs, hborrowed]
  exact h.imp_right fun h => h.imp_right hlost

theorem Grip.of_refs (h : s.Grip p j) (hrefs : (s.loc p).refs j ≤ (s'.loc p).refs j)
    (hborrowed : (s'.loc p).borrowed = (s.loc p).borrowed) (hlost : s'.lost = s.lost) :
    s'.Grip p j := by
  unfold Grip at h ⊢
  rw [hborrowed, hlost]
  exact h.imp_left fun h => h.trans_le hrefs

namespace Held

/-- A step of a process that enters no inode. -/
theorem of_leave (h : s.Held) (hother : ∀ q, q ≠ p → s'.loc q = s.loc q)
    (hlost : ∀ j, 0 < s.lost j → 0 < s'.lost j)
    (hown : ∀ j, (s'.loc p).inside j = true → (s.loc p).inside j = true ∧ s'.Grip p j)
    (hlocked : ∀ q j, (s.loc q).inside j = true → (s'.loc q).inside j = true →
      (s'.inode j).locked = true) : s'.Held := by
  have hinside : ∀ q j, (s'.loc q).inside j = true → (s.loc q).inside j = true := by
    intro q j hq
    by_cases hqp : q = p
    · rw [hqp] at hq ⊢
      exact (hown j hq).1
    · rwa [hother q hqp] at hq
  refine ⟨fun q j hq => hlocked q j (hinside q j hq) hq, fun q j hq => ?_, ?_⟩
  · by_cases hqp : q = p
    · rw [hqp] at hq ⊢
      exact (hown j hq).2
    · apply (h.grip q j (hinside q j hq)).congr
      · rw [hother q hqp]
      · exact hlost j
  · exact fun q r j hq hr => h.alone q r j (hinside q j hq) (hinside r j hr)

/-- A step of a process that enters an inode in which nobody is. -/
theorem of_enter (h : s.Held) (hout : ∀ q, (s.loc q).inside i ≠ true)
    (hother : ∀ q, q ≠ p → s'.loc q = s.loc q) (hlost : s'.lost = s.lost)
    (hinside : (s'.loc p).inside = Function.update (s.loc p).inside i true)
    (hrefs : ∀ j, (s.loc p).refs j ≤ (s'.loc p).refs j)
    (hborrowed : (s'.loc p).borrowed = (s.loc p).borrowed) (hgrip : s'.Grip p i)
    (hlocked : ∀ j, (s.inode j).locked = true → (s'.inode j).locked = true)
    (hi : (s'.inode i).locked = true) : s'.Held := by
  -- who is where
  have hcases : ∀ q j, (s'.loc q).inside j = true →
      q = p ∧ j = i ∨ j ≠ i ∧ (s.loc q).inside j = true := by
    intro q j hq
    by_cases hqp : q = p
    · subst hqp
      rw [hinside, Function.update_apply] at hq
      split at hq
      · next hji => exact .inl ⟨rfl, hji⟩
      · next hji => exact .inr ⟨hji, hq⟩
    · rw [hother q hqp] at hq
      refine .inr ⟨?_, hq⟩
      rintro rfl
      exact hout q hq
  refine ⟨fun q j hq => ?_, fun q j hq => ?_, fun q r j hq hr => ?_⟩
  · rcases hcases q j hq with ⟨-, rfl⟩ | ⟨-, hq⟩
    · exact hi
    · exact hlocked j (h.locked q j hq)
  · rcases hcases q j hq with ⟨rfl, rfl⟩ | ⟨-, hq⟩
    · exact hgrip
    · by_cases hqp : q = p
      · subst hqp
        exact (h.grip q j hq).of_refs (hrefs j) hborrowed hlost
      · apply (h.grip q j hq).congr
        · rw [hother q hqp]
        · rw [hlost]
          exact id
  · rcases hcases q j hq with ⟨rfl, rfl⟩ | ⟨hji, hq⟩
    · rcases hcases r j hr with ⟨rfl, -⟩ | ⟨hne, -⟩
      · rfl
      · exact absurd rfl hne
    · rcases hcases r j hr with ⟨-, rfl⟩ | ⟨-, hr⟩
      · exact absurd rfl hji
      · exact h.alone q r j hq hr

theorem not_inside (h : s.Held) (hlocked : (s.inode i).locked = false) (q : Fin n) :
    (s.loc q).inside i ≠ true := by
  intro hq
  have hl := h.locked q i hq
  rw [hlocked] at hl
  cases hl

/-- Nobody is inside an inode that nobody uses. -/
theorem not_inside_free (h : s.Held) (hs : s.Valid) (hcount : (s.inode i).iCount = 0) (q : Fin n) :
    (s.loc q).inside i ≠ true := by
  intro hq
  exact (hs.count_pos (.inl (h.grip q i hq))).ne' hcount

end Held

/-! ### What each action does -/

theorem lost_exec {a : Action n} (ha : ∀ i, a ≠ .forget i) : (s.exec p a).lost = s.lost := by
  cases a with
  | forget i => exact absurd rfl (ha i)
  | leave =>
    change (s.leave p).lost = _
    unfold leave
    split <;> rfl
  | prele i | syncPrele i =>
    change (s.prele i).lost = _
    unfold prele
    dsimp only
    split <;> rfl
  | lockLast i src => cases src <;> rfl
  | release i last src =>
    have hprele : ∀ r : Kernel n, (r.prele i).lost = r.lost := by
      intro r
      unfold prele
      dsimp only
      split <;> rfl
    have hsettle : ∀ r : Kernel n, (r.settle p src).lost = r.lost := by
      intro r
      cases src with
      | cdir new => cases new <;> rfl
      | _ => rfl
    have hletGo : ∀ r : Kernel n, (r.letGo p i last src).lost = r.lost := by
      intro r
      cases last with
      | true => rfl
      | false =>
        cases src with
        | cdir new => cases new <;> rfl
        | _ => rfl
    change (s.release p i last src).lost = _
    unfold release
    dsimp only
    rw [hsettle, hletGo]
    change ((if last then s.invalidate i else s).dropCount i).lost = _
    unfold dropCount
    rw [hprele]
    cases last with
    | true => exact hprele s
    | false => rfl
  | clone child =>
    change (s.clone p child).lost = _
    unfold clone countText
    split
    · rfl
    · dsimp only
      split <;> rfl
  | exeDec wake => cases wake <;> rfl
  | _ => rfl

theorem loc_prele (q : Fin n) : (s.prele i).loc q = s.loc q := loc_of_view view_prele

/-- What is left of an inode that is given back. -/
theorem loc_release (hsrc : src.keepsDir) (last : Bool) :
    ((s.release p i last src).loc p).inside = Function.update (s.loc p).inside i false ∧
      ((s.release p i last src).loc p).borrowed = (s.loc p).borrowed ∧
      ∀ j, j ≠ i → ((s.release p i last src).loc p).refs j = (s.loc p).refs j := by
  have hbase : ∀ r : Kernel n, r.loc p = s.loc p →
      (((r.dropCount i).setInside p i false).loc p) = (s.loc p).setInside i false := by
    intro r hr
    have hdrop : (r.dropCount i).loc p = s.loc p := (loc_prele p).trans hr
    unfold setInside
    rw [loc_setLoc, hdrop]
    rfl
  have hstart : (if last then s.invalidate i else s).loc p = s.loc p := by
    cases last with
    | true => exact loc_prele p
    | false => rfl
  have hloc := hbase _ hstart
  have hrefs : ∀ r : Kernel n, r.loc p = (s.loc p).setInside i false →
      ((r.letGo p i last src).loc p).inside = Function.update (s.loc p).inside i false ∧
        ((r.letGo p i last src).loc p).borrowed = (s.loc p).borrowed ∧
        ∀ j, j ≠ i → ((r.letGo p i last src).loc p).refs j = (s.loc p).refs j := by
    intro r hr
    have hgive : ∀ j, j ≠ i → ((r.loc p).give i).refs j = (s.loc p).refs j := by
      intro j hj
      rw [hr]
      exact Function.update_of_ne hj _ _
    have hsame : (r.loc p).inside = Function.update (s.loc p).inside i false ∧
        (r.loc p).borrowed = (s.loc p).borrowed := by
      rw [hr]
      exact ⟨rfl, rfl⟩
    unfold letGo
    cases last with
    | true =>
      rw [if_pos rfl]
      unfold setTearing give
      rw [loc_setLoc, loc_setLoc]
      exact ⟨hsame.1, hsame.2, hgive⟩
    | false =>
      rw [if_neg Bool.false_ne_true]
      cases src with
      | hand =>
        unfold give
        rw [loc_setLoc]
        exact ⟨hsame.1, hsame.2, hgive⟩
      | cdir new => exact hsrc.elim
      | _ =>
        refine ⟨hsame.1, hsame.2, fun j _ => ?_⟩
        rw [hr]
        rfl
  unfold release
  dsimp only
  obtain ⟨hin, hborrowed, href⟩ := hrefs _ hloc
  generalize (((if last then s.invalidate i else s).dropCount i).setInside p i false).letGo p i last
    src = r at *
  cases src with
  | cdir new => exact hsrc.elim
  | file f =>
    unfold settle setClosing
    dsimp only
    rw [loc_setLoc]
    exact ⟨hin, hborrowed, href⟩
  | _ => exact ⟨hin, hborrowed, href⟩

namespace Held

theorem others (a : Action n) (q : Fin n) (hq : q ≠ p) : (s.exec p a).loc q = s.loc q :=
  loc_of_view (view_exec_of_ne a hq)

/-- Actions that leave locks and what is in hand alone. -/
theorem quiet (h : s.Held) {a : Action n} (hhands : a.handsOff) (hkeeps : a.keepsLocks) :
    (s.exec p a).Held := by
  have hgrip := grip_exec (s := s) (p := p) hhands
  have hinside : ((s.exec p a).loc p).inside = (s.loc p).inside :=
    congrArg (fun r => r.2.1) hgrip
  have hlost : (s.exec p a).lost = s.lost := by
    apply lost_exec
    rintro i rfl
    exact hhands
  apply h.of_leave (others a)
  · exact fun j => (congrFun hlost j ▸ id)
  · intro j hj
    rw [hinside] at hj
    exact ⟨hj, (h.grip p j hj).congr hgrip (congrFun hlost j ▸ id)⟩
  · exact fun q j hq _ => locked_exec hkeeps (h.locked q j hq)

/-- A process leaves an inode that it is inside of, and nobody else is. -/
theorem unlock (h : s.Held) {a : Action n} (hlost : (s.exec p a).lost = s.lost)
    (hinside : ((s.exec p a).loc p).inside = Function.update (s.loc p).inside i false)
    (hgrip : ∀ j, j ≠ i → s.Grip p j → (s.exec p a).Grip p j)
    (hout : ∀ q, q ≠ p → (s.loc q).inside i ≠ true)
    (hinode : ∀ j, j ≠ i → (s.exec p a).inode j = s.inode j) : (s.exec p a).Held := by
  have hown : ∀ j, ((s.exec p a).loc p).inside j = true → j ≠ i ∧ (s.loc p).inside j = true := by
    intro j hj
    rw [hinside, Function.update_apply] at hj
    split at hj
    · cases hj
    · next hji => exact ⟨hji, hj⟩
  apply h.of_leave (others a)
  · exact fun j => (congrFun hlost j ▸ id)
  · intro j hj
    obtain ⟨hji, hin⟩ := hown j hj
    exact ⟨hin, hgrip j hji (h.grip p j hin)⟩
  · intro q j hq hq'
    have hji : j ≠ i := by
      by_cases hqp : q = p
      · rw [hqp] at hq'
        exact (hown j hq').1
      · rintro rfl
        exact hout q hqp hq
    rw [hinode j hji]
    exact h.locked q j hq

/-- Nobody else is inside. -/
theorem alone_inside (h : s.Held) (hin : (s.loc p).inside i = true) (q : Fin n) (hq : q ≠ p) :
    (s.loc q).inside i ≠ true :=
  fun hq' => hq (h.alone q p i hq' hin)

theorem lock (h : s.Held) (hlocked : (s.inode i).locked = false) (hgrip : s.Grip p i) :
    (s.exec p (.lock i)).Held := by
  have hloc : (s.exec p (.lock i)).loc p = (s.loc p).setInside i true := loc_setLoc
  have hlost : (s.exec p (.lock i)).lost = s.lost := rfl
  apply h.of_enter (h.not_inside hlocked) (others _) hlost
  · rw [hloc]
    rfl
  · rw [hloc]
    exact fun j => le_rfl
  · rw [hloc]
    rfl
  · apply hgrip.of_refs _ _ hlost
    · rw [hloc]
      exact le_rfl
    · rw [hloc]
      rfl
  · exact fun j hj => locked_exec trivial hj
  · change ((s.setFlag i _).inode i).locked = true
    unfold setFlag
    rw [inode_setInode_self]
    exact flag_or_right (by decide)

/-- `IGet` of an inode in which nobody is. -/
theorem get (h : s.Held) {a : Action n} (hout : ∀ q, (s.loc q).inside i ≠ true)
    (hlost : (s.exec p a).lost = s.lost)
    (hloc : (s.exec p a).loc p = ((s.loc p).take i).setInside i true) (hkeeps : a.keepsLocks)
    (hi : ((s.exec p a).inode i).locked = true) : (s.exec p a).Held := by
  have hrefs : ∀ j, (s.loc p).refs j ≤ ((s.exec p a).loc p).refs j := by
    intro j
    rw [hloc]
    change _ ≤ Function.update (s.loc p).refs i ((s.loc p).refs i + 1) j
    rw [Function.update_apply]
    split
    · next hji =>
      rw [hji]
      exact Nat.le_succ _
    · exact le_rfl
  apply h.of_enter hout (others a) hlost
  · rw [hloc]
    rfl
  · exact hrefs
  · rw [hloc]
    rfl
  · apply Or.inl
    change 0 < ((s.exec p a).loc p).refs i
    rw [hloc]
    change 0 < Function.update (s.loc p).refs i ((s.loc p).refs i + 1) i
    rw [Function.update_self]
    exact Nat.succ_pos _
  · exact fun j hj => locked_exec hkeeps hj
  · exact hi

theorem hold (h : s.Held) (hlocked : (s.inode i).locked = false) : (s.exec p (.hold i)).Held := by
  apply h.get (h.not_inside hlocked)
  · rfl
  · rw [← loc_view]
    exact congrArg Process.loc view_hold
  · trivial
  · change (((s.setCount i _).setFlag i _).inode i).locked = true
    unfold setFlag
    rw [inode_setInode_self]
    exact flag_or_right (by decide)

theorem load (h : s.Held) (hs : s.Valid) (hcount : (s.inode i).iCount = 0) (dev number : ℤ) :
    (s.exec p (.load i dev number)).Held := by
  apply h.get (h.not_inside_free hs hcount)
  · rfl
  · rw [← loc_view]
    exact congrArg Process.loc (view_load dev number)
  · trivial
  · change ((s.setInode i _).inode i).locked = true
    rw [inode_setInode_self]
    exact (by decide : (ILOCK &&& ILOCK != 0) = true)

theorem prele (h : s.Held) (hin : (s.loc p).inside i = true) : (s.exec p (.prele i)).Held := by
  have hloc : (s.exec p (.prele i)).loc p = (s.loc p).setInside i false := by
    change ((s.prele i).setInside p i false).loc p = _
    unfold setInside
    rw [loc_setLoc, loc_prele]
    rfl
  have hlost : (s.exec p (.prele i)).lost = s.lost := lost_exec fun _ h => by cases h
  apply h.unlock hlost _ _ (h.alone_inside hin)
  · exact fun j hj => inode_prele_of_ne hj
  · rw [hloc]
    rfl
  · intro j _ hgrip
    apply hgrip.of_refs _ _ hlost
    · rw [hloc]
      exact le_rfl
    · rw [hloc]
      rfl

theorem clearLock (h : s.Held) (hin : (s.loc p).inside i = true) :
    (s.exec p (.clearLock i)).Held := by
  have hloc : (s.exec p (.clearLock i)).loc p = (s.loc p).setInside i false := loc_setLoc
  have hlost : (s.exec p (.clearLock i)).lost = s.lost := rfl
  apply h.unlock hlost _ _ (h.alone_inside hin)
  · exact fun j hj => inode_setInode_of_ne hj
  · rw [hloc]
    rfl
  · intro j _ hgrip
    apply hgrip.of_refs _ _ hlost
    · rw [hloc]
      exact le_rfl
    · rw [hloc]
      rfl

theorem release (h : s.Held) {last : Bool} (hsrc : src.keepsDir)
    (hout : ∀ q, q ≠ p → (s.loc q).inside i ≠ true) : (s.exec p (.release i last src)).Held := by
  obtain ⟨hinside, hborrowed, hrefs⟩ := loc_release (s := s) (p := p) (i := i) hsrc last
  have hlost : (s.exec p (.release i last src)).lost = s.lost :=
    lost_exec fun _ h => by cases h
  apply h.unlock hlost hinside _ hout
  · intro j hj
    have hframe := (release_frame s p i last src).1
    exact hframe j hj
  · intro j hj hgrip
    exact hgrip.of_refs (hrefs j hj).ge hborrowed hlost

/-- Actions after which the process is inside no other inodes, and has as good a grip of them. -/
theorem regrip (h : s.Held) {a : Action n} (hkeeps : a.keepsLocks)
    (hinside : ((s.exec p a).loc p).inside = (s.loc p).inside)
    (hlost : ∀ j, 0 < s.lost j → 0 < (s.exec p a).lost j)
    (hgrip : ∀ j, (s.loc p).inside j = true → s.Grip p j → (s.exec p a).Grip p j) :
    (s.exec p a).Held := by
  apply h.of_leave (others a) hlost
  · intro j hj
    rw [hinside] at hj
    exact ⟨hj, hgrip j hj (h.grip p j hj)⟩
  · exact fun q j hq _ => locked_exec hkeeps (h.locked q j hq)

theorem lockLast (h : s.Held) : (s.exec p (.lockLast i src)).Held := by
  have hlost : (s.exec p (.lockLast i src)).lost = s.lost := lost_exec fun _ h => by cases h
  have hloc : (s.exec p (.lockLast i src)).loc p = ((s.view p).seize i src).loc := by
    rw [← loc_view]
    exact congrArg Process.loc view_lockLast
  have hrefs : ∀ j, (s.loc p).refs j ≤ ((s.view p).seize i src).loc.refs j := by
    have htake : ∀ j, (s.loc p).refs j ≤ ((s.loc p).take i).refs j := by
      intro j
      change _ ≤ Function.update (s.loc p).refs i ((s.loc p).refs i + 1) j
      rw [Function.update_apply]
      split
      · next hji =>
        rw [hji]
        exact Nat.le_succ _
      · exact le_rfl
    intro j
    rw [← loc_view] at htake ⊢
    cases src with
    | hand => exact le_rfl
    | _ => exact htake j
  have hrest : ((s.view p).seize i src).loc.inside = (s.loc p).inside ∧
      ((s.view p).seize i src).loc.borrowed = (s.loc p).borrowed := by
    rw [← loc_view]
    cases src <;> exact ⟨rfl, rfl⟩
  apply h.regrip
  · trivial
  · rw [hloc, hrest.1]
  · exact fun j => (congrFun hlost j ▸ id)
  · intro j _ hgrip
    apply hgrip.of_refs _ _ hlost
    · rw [hloc]
      exact hrefs j
    · rw [hloc, hrest.2]

theorem borrow (h : s.Held) {v : Via} (hnone : (s.loc p).borrowed = none) :
    (s.exec p (.borrow i v)).Held := by
  have hloc : (s.exec p (.borrow i v)).loc p = { s.loc p with
      borrowed := some ⟨i, v, (s.inode i).iDev, (s.inode i).iNumber⟩ } := loc_setLoc
  apply h.regrip
  · trivial
  · rw [hloc]
  · exact fun j => id
  · rintro j _ (hrefs | ⟨b, hb, -⟩ | hlost)
    · apply Or.inl
      change 0 < ((s.exec p (.borrow i v)).loc p).refs j
      rw [hloc]
      exact hrefs
    · rw [hnone] at hb
      cases hb
    · exact .inr (.inr hlost)

theorem unborrow (h : s.Held) (hin : ∀ b, (s.loc p).borrowed = some b →
    (s.loc p).inside b.slot = true → 0 < s.books.refs p b.slot) : (s.exec p .unborrow).Held := by
  have hloc : (s.exec p .unborrow).loc p = { s.loc p with borrowed := none } := loc_setLoc
  have hrefs : ∀ j, 0 < s.books.refs p j → (s.exec p .unborrow).Grip p j := by
    intro j hj
    apply Or.inl
    change 0 < ((s.exec p .unborrow).loc p).refs j
    rw [hloc]
    exact hj
  apply h.regrip
  · trivial
  · rw [hloc]
  · exact fun j => id
  · rintro j hj (hpos | ⟨b, hb, rfl⟩ | hlost)
    · exact hrefs j hpos
    · exact hrefs _ (hin b hb hj)
    · exact .inr (.inr hlost)

/-- What was a reference in hand is one left behind. -/
theorem forget (h : s.Held) : (s.exec p (.forget i)).Held := by
  have hloc : (s.exec p (.forget i)).loc p = (s.loc p).give i := loc_setLoc
  have hlost : ∀ j, 0 < s.lost j → 0 < (s.exec p (.forget i)).lost j := by
    intro j hj
    change 0 < Function.update s.lost i (s.lost i + 1) j
    rw [Function.update_apply]
    split
    · exact Nat.succ_pos _
    · exact hj
  apply h.regrip
  · trivial
  · rw [hloc]
    rfl
  · exact hlost
  · intro j _ hgrip
    by_cases hji : j = i
    · subst hji
      apply Or.inr ∘ Or.inr
      change 0 < Function.update s.lost j (s.lost j + 1) j
      rw [Function.update_self]
      exact Nat.succ_pos _
    · rcases hgrip with hrefs | hb | hl
      · apply Or.inl
        change 0 < ((s.exec p (.forget i)).loc p).refs j
        rw [hloc]
        change 0 < Function.update (s.loc p).refs i _ j
        rw [Function.update_of_ne hji]
        exact hrefs
      · refine .inr (.inl ?_)
        rw [hloc]
        exact hb
      · exact .inr (.inr (hlost j hl))

theorem openFile (h : s.Held) {f : FileSlot} {flag : UInt32} (hout : (s.loc p).inside i = false) :
    (s.exec p (.openFile f flag i)).Held := by
  have hlost : (s.exec p (.openFile f flag i)).lost = s.lost := rfl
  have hloc : (s.exec p (.openFile f flag i)).loc p = ({ s.loc p with
      fresh := Function.update (s.loc p).fresh f false } : Local).give i := by
    change (((s.setFile f _).setFresh p f false).give p i).loc p = _
    unfold give setFresh
    rw [loc_setLoc, loc_setLoc]
    rfl
  apply h.regrip
  · trivial
  · rw [hloc]
    rfl
  · exact fun j => id
  · intro j hj hgrip
    have hji : j ≠ i := by
      rintro rfl
      rw [hout] at hj
      cases hj
    apply hgrip.of_refs _ _ hlost
    · rw [hloc]
      exact (Function.update_of_ne hji _ _).ge
    · rw [hloc]
      rfl

theorem undoOpen (h : s.Held) (fd : Fd) (f : FileSlot) : (s.exec p (.undoOpen fd f)).Held := by
  have hlost : (s.exec p (.undoOpen fd f)).lost = s.lost := rfl
  have hloc : (s.exec p (.undoOpen fd f)).loc p = (s.loc p).take (s.file f).fInode := by
    change (((s.setFd p fd none).setFile f _).take p (s.file f).fInode).loc p = _
    rw [loc_take]
    exact congrArg (fun l : Local => l.take (s.file f).fInode) loc_setProc_self
  apply h.regrip
  · trivial
  · rw [hloc]
    rfl
  · exact fun j => id
  · intro j _ hgrip
    apply hgrip.of_refs _ _ hlost
    · rw [hloc]
      change _ ≤ Function.update (s.loc p).refs _ ((s.loc p).refs _ + 1) j
      rw [Function.update_apply]
      split
      · next hji =>
        rw [hji]
        exact Nat.le_succ _
      · exact le_rfl
    · rw [hloc]
      rfl

/-- **Every action keeps this**, if `IPut` finds nobody else inside. -/
theorem exec (h : s.Held) (hs : s.Valid) {a : Action n} (ha : Allowed True s p a)
    (hplain : a.plain ∨ ∃ i, a = .forget i) (hok : PutApart p s a) : (s.exec p a).Held := by
  cases a with
  | lock i => exact h.lock ha.1 ha.2
  | hold i => exact h.hold ha.2.2.2
  | load i dev number => exact h.load hs ha.2.2.1 dev number
  | prele i => exact h.prele (ha.2.2 trivial)
  | clearLock i => exact h.clearLock (ha.2.2 trivial)
  | lockLast i src => exact h.lockLast
  | release i last src =>
    cases last with
    | true =>
      -- nobody keeps an inode whose last reference is being given back
      refine h.release (ha.2.2.2 trivial) fun q hq hin => ?_
      exact hs.not_torn (.inl (h.grip q i hin)) (Ne.symm hq) ha.2.1
    | false =>
      refine h.release (ha.2.2.2.2.2 trivial) fun q hq hin => ?_
      rw [hok q hq] at hin
      cases hin
  | borrow i v => exact h.borrow ha.2.2
  | unborrow => exact h.unborrow (ha.2 trivial)
  | forget i => exact h.forget
  | openFile f flag i => exact h.openFile (ha.2.2.2 trivial)
  | undoOpen fd f => exact h.undoOpen fd f
  | syncPrele i | pipe => rcases hplain with hplain | ⟨j, hj⟩ <;> [exact hplain.elim; cases hj]
  | _ => exact h.quiet trivial trivial

end Held
end Kernel
end UnixV6pp
