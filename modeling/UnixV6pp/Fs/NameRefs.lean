import UnixV6pp.Fs.OwnBuffer
import UnixV6pp.Fs.Guards
import UnixV6pp.Fs.InCore

/-!
# The references that `NameI` takes

`NameI` has one directory in hand at a time, with a reference and the lock, and gives it back at
every exit but three: the inode it returns, the parent it returns for a deletion, and the parent it
leaves in `u_pdir` for a new file.  At the last of these it does not look at `u_error`, which a
refused `Bmap` of the search may have set.

* `InCore.nameI` — the call, on the table of in-core inodes.
* `nameI_balance` — **one reference is kept at most**, at every exit.
* `balanced_iff` — when it is kept only without an error.
-/

namespace UnixV6pp

open FileSystem Inode FileManager Flags

/-! ### What a search changes -/

namespace Inode

/-- What looking up a logical block may change of the entry of the table and of the error. -/
structure Kin (fs fs' : FsState) (ino ino' : Inode) : Prop where
  count_eq : ino'.iCount = ino.iCount
  number_eq : ino'.iNumber = ino.iNumber
  locked_eq : flag ino'.iFlag ILOCK = flag ino.iFlag ILOCK
  error : fs'.uError = fs.uError ∨ fs'.uError = .ENOSPC ∨ fs'.uError = .EFBIG

variable {fs fs' fs'' : FsState} {ino ino' ino'' : Inode}

theorem Kin.refl (fs : FsState) (ino : Inode) : Kin fs fs ino ino := ⟨rfl, rfl, rfl, .inl rfl⟩

theorem Kin.trans (h : Kin fs fs' ino ino') (h' : Kin fs' fs'' ino' ino'') :
    Kin fs fs'' ino ino'' := by
  refine ⟨h'.count_eq.trans h.count_eq, h'.number_eq.trans h.number_eq,
    h'.locked_eq.trans h.locked_eq, ?_⟩
  rcases h'.error with heq | hset
  · rw [heq]
    exact h.error
  · exact .inr hset

/-- An error that is set stays set. -/
theorem Kin.stays (h : Kin fs fs' ino ino') (herr : fs.uError ≠ .NOERROR) :
    fs'.uError ≠ .NOERROR := by
  rcases h.error with heq | heq | heq
  · rw [heq]
    exact herr
  · rw [heq]
    decide
  · rw [heq]
    decide

/-- `i_addr` and the flag `IUPD` do not matter. -/
theorem Kin.iupd (h : Kin fs fs' ino ino') (iAddr : ℕ → ℤ) :
    Kin fs fs' ino { ino' with iAddr := iAddr, iFlag := ino'.iFlag ||| IUPD } := by
  refine ⟨h.count_eq, h.number_eq, ?_, h.error⟩
  rw [← h.locked_eq]
  change flag (ino'.iFlag ||| IUPD) ILOCK = _
  rw [flag_or]
  exact Bool.or_false _

theorem allocBuf_error {r : Option Buf} (h : allocBuf fs = .ok (r, fs')) :
    fs'.uError = fs.uError ∨ fs'.uError = .ENOSPC := by
  unfold allocBuf at h
  obtain ⟨⟨blkno, fs₁⟩, halloc, h⟩ := Except.bind_eq_ok.mp h
  cases h
  unfold alloc at halloc
  dsimp only at halloc
  split at halloc
  · cases halloc
  · obtain ⟨b, -, halloc⟩ := Except.bind_eq_ok.mp halloc
    split at halloc
    · cases halloc
      exact .inr rfl
    · split at halloc
      · cases halloc
        exact .inl rfl
      · cases halloc
        exact .inl rfl

theorem bmapDirect_kin {lbn r : ℤ} (h : bmapDirect fs ino lbn = .ok (r, ino', fs')) :
    Kin fs fs' ino ino' := by
  unfold bmapDirect at h
  obtain ⟨phyBlkno, -, h⟩ := Except.bind_eq_ok.mp h
  dsimp only at h
  split at h
  · obtain ⟨⟨buf, fs₁⟩, halloc, h⟩ := Except.bind_eq_ok.mp h
    have herr := allocBuf_error halloc
    have hkin : Kin fs fs₁ ino ino := ⟨rfl, rfl, rfl, herr.imp_right .inl⟩
    cases buf with
    | none =>
      cases h
      exact ⟨rfl, rfl, rfl, hkin.error⟩
    | some buf =>
      cases h
      exact ⟨rfl, rfl, (hkin.iupd ino.iAddr).locked_eq, hkin.error⟩
  · cases h
    exact ⟨rfl, rfl, rfl, .inl rfl⟩

theorem firstTable_kin {index : ℤ} {r : Option Buf}
    (h : firstTable fs ino index = .ok (r, ino', fs')) : Kin fs fs' ino ino' := by
  unfold firstTable at h
  obtain ⟨phyBlkno, -, h⟩ := Except.bind_eq_ok.mp h
  split at h
  · obtain ⟨⟨buf, fs₁⟩, halloc, h⟩ := Except.bind_eq_ok.mp h
    have hkin : Kin fs fs₁ ino ino := ⟨rfl, rfl, rfl, (allocBuf_error halloc).imp_right .inl⟩
    cases buf with
    | none =>
      cases h
      exact hkin.iupd ino.iAddr
    | some buf =>
      cases h
      exact hkin.iupd _
  · cases h
    exact Kin.refl _ _

theorem secondTable_error {first : Buf} {index : ℤ} {r : Option Buf}
    (h : secondTable fs first index = .ok (r, fs')) :
    fs'.uError = fs.uError ∨ fs'.uError = .ENOSPC := by
  unfold secondTable at h
  obtain ⟨phyBlkno, -, h⟩ := Except.bind_eq_ok.mp h
  split at h
  · obtain ⟨⟨buf, fs₁⟩, halloc, h⟩ := Except.bind_eq_ok.mp h
    have herr := allocBuf_error halloc
    cases buf <;> cases h <;> exact herr
  · cases h
    exact .inl rfl

theorem lastTable_error {table : Buf} {index r : ℤ} (h : lastTable fs table index = .ok (r, fs')) :
    fs'.uError = fs.uError ∨ fs'.uError = .ENOSPC := by
  unfold lastTable at h
  obtain ⟨phyBlkno, -, h⟩ := Except.bind_eq_ok.mp h
  dsimp only at h
  split at h
  · obtain ⟨⟨buf, fs₁⟩, halloc, h⟩ := Except.bind_eq_ok.mp h
    have herr := allocBuf_error halloc
    cases buf <;> cases h <;> exact herr
  · cases h
    exact .inl rfl

/-- The part of `Bmap` behind the index block of the first level. -/
theorem tables_kin (table : Option Buf) {index r : ℤ} (h : (match table with
    | none => pure (0, ino, fs)
    | some table => do
      let (phyBlkno, s) ← lastTable fs table index
      return (phyBlkno, ino, s) : Except Stop (ℤ × Inode × FsState)) = .ok (r, ino', fs')) :
    Kin fs fs' ino ino' := by
  cases table with
  | none =>
    cases h
    exact Kin.refl _ _
  | some table =>
    obtain ⟨⟨phyBlkno, fs₁⟩, hlast, h⟩ := Except.bind_eq_ok.mp h
    cases h
    exact ⟨rfl, rfl, rfl, (lastTable_error hlast).imp_right .inl⟩

/-- **`Bmap`** may be refused, and touches no reference and no lock. -/
theorem bmap_kin {lbn r : ℤ} (h : bmap fs ino lbn = .ok (r, ino', fs')) : Kin fs fs' ino ino' := by
  unfold bmap at h
  split at h
  · cases h
    exact ⟨rfl, rfl, rfl, .inr (.inr rfl)⟩
  · split at h
    · exact bmapDirect_kin h
    · obtain ⟨⟨first, ino₁, fs₁⟩, hfirst, h⟩ := Except.bind_eq_ok.mp h
      have hkin := firstTable_kin hfirst
      cases first with
      | none =>
        cases h
        exact hkin
      | some first =>
        have hsecond_kin {fs₂ : FsState} {table : Option Buf} {index : ℤ}
            (hsecond : secondTable fs₁ first index = .ok (table, fs₂)) : Kin fs fs₂ ino ino₁ :=
          hkin.trans ⟨rfl, rfl, rfl, (secondTable_error hsecond).imp_right .inl⟩
        dsimp only at h
        split at h
        · split at h
          · obtain ⟨⟨table, fs₂⟩, hsecond, h⟩ := Except.bind_eq_ok.mp h
            exact (hsecond_kin hsecond).trans (tables_kin table h)
          · exact hkin.trans (tables_kin (some first) h)
        · split at h
          · obtain ⟨⟨table, fs₂⟩, hsecond, h⟩ := Except.bind_eq_ok.mp h
            exact (hsecond_kin hsecond).trans (tables_kin table h)
          · exact hkin.trans (tables_kin (some first) h)

end Inode

/-! ### The inner loop -/

namespace FileManager

open Except

variable {s s' : Search}

theorem reload_kin (h : reload s = .ok s') : Kin s.fs s'.fs s.ino s'.ino := by
  rcases reload_ok h with rfl | ⟨blkno, hbmap, -⟩
  · exact Kin.refl _ _
  · exact bmap_kin hbmap

theorem readHead_kin (h : readHead s = .ok s') : Kin s.fs s'.fs s.ino s'.ino := by
  unfold readHead at h
  obtain ⟨s₁, hreload, h⟩ := bind_eq_ok.mp h
  obtain ⟨r, -, h⟩ := bind_eq_ok.mp h
  have hkin := reload_kin hreload
  cases h
  exact hkin

theorem readAdditions_kin {n index : ℕ} (h : readAdditions n index s = .ok s') :
    Kin s.fs s'.fs s.ino s'.ino := by
  induction n generalizing index s with
  | zero =>
    cases h
    exact Kin.refl _ _
  | succ n ih =>
    rw [readAdditions] at h
    obtain ⟨s₁, hreload, h⟩ := bind_eq_ok.mp h
    obtain ⟨r, -, h⟩ := bind_eq_ok.mp h
    dsimp only at h
    split at h
    · cases h
    · have hkin := ih h
      exact (reload_kin hreload).trans hkin

theorem noteFree_kin (h : noteFree s = .ok s') : Kin s.fs s'.fs s.ino s'.ino := by
  rcases noteFree_ok h with rfl | rfl | ⟨length, blkno, hbmap, -⟩
  · exact Kin.refl _ _
  · exact Kin.refl _ _
  · exact bmap_kin hbmap

theorem scanStep_kin {found : Bool} (h : scanStep s = .ok (found, s')) :
    Kin s.fs s'.fs s.ino s'.ino := by
  unfold scanStep at h
  obtain ⟨s₁, hhead, h⟩ := bind_eq_ok.mp h
  have hkin := readHead_kin hhead
  split at h
  · obtain ⟨s₂, hnote, h⟩ := bind_eq_ok.mp h
    have hkin₂ := noteFree_kin hnote
    cases h
    exact hkin.trans hkin₂
  · obtain ⟨s₂, hread, h⟩ := bind_eq_ok.mp h
    cases h
    exact hkin.trans (readAdditions_kin hread)

theorem scan_kin {fuel : ℕ} {found : Bool} (h : scan fuel s = .ok (found, s')) :
    Kin s.fs s'.fs s.ino s'.ino := by
  induction fuel generalizing s with
  | zero =>
    rw [scan] at h
    split at h
    · cases h
      exact Kin.refl _ _
    · cases h
  | succ fuel ih =>
    rw [scan] at h
    split at h
    · cases h
      exact Kin.refl _ _
    · obtain ⟨⟨found₁, s₁⟩, hstep, h⟩ := bind_eq_ok.mp h
      have hkin := scanStep_kin hstep
      dsimp only at h
      split at h
      · cases h
        exact hkin
      · exact hkin.trans (ih h)

theorem turns_kin (h : Relation.ReflTransGen Turn s s') : Kin s.fs s'.fs s.ino s'.ino := by
  induction h with
  | refl => exact Kin.refl _ _
  | tail _ hturn ih => exact ih.trans (scanStep_kin hturn.2)

/-- The loop that looks at all records. -/
theorem scan_turns {fuel : ℕ} (h : scan fuel s = .ok (false, s')) :
    Relation.ReflTransGen Turn s s' ∧ s'.u.mCount = 0 := by
  induction fuel generalizing s with
  | zero =>
    rw [scan] at h
    split at h
    · next hcount =>
      cases h
      exact ⟨.refl, hcount⟩
    · cases h
  | succ fuel ih =>
    rw [scan] at h
    split at h
    · next hcount =>
      cases h
      exact ⟨.refl, hcount⟩
    · next hcount =>
      obtain ⟨⟨found₁, s₁⟩, hstep, h⟩ := bind_eq_ok.mp h
      dsimp only at h
      cases found₁ with
      | true => cases h
      | false =>
        obtain ⟨hturns, hend⟩ := ih h
        exact ⟨.head ⟨hcount, hstep⟩ hturns, hend⟩

/-- There is one end to come to. -/
theorem scan_of_turns {fuel : ℕ} {found : Bool} {s₁ : Search}
    (hturns : Relation.ReflTransGen Turn s s') (hend : s'.u.mCount = 0)
    (h : scan fuel s = .ok (found, s₁)) : found = false ∧ s₁ = s' := by
  induction hturns using Relation.ReflTransGen.head_induction_on generalizing fuel with
  | refl =>
    cases fuel with
    | zero =>
      rw [scan, if_pos hend] at h
      cases h
      exact ⟨rfl, rfl⟩
    | succ fuel =>
      rw [scan, if_pos hend] at h
      cases h
      exact ⟨rfl, rfl⟩
  | head hturn _ ih =>
    cases fuel with
    | zero =>
      rw [scan, if_neg hturn.1] at h
      cases h
    | succ fuel =>
      rw [scan, if_neg hturn.1, hturn.2, ok_bind] at h
      exact ih h

/-- The search ends without a match where the caller may write, and in one of its turns a `Bmap` was
refused. -/
def RunsOut (s : Search) : Prop :=
  ∃ s₁ s₂ s', Relation.ReflTransGen Turn s s₁ ∧ Turn s₁ s₂ ∧ s₁.fs.uError = .NOERROR ∧
    s₂.fs.uError ≠ .NOERROR ∧ Relation.ReflTransGen Turn s₂ s' ∧ s'.u.mCount = 0 ∧
    access s' IWRITE = none

/-- The turn that sets the error. -/
theorem exists_refusal (hturns : Relation.ReflTransGen Turn s s') (h : s.fs.uError = .NOERROR)
    (h' : s'.fs.uError ≠ .NOERROR) : ∃ s₁ s₂, Relation.ReflTransGen Turn s s₁ ∧ Turn s₁ s₂ ∧
      s₁.fs.uError = .NOERROR ∧ s₂.fs.uError ≠ .NOERROR ∧ Relation.ReflTransGen Turn s₂ s' := by
  induction hturns with
  | refl => exact absurd h h'
  | @tail s₁ s₂ hturns hturn ih =>
    by_cases h₁ : s₁.fs.uError = .NOERROR
    · exact ⟨s₁, s₂, hturns, hturn, h₁, h', .refl⟩
    · obtain ⟨s₃, s₄, h₃, hturn₃, hok, herr, h₄⟩ := ih h₁
      exact ⟨s₃, s₄, h₃, hturn₃, hok, herr, h₄.tail hturn⟩

/-- A turn sets an error only when a `Bmap` is refused. -/
theorem RunsOut.end (h : RunsOut s) {fuel : ℕ} {found : Bool} {s₁ : Search}
    (hscan : scan fuel s = .ok (found, s₁)) :
    found = false ∧ access s₁ IWRITE = none ∧ s₁.fs.uError ≠ .NOERROR := by
  obtain ⟨s₂, s₃, s', hturns, hturn, -, herr, hlater, hend, haccess⟩ := h
  obtain ⟨hfound, rfl⟩ := scan_of_turns ((hturns.tail hturn).trans hlater) hend hscan
  exact ⟨hfound, haccess, (turns_kin hlater).stays herr⟩

/-! ### A component -/

variable {fuel : ℕ} {mode : DirectorySearchMode} {fs : FsState} {ino : Inode} {u : User}
  {busy : List ℤ} {curchar curchar' : UInt8} {outcome : Outcome}

theorem beginSearch_fields {error : Option ErrorCode}
    (h : beginSearch fs ino u busy curchar = .ok (error, curchar', s)) :
    s.fs = fs ∧ s.ino = ino := by
  unfold beginSearch at h
  dsimp only at h
  split at h
  · cases h
    exact ⟨rfl, rfl⟩
  · split at h
    · cases h
      exact ⟨rfl, rfl⟩
    · obtain ⟨r, -, h⟩ := bind_eq_ok.mp h
      obtain ⟨r', -, h⟩ := bind_eq_ok.mp h
      cases h
      exact ⟨rfl, rfl⟩

theorem notFound_kin (mode : DirectorySearchMode) (c : UInt8) (s : Search) : Kin s.fs s.fs s.ino (notFound mode c s).2.ino := by
  unfold notFound
  split
  · split
    · exact Kin.refl _ _
    · split
      · exact Kin.refl _ _
      · exact (Kin.refl s.fs s.ino).iupd _
  · exact Kin.refl _ _

theorem foundEntry_ino {c : UInt8} : (foundEntry mode c s).2.ino = s.ino := by
  unfold foundEntry
  split
  · split <;> rfl
  · rfl

/-- How a turn of the outer loop ends. -/
theorem component_ok (h : component fuel mode fs ino u busy curchar = .ok (outcome, curchar', s)) :
    (∃ error s₀, beginSearch fs ino u busy curchar = .ok (some error, curchar', s₀) ∧
      fail s₀ error = (outcome, s)) ∨
    ∃ s₀ found s₁, beginSearch fs ino u busy curchar = .ok (none, curchar', s₀) ∧
      scan fuel s₀ = .ok (found, s₁) ∧
      (if found then foundEntry mode curchar' (brelse s₁ s₁.pBuf)
        else notFound mode curchar' (brelse s₁ s₁.pBuf)) = (outcome, s) := by
  unfold component at h
  obtain ⟨⟨error, c, s₀⟩, hbegin, h⟩ := bind_eq_ok.mp h
  cases error with
  | some error =>
    obtain ⟨houtcome, hrest⟩ := Prod.mk.inj (Except.ok.inj h)
    obtain ⟨rfl, hs⟩ := Prod.mk.inj hrest
    exact .inl ⟨error, s₀, hbegin, Prod.ext houtcome hs⟩
  | none =>
    obtain ⟨⟨found, s₁⟩, hscan, h⟩ := bind_eq_ok.mp h
    obtain ⟨houtcome, hrest⟩ := Prod.mk.inj (Except.ok.inj h)
    obtain ⟨rfl, hs⟩ := Prod.mk.inj hrest
    exact .inr ⟨s₀, found, s₁, hbegin, hscan, Prod.ext houtcome hs⟩

/-- **A turn of the outer loop** touches no reference and no lock. -/
theorem component_kin (h : component fuel mode fs ino u busy curchar = .ok (outcome, curchar', s)) :
    s.ino.iCount = ino.iCount ∧ s.ino.iNumber = ino.iNumber ∧
      flag s.ino.iFlag ILOCK = flag ino.iFlag ILOCK := by
  rcases component_ok h with ⟨error, s₀, hbegin, hfail⟩ | ⟨s₀, found, s₁, hbegin, hscan, hend⟩
  · obtain ⟨-, hino⟩ := beginSearch_fields hbegin
    obtain rfl : { s₀ with fs := { s₀.fs with uError := error } } = s := (Prod.mk.inj hfail).2
    change s₀.ino.iCount = _ ∧ s₀.ino.iNumber = _ ∧ flag s₀.ino.iFlag ILOCK = _
    rw [hino]
    exact ⟨rfl, rfl, rfl⟩
  · obtain ⟨-, hino⟩ := beginSearch_fields hbegin
    have hkin := scan_kin hscan
    rw [hino] at hkin
    cases found with
    | true =>
      have hs : s.ino = s₁.ino := by
        have hsame : (foundEntry mode curchar' (brelse s₁ s₁.pBuf)).2.ino = s₁.ino := foundEntry_ino
        rw [if_pos rfl] at hend
        rw [hend] at hsame
        exact hsame
      rw [hs]
      exact ⟨hkin.count_eq, hkin.number_eq, hkin.locked_eq⟩
    | false =>
      have hkin' := notFound_kin mode curchar' (brelse s₁ s₁.pBuf)
      rw [if_neg Bool.false_ne_true] at hend
      rw [hend] at hkin'
      have hall := hkin.trans hkin'
      exact ⟨hall.count_eq, hall.number_eq, hall.locked_eq⟩

theorem notFound_create {c : UInt8} : (notFound mode c s).1 = .create ↔
    mode = .CREATE ∧ c = 0 ∧ access s IWRITE = none := by
  unfold notFound
  constructor
  · intro h
    split at h
    · next hlast =>
      split at h
      · cases h
      · next haccess =>
        refine ⟨hlast.1, hlast.2, ?_⟩
        simpa using haccess
    · cases h
  · rintro ⟨hmode, hc, haccess⟩
    rw [if_pos ⟨hmode, hc⟩, haccess, if_neg (by simp)]
    split <;> rfl

theorem notFound_fs {c : UInt8} (h : (notFound mode c s).1 = .create) :
    (notFound mode c s).2.fs = s.fs := by
  obtain ⟨hmode, hc, haccess⟩ := notFound_create.mp h
  unfold notFound
  rw [if_pos ⟨hmode, hc⟩, haccess, if_neg (by simp)]
  split <;> rfl

theorem foundEntry_create {c : UInt8} : (foundEntry mode c s).1 ≠ .create := by
  unfold foundEntry
  intro h
  split at h
  · split at h <;> cases h
  · cases h

/-- It ends with `u_pdir` when the last component is in no record of a directory that the caller may
write, whatever happened in the search. -/
theorem component_create
    (h : component fuel mode fs ino u busy curchar = .ok (outcome, curchar', s)) :
    outcome = .create ↔ mode = .CREATE ∧ ∃ s₀ s₁, beginSearch fs ino u busy curchar =
      .ok (none, 0, s₀) ∧ scan fuel s₀ = .ok (false, s₁) ∧ access s₁ IWRITE = none := by
  rcases component_ok h with ⟨error, s₀, hbegin, hfail⟩ | ⟨s₀, found, s₁, hbegin, hscan, hend⟩
  · constructor
    · rintro rfl
      cases hfail
    · rintro ⟨-, s₁, s₂, hbegin', -⟩
      cases hbegin.symm.trans hbegin'
  · cases found with
    | true =>
      rw [if_pos rfl] at hend
      constructor
      · rintro rfl
        exact absurd (congrArg Prod.fst hend) foundEntry_create
      · rintro ⟨-, s₂, s₃, hbegin', hscan', -⟩
        cases hbegin.symm.trans hbegin'
        cases hscan.symm.trans hscan'
    | false =>
      rw [if_neg Bool.false_ne_true] at hend
      constructor
      · rintro rfl
        obtain ⟨hmode, rfl, haccess⟩ := notFound_create.mp (congrArg Prod.fst hend)
        exact ⟨hmode, s₀, s₁, hbegin, hscan, haccess⟩
      · rintro ⟨hmode, s₂, s₃, hbegin', hscan', haccess⟩
        cases hbegin.symm.trans hbegin'
        cases hscan.symm.trans hscan'
        exact (congrArg Prod.fst hend).symm.trans (notFound_create.mpr ⟨hmode, rfl, haccess⟩)

/-- The file system, and the error, are then those of the search. -/
theorem component_create_fs {s₀ s₁ : Search}
    (h : component fuel mode fs ino u busy curchar = .ok (.create, curchar', s))
    (hbegin : beginSearch fs ino u busy curchar = .ok (none, 0, s₀))
    (hscan : scan fuel s₀ = .ok (false, s₁)) : s.fs = s₁.fs := by
  rcases component_ok h with ⟨error, s₂, hbegin', -⟩ | ⟨s₂, found, s₃, hbegin', hscan', hend⟩
  · cases hbegin.symm.trans hbegin'
  · cases hbegin.symm.trans hbegin'
    cases hscan.symm.trans hscan'
    rw [if_neg Bool.false_ne_true] at hend
    have hfs := notFound_fs (congrArg Prod.fst hend)
    rw [hend] at hfs
    exact hfs

/-- Who may write the directory finds the file system writable. -/
theorem component_create_writable
    (h : component fuel mode fs ino u busy curchar = .ok (.create, curchar', s)) :
    s.fs.sb.sRonly = 0 := by
  obtain ⟨-, s₀, s₁, hbegin, hscan, haccess⟩ := (component_create h).mp rfl
  have hronly := sRonly_of_access haccess
  rw [component_create_fs h hbegin hscan]
  exact (sRonly_getFS _).symm.trans hronly

end FileManager

/-! ### The call -/

namespace InCore

/-- How `NameI` ends. -/
structure NameResult where
  /-- The inode returned, if one is. -/
  pInode : Option Slot
  /-- `u_pdir`, if it was set. -/
  uPdir : Option Slot
  core : InCore
  u : User

section

variable (buffer : ℤ → Block) (time : ℤ)

/-- The exit `out` of `NameI`. -/
def giveUp (c : InCore) (i : Slot) (u : User) : Except Stop NameResult := do
  let c ← c.iPut buffer time i
  return ⟨none, none, c, u⟩

/-- The outer loop of `NameI`. -/
def nameLoop (mode : DirectorySearchMode) :
    ℕ → InCore → Slot → User → List ℤ → UInt8 → Except Stop NameResult
  | 0, _, _, _, _, _ => .error .running
  | fuel + 1, c, i, u, busy, curchar =>
    if c.fs.uError ≠ .NOERROR then
      giveUp buffer time c i u
    else if curchar = 0 then
      .ok ⟨some i, none, c, u⟩
    else do
      let (outcome, curchar, s) ← component fuel mode c.fs (c.mInode i) u busy curchar
      let c := c.set i s.ino s.fs
      match outcome with
      | .next number =>
        let c ← c.iPut buffer time i
        let (r, c) ← c.iGet number
        match r with
        | some j => nameLoop mode fuel c j s.u s.busy curchar
        | none => return ⟨none, none, c, s.u⟩
      | .parent => return ⟨some i, none, c, s.u⟩
      | .create => return ⟨none, some i, c, s.u⟩
      | .failed => giveUp buffer time c i s.u

/-- `FileManager::NameI`, from the root or the current directory, whose entries are `rootDirInode`
and `uCdir`; what `IGet` returns at the start is not looked at. -/
def nameI (mode : DirectorySearchMode) (fuel : ℕ) (c : InCore) (rootDirInode uCdir : Slot)
    (u : User) : Except Stop NameResult :=
  match u.uDirp with
  | [] => .error .outside
  | first :: dirp => do
    let i := if first = slash then rootDirInode else uCdir
    let (_, c) ← c.iGet (c.number i)
    let (curchar, dirp) ← skipSlashes first dirp
    let u := { u with uDirp := dirp }
    if curchar = 0 ∧ mode ≠ .OPEN then
      giveUp buffer time (c.setError .ENOENT) i u
    else
      nameLoop buffer time mode fuel c i u [] curchar

end

/-- The inode that a call may keep a reference to: the one it returns, or the parent when it returns
none and there is no error. -/
def NameResult.kept (mode : DirectorySearchMode) (r : NameResult) : Option Slot :=
  match r.pInode with
  | some i => some i
  | none => if mode = .CREATE ∧ r.core.fs.uError = .NOERROR then r.uPdir else none

/-- **What `NameI` should do** to the references and the locks. -/
def Balanced (c : InCore) (mode : DirectorySearchMode) (r : NameResult) : Prop :=
  Balance c r.core (r.kept mode)

variable {buffer : ℤ → Block} {time : ℤ} {mode : DirectorySearchMode} {fuel : ℕ}
  {c c₀ c' : InCore} {i j : Slot} {u : User} {busy : List ℤ} {curchar : UInt8} {r : NameResult}

/-- The caller has one inode in hand, which nobody else had locked. -/
structure InHand (c₀ c : InCore) (i : Slot) : Prop where
  balance : Balance c₀ c (some i)
  consistent : c.Consistent
  unlocked : c₀.count i ≠ 0 → c₀.locked i = false

/-- A search in the directory in hand. -/
theorem InHand.component (h : InHand c₀ c i) {outcome : Outcome} {curchar' : UInt8} {s : Search}
    (heq : component fuel mode c.fs (c.mInode i) u busy curchar = .ok (outcome, curchar', s)) :
    InHand c₀ (c.set i s.ino s.fs) i := by
  obtain ⟨hcount, hnumber, hlocked⟩ := component_kin heq
  have hpos := h.balance.count_eq i
  refine ⟨h.balance.set (fun _ _ => Iff.rfl) ?_ ?_ ?_, h.consistent.set ?_ ?_, h.unlocked⟩
  · rw [hcount]
    exact hpos
  · intro hne
    rw [hlocked]
    exact h.balance.locked_eq i (hcount.symm.trans_ne hne)
  · intro hne
    rw [hnumber]
    exact h.balance.number_eq i hne
  · rw [hcount]
    exact h.consistent.count_nonneg i
  · intro hne j hji hj heq
    rw [hnumber] at heq
    exact hji (h.consistent.distinct j i hj (hcount.symm.trans_ne hne) heq)

/-- The exit that gives it back. -/
theorem InHand.giveUp (h : InHand c₀ c i) (h₀ : c₀.Consistent)
    (heq : giveUp buffer time c i u = .ok r) :
    Balance c₀ r.core none ∧ r.pInode = none ∧ r.uPdir = none := by
  unfold InCore.giveUp at heq
  obtain ⟨c', hput, heq⟩ := Except.bind_eq_ok.mp heq
  cases heq
  exact ⟨(h.balance.iPut h.consistent (h₀.count_nonneg i) h.unlocked hput).1, rfl, rfl⟩

/-- What a call that leaves `u_pdir` hands over. -/
structure HandedOver (mode : DirectorySearchMode) (r : NameResult) : Prop where
  pInode_eq : r.pInode = none
  mode_eq : mode = .CREATE
  consistent : r.core.Consistent
  writable : r.core.fs.sb.sRonly = 0

/-- **The outer loop** keeps what it returns or leaves in `u_pdir`, and nothing else. -/
theorem nameLoop_balance (h₀ : c₀.Consistent) (h : InHand c₀ c i)
    (heq : nameLoop buffer time mode fuel c i u busy curchar = .ok r) :
    Balance c₀ r.core (r.pInode.or r.uPdir) ∧ (r.uPdir.isSome → HandedOver mode r) := by
  induction fuel generalizing c i u busy curchar with
  | zero => cases heq
  | succ fuel ih =>
    have hgiveUp : ∀ {c : InCore} {u : User}, InHand c₀ c i →
        InCore.giveUp buffer time c i u = .ok r →
          Balance c₀ r.core (r.pInode.or r.uPdir) ∧ (r.uPdir.isSome → HandedOver mode r) := by
      intro c u h heq
      obtain ⟨hbalance, hp, hu⟩ := h.giveUp h₀ heq
      rw [hp, hu]
      exact ⟨hbalance, by simp⟩
    unfold nameLoop at heq
    split at heq
    · exact hgiveUp h heq
    · split at heq
      · cases heq
        exact ⟨h.balance, by simp⟩
      · obtain ⟨⟨outcome, curchar', s⟩, hcomponent, heq⟩ := Except.bind_eq_ok.mp heq
        have hs := h.component hcomponent
        cases outcome with
        | next number =>
          obtain ⟨c₁, hput, heq⟩ := Except.bind_eq_ok.mp heq
          obtain ⟨⟨next, c₂⟩, hget, heq⟩ := Except.bind_eq_ok.mp heq
          obtain ⟨hbalance, hc₁, -⟩ :=
            hs.balance.iPut hs.consistent (h₀.count_nonneg i) hs.unlocked hput
          obtain ⟨hbalance₂, hc₂, -, hnext⟩ := hbalance.iGet hc₁ hget
          cases next with
          | none =>
            cases heq
            exact ⟨hbalance₂, by simp⟩
          | some j => exact ih ⟨hbalance₂, hc₂, (hnext j rfl).1⟩ heq
        | parent =>
          cases heq
          exact ⟨hs.balance, by simp⟩
        | create =>
          cases heq
          exact ⟨hs.balance, fun _ => ⟨rfl, ((component_create hcomponent).mp rfl).1, hs.consistent,
            component_create_writable hcomponent⟩⟩
        | failed => exact hgiveUp hs heq

/-- **`NameI`** keeps what it returns or leaves in `u_pdir`, and nothing else. -/
theorem nameI_balance {rootDirInode uCdir : Slot} (h₀ : c.Consistent)
    (hroot : c.count rootDirInode ≠ 0) (hcdir : c.count uCdir ≠ 0)
    (heq : nameI buffer time mode fuel c rootDirInode uCdir u = .ok r) :
    Balance c r.core (r.pInode.or r.uPdir) ∧ (r.uPdir.isSome → HandedOver mode r) := by
  unfold nameI at heq
  split at heq
  · cases heq
  · next first dirp hdirp =>
    have hstart : ∀ i, i = (if first = slash then rootDirInode else uCdir) → c.count i ≠ 0 := by
      intro i hi
      rw [hi]
      split
      · exact hroot
      · exact hcdir
    generalize (if first = slash then rootDirInode else uCdir) = i at heq hstart
    have hi := hstart i rfl
    obtain ⟨⟨found, c₁⟩, hget, heq⟩ := Except.bind_eq_ok.mp heq
    -- the entry is in use, so `IGet` finds it
    obtain rfl : found = some i := by
      have hget' := hget
      unfold iGet at hget'
      rw [isLoaded_eq h₀ hi rfl] at hget'
      dsimp only at hget'
      split at hget'
      · cases hget'
      · cases hget'
        rfl
    obtain ⟨hbalance, hc₁, -, hnext⟩ := (Balance.refl c).iGet h₀ hget
    have hhand : InHand c c₁ i := ⟨hbalance, hc₁, (hnext i rfl).1⟩
    obtain ⟨⟨curchar, dirp'⟩, -, hrest⟩ := Except.bind_eq_ok.mp heq
    dsimp only at hrest
    split at hrest
    · have hhand' : InHand c (c₁.setError .ENOENT) i :=
        ⟨⟨hbalance.count_eq, hbalance.locked_eq, hbalance.number_eq⟩,
          ⟨hc₁.count_nonneg, hc₁.distinct⟩, (hnext i rfl).1⟩
      obtain ⟨hend, hp, hu⟩ := hhand'.giveUp h₀ hrest
      rw [hp, hu]
      exact ⟨hend, by simp⟩
    · exact nameLoop_balance h₀ hhand hrest

/-! ### The exit with an error -/

/-- The search for the last component, in the directory that the call comes to. -/
inductive LastSearch (buffer : ℤ → Block) (time : ℤ) (mode : DirectorySearchMode) :
    InCore → Slot → User → List ℤ → UInt8 → Search → Prop
  | here {c i u busy curchar s} (hgoes : c.fs.uError = .NOERROR ∧ curchar ≠ 0)
      (hbegin : beginSearch c.fs (c.mInode i) u busy curchar = .ok (none, 0, s)) :
      LastSearch buffer time mode c i u busy curchar s
  | there {c i u busy curchar curchar' fuel number s s' c₁ c₂ j}
      (hgoes : c.fs.uError = .NOERROR ∧ curchar ≠ 0)
      (hcomponent : component fuel mode c.fs (c.mInode i) u busy curchar =
        .ok (.next number, curchar', s))
      (hput : (c.set i s.ino s.fs).iPut buffer time i = .ok c₁)
      (hget : c₁.iGet number = .ok (some j, c₂))
      (hlater : LastSearch buffer time mode c₂ j s.u s.busy curchar' s') :
      LastSearch buffer time mode c i u busy curchar s'

theorem component_unique {fuel' : ℕ} {fs : FsState} {ino : Inode} {a b : Outcome × UInt8 × Search}
    (ha : component fuel mode fs ino u busy curchar = .ok a)
    (hb : component fuel' mode fs ino u busy curchar = .ok b) : a = b := by
  have ha' := component_add ha (by simp) fuel'
  have hb' := component_add hb (by simp) fuel
  rw [Nat.add_comm] at hb'
  exact Except.ok.inj (ha'.symm.trans hb')

/-- A search that runs out ends in `u_pdir`, with an error. -/
theorem component_runsOut {fs : FsState} {ino : Inode} {s₀ s : Search} {outcome : Outcome}
    {curchar' : UInt8} (hmode : mode = .CREATE)
    (hbegin : beginSearch fs ino u busy curchar = .ok (none, 0, s₀)) (hout : RunsOut s₀)
    (h : component fuel mode fs ino u busy curchar = .ok (outcome, curchar', s)) :
    outcome = .create ∧ s.fs.uError ≠ .NOERROR := by
  rcases component_ok h with ⟨error, s₁, hbegin', -⟩ | ⟨s₁, found, s₂, hbegin', hscan, -⟩
  · cases hbegin.symm.trans hbegin'
  · cases hbegin.symm.trans hbegin'
    obtain ⟨rfl, haccess, herr⟩ := hout.end hscan
    obtain rfl := (component_create h).mpr ⟨hmode, s₀, s₂, hbegin, hscan, haccess⟩
    rw [component_create_fs h hbegin hscan]
    exact ⟨rfl, herr⟩

/-- **When the outer loop leaves `u_pdir` with an error.** -/
theorem nameLoop_leaks (heq : nameLoop buffer time mode fuel c i u busy curchar = .ok r) :
    (r.uPdir.isSome ∧ r.core.fs.uError ≠ .NOERROR) ↔
      mode = .CREATE ∧ ∃ s, LastSearch buffer time mode c i u busy curchar s ∧ RunsOut s := by
  induction fuel generalizing c i u busy curchar with
  | zero => cases heq
  | succ fuel ih =>
    unfold nameLoop at heq
    split at heq
    · next herr =>
      obtain ⟨c', -, heq⟩ := Except.bind_eq_ok.mp heq
      cases heq
      constructor
      · rintro ⟨hsome, -⟩
        cases hsome
      · rintro ⟨-, s, hlast, -⟩
        cases hlast with
        | here hgoes => exact absurd hgoes.1 herr
        | there hgoes => exact absurd hgoes.1 herr
    · next herr =>
      have hok : c.fs.uError = .NOERROR := not_not.mp herr
      split at heq
      · next hchar =>
        cases heq
        constructor
        · rintro ⟨hsome, -⟩
          cases hsome
        · rintro ⟨-, s, hlast, -⟩
          cases hlast with
          | here hgoes => exact absurd hchar hgoes.2
          | there hgoes => exact absurd hchar hgoes.2
      · next hchar =>
        obtain ⟨⟨outcome, curchar', s⟩, hcomponent, hrest⟩ := Except.bind_eq_ok.mp heq
        -- a search that runs out is the last one
        have hquiet : outcome ≠ .create → (∀ number, outcome = .next number → False) →
            ¬ (mode = .CREATE ∧
              ∃ s, LastSearch buffer time mode c i u busy curchar s ∧ RunsOut s) := by
          rintro hcreate hnext ⟨hmode, s', hlast, hout⟩
          cases hlast with
          | here _ hbegin => exact hcreate (component_runsOut hmode hbegin hout hcomponent).1
          | there _ hcomponent' =>
            cases component_unique hcomponent hcomponent'
            exact hnext _ rfl
        cases outcome with
        | next number =>
          obtain ⟨c₁, hput, hrest⟩ := Except.bind_eq_ok.mp hrest
          obtain ⟨⟨next, c₂⟩, hget, hrest⟩ := Except.bind_eq_ok.mp hrest
          have hlater : (∃ s, LastSearch buffer time mode c i u busy curchar s ∧ RunsOut s) →
              mode = .CREATE → ∃ j, next = some j ∧ ∃ s',
                LastSearch buffer time mode c₂ j s.u s.busy curchar' s' ∧ RunsOut s' := by
            rintro ⟨s', hlast, hout⟩ hmode
            cases hlast with
            | here _ hbegin => cases (component_runsOut hmode hbegin hout hcomponent).1
            | there _ hcomponent' hput' hget' hlater =>
              cases component_unique hcomponent hcomponent'
              cases hput.symm.trans hput'
              cases hget.symm.trans hget'
              exact ⟨_, rfl, s', hlater, hout⟩
          cases next with
          | none =>
            cases hrest
            constructor
            · rintro ⟨hsome, -⟩
              cases hsome
            · rintro ⟨hmode, hlast⟩
              obtain ⟨j, hj, -⟩ := hlater hlast hmode
              cases hj
          | some j =>
            rw [ih hrest]
            refine and_congr_right fun hmode => ⟨?_, fun hlast => ?_⟩
            · rintro ⟨s', hlast, hout⟩
              exact ⟨s', .there ⟨hok, hchar⟩ hcomponent hput hget hlast, hout⟩
            · obtain ⟨j', hj, hlast'⟩ := hlater hlast hmode
              obtain rfl := Option.some.inj hj
              exact hlast'
        | parent =>
          cases hrest
          refine iff_of_false (fun h => ?_) (hquiet (by simp) (by simp))
          cases h.1
        | failed =>
          obtain ⟨c', -, hrest⟩ := Except.bind_eq_ok.mp hrest
          cases hrest
          refine iff_of_false (fun h => ?_) (hquiet (by simp) (by simp))
          cases h.1
        | create =>
          cases hrest
          constructor
          · rintro ⟨-, hfail⟩
            obtain ⟨hmode, s₀, s₁, hbegin, hscan, haccess⟩ := (component_create hcomponent).mp rfl
            obtain ⟨hturns, hend⟩ := scan_turns hscan
            have hstart : s₀.fs.uError = .NOERROR := by
              rw [(beginSearch_fields hbegin).1]
              exact hok
            have hfail' : s₁.fs.uError ≠ .NOERROR := by
              rw [← component_create_fs hcomponent hbegin hscan]
              exact hfail
            obtain ⟨s₂, s₃, h₂, hturn, hbefore, hafter, h₃⟩ := exists_refusal hturns hstart hfail'
            exact ⟨hmode, s₀, .here ⟨hok, hchar⟩ hbegin, s₂, s₃, s₁, h₂, hturn, hbefore, hafter, h₃,
              hend, haccess⟩
          · rintro ⟨hmode, s', hlast, hout⟩
            cases hlast with
            | here _ hbegin => exact ⟨rfl, (component_runsOut hmode hbegin hout hcomponent).2⟩
            | there _ hcomponent' => cases component_unique hcomponent hcomponent'

/-- The last component of the path of a `CREATE` is in no record of its directory, the caller may
write the directory, and a `Bmap` of the search in it is refused. -/
def Leaks (buffer : ℤ → Block) (time : ℤ) (mode : DirectorySearchMode) (c : InCore)
    (rootDirInode uCdir : Slot) (u : User) : Prop :=
  ∃ first dirp found c₁ curchar dirp', u.uDirp = first :: dirp ∧
    c.iGet (c.number (if first = slash then rootDirInode else uCdir)) = .ok (found, c₁) ∧
    skipSlashes first dirp = .ok (curchar, dirp') ∧ ¬ (curchar = 0 ∧ mode ≠ .OPEN) ∧
    mode = .CREATE ∧ ∃ s, LastSearch buffer time mode c₁
      (if first = slash then rootDirInode else uCdir) { u with uDirp := dirp' } [] curchar s ∧
      RunsOut s

/-- **When `NameI` leaves `u_pdir` with an error.** -/
theorem nameI_leaks {rootDirInode uCdir : Slot}
    (heq : nameI buffer time mode fuel c rootDirInode uCdir u = .ok r) :
    (r.uPdir.isSome ∧ r.core.fs.uError ≠ .NOERROR) ↔
      Leaks buffer time mode c rootDirInode uCdir u := by
  unfold nameI at heq
  unfold Leaks
  split at heq
  · cases heq
  · next first dirp hdirp =>
    obtain ⟨⟨found, c₁⟩, hget, hrest⟩ := Except.bind_eq_ok.mp heq
    obtain ⟨⟨curchar, dirp'⟩, hskip, hloop⟩ := Except.bind_eq_ok.mp hrest
    dsimp only at hloop
    -- the beginning of the call is what it is
    have hsame : ∀ {first₂ dirp₂ found₂ c₂ curchar₂ dirp₂'}, u.uDirp = first₂ :: dirp₂ →
        c.iGet (c.number (if first₂ = slash then rootDirInode else uCdir)) = .ok (found₂, c₂) →
        skipSlashes first₂ dirp₂ = .ok (curchar₂, dirp₂') →
        first₂ = first ∧ c₂ = c₁ ∧ curchar₂ = curchar ∧ dirp₂' = dirp' := by
      intro first₂ dirp₂ found₂ c₂ curchar₂ dirp₂' hdirp₂ hget₂ hskip₂
      obtain ⟨rfl, rfl⟩ := List.cons.inj (hdirp.symm.trans hdirp₂)
      cases hget.symm.trans hget₂
      cases hskip.symm.trans hskip₂
      exact ⟨rfl, rfl, rfl, rfl⟩
    split at hloop
    · next hgone =>
      obtain ⟨c', -, hloop⟩ := Except.bind_eq_ok.mp hloop
      cases hloop
      constructor
      · rintro ⟨hsome, -⟩
        cases hsome
      · rintro ⟨first₂, dirp₂, found₂, c₂, curchar₂, dirp₂', hdirp₂, hget₂, hskip₂, hgoes, -⟩
        obtain ⟨-, -, rfl, -⟩ := hsame hdirp₂ hget₂ hskip₂
        exact absurd hgone hgoes
    · next hgoes =>
      rw [nameLoop_leaks hloop]
      constructor
      · rintro ⟨hmode, s, hlast, hout⟩
        exact ⟨first, dirp, found, c₁, curchar, dirp', hdirp, hget, hskip, hgoes, hmode, s, hlast,
          hout⟩
      · intro hleaks
        obtain ⟨first₂, dirp₂, found₂, c₂, curchar₂, dirp₂', hdirp₂, hget₂, hskip₂, -, hmode, s,
          hlast, hout⟩ := hleaks
        obtain ⟨rfl, rfl, rfl, rfl⟩ := hsame hdirp₂ hget₂ hskip₂
        exact ⟨hmode, s, hlast, hout⟩

/-- **`NameI` is balanced if and only if** it does not leave `u_pdir` with an error. -/
theorem balanced_iff {rootDirInode uCdir : Slot} (h₀ : c.Consistent)
    (hroot : c.count rootDirInode ≠ 0) (hcdir : c.count uCdir ≠ 0)
    (heq : nameI buffer time mode fuel c rootDirInode uCdir u = .ok r) :
    Balanced c mode r ↔ ¬ Leaks buffer time mode c rootDirInode uCdir u := by
  obtain ⟨hbalance, hpdir⟩ := nameI_balance h₀ hroot hcdir heq
  rw [← nameI_leaks heq]
  unfold Balanced NameResult.kept
  cases hp : r.uPdir with
  | none =>
    rw [hp] at hbalance
    refine iff_of_true ?_ (by simp)
    cases hi : r.pInode with
    | none =>
      rw [hi] at hbalance
      dsimp only
      rw [ite_self]
      exact hbalance
    | some i =>
      rw [hi] at hbalance
      exact hbalance
  | some p =>
    obtain ⟨hi, hmode, -, -⟩ := hpdir (by rw [hp]; rfl)
    rw [hi, hp] at hbalance
    rw [hi]
    dsimp only
    by_cases herr : r.core.fs.uError = .NOERROR
    · rw [if_pos ⟨hmode, herr⟩]
      exact iff_of_true hbalance fun h => h.2 herr
    · rw [if_neg fun h => herr h.2]
      refine iff_of_false (fun hnone => ?_) (not_not.mpr ⟨rfl, herr⟩)
      have hcount := hbalance.count_eq p
      have hcount' := hnone.count_eq p
      simp at hcount hcount'
      omega

/-! ### A directory of free records on a full device -/

/-- Four free records of four units each, in the block 1024. -/
def freeRecords : ℤ → Block := fun b k => if b = 1024 ∧ k < 512 ∧ k % 128 = 28 then 3 else 0

/-- The root directory is the block of free records; no other inode is in the table, and no block is
free. -/
def fullRoot : InCore where
  fs := ⟨⟨1, fun _ => 0, 0, fun _ => 0, 0, 0, 0, 0⟩, freeRecords, .NOERROR, 0⟩
  mInode i := if i = 0 then
      ⟨0, 0x4140, 1, 1, 0, 0, 0, 512, fun k => if k = 0 then 1024 else 0, -1⟩
    else
      ⟨0, 0, 0, 0, 0, 0, 0, 0, fun _ => 0, -1⟩

theorem consistent_fullRoot : fullRoot.Consistent := by
  refine .of_root fun i => ?_
  change (if i = 0 then _ else _ : Inode).iCount = _
  split <;> rfl

theorem root_path : ∃ r, nameI (fun _ _ => 0) 0 .OPEN 1 fullRoot 0 0
    { (default : User) with uDirp := [47, 0] } = .ok r ∧
    (Balanced fullRoot .OPEN r ↔
      ¬ Leaks (fun _ _ => 0) 0 .OPEN fullRoot 0 0 { (default : User) with uDirp := [47, 0] }) := by
  have hcount : fullRoot.count 0 ≠ 0 := by decide
  cases heq : nameI (fun _ _ => 0) 0 .OPEN 1 fullRoot 0 0
      { (default : User) with uDirp := [47, 0] } with
  | error stop =>
    have hok : (nameI (fun _ _ => 0) 0 .OPEN 1 fullRoot 0 0
      { (default : User) with uDirp := [47, 0] }).toBool = true := by decide +kernel
    rw [heq] at hok
    cases hok
  | ok r => exact ⟨r, rfl, balanced_iff consistent_fullRoot hcount hcount heq⟩

/-- **Not every call is balanced**: the search of `/x` passes the end of the directory, where no
block is to be had, and the root stays locked with a reference too many. -/
theorem not_balanced : ¬ ∀ (buffer : ℤ → Block) (time : ℤ) (mode : DirectorySearchMode) (fuel : ℕ)
    (c : InCore) (rootDirInode uCdir : Slot) (u : User) (r : NameResult), c.Consistent →
    c.count rootDirInode ≠ 0 → c.count uCdir ≠ 0 →
    nameI buffer time mode fuel c rootDirInode uCdir u = .ok r → Balanced c mode r := by
  intro hall
  have hcount : fullRoot.count 0 ≠ 0 := by decide
  have hend : (match nameI (fun _ _ => 0) 0 .CREATE 20 fullRoot 0 0
      { (default : User) with uDirp := [47, 120, 0, 0] } with
    | .ok r => decide (r.pInode = none ∧ r.core.fs.uError = .ENOSPC ∧ r.core.count 0 = 2)
    | .error _ => false) = true := by
    decide +kernel
  cases heq : nameI (fun _ _ => 0) 0 .CREATE 20 fullRoot 0 0
      { (default : User) with uDirp := [47, 120, 0, 0] } with
  | error stop =>
    rw [heq] at hend
    cases hend
  | ok r =>
    rw [heq] at hend
    obtain ⟨hp, herr, hroot⟩ := of_decide_eq_true hend
    have hbalance := hall _ _ _ _ _ _ _ _ _ consistent_fullRoot hcount hcount heq
    have hkept : r.kept .CREATE = none := by
      unfold NameResult.kept
      rw [hp, herr]
      rfl
    have hzero := hbalance.count_eq 0
    rw [hkept, hroot] at hzero
    revert hzero
    decide

end InCore
end UnixV6pp
