import UnixV6pp.Fs.CreatCall

/-!
# Writing an inode back

`IUpdate` writes a whole new record over the one on the disk.  The record begins as one
in which both times are 0, and gets the time of the call for each of the two that is
marked; a time that is not marked is not taken from the old record.

* `RoundTrip` — what should be there afterwards.
* `update_roundTrip_iff` — **when it is.**
-/

namespace UnixV6pp
namespace Inode

open Words FileSystem

variable {ino : Inode} {s s' : FsState}

/-- The sector of an inode, and which of the eight records there it is. -/
def sectorOf (number : ℤ) : ℤ := inodeZoneStartSector + number.tdiv 8

def slotOf (number : ℤ) : ℕ := (number.tmod 8).toNat

/-- `d_atime` and `d_mtime` of an inode on the disk. -/
def dAtime (s : FsState) (number : ℤ) : ℤ := getInt (s.blk (sectorOf number)) (16 * slotOf number + 14)

def dMtime (s : FsState) (number : ℤ) : ℤ := getInt (s.blk (sectorOf number)) (16 * slotOf number + 15)

/-- The inode on the disk is that in memory, nothing else is changed there, and a time is changed
only if it is marked. -/
structure RoundTrip (s : FsState) (ino : Inode) (s' : FsState) : Prop where
  attributes : ∀ fresh : Inode,
    (icopy fresh (s'.blk (sectorOf ino.iNumber)) ino.iNumber).attributes = ino.attributes
  others : ∀ o, o < 64 * slotOf ino.iNumber ∨ 64 * (slotOf ino.iNumber + 1) ≤ o →
    s'.blk (sectorOf ino.iNumber) o = s.blk (sectorOf ino.iNumber) o
  sectors : ∀ b ≠ sectorOf ino.iNumber, s'.blk b = s.blk b
  atime : ino.iFlag &&& IACC = 0 → dAtime s' ino.iNumber = dAtime s ino.iNumber
  mtime : ino.iFlag &&& IUPD = 0 → dMtime s' ino.iNumber = dMtime s ino.iNumber

/-- Something is written: a time is marked, and the file system may be written. -/
def Written (s : FsState) (ino : Inode) : Prop :=
  ino.iFlag &&& (IUPD ||| IACC) ≠ 0 ∧ (getFS s.sb).sRonly = 0

instance (s : FsState) (ino : Inode) : Decidable (Written s ino) := instDecidableAnd

/-- `IUpdate` that writes nothing. -/
theorem iupdate_of_not_written (time : ℤ) (h : ¬Written s ino) :
    ∃ s', iupdate s ino time = .ok s' ∧ s'.blk = s.blk := by
  by_cases hflag : ino.iFlag &&& (IUPD ||| IACC) = 0
  · exact ⟨s, iupdate_clean hflag, rfl⟩
  · have hronly : (getFS s.sb).sRonly ≠ 0 := fun h0 => h ⟨hflag, h0⟩
    unfold iupdate
    rw [if_neg hflag]
    dsimp only
    rw [if_pos hronly]
    exact ⟨_, rfl, rfl⟩

/-- `IUpdate` that writes. -/
theorem iupdate_of_written (time : ℤ) (h : Written s ino) (hnumber : 0 ≤ ino.iNumber) :
    ∃ s', iupdate s ino time = .ok s' ∧
      s'.blk = Function.update s.blk (sectorOf ino.iNumber)
        (setInts (s.blk (sectorOf ino.iNumber)) (16 * slotOf ino.iNumber) (ino.diskInode time) 16) := by
  obtain ⟨hflag, hronly⟩ := h
  unfold iupdate
  rw [if_neg hflag]
  dsimp only
  have hslot := Int.tmod_nonneg 8 hnumber
  rw [if_neg (not_not.mpr hronly), if_neg (by omega)]
  exact ⟨_, rfl, rfl⟩

/-- The attributes of an inode that is not written are there if they were. -/
theorem roundTrip_iff_of_not_written (time : ℤ) (h : ¬Written s ino) :
    (∃ s', iupdate s ino time = .ok s' ∧ RoundTrip s ino s') ↔
      (icopy ino (s.blk (sectorOf ino.iNumber)) ino.iNumber).attributes = ino.attributes := by
  obtain ⟨s', hrun, hblk⟩ := iupdate_of_not_written time h
  constructor
  · rintro ⟨s'', hrun', hround⟩
    obtain rfl := Except.ok.inj (hrun.symm.trans hrun')
    rw [← hblk]
    exact hround.attributes ino
  · intro hold
    refine ⟨s', hrun, fun fresh => ?_, fun _ _ => by rw [hblk], fun _ _ => by rw [hblk],
      fun _ => ?_, fun _ => ?_⟩
    · rw [hblk, attributes_icopy_congr fresh ino, hold]
    · rw [dAtime, hblk, dAtime]
    · rw [dMtime, hblk, dMtime]

/-- The times that `IUpdate` writes. -/
theorem times_of_written {time : ℤ}
    (hblk : s'.blk = Function.update s.blk (sectorOf ino.iNumber)
      (setInts (s.blk (sectorOf ino.iNumber)) (16 * slotOf ino.iNumber) (ino.diskInode time) 16)) :
    dAtime s' ino.iNumber = (if ino.iFlag &&& IACC ≠ 0 then int32 time else 0) ∧
      dMtime s' ino.iNumber = (if ino.iFlag &&& IUPD ≠ 0 then int32 time else 0) := by
  unfold dAtime dMtime
  rw [hblk, Function.update_self, icopy_word ino _ _ time (k := 14) (by omega),
    icopy_word ino _ _ time (k := 15) (by omega)]
  constructor
  · change int32 (if ino.iFlag &&& IACC ≠ 0 then time else 0) = _
    split <;> rfl
  · change int32 (if ino.iFlag &&& IUPD ≠ 0 then time else 0) = _
    split <;> rfl

/-- A time that is not marked is 0 after a write. -/
theorem roundTrip_iff_of_written (time : ℤ) (h : Written s ino) (hfits : ino.Fits)
    (hnumber : 0 ≤ ino.iNumber) :
    (∃ s', iupdate s ino time = .ok s' ∧ RoundTrip s ino s') ↔
      (ino.iFlag &&& IACC = 0 → dAtime s ino.iNumber = 0) ∧
        (ino.iFlag &&& IUPD = 0 → dMtime s ino.iNumber = 0) := by
  obtain ⟨s', hrun, hblk⟩ := iupdate_of_written time h hnumber
  obtain ⟨hatime, hmtime⟩ := times_of_written hblk
  constructor
  · rintro ⟨s'', hrun', hround⟩
    obtain rfl := Except.ok.inj (hrun.symm.trans hrun')
    refine ⟨fun h0 => ?_, fun h0 => ?_⟩
    · rw [← hround.atime h0, hatime, if_neg (not_not.mpr h0)]
    · rw [← hround.mtime h0, hmtime, if_neg (not_not.mpr h0)]
  · rintro ⟨ha, hm⟩
    refine ⟨s', hrun, fun fresh => ?_, fun o ho => ?_, fun b hb => ?_, fun h0 => ?_, fun h0 => ?_⟩
    · rw [hblk, Function.update_self]
      exact attributes_icopy hfits fresh _ _
    · rw [hblk, Function.update_self]
      exact setInts_of_outside _ _ 16 (by omega)
    · rw [hblk, Function.update_of_ne hb]
    · rw [hatime, if_neg (not_not.mpr h0), ha h0]
    · rw [hmtime, if_neg (not_not.mpr h0), hm h0]

/-- **When an inode survives the round trip.** -/
theorem update_roundTrip_iff (s : FsState) (time : ℤ) (hfits : ino.Fits) (hnumber : 0 ≤ ino.iNumber) :
    (∃ s', iupdate s ino time = .ok s' ∧ RoundTrip s ino s') ↔
      if Written s ino then
        (ino.iFlag &&& IACC = 0 → dAtime s ino.iNumber = 0) ∧
          (ino.iFlag &&& IUPD = 0 → dMtime s ino.iNumber = 0)
      else (icopy ino (s.blk (sectorOf ino.iNumber)) ino.iNumber).attributes = ino.attributes := by
  split
  · next h => exact roundTrip_iff_of_written time h hfits hnumber
  · next h => exact roundTrip_iff_of_not_written time h

/-! ### An inode that has been read -/

/-- An inode with only `IACC` set, as after a `ReadI`. -/
def accessed : Inode where
  iFlag := IACC
  iMode := 0x8000
  iCount := 1
  iNlink := 1
  iNumber := 1
  iUid := 0
  iGid := 0
  iSize := 0
  iAddr := fun _ => 0
  iLastr := -1

/-- A device on which every inode was modified at this time. -/
def modifiedAt (time : ℤ) : FsState where
  sb := ⟨0, fun _ => 0, 0, fun _ => 0, 0, 0, 0, 0⟩
  blk := fun _ => setInt (fun _ => 0) 31 time
  uError := .NOERROR
  rablock := 0

theorem fits_accessed : accessed.Fits :=
  ⟨by decide, by decide, fun _ _ => (by decide : -2 ^ 31 ≤ (0 : ℤ) ∧ (0 : ℤ) < 2 ^ 31), by decide, by decide⟩

/-- A time that was never set stays so. -/
theorem update_roundTrip_iff_accessed :
    ∃ s', iupdate (modifiedAt 0) accessed 5 = .ok s' ∧ RoundTrip (modifiedAt 0) accessed s' := by
  refine (update_roundTrip_iff (modifiedAt 0) 5 fits_accessed (by decide)).mpr ?_
  rw [if_pos (by decide)]
  exact ⟨fun h => absurd h (by decide), fun _ => getInt_setInt _ 31 0⟩

/-- **Reading a file clears its time of modification.** -/
theorem not_roundTrip : ∃ s', iupdate (modifiedAt 7) accessed 9 = .ok s' ∧
    dMtime (modifiedAt 7) 1 = 7 ∧ dMtime s' 1 = 0 := by
  have hwritten : Written (modifiedAt 7) accessed := by decide
  obtain ⟨s', hrun, hblk⟩ := iupdate_of_written 9 hwritten (by decide)
  exact ⟨s', hrun, getInt_setInt _ 31 7, (times_of_written hblk).2⟩

end Inode
end UnixV6pp
