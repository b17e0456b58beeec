import UnixV6pp.Fs.Directory

/-!
# The records of a directory

A directory is well formed if it is cut into records without a rest.  A record is
named by the offset of its head; the fields of the head and the name, part of which
lies in the further units, are read off the bytes of the file.

## Main definitions

* `entryAt`, `nameAt`, `endAt` — what the record at an offset says, and its end.
* `Framed` — the records of a stretch of the directory.
* `Begins` — the comparison that `NameI` makes.

## Main results

* `matched_iff` — the comparison loop makes that comparison.
-/

namespace UnixV6pp
namespace FileManager

open Words DirectoryEntry

/-- The head of the record at `o`. -/
def entryAt (b : ℕ → UInt8) (o : ℕ) : DirectoryEntry := ofBytes fun k => b (o + k)

/-- How many further units the record at `o` has. -/
def unitsAt (b : ℕ → UInt8) (o : ℕ) : ℕ := (entryAt b o).mAdditionEsize.toNat

/-- The end of the record at `o`. -/
def endAt (b : ℕ → UInt8) (o : ℕ) : ℕ := o + 32 * (unitsAt b o + 1)

/-- The stored name of the record at `o`, over the head and the further units. -/
def nameAt (b : ℕ → UInt8) (o : ℕ) : ℕ → UInt8 :=
  fun k => if k < 24 then b (o + 4 + k) else b (o + 8 + k)

/-- How many bytes the stored name of the record at `o` has. -/
def nameLength (b : ℕ → UInt8) (o : ℕ) : ℕ := 24 + 32 * unitsAt b o

/-- The record at `o` is free. -/
def IsFree (b : ℕ → UInt8) (o : ℕ) : Prop := (entryAt b o).mIno = 0

instance (b : ℕ → UInt8) (o : ℕ) : Decidable (IsFree b o) :=
  inferInstanceAs (Decidable ((entryAt b o).mIno = 0))

/-- The number of further units of the record at `o` is in bounds. -/
def SizeOk (b : ℕ → UInt8) (o : ℕ) : Prop :=
  0 ≤ (entryAt b o).mAdditionEsize ∧ (entryAt b o).mAdditionEsize ≤ 4

instance (b : ℕ → UInt8) (o : ℕ) : Decidable (SizeOk b o) :=
  inferInstanceAs (Decidable (_ ∧ _))

/-- The directory from `o` to `e` is made of the records at the offsets in the list. -/
def Framed (b : ℕ → UInt8) (e : ℕ) : ℕ → List ℕ → Prop
  | o, [] => o = e
  | o, r :: rs => r = o ∧ SizeOk b o ∧ Framed b e (endAt b o) rs

instance decidableFramed (b : ℕ → UInt8) (e : ℕ) : ∀ o rs, Decidable (Framed b e o rs)
  | o, [] => inferInstanceAs (Decidable (o = e))
  | o, r :: rs =>
    have := decidableFramed b e (endAt b o) rs
    inferInstanceAs (Decidable (r = o ∧ SizeOk b o ∧ Framed b e (endAt b o) rs))

/-- `NameI` takes the record at `o` for the name in `dbuf`. -/
def Begins (dbuf b : ℕ → UInt8) (o : ℕ) : Prop :=
  ∀ k < nameLength b o, dbuf k = nameAt b o k

instance (dbuf b : ℕ → UInt8) (o : ℕ) : Decidable (Begins dbuf b o) :=
  inferInstanceAs (Decidable (∀ k < nameLength b o, dbuf k = nameAt b o k))

section Framed

variable {b : ℕ → UInt8} {e o r : ℕ} {rs : List ℕ}

theorem SizeOk.mAdditionEsize_eq (h : SizeOk b o) : (entryAt b o).mAdditionEsize = unitsAt b o :=
  (Int.toNat_of_nonneg h.1).symm

theorem SizeOk.units_le (h : SizeOk b o) : unitsAt b o ≤ 4 := by
  have := h.2
  rw [h.mAdditionEsize_eq] at this
  omega

theorem lt_endAt : o < endAt b o := by
  unfold endAt; omega

theorem Framed.le (h : Framed b e o rs) : o ≤ e := by
  induction rs generalizing o with
  | nil => exact le_of_eq h
  | cons r rs ih =>
    obtain ⟨-, -, hrest⟩ := h
    exact (le_of_lt lt_endAt).trans (ih hrest)

theorem Framed.dvd_end (h : Framed b e o rs) (ho : 32 ∣ o) : 32 ∣ e := by
  induction rs generalizing o with
  | nil =>
    cases h
    exact ho
  | cons r rs ih =>
    obtain ⟨-, -, hrest⟩ := h
    refine ih hrest ?_
    unfold endAt
    omega

/-- Records up to some place, and records from there on. -/
theorem Framed.append {rs' : List ℕ} : Framed b e o (rs ++ rs') ↔
    ∃ m, Framed b m o rs ∧ Framed b e m rs' := by
  induction rs generalizing o with
  | nil =>
    constructor
    · intro h
      exact ⟨o, rfl, h⟩
    · intro h
      obtain ⟨m, rfl, h⟩ := h
      exact h
  | cons r rs ih =>
    constructor
    · intro h
      obtain ⟨hr, hsize, hrest⟩ := h
      obtain ⟨m, hm, hm'⟩ := ih.mp hrest
      exact ⟨m, ⟨hr, hsize, hm⟩, hm'⟩
    · intro h
      obtain ⟨m, ⟨hr, hsize, hm⟩, hm'⟩ := h
      exact ⟨hr, hsize, ih.mpr ⟨m, hm, hm'⟩⟩

/-- Where a record of the stretch lies. -/
theorem Framed.bounds (h : Framed b e o rs) (hr : r ∈ rs) :
    o ≤ r ∧ endAt b r ≤ e ∧ SizeOk b r ∧ (32 ∣ o → 32 ∣ r) := by
  induction rs generalizing o with
  | nil => cases hr
  | cons r' rs ih =>
    obtain ⟨rfl, hsize, hrest⟩ := h
    rcases List.mem_cons.mp hr with rfl | hr
    · exact ⟨le_rfl, hrest.le, hsize, id⟩
    · obtain ⟨hle, hend, hok, hdvd⟩ := ih hrest hr
      refine ⟨(le_of_lt lt_endAt).trans hle, hend, hok, fun ho => hdvd ?_⟩
      unfold endAt
      omega

end Framed

/-! ### The comparison of names -/

/-- The bound of the comparison, for a record in bounds. -/
theorem nameLimit_cast {n : ℕ} (hn : n ≤ 4) : nameLimit n = (24 + 32 * n : ℕ) := by
  unfold nameLimit; omega

/-- **The comparison loop** finds out whether the whole stored name stands at the start of
`u_dbuf`. -/
theorem matched_iff {u : User} {b : ℕ → UInt8} {o : ℕ} (hsize : SizeOk b o)
    (hdent : u.uDent = entryAt b o)
    (hadd : ∀ k < 32 * unitsAt b o, u.additionEntry k = b (o + 32 + k)) :
    matched u = true ↔ Begins u.uDbuf b o := by
  have hn := hsize.units_le
  have hlimit : nameLimit u.uDent.mAdditionEsize = (nameLength b o : ℕ) := by
    rw [hdent, hsize.mAdditionEsize_eq, nameLimit_cast hn, nameLength]
  have hle : nameLength b o ≤ 152 := by unfold nameLength; omega
  have hname : ∀ k, k < 24 → u.uDent.mName k = nameAt b o k := by
    intro k hk
    rw [hdent, nameAt, if_pos hk, Nat.add_assoc]
    exact if_pos hk
  have hname' : ∀ k, ¬ k < 24 → k < nameLength b o → u.additionEntry (k - 24) = nameAt b o k := by
    intro k hk hlt
    unfold nameLength at hlt
    rw [hadd _ (by omega), nameAt, if_neg hk]
    congr 1
    omega
  have h24 : 24 ≤ nameLength b o := by unfold nameLength; omega
  have hdiffers : ∀ i, differs u i = true ↔ i < nameLength b o ∧ u.uDbuf i ≠ nameAt b o i := by
    intro i
    unfold differs
    rw [hlimit]
    by_cases hi : i < DIRSIZ
    · rw [if_pos hi, hname i hi, bne_iff_ne]
      exact ⟨fun h => ⟨lt_of_lt_of_le hi h24, h⟩, fun h => h.2⟩
    · rw [if_neg hi, Bool.and_eq_true, bne_iff_ne, decide_eq_true_iff, Int.ofNat_lt]
      refine and_congr_right fun hlt => ?_
      rw [← hname' i hi hlt]
      rfl
  unfold matched compareNames
  rw [decide_eq_true_iff, hlimit, Int.ofNat_le]
  constructor
  · intro hfar k hk
    by_contra hne
    cases hfind : (List.range (DIRSIZ + ADD_DIRSIZ)).find? (differs u) with
    | none =>
      have hnot := List.find?_eq_none.mp hfind k (List.mem_range.mpr (lt_of_lt_of_le hk hle))
      exact hnot ((hdiffers k).mpr ⟨hk, hne⟩)
    | some i =>
      rw [hfind] at hfar
      have hlt := ((hdiffers i).mp (List.find?_some hfind)).1
      exact absurd hlt (not_lt.mpr hfar)
  · intro hbegins
    have hfind : (List.range (DIRSIZ + ADD_DIRSIZ)).find? (differs u) = none := by
      refine List.find?_eq_none.mpr fun i _ hi => ?_
      obtain ⟨hlt, hne⟩ := (hdiffers i).mp hi
      exact hne (hbegins i hlt)
    rw [hfind]
    exact hle

end FileManager
end UnixV6pp
