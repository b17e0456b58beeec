import UnixV6pp.Fs.DirectoryCalls
import UnixV6pp.Fs.Guards
import UnixV6pp.Fs.Scan

/-!
# Directories of short names

As long as no name has more than 24 bytes, a directory is an array of slots of 32 bytes in
either format, and a slot has the same bytes in both: the last four bytes of the long name
of an old entry are zero, and so is the number of further units of a new record.

## Main definitions

* `Slot`, `IsSlot`, `Layout` — what the bytes of such a directory say.
* `put` — a slot is written, or a new one behind the last.
* `kept` — the free slot that a search has in mind.

## Main results

* `Layout.put` — writing the 32 bytes of a slot.
* `Layout.directory` — such a directory is well formed and has no holes.
-/

namespace UnixV6pp

open Words FileSystem Inode BufferManager DirectoryEntry

namespace FileManager

/-! ### Names -/

namespace Name

variable (name name' : Name) {k : ℕ}

theorem pad_of_lt (hk : k < name.bytes.length) : name.pad k = name.bytes[k] := by
  simp [pad, hk]

theorem pad_eq_zero (hk : name.bytes.length ≤ k) : name.pad k = 0 := by
  simp [pad, hk]

theorem pad_ne_zero (hk : k < name.bytes.length) : name.pad k ≠ 0 := by
  rw [name.pad_of_lt hk]
  exact name.ne_zero _ (List.getElem_mem hk)

theorem length_pos : 0 < name.bytes.length := List.length_pos_iff.mpr name.ne_nil

/-- No name goes on behind 24 bytes. -/
theorem pad_of_le (hk : 24 ≤ k) : name.pad k = 0 := name.pad_eq_zero (name.length_le.trans hk)

variable {name name'}

/-- A name is as long as its bytes are not zero. -/
theorem length_le_of_pad (h : ∀ k < 24, name.pad k = name'.pad k) :
    name'.bytes.length ≤ name.bytes.length := by
  by_contra hlt
  have hlong : name.bytes.length < name'.bytes.length := by omega
  have h24 := name'.length_le
  have hk := h name.bytes.length (by omega)
  rw [name.pad_eq_zero le_rfl] at hk
  exact name'.pad_ne_zero hlong hk.symm

/-- **Names that agree in 24 bytes are the same.** -/
theorem pad_inj : (∀ k < 24, name.pad k = name'.pad k) ↔ name = name' := by
  constructor
  · intro h
    have hlen : name.bytes.length = name'.bytes.length :=
      le_antisymm (length_le_of_pad fun k hk => (h k hk).symm) (length_le_of_pad h)
    refine Name.ext (List.ext_getElem hlen fun k hk hk' => ?_)
    have hbyte := h k (lt_of_lt_of_le hk name.length_le)
    rwa [pad_of_lt _ hk, pad_of_lt _ hk'] at hbyte
  · rintro rfl k -
    rfl

end Name

/-! ### Slots -/

/-- What 32 bytes of a directory say: nothing, or the name of an inode. -/
abbrev Slot := Option (Name × ℤ)

/-- The inode number in a slot. -/
def Slot.mIno : Slot → ℤ
  | none => 0
  | some e => e.2

/-- The slot has this name. -/
def Slot.Named (slot : Slot) (name : Name) : Prop := ∃ n, slot = some (name, n)

instance (slot : Slot) (name : Name) : Decidable (slot.Named name) :=
  decidable_of_iff (slot.map Prod.fst = some name) (by
    cases slot <;> simp [Slot.Named, Prod.ext_iff])

/-- The 32 bytes at `o` say what the slot says.  A free slot has some old name. -/
structure IsSlot (b : ℕ → UInt8) (o : ℕ) (slot : Slot) : Prop where
  mIno_eq : getInt (fun k => b (o + k)) 0 = slot.mIno
  zero : ∀ k < 4, b (o + 28 + k) = 0
  named : b (o + 4) ≠ 0
  entry : ∀ e ∈ slot, e.2 ≠ 0 ∧ ∀ k < 24, b (o + 4 + k) = e.1.pad k

section IsSlot

variable {b b' : ℕ → UInt8} {o o' : ℕ} {slot : Slot} {e : Name × ℤ}

theorem IsSlot.congr (h : IsSlot b o slot) (heq : ∀ k < 32, b' (o' + k) = b (o + k)) :
    IsSlot b' o' slot := by
  refine ⟨?_, ?_, ?_, ?_⟩
  · rw [← h.mIno_eq]
    simp only [getInt, heq _ (show 4 * 0 < 32 by omega), heq _ (show 4 * 0 + 1 < 32 by omega),
      heq _ (show 4 * 0 + 2 < 32 by omega), heq _ (show 4 * 0 + 3 < 32 by omega)]
  · intro k hk
    rw [Nat.add_assoc, heq _ (by omega), ← Nat.add_assoc]
    exact h.zero k hk
  · rw [heq _ (by omega)]
    exact h.named
  · intro e he
    refine ⟨(h.entry e he).1, fun k hk => ?_⟩
    rw [Nat.add_assoc, heq _ (by omega), ← Nat.add_assoc]
    exact (h.entry e he).2 k hk

/-- No further units, read as a new record. -/
theorem IsSlot.units (h : IsSlot b o slot) : (entryAt b o).mAdditionEsize = 0 := by
  have h0 := h.zero 0 (by omega)
  have h1 := h.zero 1 (by omega)
  have h2 := h.zero 2 (by omega)
  have h3 := h.zero 3 (by omega)
  simp only [Nat.add_assoc, Nat.reduceAdd] at h0 h1 h2 h3
  simp [entryAt, ofBytes, getInt, h0, h1, h2, h3, unsigned, int32]

theorem IsSlot.unitsAt (h : IsSlot b o slot) : FileManager.unitsAt b o = 0 := by
  rw [FileManager.unitsAt, h.units]
  rfl

theorem IsSlot.sizeOk (h : IsSlot b o slot) : SizeOk b o := by
  rw [SizeOk, h.units]
  omega

theorem IsSlot.endAt (h : IsSlot b o slot) : FileManager.endAt b o = o + 32 := by
  rw [FileManager.endAt, h.unitsAt]

theorem IsSlot.entryAt_mIno (h : IsSlot b o slot) : (entryAt b o).mIno = slot.mIno := h.mIno_eq

/-- The slot is free in either reading. -/
theorem IsSlot.isFree (h : IsSlot b o slot) : IsFree b o ↔ slot = none := by
  rw [IsFree, h.entryAt_mIno]
  cases hslot : slot with
  | none => simp [Slot.mIno]
  | some e =>
    have hne := (h.entry e hslot).1
    simpa [Slot.mIno] using hne

/-- **A slot in use, read as a new record.** -/
theorem IsSlot.entryAt_eq (h : IsSlot b o (some e)) : entryAt b o = ⟨e.2, e.1.pad, 0⟩ := by
  have hmIno : (entryAt b o).mIno = e.2 := h.entryAt_mIno
  have hname : (entryAt b o).mName = e.1.pad := by
    funext k
    by_cases hk : k < DIRSIZ
    · have heq : (entryAt b o).mName k = b (o + (4 + k)) := if_pos hk
      rw [heq, ← Nat.add_assoc]
      exact (h.entry e rfl).2 k hk
    · have heq : (entryAt b o).mName k = 0 := if_neg hk
      rw [heq, e.1.pad_of_le (not_lt.mp hk)]
  calc entryAt b o
      = ⟨(entryAt b o).mIno, (entryAt b o).mName, (entryAt b o).mAdditionEsize⟩ := rfl
    _ = ⟨e.2, e.1.pad, 0⟩ := by rw [hmIno, hname, h.units]

/-- **A slot in use, read as an old entry.** -/
theorem IsSlot.oldEntry_eq (h : IsSlot b o (some e)) :
    Oos1.ofBytes (fun k => b (o + k)) = ⟨e.2, e.1.pad, 0⟩ := by
  have hname : (Oos1.ofBytes fun k => b (o + k)).mName = e.1.pad := by
    funext k
    by_cases hk : k < Oos1.DIRSIZ
    · have heq : (Oos1.ofBytes fun k => b (o + k)).mName k = b (o + (4 + k)) := if_pos hk
      rw [heq]
      by_cases h24 : k < 24
      · rw [← Nat.add_assoc]
        exact (h.entry e rfl).2 k h24
      · -- the count of further units
        have hzero := h.zero (k - 24) (by unfold Oos1.DIRSIZ at hk; omega)
        have hidx : o + 28 + (k - 24) = o + (4 + k) := by omega
        rw [e.1.pad_of_le (not_lt.mp h24), ← hidx]
        exact hzero
    · have heq : (Oos1.ofBytes fun k => b (o + k)).mName k = 0 := if_neg hk
      have h24 : 24 ≤ k := by unfold Oos1.DIRSIZ at hk; omega
      rw [heq, e.1.pad_of_le h24]
  calc Oos1.ofBytes (fun k => b (o + k))
      = ⟨getInt (fun k => b (o + k)) 0, (Oos1.ofBytes fun k => b (o + k)).mName, 0⟩ := rfl
    _ = ⟨e.2, e.1.pad, 0⟩ := by
      rw [hname, h.mIno_eq]
      rfl

theorem IsSlot.oldEntry_mIno (h : IsSlot b o slot) :
    (Oos1.ofBytes fun k => b (o + k)).mIno = slot.mIno := h.mIno_eq

end IsSlot

/-! ### The array of slots -/

/-- The file is made of these slots. -/
structure Layout (f : FlatFile) (slots : List Slot) : Prop where
  size_eq : f.size = 32 * slots.length
  slot : ∀ k slot, slots[k]? = some slot → IsSlot f.bytes (32 * k) slot

/-- A slot is written, or a new one behind the last. -/
def put (slots : List Slot) (k : ℕ) (slot : Slot) : List Slot :=
  if k < slots.length then slots.set k slot else slots ++ [slot]

section Layout

variable {f : FlatFile} {slots : List Slot} {k : ℕ} {slot : Slot}

theorem length_put (hk : k ≤ slots.length) :
    (put slots k slot).length = max slots.length (k + 1) := by
  unfold put
  split
  · rw [List.length_set]
    omega
  · rw [List.length_append, List.length_singleton]
    omega

theorem getElem?_put (hk : k ≤ slots.length) (m : ℕ) :
    (put slots k slot)[m]? = if m = k then some slot else slots[m]? := by
  unfold put
  by_cases hm : m = k
  · subst hm
    rw [if_pos rfl]
    split
    · next hlt => rw [List.getElem?_set_self hlt]
    · next hlt =>
      have hend : m = slots.length := by omega
      rw [hend, List.getElem?_concat_length]
  · rw [if_neg hm]
    split
    · rw [List.getElem?_set_ne (Ne.symm hm)]
    · by_cases hlt : m < slots.length
      · rw [List.getElem?_append_left hlt]
      · rw [List.getElem?_eq_none (by rw [List.length_append, List.length_singleton]; omega),
          List.getElem?_eq_none (by omega)]

/-- **Writing the 32 bytes of a slot.** -/
theorem Layout.put (h : Layout f slots) (hk : k ≤ slots.length) {data : ℕ → UInt8}
    (hdata : IsSlot data 0 slot) : Layout (f.write (32 * k) 32 data) (put slots k slot) := by
  refine ⟨?_, ?_⟩
  · have hsize : (f.write (32 * k) 32 data).size = max f.size (32 * k + 32) := rfl
    rw [hsize, h.size_eq, length_put hk]
    omega
  · intro m s hm
    rw [getElem?_put hk] at hm
    by_cases hmk : m = k
    · rw [if_pos hmk] at hm
      cases hm
      refine hdata.congr fun j hj => ?_
      have hin : 32 * k ≤ 32 * m + j ∧ 32 * m + j < 32 * k + 32 := by omega
      have hbyte : (f.write (32 * k) 32 data).bytes (32 * m + j) = data (32 * m + j - 32 * k) :=
        if_pos hin
      rw [hbyte]
      congr 1
      omega
    · rw [if_neg hmk] at hm
      refine (h.slot m s hm).congr fun j hj => ?_
      exact if_neg (by omega)

theorem Layout.get (h : Layout f slots) (hk : k < slots.length) :
    IsSlot f.bytes (32 * k) slots[k] := h.slot k _ (List.getElem?_eq_getElem hk)

/-- The slots are records one behind the other. -/
theorem Layout.framed (h : Layout f slots) (m : ℕ) (hk : k + m = slots.length) :
    Framed f.bytes f.size (32 * k) ((List.range' k m).map (32 * ·)) := by
  induction m generalizing k with
  | zero =>
    have hsize := h.size_eq
    change 32 * k = f.size
    omega
  | succ m ih =>
    have hslot := h.get (show k < slots.length by omega)
    have hrest := ih (show k + 1 + m = slots.length by omega)
    rw [List.range'_succ, List.map_cons]
    refine ⟨rfl, hslot.sizeOk, ?_⟩
    rw [hslot.endAt]
    exact hrest

variable {ι : Type*} [DecidableEq ι] {d : Files ι} {F : ι → FlatFile} {i : ι}

omit [DecidableEq ι] in
/-- Every block has a slot in it, and no slot is all zeros. -/
theorem Layout.mapped (h : Layout (F i) slots) (hd : Holds d F) {lbn : ℕ}
    (hlbn : 512 * lbn < (F i).size) : d.view.block i lbn ≠ 0 := by
  have hsize := h.size_eq
  have hle := hd.size_le i
  have hslot := h.get (show 16 * lbn < slots.length by omega)
  have hbyte := hd.byte_eq i (32 * (16 * lbn) + 4) (by omega)
  have hdiv : (32 * (16 * lbn) + 4) / 512 = lbn := by omega
  intro hzero
  rw [View.byte, hdiv, if_pos hzero] at hbyte
  exact hslot.named hbyte.symm

/-- **Such a directory is well formed.** -/
def Layout.directory (h : Layout (F i) slots) (hd : Holds d F) : Directory ι where
  d := d
  F := F
  i := i
  holds := hd
  mapped := fun _ => h.mapped hd
  records := (List.range' 0 slots.length).map (32 * ·)
  framed := h.framed slots.length (Nat.zero_add _)

end Layout

/-! ### The free slot kept in mind -/

/-- What `freeEntryOffset` is after the first `k` slots, for a search that keeps a free slot in
mind or, if not `keeps`, none. -/
def kept (keeps : Prop) [Decidable keeps] (slots : List Slot) : ℕ → ℤ
  | 0 => 0
  | k + 1 => if slots[k]? = some none ∧ kept keeps slots k = 0 ∧ keeps then (32 * k + 32 : ℕ)
    else kept keeps slots k

section Kept

variable {keeps : Prop} [Decidable keeps] {slots : List Slot} {k m : ℕ}

/-- It is the end of a free slot. -/
theorem kept_cases (keeps : Prop) [Decidable keeps] (slots : List Slot) (k : ℕ) : kept keeps slots k = 0 ∨
    ∃ m < k, kept keeps slots k = (32 * m + 32 : ℕ) ∧ slots[m]? = some none := by
  induction k with
  | zero => exact .inl rfl
  | succ k ih =>
    rw [kept]
    split
    · next hfree => exact .inr ⟨k, by omega, rfl, hfree.1⟩
    · rcases ih with hzero | ⟨m, hm, heq, hfree⟩
      · exact .inl hzero
      · exact .inr ⟨m, by omega, heq, hfree⟩

/-- No free slot, none kept. -/
theorem kept_eq_zero (h : ∀ m < k, slots[m]? ≠ some none) : kept keeps slots k = 0 := by
  rcases kept_cases keeps slots k with hzero | ⟨m, hm, -, hfree⟩
  · exact hzero
  · exact absurd hfree (h m hm)

/-- Once a slot is kept it stays. -/
theorem kept_ne_zero (hm : slots[m]? = some none) (hkeeps : keeps) (hlt : m < k) :
    kept keeps slots k ≠ 0 := by
  induction k with
  | zero => omega
  | succ k ih =>
    rw [kept]
    split
    · omega
    · next hnot =>
      by_cases hmk : m = k
      · subst hmk
        intro hzero
        exact hnot ⟨hm, hzero, hkeeps⟩
      · exact ih (by omega)

/-- Where a new name goes. -/
def place (keeps : Prop) [Decidable keeps] (slots : List Slot) : ℕ :=
  if kept keeps slots slots.length = 0 then slots.length
  else (kept keeps slots slots.length - 32).toNat / 32

theorem place_cases (keeps : Prop) [Decidable keeps] (slots : List Slot) :
    kept keeps slots slots.length = 0 ∧ place keeps slots = slots.length ∨
    kept keeps slots slots.length = (32 * place keeps slots + 32 : ℕ) ∧
      slots[place keeps slots]? = some none ∧ place keeps slots < slots.length := by
  unfold place
  rcases kept_cases keeps slots slots.length with hzero | ⟨m, hm, heq, hfree⟩
  · exact .inl ⟨hzero, if_pos hzero⟩
  · have hplace : (kept keeps slots slots.length - 32).toNat / 32 = m := by omega
    rw [if_neg (by omega), hplace]
    exact .inr ⟨heq, hfree, hm⟩

/-- It is free or new. -/
theorem place_free (keeps : Prop) [Decidable keeps] (slots : List Slot) :
    slots[place keeps slots]? = some none ∨ place keeps slots = slots.length := by
  rcases place_cases keeps slots with ⟨-, hend⟩ | ⟨-, hfree, -⟩
  · exact .inr hend
  · exact .inl hfree

end Kept

end FileManager
end UnixV6pp
