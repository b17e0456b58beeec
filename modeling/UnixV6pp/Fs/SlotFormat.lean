import UnixV6pp.Fs.SlotScan

/-!
# The two formats on directories of short names

What the calls need to know of a format: how a turn of the search goes over the slots, and
what 32 bytes `WriteDir` and `UnLink` write.  Both formats write the same bytes.

## Main definitions

* `Format.Reading` — a format in terms of slots; `oldReading`, `newReading` — the two.

## Main results

* `write_slot` — **`WriteI` writes a slot** where there is space for it.
* `beginSearch_path` — the search for the last component of a path begins.
-/

namespace UnixV6pp

open Words FileSystem Inode BufferManager DirectoryEntry

namespace FileManager

/-! ### Paths -/

/-- **A component is copied** to `u_dbuf`, if there is room for it. -/
theorem copyUpTo_append (limit : ℕ) (dbuf : ℕ → UInt8) (pChar : ℕ) (bs : List UInt8) {c curchar : UInt8}
    {rest dirp : List UInt8} (hbs : ∀ b ∈ bs, b ≠ 0 ∧ b ≠ slash) (hc : c = slash ∨ c = 0)
    (hlen : pChar + bs.length ≤ limit) (hchars : curchar :: dirp = bs ++ c :: rest) :
    ∃ dbuf', copyUpTo limit dbuf pChar curchar dirp = .ok (dbuf', pChar + bs.length, c, rest) ∧
      (∀ k < pChar, dbuf' k = dbuf k) ∧ ∀ k < bs.length, dbuf' (pChar + k) = bs.getD k 0 := by
  induction bs generalizing dbuf pChar curchar dirp with
  | nil =>
    cases hchars
    rw [copyUpTo.eq_def, if_pos hc]
    exact ⟨dbuf, rfl, fun _ _ => rfl, fun k hk => absurd hk (Nat.not_lt_zero k)⟩
  | cons b bs ih =>
    obtain ⟨rfl, hdirp⟩ := List.cons.inj hchars
    obtain ⟨hzero, hslash⟩ := hbs curchar (by simp)
    rw [List.length_cons] at hlen
    cases dirp with
    | nil => simp at hdirp
    | cons c' cs =>
      obtain ⟨dbuf', hcopy, hold, hnew⟩ := ih (Function.update dbuf pChar curchar) (pChar + 1)
        (fun b hb => hbs b (by simp [hb])) (by omega) hdirp
      refine ⟨dbuf', ?_, ?_, ?_⟩
      · rw [copyUpTo.eq_def, if_neg (by simp [hzero, hslash])]
        simp only [if_pos (show pChar < limit by omega), hcopy, List.length_cons]
        congr 3
        omega
      · intro k hk
        rw [hold k (by omega), Function.update_of_ne (by omega)]
      · intro k hk
        cases k with
        | zero =>
          rw [Nat.add_zero, hold pChar (by omega), Function.update_self]
          rfl
        | succ k =>
          have hidx : pChar + (k + 1) = pChar + 1 + k := by omega
          rw [hidx, hnew k (by simpa using hk)]
          rfl

/-- Any number of `/` is passed over. -/
theorem skipSlashes_replicate {next curchar : UInt8} {dirp rest : List UInt8}
    (hnext : next ≠ slash) (n : ℕ)
    (hchars : curchar :: rest = List.replicate n slash ++ next :: dirp) :
    skipSlashes curchar rest = .ok (next, dirp) := by
  induction n generalizing curchar rest with
  | zero =>
    cases hchars
    rw [skipSlashes.eq_def, if_neg hnext]
  | succ n ih =>
    rw [List.replicate_succ, List.cons_append] at hchars
    obtain ⟨rfl, hrest⟩ := List.cons.inj hchars
    cases rest with
    | nil => simp at hrest
    | cons c cs =>
      rw [skipSlashes.eq_def, if_pos rfl]
      exact ih hrest

/-- The user structure when the component of the path has been copied. -/
def started (u : User) (p : Path) : User := { u with uDirp := p.dirp, uDbuf := p.name.pad }

/-- **The search for the name begins**, if the directory may be searched. -/
theorem beginSearch_path {limit : ℕ} (hlimit : 24 ≤ limit) {fs : FsState} {ino : Inode} (u : User)
    (p : Path) {curchar : UInt8} {dirp : List UInt8} (hchars : p.chars = curchar :: dirp)
    (hdir : ino.iMode &&& IFMT = 0x4000)
    (haccess : (guardOf fs ino).access u.uUid u.uGid IEXEC = none) :
    beginSearchWith limit fs ino { u with uDirp := dirp } [] curchar =
      .ok (none, p.next, startSearch fs ino (started u p) p.name.pad p.dirp) := by
  obtain ⟨c, rest, hrest⟩ : ∃ c rest, List.replicate p.slashes slash ++ p.next :: p.dirp =
      c :: rest := by
    cases hslashes : p.slashes with
    | zero => exact ⟨_, _, rfl⟩
    | succ n => exact ⟨_, _, rfl⟩
  have hc : c = slash ∨ c = 0 := by
    cases hslashes : p.slashes with
    | zero =>
      rw [hslashes] at hrest
      cases hrest
      exact .inr (p.next_eq hslashes)
    | succ n =>
      rw [hslashes] at hrest
      cases hrest
      exact .inl rfl
  have hlen : 0 + p.name.bytes.length ≤ limit := by
    have := p.name.length_le
    omega
  have hsplit : curchar :: dirp = p.name.bytes ++ c :: rest := by
    rw [← hchars, Path.chars, hrest]
  obtain ⟨dbuf, hcopy, -, hbytes⟩ := copyUpTo_append limit u.uDbuf 0 p.name.bytes
    (fun b hb => ⟨p.name.ne_zero b hb, p.name.ne_slash b hb⟩) hc hlen hsplit
  have hpad : (fun k => if k < 0 + p.name.bytes.length then dbuf k else 0) = p.name.pad := by
    funext k
    by_cases hk : k < p.name.bytes.length
    · have hbyte := hbytes k hk
      rw [Nat.zero_add] at hbyte
      rw [if_pos (by omega), hbyte]
      rfl
    · rw [if_neg (by omega), p.name.pad_eq_zero (not_lt.mp hk)]
  have hrefused : access { startSearch fs ino { u with uDirp := dirp } u.uDbuf dirp with busy := [] }
      IEXEC = none := by
    rw [access_eq]
    exact haccess
  unfold beginSearchWith
  dsimp only
  rw [if_neg (not_not.mpr hdir), hrefused]
  simp only [Option.isSome_none, Bool.false_eq_true, if_false, hcopy, Except.ok_bind,
    skipSlashes_replicate p.next_ne p.slashes hrest.symm, hpad]
  rfl

/-! ### Writing a slot -/

section Write

variable {ι : Type} [DecidableEq ι] {d : Files ι} {F : ι → FlatFile} {i : ι} {slots : List Slot}
  {slot : Slot} {k : ℕ}

/-- `Bmap` finds or makes the block in which the slot `k` of the file lies, and leaves the
super block and the numbers in the inode so. -/
def Mappable (d : Files ι) (i : ι) (k : ℕ) (left : SuperBlock → (ℕ → ℤ) → Prop) : Prop :=
  ∀ iFlag, ∃ b ino' fs', bmap d.fs { d.inodes i with iFlag := iFlag } (32 * k / 512 : ℕ) =
    .ok (b, ino', fs') ∧ fs'.uError = .NOERROR ∧ left fs'.sb ino'.iAddr

omit [DecidableEq ι] in
theorem Mappable.mono {left left' : SuperBlock → (ℕ → ℤ) → Prop} (h : Mappable d i k left)
    (hleft : ∀ sb iAddr, left sb iAddr → left' sb iAddr) : Mappable d i k left' := by
  intro iFlag
  obtain ⟨b, ino', fs', hbmap, herr, h'⟩ := h iFlag
  exact ⟨b, ino', fs', hbmap, herr, hleft _ _ h'⟩

omit [DecidableEq ι] in
/-- The block of a slot that is there. -/
theorem Layout.mappable (hl : Layout (F i) slots) (h : Holds d F) (hk : k < slots.length) :
    Mappable d i k fun sb iAddr => sb = d.fs.sb ∧ iAddr = (d.inodes i).iAddr := by
  intro iFlag
  have hsize := hl.size_eq
  have hle := h.size_le i
  have hlt : 512 * (32 * k / 512) < (F i).size := by omega
  have hne : blockOf d.fs { d.inodes i with iFlag := iFlag } (32 * k / 512) ≠ 0 := hl.mapped h hlt
  obtain ⟨r, hbmap⟩ := bmap_mapped (div_lt_of_lt (show 32 * k < maxFileSize by omega)) hne
  exact ⟨_, _, _, hbmap, h.uError_eq, rfl, rfl⟩

/-- The block behind the last slot. -/
theorem Roomy.mappable (hroom : Roomy d i) (hl : Layout (F i) slots) (h : Holds d F) (r : ℤ)
    (iFlag : UInt32) : Mappable (d.set (d.fs.ahead r) i { d.inodes i with iFlag := iFlag }) i
      slots.length fun _ _ => True := by
  intro iFlag'
  obtain ⟨b, ino', fs', hbmap, herr⟩ := hroom r iFlag'
  have hlbn : (d.inodes i).iSize / 512 = (32 * slots.length / 512 : ℕ) := by
    rw [h.size_eq, hl.size_eq]
    omega
  rw [hlbn] at hbmap
  refine ⟨b, ino', fs', ?_, herr, trivial⟩
  rw [Files.inodes_set_self]
  exact hbmap

/-- **`WriteI` writes a slot.** -/
theorem write_slot (buffer : ℤ → Block) (h : Holds d F) (hl : Layout (F i) slots)
    (hk : k ≤ slots.length) {mem : ℤ → UInt8} (hmem : IsSlot (fun j : ℕ => mem (0 + j)) 0 slot)
    {left : SuperBlock → (ℕ → ℤ) → Prop} (hmap : Mappable d i k left) :
    ∃ t, writeI buffer ⟨d.fs, d.inodes i, ⟨0, (32 * k : ℕ), 32⟩, mem⟩ = .ok t ∧
      t.fs.uError = .NOERROR ∧ guardOf t.fs t.ino = guardOf d.fs (d.inodes i) ∧
      left t.fs.sb t.ino.iAddr ∧
      ∃ F', Holds (d.set t.fs i t.ino) F' ∧ Layout (F' i) (put slots k slot) := by
  have hplain : (d.inodes i).iMode &&& IFMT ≠ IFCHR ∧ (d.inodes i).iMode &&& IFMT ≠ IFBLK := by
    obtain ⟨L, hinv⟩ := h.inv
    exact ⟨(mode_of_plain (hinv.plain i)).2.2, (mode_of_plain (hinv.plain i)).2.1⟩
  obtain ⟨b, ino', fs', hbmap, herr, hleft⟩ := hmap ((d.inodes i).iFlag ||| (IACC ||| IUPD))
  have hmax : 32 * k + 32 ≤ maxFileSize := by
    -- behind the largest file `Bmap` fails
    by_contra hnot
    have hlbn : 33030 ≤ 32 * k / 512 := by
      unfold maxFileSize at hnot
      omega
    rw [bmap_refused _ _ hlbn] at hbmap
    obtain ⟨-, rfl⟩ : ino' = _ ∧ fs' = _ := by
      have heq := Except.ok.inj hbmap
      exact ⟨(Prod.mk.inj (Prod.mk.inj heq).2).1.symm, (Prod.mk.inj (Prod.mk.inj heq).2).2.symm⟩
    cases herr
  obtain ⟨t, blk, iSize, iFlag, hwrite, hfs, hino⟩ := writeI_one buffer
    (t := ⟨d.fs, d.inodes i, ⟨0, (32 * k : ℕ), 32⟩, mem⟩) hplain h.uError_eq (by simp)
    (Int.natCast_nonneg _) (by dsimp only; rw [tmod_cast]; omega)
    (by dsimp only; rw [tdiv_cast]; exact hbmap)
  obtain ⟨t', hwrite', hcase⟩ := writeI_spec h buffer i 0 mem hmax
  cases hwrite.symm.trans hwrite'
  have hquiet : t.fs.uError = .NOERROR := by
    rw [hfs]
    exact herr
  refine ⟨t, hwrite, hquiet, ?_, ?_, _, (hcase.resolve_left ?_).2, ?_⟩
  · have hguard : guardOf fs' ino' = guardOf d.fs { d.inodes i with iFlag := _ } := bmap_guard hbmap
    rw [hfs, hino]
    exact hguard
  · rw [hfs, hino]
    exact hleft
  · rw [hquiet]
    decide
  · rw [Function.update_self]
    exact hl.put hk hmem

end Write

/-! ### The bytes that are written -/

section Bytes

variable {b : ℕ → UInt8} {name : Name} {n : ℤ}

/-- The bytes of a new record or an old entry with this name. -/
theorem isSlot_of_bytes (hmIno : ∀ k < 4, b k = byteOf n k) (hname : ∀ k < 28, b (4 + k) = name.pad k)
    (hn : 0 ≤ n ∧ n < 2 ^ 31) {slot : Slot} (hslot : slot = none ∧ n = 0 ∨
      slot = some (name, n) ∧ n ≠ 0) : IsSlot b 0 slot := by
  have hint : getInt b 0 = n := by
    have h0 := hmIno 0 (by omega)
    have h1 := hmIno 1 (by omega)
    have h2 := hmIno 2 (by omega)
    have h3 := hmIno 3 (by omega)
    have hgetInt : getInt b 0 = int32 (unsigned (b 0) (b 1) (b 2) (b 3)) := rfl
    rw [hgetInt, h0, h1, h2, h3, int32_unsigned_byteOf, int32_of_bounds (by omega) (by omega)]
  refine ⟨?_, ?_, ?_, ?_⟩
  · have heq : getInt (fun k => b (0 + k)) 0 = n := by
      simp only [Nat.zero_add]
      exact hint
    rw [heq]
    rcases hslot with ⟨rfl, rfl⟩ | ⟨rfl, -⟩ <;> rfl
  · intro k hk
    have hidx : 0 + 28 + k = 4 + (24 + k) := by omega
    rw [hidx, hname _ (by omega), name.pad_of_le (by omega)]
  · rw [Nat.zero_add]
    have h4 := hname 0 (by omega)
    rw [Nat.add_zero] at h4
    rw [h4]
    exact name.pad_ne_zero name.length_pos
  · intro e he
    rcases hslot with ⟨rfl, -⟩ | ⟨rfl, hne⟩
    · cases he
    · cases he
      refine ⟨hne, fun k hk => ?_⟩
      rw [Nat.zero_add]
      exact hname k (by omega)

end Bytes

/-! ### What the calls need to know -/

/-- A format on directories of short names: the search keeps a free slot in mind if `keeps`
holds of the characters behind the path, and sleeps at those that `waits` names. -/
structure Format.Reading (fmt : Format) where
  limit : ℕ
  step : Search → Except Stop (Bool × Search)
  keeps : List UInt8 → Prop
  decidableKeeps : DecidablePred keeps
  waits : List UInt8 → ℕ → Prop
  /-- A search that keeps no slot sleeps at the first one or at none. -/
  waits_first : ∀ dirp j k, ¬ keeps dirp → waits dirp k → waits dirp j
  component_eq : fmt.component = componentWith limit step
  limit_le : 24 ≤ limit
  steps : ∀ {ι : Type} [DecidableEq ι] {dir : Directory ι} {slots : List Slot} {u : User}
    {name : Name}, Layout dir.f slots → Roomy dir.d dir.i → u.uDbuf = name.pad →
      Steps dir slots u step (keeps u.uDirp) (waits u.uDirp) name
  /-- `WriteDir` writes the slot of the name. -/
  make : ∀ (buffer : ℤ → Block) (fs : FsState) (ino : Inode) (u : User) (name : Name) (n : ℤ),
    u.uDbuf = name.pad → 0 < n → n < 2 ^ 31 → ∃ u' mem, fmt.makeEntry u n = .ok u' ∧
      fmt.writeEntry buffer fs ino u' = writeI buffer ⟨fs, ino, ⟨0, u.mOffset, 32⟩, mem⟩ ∧
      IsSlot (fun j : ℕ => mem (0 + j)) 0 (some (name, n))
  /-- `UnLink` writes a free slot where the one found was. -/
  clear : ∀ (buffer : ℤ → Block) (fs : FsState) (ino : Inode) (u : User) (name : Name) (n : ℤ)
    (k : ℕ), u.uDent = ⟨n, name.pad, 0⟩ → u.mOffset = (32 * (k + 1) : ℕ) → 32 * k < 2 ^ 31 →
      ∃ mem, fmt.writeEntry buffer fs ino (fmt.clearEntry u) =
        writeI buffer ⟨fs, ino, ⟨0, (32 * k : ℕ), 32⟩, mem⟩ ∧
      IsSlot (fun j : ℕ => mem (0 + j)) 0 none

instance {fmt : Format} (R : fmt.Reading) : DecidablePred R.keeps := R.decidableKeeps

/-! ### The old format -/

/-- The bytes of an old entry. -/
theorem oldBytes_slot (e : DirectoryEntry) (name : Name) {slot : Slot}
    (hname : ∀ k < 28, e.mName k = name.pad k) (hn : 0 ≤ e.mIno ∧ e.mIno < 2 ^ 31)
    (hslot : slot = none ∧ e.mIno = 0 ∨ slot = some (name, e.mIno) ∧ e.mIno ≠ 0) :
    IsSlot (fun j : ℕ => Oos1.bytes e (0 + (j : ℤ)).toNat) 0 slot := by
  refine isSlot_of_bytes ?_ ?_ hn hslot
  · intro k hk
    rw [zero_add, Int.toNat_natCast]
    exact if_pos hk
  · intro k hk
    rw [zero_add, Int.toNat_natCast, Oos1.bytes, if_neg (by omega), Nat.add_sub_cancel_left]
    exact hname k hk

/-- The offset of the slot in front of the one the search has come to. -/
theorem int32_back {k : ℕ} (hk : 32 * k < 2 ^ 31) :
    int32 (((32 * (k + 1) : ℕ) : ℤ) - 32) = (32 * k : ℕ) := by
  have heq : ((32 * (k + 1) : ℕ) : ℤ) - 32 = (32 * k : ℕ) := by omega
  rw [heq, int32_of_bounds (by omega) (by omega)]

/-- **The old format.** -/
def oldReading : oos1.Reading where
  limit := Oos1.DIRSIZ
  step := Oos1.scanStep
  keeps _ := True
  decidableKeeps := fun _ => instDecidableTrue
  waits _ _ := False
  waits_first _ _ _ _ h := h
  component_eq := rfl
  limit_le := by decide
  steps hl _ hdbuf := steps_old hl hdbuf
  make buffer fs ino u name n hdbuf hpos hlt := by
    refine ⟨_, _, rfl, rfl, oldBytes_slot _ name ?_ ⟨hpos.le, hlt⟩ (.inr ⟨rfl, hpos.ne'⟩)⟩
    intro k hk
    rw [← hdbuf]
    exact if_pos hk
  clear buffer fs ino u name n k hdent hoff hk := by
    refine ⟨fun a => Oos1.bytes { u.uDent with mIno := 0 } a.toNat, ?_, ?_⟩
    · have hback : int32 (u.mOffset - 32) = (32 * k : ℕ) := by rw [hoff, int32_back hk]
      change writeI buffer ⟨fs, ino, ⟨0, int32 (u.mOffset - 32), 32⟩, _⟩ = _
      rw [hback]
      rfl
    · refine oldBytes_slot { u.uDent with mIno := 0 } name (fun j _ => ?_)
        ⟨le_rfl, show (0 : ℤ) < 2 ^ 31 by decide⟩ (.inl ⟨rfl, rfl⟩)
      rw [hdent]

/-! ### The new format -/

/-- The characters up to the first zero. -/
theorem stringLength_append {bs : List UInt8} (hbs : ∀ b ∈ bs, b ≠ 0) (rest : List UInt8) :
    stringLength (bs ++ 0 :: rest) = .ok bs.length := by
  induction bs with
  | nil => rfl
  | cons b bs ih =>
    rw [List.cons_append, stringLength, if_neg (hbs b (by simp)), ih fun b hb => hbs b (by simp [hb])]
    rfl

/-- The name in `u_dbuf` is measured. -/
theorem dbufLength_pad {u : User} {name : Name} (hdbuf : u.uDbuf = name.pad) :
    dbufLength u = .ok name.bytes.length := by
  have hle := name.length_le
  obtain ⟨m, hm⟩ : ∃ m, 152 = name.bytes.length + (m + 1) :=
    ⟨151 - name.bytes.length, by omega⟩
  have hbytes : (List.range name.bytes.length).map name.pad = name.bytes := by
    refine List.ext_getElem (by simp) fun k _ hk => ?_
    rw [List.getElem_map, List.getElem_range, name.pad_of_lt hk]
  have hpad : (List.range 152).map name.pad =
      name.bytes ++ 0 :: (List.range m).map fun k => name.pad (name.bytes.length + (k + 1)) := by
    rw [hm, List.range_add, List.map_append, hbytes, List.range_succ_eq_map, List.map_cons,
      List.map_cons, Nat.add_zero, name.pad_eq_zero le_rfl, List.map_map, List.map_map]
    rfl
  unfold dbufLength
  rw [hdbuf, hpad, List.append_assoc, List.cons_append]
  exact stringLength_append name.ne_zero _

/-- The bytes of a new record without further units. -/
theorem newBytes_slot (u : User) (name : Name) {slot : Slot}
    (hunits : u.uDent.mAdditionEsize = 0) (hname : ∀ k < 24, u.uDent.mName k = name.pad k)
    (hn : 0 ≤ u.uDent.mIno ∧ u.uDent.mIno < 2 ^ 31)
    (hslot : slot = none ∧ u.uDent.mIno = 0 ∨ slot = some (name, u.uDent.mIno) ∧ u.uDent.mIno ≠ 0) :
    IsSlot (fun j : ℕ => entryBytes u (0 + (j : ℤ)).toNat) 0 slot := by
  refine isSlot_of_bytes ?_ ?_ hn hslot
  · intro k hk
    rw [zero_add, Int.toNat_natCast, entryBytes, if_pos (by omega), DirectoryEntry.bytes, if_pos hk]
  · intro k hk
    rw [zero_add, Int.toNat_natCast, entryBytes, if_pos (by omega), DirectoryEntry.bytes,
      if_neg (by omega)]
    by_cases h24 : k < 24
    · rw [if_pos (by omega), Nat.add_sub_cancel_left, hname k h24]
    · -- the number of further units
      rw [if_neg (by omega), hunits, name.pad_of_le (not_lt.mp h24)]
      simp [byteOf]

/-- A short name needs no further units. -/
theorem Name.units_eq_zero (name : Name) : (name.bytes.length + 7) / 32 = 0 := by
  have hle := name.length_le
  omega

/-- **The new format.** -/
def newReading : oos2.Reading where
  limit := ADD_DIRSIZ + DIRSIZ
  step := scanStep
  keeps := Short
  decidableKeeps := inferInstance
  waits := Waits
  waits_first dirp j k hkeeps hwaits := by
    cases hlen : stringLength dirp with
    | error e => simp [Waits, hlen]
    | ok length =>
      simp only [Waits, hlen] at hwaits
      exact absurd (show Short dirp by simpa [Short, hlen] using hwaits.1) hkeeps
  component_eq := component_eq
  limit_le := by decide
  steps hl hroom hdbuf := steps_new hl hroom hdbuf
  make buffer fs ino u name n hdbuf hpos hlt := by
    have hesize := name.units_eq_zero
    have hmake : makeEntry u n = .ok { u with
        uDent := ⟨n, fun k => if k < DIRSIZ then u.uDbuf k else u.uDent.mName k, 0⟩
        additionEntry := fun k => if k < ADD_DIRSIZ ∧ k < 0 * 32 then u.uDbuf (DIRSIZ + k)
          else u.additionEntry k } := by
      unfold makeEntry
      rw [dbufLength_pad hdbuf, Except.ok_bind, hesize]
      rfl
    refine ⟨_, _, hmake, rfl, newBytes_slot _ name rfl ?_ ⟨hpos.le, hlt⟩
      (.inr ⟨rfl, hpos.ne'⟩)⟩
    intro k hk
    rw [← hdbuf]
    exact if_pos hk
  clear buffer fs ino u name n k hdent hoff hk := by
    refine ⟨fun a => entryBytes (clearEntry u) a.toNat, ?_, ?_⟩
    · have hback : int32 (u.mOffset - (32 + u.uDent.mAdditionEsize * 32)) = (32 * k : ℕ) := by
        rw [hdent, hoff]
        exact int32_back hk
      have hcount : 32 + u.uDent.mAdditionEsize * 32 = 32 := by
        rw [hdent]
        rfl
      change writeI buffer ⟨fs, ino, ⟨0, int32 (u.mOffset - (32 + u.uDent.mAdditionEsize * 32)),
        32 + u.uDent.mAdditionEsize * 32⟩, _⟩ = _
      rw [hback, hcount]
      rfl
    · refine newBytes_slot (clearEntry u) name ?_ (fun j _ => ?_) ⟨le_rfl, ?_⟩ (.inl ⟨rfl, rfl⟩)
      · exact congrArg mAdditionEsize hdent
      · exact congrFun (congrArg mName hdent) j
      · exact show (0 : ℤ) < 2 ^ 31 by decide

end FileManager
end UnixV6pp
