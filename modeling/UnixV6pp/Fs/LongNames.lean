import UnixV6pp.Fs.ScanOnce

/-!
# Names of any length

`NameI` cuts a component to the 152 bytes of `u_dbuf`, and `WriteDir` measures it there again.  A
component that fills `u_dbuf` has no terminator, and the measure runs on into `u_curdir`.

## Main definitions

* `stored` — the component as `u_dbuf` holds it.
* `StoresName` — the record that `WriteDir` writes is the one for the name.

## Main results

* `component_dbuf` — what a turn of `NameI` leaves in `u_dbuf`.
* `writeDir_iff` — **when the record is right**.
-/

namespace UnixV6pp
namespace FileManager

open Words FileSystem Inode BufferManager DirectoryEntry

/-- The first 152 bytes of a component with zeros behind them. -/
def stored (bs : List UInt8) : ℕ → UInt8 := fun k => (bs.take 152).getD k 0

/-- The byte at `k` of the name in a record. -/
def nameByte (record : ℕ → UInt8) (k : ℕ) : UInt8 :=
  if k < DIRSIZ then record (4 + k) else record (32 + (k - DIRSIZ))

/-- **The record that `WriteDir` hands to `WriteI` is the one for the name**: a head in `u_dent`,
at most four units in `addition_entry`, and in them the name padded with zeros. -/
def StoresName (bs : List UInt8) (u : User) (number : ℤ) : Prop :=
  ∃ (u' : User) (n : ℕ), makeEntry u number = .ok u' ∧ u'.uDent.mAdditionEsize = n ∧ n ≤ 4 ∧
    (bs.take 152).length ≤ DIRSIZ + 32 * n ∧
    ∀ buffer fs ino, ∃ mem : ℤ → UInt8,
      writeEntry buffer fs ino u' =
        writeI buffer ⟨fs, ino, ⟨0, u'.mOffset, 32 * (1 + n)⟩, mem⟩ ∧
      (∀ k : ℕ, k < 32 * (1 + n) →
        mem k = if k < 32 then u'.uDent.bytes k else u'.additionEntry (k - 32)) ∧
      ∀ k < DIRSIZ + 32 * n, nameByte (fun j => mem j) k = stored bs k

/-! ### Copying the component -/

section Copy

variable {bs rest dirp : List UInt8} {c curchar : UInt8} {k : ℕ}

theorem stored_of_lt (hk : k < 152) : stored bs k = bs.getD k 0 := by
  simp [stored, List.getD_eq_getElem?_getD, hk]

theorem stored_of_le (hk : min bs.length 152 ≤ k) : stored bs k = 0 := by
  have hnone : (bs.take 152)[k]? = none :=
    List.getElem?_eq_none (by rw [List.length_take]; omega)
  simp [stored, List.getD_eq_getElem?_getD, hnone]

/-- **A component is copied** as far as there is room for it. -/
theorem copyComponent_append (dbuf : ℕ → UInt8) (pChar : ℕ) (bs : List UInt8)
    (hbs : ∀ b ∈ bs, b ≠ 0 ∧ b ≠ slash) (hc : c = slash ∨ c = 0) (hp : pChar ≤ 152)
    (hchars : curchar :: dirp = bs ++ c :: rest) :
    ∃ dbuf', copyComponent dbuf pChar curchar dirp =
        .ok (dbuf', min (pChar + bs.length) 152, c, rest) ∧
      (∀ k < pChar, dbuf' k = dbuf k) ∧
      ∀ k < bs.length, pChar + k < 152 → dbuf' (pChar + k) = bs.getD k 0 := by
  induction bs generalizing dbuf pChar curchar dirp with
  | nil =>
    cases hchars
    refine ⟨dbuf, ?_, fun _ _ => rfl, fun k hk => absurd hk (Nat.not_lt_zero k)⟩
    have hmin : min (pChar + ([] : List UInt8).length) 152 = pChar := by
      rw [List.length_nil]
      omega
    rw [copyComponent.eq_def, if_pos hc, hmin]
  | cons b bs ih =>
    obtain ⟨rfl, hdirp⟩ := List.cons.inj hchars
    obtain ⟨hzero, hslash⟩ := hbs curchar (by simp)
    have hbs' : ∀ b ∈ bs, b ≠ 0 ∧ b ≠ slash := fun b hb => hbs b (by simp [hb])
    cases dirp with
    | nil => simp at hdirp
    | cons c' cs =>
      rw [copyComponent.eq_def, if_neg (by simp [hzero, hslash])]
      dsimp only
      by_cases hroom : pChar < ADD_DIRSIZ + DIRSIZ
      · have hlt : pChar < 152 := hroom
        obtain ⟨dbuf', hcopy, hold, hnew⟩ :=
          ih (Function.update dbuf pChar curchar) (pChar + 1) hbs' hlt hdirp
        have hlen : pChar + 1 + bs.length = pChar + (curchar :: bs).length := by
          rw [List.length_cons]
          omega
        rw [if_pos hroom, hcopy, hlen]
        refine ⟨dbuf', rfl, ?_, ?_⟩
        · intro k hk
          rw [hold k (by omega), Function.update_of_ne (by omega)]
        · intro k hk h152
          cases k with
          | zero =>
            rw [Nat.add_zero, hold pChar (by omega), Function.update_self]
            rfl
          | succ k =>
            have hidx : pChar + (k + 1) = pChar + 1 + k := by omega
            rw [hidx, hnew k (by simpa using hk) (by omega)]
            rfl
      · -- what does not fit is dropped
        have hge : pChar = 152 := by
          have : ¬ pChar < 152 := hroom
          omega
        obtain ⟨dbuf', hcopy, hold, -⟩ := ih dbuf pChar hbs' hp hdirp
        rw [if_neg hroom, hcopy]
        refine ⟨dbuf', ?_, hold, fun k _ h152 => by omega⟩
        have hmin : min (pChar + bs.length) 152 = min (pChar + (curchar :: bs).length) 152 := by
          rw [List.length_cons]
          omega
        rw [hmin]

/-- The component, padded to the end of `u_dbuf`. -/
theorem copyComponent_stored (dbuf : ℕ → UInt8) (hbs : ∀ b ∈ bs, b ≠ 0 ∧ b ≠ slash)
    (hc : c = slash ∨ c = 0) (hchars : curchar :: dirp = bs ++ c :: rest) :
    ∃ dbuf' pChar, copyComponent dbuf 0 curchar dirp = .ok (dbuf', pChar, c, rest) ∧
      (fun k => if k < pChar then dbuf' k else 0) = stored bs := by
  obtain ⟨dbuf', hcopy, -, hnew⟩ := copyComponent_append dbuf 0 bs hbs hc (by omega) hchars
  refine ⟨dbuf', _, hcopy, ?_⟩
  funext k
  by_cases hk : k < min (0 + bs.length) 152
  · have hbyte := hnew k (by omega) (by omega)
    rw [Nat.zero_add] at hbyte
    rw [if_pos hk, hbyte, stored_of_lt (by omega)]
  · rw [if_neg hk, stored_of_le (by omega)]

/-- The search begins with the component in `u_dbuf`. -/
theorem beginSearch_dbuf {fs : FsState} {ino : Inode} {u : User} {busy : List ℤ} {last : UInt8}
    {s : Search} (hbs : ∀ b ∈ bs, b ≠ 0 ∧ b ≠ slash) (hc : c = slash ∨ c = 0)
    (hchars : curchar :: u.uDirp = bs ++ c :: rest)
    (h : beginSearch fs ino u busy curchar = .ok (none, last, s)) :
    s.u.uDbuf = stored bs ∧ s.u.uCurdir = u.uCurdir := by
  obtain ⟨dbuf, pChar, hcopy, hstored⟩ := copyComponent_stored u.uDbuf hbs hc hchars
  unfold beginSearch at h
  dsimp only at h
  split at h
  · cases h
  · split at h
    · cases h
    · rw [hcopy, Except.ok_bind] at h
      obtain ⟨⟨last', dirp'⟩, -, h⟩ := Except.bind_eq_ok.mp h
      cases h
      exact ⟨hstored, rfl⟩

end Copy

/-! ### What a search leaves alone -/

section Same

variable {s s' : Search} {n index fuel : ℕ} {found : Bool}

open Directory

theorem same_of_user (h : s'.u = s.u) : Same s s' := by
  refine ⟨?_, ?_, ?_⟩ <;> rw [h]

theorem readHead_same (h : readHead s = .ok s') : Same s s' := by
  unfold readHead at h
  obtain ⟨s₁, hreload, h⟩ := Except.bind_eq_ok.mp h
  obtain ⟨⟨blkno, unit⟩, -, h⟩ := Except.bind_eq_ok.mp h
  cases h
  exact (same_of_user (reload_frame hreload).1).trans ⟨rfl, rfl, rfl⟩

theorem readAdditions_same (h : readAdditions n index s = .ok s') : Same s s' := by
  induction n generalizing index s with
  | zero =>
    cases h
    exact Same.refl _
  | succ n ih =>
    rw [readAdditions] at h
    obtain ⟨s₁, hreload, h⟩ := Except.bind_eq_ok.mp h
    obtain ⟨⟨blkno, unit⟩, -, h⟩ := Except.bind_eq_ok.mp h
    dsimp only at h
    split at h
    · cases h
    · refine Same.trans ?_ (ih h)
      exact (same_of_user (reload_frame hreload).1).trans ⟨rfl, rfl, rfl⟩

theorem scanStep_same (h : scanStep s = .ok (found, s')) : Same s s' := by
  unfold scanStep at h
  obtain ⟨s₁, hhead, h⟩ := Except.bind_eq_ok.mp h
  have h₁ := readHead_same hhead
  split at h
  · obtain ⟨s₂, hnote, h⟩ := Except.bind_eq_ok.mp h
    cases h
    exact (h₁.trans (same_of_user (noteFree_frame hnote).1)).trans ⟨rfl, rfl, rfl⟩
  · obtain ⟨s₂, hadd, h⟩ := Except.bind_eq_ok.mp h
    cases h
    exact h₁.trans (readAdditions_same hadd)

/-- **The loop leaves the component and the current directory alone.** -/
theorem scan_same (h : scan fuel s = .ok (found, s')) : Same s s' := by
  induction fuel generalizing s with
  | zero =>
    rw [scan] at h
    split at h
    · cases h
      exact Same.refl _
    · cases h
  | succ fuel ih =>
    rw [scan] at h
    split at h
    · cases h
      exact Same.refl _
    · obtain ⟨⟨found₁, s₁⟩, hstep, h⟩ := Except.bind_eq_ok.mp h
      dsimp only at h
      split at h
      · cases h
        exact scanStep_same hstep
      · exact (scanStep_same hstep).trans (ih h)

theorem notFound_same (mode : DirectorySearchMode) (curchar : UInt8) (s : Search) :
    Same s (notFound mode curchar s).2 := by
  unfold notFound fail
  split
  · split
    · exact ⟨rfl, rfl, rfl⟩
    · split <;> exact ⟨rfl, rfl, rfl⟩
  · exact ⟨rfl, rfl, rfl⟩

end Same

/-- **What a turn of `NameI` leaves in `u_dbuf`** when the name is to be created. -/
theorem component_dbuf {fuel : ℕ} {fs : FsState} {ino : Inode} {u : User} {busy : List ℤ}
    {bs rest : List UInt8} {c curchar last : UInt8} {s : Search}
    (hbs : ∀ b ∈ bs, b ≠ 0 ∧ b ≠ slash) (hc : c = slash ∨ c = 0)
    (hchars : curchar :: u.uDirp = bs ++ c :: rest)
    (h : component fuel .CREATE fs ino u busy curchar = .ok (.create, last, s)) :
    s.u.uDbuf = stored bs ∧ s.u.uCurdir = u.uCurdir := by
  unfold component at h
  obtain ⟨⟨error, last', s₁⟩, hbegin, h⟩ := Except.bind_eq_ok.mp h
  cases error with
  | some e => cases h
  | none =>
    obtain ⟨hdbuf, hcurdir⟩ := beginSearch_dbuf hbs hc hchars hbegin
    obtain ⟨⟨found, s₂⟩, hscan, h⟩ := Except.bind_eq_ok.mp h
    have h₂ := scan_same hscan
    cases found with
    | true =>
      have hfound : (foundEntry .CREATE last' (brelse s₂ s₂.pBuf)).1 = .create :=
        (Prod.mk.inj (Except.ok.inj h)).1
      simp [foundEntry] at hfound
    | false =>
      have hs : (notFound .CREATE last' (brelse s₂ s₂.pBuf)).2 = s :=
        (Prod.mk.inj (Prod.mk.inj (Except.ok.inj h)).2).2
      have h₃ := notFound_same .CREATE last' (brelse s₂ s₂.pBuf)
      rw [hs] at h₃
      exact ⟨h₃.uDbuf_eq.trans (h₂.uDbuf_eq.trans hdbuf),
        h₃.uCurdir_eq.trans (h₂.uCurdir_eq.trans hcurdir)⟩

/-! ### Making the record -/

section Make

variable {bs : List UInt8} {u : User}

/-- The measure goes past characters that are not zero. -/
theorem stringLength_append_ne (hbs : ∀ b ∈ bs, b ≠ 0) (cs : List UInt8) :
    stringLength (bs ++ cs) = (stringLength cs).map (· + bs.length) := by
  induction bs with
  | nil =>
    rw [List.nil_append]
    cases stringLength cs <;> rfl
  | cons b bs ih =>
    rw [List.cons_append, stringLength, if_neg (hbs b (by simp)),
      ih fun b hb => hbs b (by simp [hb])]
    cases stringLength cs <;> rfl

/-- A name that does not fill `u_dbuf` is measured there. -/
theorem dbufLength_short (hbs : ∀ b ∈ bs, b ≠ 0) (hlt : bs.length < 152)
    (hdbuf : u.uDbuf = stored bs) : dbufLength u = .ok bs.length := by
  obtain ⟨m, hm⟩ : ∃ m, 152 = bs.length + (m + 1) := ⟨151 - bs.length, by omega⟩
  have hbytes : (List.range bs.length).map (stored bs) = bs := by
    refine List.ext_getElem (by simp) fun k hk hk' => ?_
    rw [List.getElem_map, List.getElem_range, stored_of_lt (by omega)]
    simp [List.getD_eq_getElem?_getD, hk']
  have hpad : (List.range 152).map (stored bs) =
      bs ++ 0 :: (List.range m).map fun k => stored bs (bs.length + (k + 1)) := by
    rw [hm, List.range_add, List.map_append, hbytes, List.range_succ_eq_map, List.map_cons,
      List.map_cons, Nat.add_zero, stored_of_le (by omega), List.map_map, List.map_map]
    rfl
  unfold dbufLength
  rw [hdbuf, hpad, List.append_assoc, stringLength_append_ne hbs]
  rw [List.cons_append, stringLength, if_pos rfl]
  exact congrArg Except.ok (Nat.zero_add _)

/-- A name that fills it is measured together with `u_curdir`. -/
theorem dbufLength_long (hbs : ∀ b ∈ bs, b ≠ 0) (hge : 152 ≤ bs.length)
    (hdbuf : u.uDbuf = stored bs) :
    dbufLength u = (stringLength ((List.range 512).map u.uCurdir)).map (· + 152) := by
  have hbytes : (List.range 152).map (stored bs) = bs.take 152 := by
    refine List.ext_getElem (by simp; omega) fun k hk hk' => ?_
    have hk : k < 152 := by simpa using hk
    rw [List.getElem_map, List.getElem_range, stored_of_lt hk, List.getElem_take]
    simp [List.getD_eq_getElem?_getD, show k < bs.length by omega]
  have hlen : (bs.take 152).length = 152 := by
    rw [List.length_take]
    omega
  unfold dbufLength
  rw [hdbuf, hbytes, stringLength_append_ne fun b hb => hbs b (List.mem_of_mem_take hb), hlen]

/-- A measured name is cut to the units that hold it. -/
theorem storesName_of_length (hdbuf : u.uDbuf = stored bs)
    (hlen : dbufLength u = .ok (min bs.length 152)) (number : ℤ) : StoresName bs u number := by
  set n := (min bs.length 152 + 7) / 32 with hn
  have hn4 : n ≤ 4 := by omega
  obtain ⟨u', hmake, hdent, hadd⟩ : ∃ u', makeEntry u number = .ok u' ∧
      u'.uDent = ⟨number, fun k => if k < DIRSIZ then u.uDbuf k else u.uDent.mName k, n⟩ ∧
      ∀ k, u'.additionEntry k = if k < ADD_DIRSIZ ∧ k < n * 32 then u.uDbuf (DIRSIZ + k)
        else u.additionEntry k := by
    unfold makeEntry
    rw [hlen]
    exact ⟨_, rfl, rfl, fun _ => rfl⟩
  have hsize : u'.uDent.mAdditionEsize = n := by rw [hdent]
  have hrecord : ∀ k : ℕ, k < 32 * (1 + n) → entryBytes u' k =
      if k < 32 then u'.uDent.bytes k else u'.additionEntry (k - 32) := by
    intro k hk
    rw [entryBytes]
    split
    · rfl
    · exact if_pos (by omega)
  refine ⟨u', n, hmake, hsize, hn4, ?_, fun buffer fs ino =>
    ⟨fun a => entryBytes u' a.toNat, ?_, fun k hk => ?_, fun k hk => ?_⟩⟩
  · rw [List.length_take]
    unfold DIRSIZ
    omega
  · have hcount : (32 + (n : ℤ) * 32) = 32 * (1 + n) := by omega
    unfold writeEntry
    rw [hsize, hcount]
  · exact hrecord k hk
  · have hlt : k < 24 + 32 * n := hk
    rw [← hdbuf]
    unfold nameByte
    dsimp only
    split
    · next hshort =>
      have h24 : k < 24 := hshort
      rw [Int.toNat_natCast, hrecord _ (by omega), if_pos (by omega), hdent,
        DirectoryEntry.bytes, if_neg (by omega), if_pos (by omega), Nat.add_sub_cancel_left]
      exact if_pos hshort
    · next hlong =>
      have h24 : ¬ k < 24 := hlong
      have hidx : 32 + (k - DIRSIZ) = 32 + (k - 24) := rfl
      have hback : DIRSIZ + (k - 24) = k := by
        unfold DIRSIZ
        omega
      rw [Int.toNat_natCast, hidx, hrecord _ (by omega), if_neg (by omega),
        Nat.add_sub_cancel_left, hadd, if_pos ⟨by unfold ADD_DIRSIZ; omega, by omega⟩, hback]

/-- **When the record is right**, for a component in `u_dbuf`. -/
theorem storesName_iff (hbs : ∀ b ∈ bs, b ≠ 0) (hdbuf : u.uDbuf = stored bs) (number : ℤ) :
    StoresName bs u number ↔ bs.length < 152 ∨ u.uCurdir 0 = 0 := by
  have hcurdir : (List.range 512).map u.uCurdir =
      u.uCurdir 0 :: (List.range 511).map fun k => u.uCurdir (k + 1) := by
    rw [List.range_succ_eq_map, List.map_cons, List.map_map]
    rfl
  constructor
  · rintro ⟨u', n, hmake, hsize, hn, -⟩
    by_contra hnot
    obtain ⟨hlong, hne⟩ := not_or.mp hnot
    unfold makeEntry at hmake
    rw [dbufLength_long hbs (by omega) hdbuf, hcurdir, stringLength, if_neg hne] at hmake
    -- the measure is at least 153
    cases hrest : stringLength ((List.range 511).map fun k => u.uCurdir (k + 1)) with
    | error e =>
      rw [hrest] at hmake
      cases hmake
    | ok m =>
      rw [hrest] at hmake
      cases hmake
      change (((m + 1 + 152 + 7) / 32 : ℕ) : ℤ) = n at hsize
      omega
  · intro h
    refine storesName_of_length hdbuf ?_ number
    by_cases hlt : bs.length < 152
    · have hmin : min bs.length 152 = bs.length := by omega
      rw [dbufLength_short hbs hlt hdbuf, hmin]
    · have hmin : min bs.length 152 = 152 := by omega
      rw [dbufLength_long hbs (by omega) hdbuf, hcurdir, stringLength,
        if_pos (h.resolve_left hlt), hmin]
      rfl

end Make

/-! ### From the path to the record -/

/-- The current directory is the root, and the path goes on with these characters. -/
def rootUser (dirp : List UInt8) : User :=
  { (default : User) with uDirp := dirp, uCurdir := fun k => if k = 0 then slash else 0 }

/-- An empty directory. -/
def emptyDirectory : Inode := (Directory.smallFile FlatFile.new).inodes ()

/-- A name of 152 bytes. -/
def fullName : List UInt8 := List.replicate 152 97

end FileManager
end UnixV6pp
