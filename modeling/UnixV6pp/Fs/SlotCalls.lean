import UnixV6pp.Fs.SlotFormat

/-!
# What the calls do to a directory of short names

A call is a search, checks on the inode of a file, and perhaps the write of one slot.  What
comes of it is said here by a function on the map from names to files, `DirSpec.call`, that
knows of no slots; both formats follow it whenever there is space and the search comes to
an end.

## Main definitions

* `Lists` — the map from names to files that the slots list.
* `DirSpec.call` — a call on such a map.
* `Models` — a device whose directory lists a map.

## Main results

* `Format.Reading.nameI_spec` — **the search.**
* `Format.Reading.call_spec` — **every call of either format follows the specification.**
-/

namespace UnixV6pp

open Words FileSystem Inode BufferManager DirectoryEntry

namespace FileManager

/-! ### The map from names to files -/

/-- The names in use with the numbers of their inodes. -/
abbrev Entries := Name → Option ℤ

/-- The slots list these names, each once. -/
structure Lists (slots : List Slot) (m : Entries) : Prop where
  mem_iff : ∀ name n, m name = some n ↔ ∃ k : ℕ, slots[k]? = some (some (name, n))
  unique : ∀ name n n' (k k' : ℕ), slots[k]? = some (some (name, n)) →
    slots[k']? = some (some (name, n')) → k = k'

section Lists

variable {slots : List Slot} {m : Entries} {name : Name} {n : ℤ} {k : ℕ}

theorem Lists.nil : Lists [] fun _ => none := ⟨by simp, by simp⟩

/-- A name gets a slot that is free or new. -/
theorem Lists.put_some (h : Lists slots m) (hnew : m name = none)
    (hk : slots[k]? = some none ∨ k = slots.length) :
    Lists (put slots k (some (name, n))) (Function.update m name (some n)) := by
  have hle : k ≤ slots.length := by
    rcases hk with hfree | hend
    · exact (List.getElem?_eq_some_iff.mp hfree).1.le
    · exact hend.le
  have hother : ∀ name' n', slots[k]? ≠ some (some (name', n')) := by
    intro name' n' heq
    rcases hk with hfree | rfl
    · rw [hfree] at heq
      cases heq
    · simp at heq
  have hunused : ∀ (j : ℕ) n', slots[j]? ≠ some (some (name, n')) := by
    intro j n' heq
    have hsome := (h.mem_iff name n').mpr ⟨j, heq⟩
    rw [hnew] at hsome
    cases hsome
  refine ⟨?_, ?_⟩
  · intro name' n'
    by_cases hname : name' = name
    · subst hname
      rw [Function.update_self]
      constructor
      · rintro ⟨⟩
        exact ⟨k, by rw [getElem?_put hle, if_pos rfl]⟩
      · rintro ⟨j, hj⟩
        rw [getElem?_put hle] at hj
        split at hj
        · cases hj
          rfl
        · exact absurd hj (hunused j n')
    · rw [Function.update_of_ne hname, h.mem_iff]
      refine exists_congr fun j => ?_
      rw [getElem?_put hle]
      by_cases hj : j = k
      · subst hj
        rw [if_pos rfl]
        refine ⟨fun heq => absurd heq (hother _ _), fun heq => ?_⟩
        cases heq
        exact absurd rfl hname
      · rw [if_neg hj]
  · intro name' n₁ n₂ j j' hj hj'
    rw [getElem?_put hle] at hj hj'
    split at hj
    · next hjk =>
      split at hj'
      · next hjk' => rw [hjk, hjk']
      · cases hj
        exact absurd hj' (hunused _ _)
    · split at hj'
      · cases hj'
        exact absurd hj (hunused _ _)
      · exact h.unique _ _ _ _ _ hj hj'

/-- The slot of a name is made a free one. -/
theorem Lists.put_none (h : Lists slots m) (hk : slots[k]? = some (some (name, n))) :
    Lists (put slots k none) (Function.update m name none) := by
  have hle : k ≤ slots.length := (List.getElem?_eq_some_iff.mp hk).1.le
  refine ⟨?_, ?_⟩
  · intro name' n'
    by_cases hname : name' = name
    · subst hname
      rw [Function.update_self]
      constructor
      · rintro ⟨⟩
      · rintro ⟨j, hj⟩
        rw [getElem?_put hle] at hj
        split at hj
        · cases hj
        · next hjk => exact absurd (h.unique _ _ _ _ _ hj hk) hjk
    · rw [Function.update_of_ne hname, h.mem_iff]
      refine exists_congr fun j => ?_
      rw [getElem?_put hle]
      by_cases hj : j = k
      · subst hj
        rw [if_pos rfl, hk]
        constructor
        · rintro ⟨⟩
          exact absurd rfl hname
        · rintro ⟨⟩
      · rw [if_neg hj]
  · intro name' n₁ n₂ j j' hj hj'
    rw [getElem?_put hle] at hj hj'
    split at hj
    · cases hj
    · split at hj'
      · cases hj'
      · exact h.unique _ _ _ _ _ hj hj'

end Lists

/-! ### The search -/

namespace DirSpec

/-- How a search ends, and with which error, by what access to the directory depends on and
the number found. -/
def search (g : Guard) (uid gid : ℤ) (mode : DirectorySearchMode) (next : UInt8)
    (found : Option ℤ) : Outcome × ErrorCode :=
  if g.iMode &&& IFMT ≠ 0x4000 then (.failed, .ENOTDIR)
  else if (g.access uid gid IEXEC).isSome then (.failed, .EACCES)
  else match found with
  | some n =>
    if mode = .DELETE ∧ next = 0 then
      if (g.access uid gid IWRITE).isSome then (.failed, .EACCES) else (.parent, .NOERROR)
    else (.next n, .NOERROR)
  | none =>
    if mode = .CREATE ∧ next = 0 then
      if (g.access uid gid IWRITE).isSome then (.failed, .EACCES) else (.create, .NOERROR)
    else (.failed, .ENOENT)

end DirSpec

/-- The directory is one, and may be searched. -/
def Searchable (g : Guard) (uid gid : ℤ) : Prop :=
  g.iMode &&& IFMT = 0x4000 ∧ g.access uid gid IEXEC = none

section Search

variable {ι : Type} [DecidableEq ι] {d : Files ι} {F : ι → FlatFile} {i : ι} {slots : List Slot}
  {fmt : Format} (R : fmt.Reading)

/-- The search comes past the first free slot in front of the name. -/
def Format.Reading.Comes (slots : List Slot) (p : Path) : Prop :=
  ∀ k : ℕ, slots[k]? = some none → (∀ j < k, slots[j]? ≠ some none) →
    (∀ j < k, ∀ n, slots[j]? ≠ some (some (p.name, n))) → ¬ R.waits p.dirp k

variable {R}

/-- So it comes past any number of slots without the name. -/
theorem Format.Reading.Comes.passed {p : Path} (h : R.Comes slots p) {k : ℕ}
    (hother : ∀ j < k, ∀ n, slots[j]? ≠ some (some (p.name, n))) :
    Passed (R.keeps p.dirp) (R.waits p.dirp) slots p.name k := by
  refine ⟨fun m hm e he hname => hother m hm e.2 (by rw [he, ← hname]), ?_⟩
  intro m hm hfree hkept hwaits
  obtain ⟨j, hj, hleast⟩ : ∃ j : ℕ, slots[j]? = some none ∧ ∀ l < j, slots[l]? ≠ some none := by
    classical
    have hex : ∃ j : ℕ, slots[j]? = some none := ⟨m, hfree⟩
    exact ⟨Nat.find hex, Nat.find_spec hex, fun l hl => Nat.find_min hex hl⟩
  have hjm : j ≤ m := by
    by_contra hlt
    exact hleast m (by omega) hfree
  have hawake : ¬ R.waits p.dirp j := h j hj hleast fun l hl => hother l (by omega)
  rcases hjm.eq_or_lt with rfl | hlt
  · exact hawake hwaits
  · have hkeeps : ¬ R.keeps p.dirp := fun hkeeps => kept_ne_zero hj hkeeps hlt hkept
    exact hawake (R.waits_first p.dirp j m hkeeps hwaits)

variable (R) in
/-- What is known when `NameI` has made its search. -/
structure Searched (d : Files ι) (F : ι → FlatFile) (i : ι) (slots : List Slot) (u : User)
    (p : Path) (o : Outcome) (s : Search) : Prop where
  holds : Holds (d.set { s.fs with uError := .NOERROR } i s.ino) F
  guard : guardOf s.fs s.ino = guardOf d.fs (d.inodes i)
  roomy : Roomy (d.set { s.fs with uError := .NOERROR } i s.ino) i
  user : s.u.uUid = u.uUid ∧ s.u.uGid = u.uGid
  /-- `UnLink` knows the slot. -/
  parent : o = .parent → ∃ (k : ℕ) (n : ℤ), slots[k]? = some (some (p.name, n)) ∧
    s.u.uDent = ⟨n, p.name.pad, 0⟩ ∧ s.u.mOffset = (32 * (k + 1) : ℕ)
  /-- `WriteDir` knows the name and its place. -/
  create : o = .create → s.u.uDbuf = p.name.pad ∧
    s.u.mOffset = (32 * place (R.keeps p.dirp) slots : ℕ) ∧
    (place (R.keeps p.dirp) slots = slots.length →
      (∃ r, s.fs = d.fs.ahead r) ∧ ∃ iFlag, s.ino = { d.inodes i with iFlag := iFlag })

theorem cleared {fs : FsState} (h : fs.uError = .NOERROR) :
    { fs with uError := .NOERROR } = fs := by
  cases fs
  cases h
  rfl

/-- A search that was refused. -/
theorem searched_refused (hd : Holds d F) (hroom : Roomy d i) (u : User) (p : Path) {s : Search} (e : ErrorCode)
    (hfs : s.fs = d.fs) (hino : s.ino = d.inodes i)
    (huser : s.u.uUid = u.uUid ∧ s.u.uGid = u.uGid) :
    Searched R d F i slots u p .failed (fail s e).2 := by
  refine ⟨?_, ?_, ?_, huser, nofun, nofun⟩
  · change Holds (d.set { s.fs with uError := .NOERROR } i s.ino) F
    rw [hfs, hino, cleared hd.uError_eq]
    exact hd.other rfl rfl rfl rfl
  · change guardOf { s.fs with uError := e } s.ino = _
    rw [hfs, hino]
    rfl
  · change Roomy (d.set { s.fs with uError := .NOERROR } i s.ino) i
    rw [hfs, hino, cleared hd.uError_eq]
    exact hroom.ahead d.fs.rablock

variable {dir : Directory ι} {s : Search} {u : User} {p : Path} {k : ℕ}

/-- What a search at a slot knows, with any buffers in its hands. -/
theorem On.searched (h : On dir (started u p) s k) (hroom : Roomy dir.d dir.i) (e : ErrorCode)
    (busy : List ℤ) :
    Searched R dir.d dir.F dir.i slots u p .failed
      (fail { s with busy := busy } e).2 := by
  obtain ⟨_, _, _, hu⟩ := h.user
  refine ⟨?_, h.guard, ?_, ?_, nofun, nofun⟩
  · change Holds (dir.d.set { s.fs with uError := .NOERROR } dir.i s.ino) dir.F
    rw [cleared h.noError]
    exact h.at_.holds h.noError
  · change Roomy (dir.d.set { s.fs with uError := .NOERROR } dir.i s.ino) dir.i
    rw [cleared h.noError]
    exact h.roomy hroom
  · change s.u.uUid = _ ∧ s.u.uGid = _
    rw [hu]
    exact ⟨rfl, rfl⟩

theorem On.access_eq (h : On dir (started u p) s k) (mode : UInt32) (busy : List ℤ) :
    access { s with busy := busy } mode =
      (guardOf dir.d.fs (dir.d.inodes dir.i)).access u.uUid u.uGid mode := by
  obtain ⟨_, _, _, hu⟩ := h.user
  rw [UnixV6pp.access_eq]
  change (guardOf s.fs s.ino).access s.u.uUid s.u.uGid mode = _
  rw [h.guard, hu]
  rfl

/-- **The search has found the name.** -/
theorem On.foundEntry (h : On dir (started u p) s (k + 1)) {n : ℤ}
    (hk : slots[k]? = some (some (p.name, n))) (hdent : s.u.uDent = ⟨n, p.name.pad, 0⟩)
    (hroom : Roomy dir.d dir.i) {g : Guard} (hg : g = guardOf dir.d.fs (dir.d.inodes dir.i))
    (hdir : g.iMode &&& IFMT = 0x4000) (hexec : g.access u.uUid u.uGid IEXEC = none)
    (mode : DirectorySearchMode) (busy : List ℤ) : ∃ s',
      FileManager.foundEntry mode p.next { s with busy := busy } =
        ((DirSpec.search g u.uUid u.uGid mode p.next (some n)).1, s') ∧
      s'.fs.uError = (DirSpec.search g u.uUid u.uGid mode p.next (some n)).2 ∧
      Searched R dir.d dir.F dir.i slots u p
        (DirSpec.search g u.uUid u.uGid mode p.next (some n)).1 s' := by
  have hsearch : DirSpec.search g u.uUid u.uGid mode p.next (some n) =
      if mode = .DELETE ∧ p.next = 0 then
        if (g.access u.uUid u.uGid IWRITE).isSome then (.failed, .EACCES) else (.parent, .NOERROR)
      else (.next n, .NOERROR) := by
    rw [DirSpec.search, if_neg (not_not.mpr hdir), hexec]
    rfl
  have hheld : Searched R dir.d dir.F dir.i slots u p .failed _ := h.searched hroom .EACCES busy
  unfold FileManager.foundEntry
  rw [hsearch, h.access_eq, ← hg]
  by_cases hdelete : mode = .DELETE ∧ p.next = 0
  · rw [if_pos hdelete, if_pos hdelete]
    by_cases hwrite : (g.access u.uUid u.uGid IWRITE).isSome = true
    · rw [if_pos hwrite, if_pos hwrite]
      exact ⟨_, rfl, rfl, hheld⟩
    · rw [if_neg hwrite, if_neg hwrite]
      exact ⟨_, rfl, h.noError, hheld.holds, hheld.guard, hheld.roomy, hheld.user,
        fun _ => ⟨k, n, hk, hdent, h.at_.mOffset_eq⟩, nofun⟩
  · rw [if_neg hdelete, if_neg hdelete]
    refine ⟨{ s with busy := busy }, ?_, h.noError, hheld.holds, hheld.guard, hheld.roomy, hheld.user,
      nofun, nofun⟩
    change (Outcome.next s.u.uDent.mIno, _) = _
    rw [hdent]

/-- **The search has not found the name.** -/
theorem On.notFound (h : On dir (started u p) s slots.length)
    (hkept : s.freeEntryOffset = kept (R.keeps p.dirp) slots slots.length)
    (hroom : Roomy dir.d dir.i) {g : Guard} (hg : g = guardOf dir.d.fs (dir.d.inodes dir.i))
    (hdir : g.iMode &&& IFMT = 0x4000) (hexec : g.access u.uUid u.uGid IEXEC = none)
    (mode : DirectorySearchMode) (busy : List ℤ) : ∃ s',
      FileManager.notFound mode p.next { s with busy := busy } =
        ((DirSpec.search g u.uUid u.uGid mode p.next none).1, s') ∧
      s'.fs.uError = (DirSpec.search g u.uUid u.uGid mode p.next none).2 ∧
      Searched R dir.d dir.F dir.i slots u p
        (DirSpec.search g u.uUid u.uGid mode p.next none).1 s' := by
  have hsearch : DirSpec.search g u.uUid u.uGid mode p.next none =
      if mode = .CREATE ∧ p.next = 0 then
        if (g.access u.uUid u.uGid IWRITE).isSome then (.failed, .EACCES) else (.create, .NOERROR)
      else (.failed, .ENOENT) := by
    rw [DirSpec.search, if_neg (not_not.mpr hdir), hexec]
    rfl
  have hheld : Searched R dir.d dir.F dir.i slots u p .failed _ := h.searched hroom .EACCES busy
  have hdbuf : s.u.uDbuf = p.name.pad := by
    obtain ⟨_, _, _, hu⟩ := h.user
    rw [hu]
    rfl
  unfold FileManager.notFound
  rw [hsearch, h.access_eq, ← hg]
  by_cases hcreate : mode = .CREATE ∧ p.next = 0
  · rw [if_pos hcreate, if_pos hcreate]
    by_cases hwrite : (g.access u.uUid u.uGid IWRITE).isSome = true
    · rw [if_pos hwrite, if_pos hwrite]
      exact ⟨_, rfl, rfl, hheld⟩
    · rw [if_neg hwrite, if_neg hwrite]
      rcases place_cases (R.keeps p.dirp) slots with ⟨hzero, hplace⟩ | ⟨hend, -, hlt⟩
      · -- no slot is kept: the search stands at the end of the directory
        have hfree : s.freeEntryOffset = 0 := hkept.trans hzero
        obtain ⟨hfs, hino⟩ := h.plain hfree
        rw [if_neg (not_not.mpr hfree)]
        refine ⟨_, rfl, h.noError, ?_, hheld.guard, ?_, hheld.user, nofun,
          fun _ => ⟨hdbuf, ?_, fun _ => ⟨hfs, _, by rw [← hino]⟩⟩⟩
        · have hother : Holds ((dir.d.set { s.fs with uError := .NOERROR } dir.i s.ino).set
              { s.fs with uError := .NOERROR } dir.i { s.ino with iFlag := s.ino.iFlag ||| IUPD })
              dir.F := by
            refine hheld.holds.other ?_ ?_ ?_ ?_
            all_goals
              rw [Files.inodes_set_self]
              rfl
          rwa [Files.set_set] at hother
        · intro r iFlag
          have hnext := hheld.roomy r iFlag
          rw [Files.inodes_set_self] at hnext ⊢
          exact hnext
        · rw [hplace]
          exact h.at_.mOffset_eq
      · have hfree : s.freeEntryOffset = (32 * place (R.keeps p.dirp) slots + 32 : ℕ) :=
          hkept.trans hend
        rw [if_pos (show s.freeEntryOffset ≠ 0 by omega)]
        refine ⟨_, rfl, h.noError, hheld.holds, hheld.guard, hheld.roomy, hheld.user, nofun,
          fun _ => ⟨hdbuf, ?_, fun hend => absurd hend hlt.ne⟩⟩
        change s.freeEntryOffset - 32 = _
        omega
  · rw [if_neg hcreate, if_neg hcreate]
    exact ⟨_, rfl, rfl, h.searched hroom .ENOENT busy⟩

/-- The search at the first slot. -/
theorem on_start (dir : Directory ι) (u : User) (p : Path) : On dir (started u p)
    (startSearch dir.d.fs (dir.d.inodes dir.i) (started u p) p.name.pad p.dirp) 0 := by
  have hsize := dir.located.size_eq
  have h32 := dir.dvd_size
  refine ⟨⟨fun _ => ⟨dir.d.fs.rablock, rfl⟩, fun _ => rfl, rfl, ?_, fun _ h0 => absurd rfl h0, rfl,
    fun _ => ?_⟩, dir.holds.uError_eq, rfl, fun _ => ⟨⟨dir.d.fs.rablock, rfl⟩, rfl⟩,
    ⟨_, _, _, rfl⟩, fun hroom => hroom.ahead dir.d.fs.rablock⟩
  · change 32 * (dir.d.inodes dir.i).iSize.tdiv 32 = (dir.f.size : ℤ) - 0
    rw [hsize, Int.tdiv_eq_ediv_of_nonneg (by omega)]
    omega
  · exact dir.holds.other rfl rfl rfl rfl

/-- The characters of a path are not none. -/
theorem Path.chars_eq (p : Path) : ∃ curchar dirp, p.chars = curchar :: dirp := by
  have hne := p.name.ne_nil
  cases hbytes : p.name.bytes with
  | nil => exact absurd hbytes hne
  | cons c cs => exact ⟨c, _, by rw [Path.chars, hbytes]; rfl⟩

variable {m : Entries}

/-- The map tells what the slots in front of a name are. -/
theorem Lists.before (h : Lists slots m) {n : ℤ} (hk : slots[k]? = some (some (p.name, n))) :
    ∀ j < k, ∀ n', slots[j]? ≠ some (some (p.name, n')) := by
  intro j hj n' heq
  have := h.unique _ _ _ _ _ heq hk
  omega

theorem Lists.absent (h : Lists slots m) (hnone : m p.name = none) (j : ℕ) (n : ℤ) :
    slots[j]? ≠ some (some (p.name, n)) := by
  intro heq
  have hsome := (h.mem_iff p.name n).mpr ⟨j, heq⟩
  rw [hnone] at hsome
  cases hsome

omit [DecidableEq ι] in
/-- `NameI` is a turn of its outer loop. -/
theorem Format.Reading.nameI_eq (R : fmt.Reading) (hd : Holds d F) (hl : Layout (F i) slots)
    (u : User) {curchar : UInt8} {dirp : List UInt8} (hchars : p.chars = curchar :: dirp)
    (mode : DirectorySearchMode) : fmt.nameI i mode d u p = (do
      let (outcome, _, s) ← componentWith R.limit R.step slots.length mode d.fs (d.inodes i)
        { u with uDirp := dirp } [] curchar
      return (outcome, s)) := by
  have hfuel : (d.inodes i).iSize.toNat / 32 = slots.length := by
    rw [hd.size_eq, hl.size_eq]
    omega
  unfold Format.nameI
  rw [hchars, R.component_eq, hfuel]

omit [DecidableEq ι] in
/-- `NameI` in a directory that may be searched, but for the loop. -/
theorem Format.Reading.nameI_scan (R : fmt.Reading) (hd : Holds d F) (hl : Layout (F i) slots)
    (u : User) (p : Path)
    (hsearchable : Searchable (guardOf d.fs (d.inodes i)) u.uUid u.uGid)
    (mode : DirectorySearchMode) : fmt.nameI i mode d u p = (do
      let (found, s) ← scanWith R.step slots.length
        (startSearch d.fs (d.inodes i) (started u p) p.name.pad p.dirp)
      let s := { s with busy := (brelse s s.pBuf).busy }
      return if found then FileManager.foundEntry mode p.next s
        else FileManager.notFound mode p.next s) := by
  obtain ⟨curchar, dirp, hchars⟩ := p.chars_eq
  rw [R.nameI_eq hd hl u hchars mode, componentWith,
    beginSearch_path R.limit_le u p hchars hsearchable.1 hsearchable.2, Except.ok_bind]
  dsimp only
  cases scanWith R.step slots.length
    (startSearch d.fs (d.inodes i) (started u p) p.name.pad p.dirp) with
  | error e => rfl
  | ok r => rfl

/-- **The search of `NameI`**: it ends as the map says, and what it knows then. -/
theorem Format.Reading.nameI_spec (R : fmt.Reading) (hd : Holds d F) (hl : Layout (F i) slots)
    (hroom : Roomy d i) (hm : Lists slots m) (u : User) (p : Path) {g : Guard}
    (hg : g = guardOf d.fs (d.inodes i))
    (hcomes : Searchable g u.uUid u.uGid → R.Comes slots p) (mode : DirectorySearchMode) : ∃ s,
      fmt.nameI i mode d u p =
        .ok ((DirSpec.search g u.uUid u.uGid mode p.next (m p.name)).1, s) ∧
      s.fs.uError = (DirSpec.search g u.uUid u.uGid mode p.next (m p.name)).2 ∧
      Searched R d F i slots u p (DirSpec.search g u.uUid u.uGid mode p.next (m p.name)).1 s := by
  obtain ⟨curchar, dirp, hchars⟩ := p.chars_eq
  have haccess (mode : UInt32) : access { startSearch d.fs (d.inodes i) { u with uDirp := dirp }
      u.uDbuf dirp with busy := [] } mode = g.access u.uUid u.uGid mode := by
    rw [UnixV6pp.access_eq, hg]
    rfl
  by_cases hdir : g.iMode &&& IFMT = 0x4000
  · have hdir' : (d.inodes i).iMode &&& IFMT = 0x4000 := by
      rw [hg] at hdir
      exact hdir
    cases hexec : g.access u.uUid u.uGid IEXEC with
    | some e =>
      have hsearch : DirSpec.search g u.uUid u.uGid mode p.next (m p.name) =
          (.failed, .EACCES) := by
        unfold DirSpec.search
        rw [if_neg (not_not.mpr hdir), hexec]
        rfl
      rw [hsearch]
      rw [R.nameI_eq hd hl u hchars mode, componentWith, beginSearchWith]
      dsimp only
      rw [if_neg (not_not.mpr hdir'), haccess, hexec]
      exact ⟨_, rfl, rfl, searched_refused hd hroom u p .EACCES rfl rfl ⟨rfl, rfl⟩⟩
    | none =>
      have hcomes := hcomes ⟨hdir, hexec⟩
      have hsteps : Steps (hl.directory hd) slots (started u p) R.step (R.keeps p.dirp)
          (R.waits p.dirp) p.name := R.steps hl hroom rfl
      have hstart : On (hl.directory hd) (started u p)
          (startSearch d.fs (d.inodes i) (started u p) p.name.pad p.dirp) 0 :=
        on_start (hl.directory hd) u p
      rw [R.nameI_scan hd hl u p ⟨hdir', hg ▸ hexec⟩ mode]
      cases hfound : m p.name with
      | some n =>
        obtain ⟨k, hk⟩ := (hm.mem_iff p.name n).mp hfound
        obtain ⟨s, hscan, hon, hdent⟩ := hsteps.found hl hstart rfl hk
          (hcomes.passed (hm.before hk))
        obtain ⟨s', hentry, herr, hsearched⟩ := hon.foundEntry (R := R) hk hdent hroom hg hdir
          hexec mode (brelse s s.pBuf).busy
        refine ⟨s', ?_, herr, hsearched⟩
        rw [hscan, Except.ok_bind]
        exact congrArg Except.ok hentry
      | none =>
        obtain ⟨s, hscan, hon, hkept⟩ := hsteps.missing hl hstart rfl
          (hcomes.passed fun j _ => hm.absent hfound j)
        obtain ⟨s', hentry, herr, hsearched⟩ := hon.notFound (R := R) hkept hroom hg hdir
          hexec mode (brelse s s.pBuf).busy
        refine ⟨s', ?_, herr, hsearched⟩
        rw [hscan, Except.ok_bind]
        exact congrArg Except.ok hentry
  · have hsearch : DirSpec.search g u.uUid u.uGid mode p.next (m p.name) =
        (.failed, .ENOTDIR) := by
      unfold DirSpec.search
      rw [if_pos hdir]
    have hdir' : (d.inodes i).iMode &&& IFMT ≠ 0x4000 := by
      rw [hg] at hdir
      exact hdir
    rw [hsearch]
    rw [R.nameI_eq hd hl u hchars mode, componentWith, beginSearchWith]
    dsimp only
    rw [if_pos hdir']
    exact ⟨_, rfl, rfl, searched_refused hd hroom u p .ENOTDIR rfl rfl ⟨rfl, rfl⟩⟩

/-- **The search of the new version does not end** if a free slot stops it. -/
theorem nameI_stops (hd : Holds d F) (hl : Layout (F i) slots) (hroom : Roomy d i) (u : User)
    (p : Path) (hsearchable : Searchable (guardOf d.fs (d.inodes i)) u.uUid u.uGid)
    (hcomes : ¬ newReading.Comes slots p) (mode : DirectorySearchMode) :
    ∃ e, oos2.nameI i mode d u p = .error e := by
  simp only [Format.Reading.Comes, not_forall, not_not] at hcomes
  obtain ⟨k, hfree, hfirst, hother, hwaits⟩ := hcomes
  have hpass : Passed (Short p.dirp) (Waits p.dirp) slots p.name k :=
    ⟨fun m hm e he hname => hother m hm e.2 (by rw [he, ← hname]),
      fun m hm hfree _ => absurd hfree (hfirst m hm)⟩
  have hstart : On (hl.directory hd) (started u p)
      (startSearch d.fs (d.inodes i) (started u p) p.name.pad p.dirp) 0 :=
    on_start (hl.directory hd) u p
  have hl' : Layout (hl.directory hd).f slots := hl
  obtain ⟨e, hscan⟩ := scan_stops hl' hroom rfl hstart rfl hfree hpass
    (kept_eq_zero hfirst) hwaits
  refine ⟨e, ?_⟩
  rw [newReading.nameI_scan hd hl u p hsearchable mode]
  exact congrArg (· >>= _) hscan

end Search

/-! ### The calls on the map -/

namespace DirSpec

/-- The map and the inodes of the files. -/
structure State where
  entries : Entries
  nodes : ℤ → Node

/-- The inode of a file is another one. -/
def State.setNode (st : State) (number : ℤ) (node : Node) : State :=
  { st with nodes := Function.update st.nodes number node }

/-- A name is given to a file, or taken away. -/
def State.setEntry (st : State) (name : Name) (number : Option ℤ) : State :=
  { st with entries := Function.update st.entries name number }

/-- What `Open1` finds wrong with a file to be written. -/
def openError (g : Guard) (uid gid : ℤ) (node : Node) : Option ErrorCode :=
  if node.iMode &&& IFMT = IFDIR then some .EISDIR
  else (Guard.mk g.sRonly node.iMode node.iUid node.iGid).access uid gid IWRITE

section

variable (g : Guard) (uid gid : ℤ) (st : State)

def lookup (p : Path) : Result × State :=
  match search g uid gid .OPEN p.next (st.entries p.name) with
  | (.next number, _) => (.file number, st)
  | (_, e) => (.error e, st)

def creat (p : Path) (mode : UInt32) (number : ℤ) : Result × State :=
  match search g uid gid .CREATE p.next (st.entries p.name) with
  | (.next found, _) =>
    let node := st.nodes found
    match openError g uid gid node with
    | some e => (.error e, st.setNode found { node with iMode := node.iMode ||| newACCMode mode })
    | none => (.file found, st.setNode found
        { node.itrunc with iMode := node.itrunc.iMode ||| newACCMode mode })
  | (.create, _) => (.file number, (st.setEntry p.name (some number)).setNode number
      (makNode uid gid (newACCMode mode &&& ~~~ISVTX)))
  | (_, e) => (.error e, st)

/-- `link`, once the file is known and not refused. -/
def linkTo (new : Path) (found : ℤ) : Result × State :=
  match search g uid gid .CREATE new.next (st.entries new.name) with
  | (.next _, _) => (.error .EEXIST, st)
  | (.create, _) => (.file found, (st.setEntry new.name (some found)).setNode found
      { st.nodes found with iNlink := (st.nodes found).iNlink + 1 })
  | (_, e) => (.error e, st)

def link (old new : Path) : Result × State :=
  match search g uid gid .OPEN old.next (st.entries old.name) with
  | (.next found, _) =>
    match linkError uid (st.nodes found) with
    | some e => (.error e, st)
    | none => linkTo g uid gid st new found
  | (_, e) => (.error e, st)

/-- `unlink`, once the file is known. -/
def unlinkFound (p : Path) (found : ℤ) : Result × State :=
  match unlinkError uid (st.nodes found) with
  | some e => (.error e, st)
  | none => (.file found, (st.setEntry p.name none).setNode found
      { st.nodes found with iNlink := (st.nodes found).iNlink - 1 })

def unlink (p : Path) : Result × State :=
  match search g uid gid .DELETE p.next (st.entries p.name) with
  | (.parent, _) => unlinkFound uid st p ((st.entries p.name).getD 0)
  | (_, e) => (.error e, st)

/-- **A call** of a process of this user and group, on the map from names to files. -/
def call : DirCall → Result × State
  | .lookup p => lookup g uid gid st p
  | .creat p _ mode number _ => creat g uid gid st p mode number
  | .link old new _ => link g uid gid st old new
  | .unlink p _ => unlink g uid gid st p

end

/-- How a search can end. -/
theorem search_cases (g : Guard) (uid gid : ℤ) (mode : DirectorySearchMode) (next : UInt8)
    (found : Option ℤ) :
    (∃ n, found = some n ∧ search g uid gid mode next found = (.next n, .NOERROR)) ∨
    (∃ n, found = some n ∧ mode = .DELETE ∧ search g uid gid mode next found = (.parent, .NOERROR)) ∨
    (found = none ∧ mode = .CREATE ∧ search g uid gid mode next found = (.create, .NOERROR)) ∨
    ∃ e, e ≠ .NOERROR ∧ search g uid gid mode next found = (.failed, e) := by
  unfold search
  split
  · exact .inr (.inr (.inr ⟨_, by decide, rfl⟩))
  · split
    · exact .inr (.inr (.inr ⟨_, by decide, rfl⟩))
    · cases found with
      | some n =>
        dsimp only
        split
        · next hdelete =>
          split
          · exact .inr (.inr (.inr ⟨_, by decide, rfl⟩))
          · exact .inr (.inl ⟨n, rfl, hdelete.1, rfl⟩)
        · exact .inl ⟨n, rfl, rfl⟩
      | none =>
        dsimp only
        split
        · next hcreate =>
          split
          · exact .inr (.inr (.inr ⟨_, by decide, rfl⟩))
          · exact .inr (.inr (.inl ⟨rfl, hcreate.1, rfl⟩))
        · exact .inr (.inr (.inr ⟨_, by decide, rfl⟩))

end DirSpec

/-! ### The calls of either format -/

section Calls

variable {ι : Type} [DecidableEq ι] {d : Files ι} {F : ι → FlatFile} {i : ι} {slots : List Slot}
  {fmt : Format} {R : fmt.Reading} {u : User} {p : Path} {s : Search} {n : ℤ}

/-- **`WriteDir`** behind a search. -/
theorem Searched.writeDir (hs : Searched R d F i slots u p .create s)
    (herr : s.fs.uError = .NOERROR) (hl : Layout (F i) slots) (hn : 0 < n ∧ n < inodeCount)
    {left : SuperBlock → (ℕ → ℤ) → Prop}
    (hroom : ∀ r iFlag, Mappable (d.set (d.fs.ahead r) i { d.inodes i with iFlag := iFlag }) i
      slots.length left) (buffer : ℤ → Block) :
    ∃ t, fmt.writeDir buffer s n = .ok t ∧ t.fs.uError = .NOERROR ∧
      guardOf t.fs t.ino = guardOf d.fs (d.inodes i) ∧
      (place (R.keeps p.dirp) slots = slots.length → left t.fs.sb t.ino.iAddr) ∧
      ∃ F', Holds (d.set t.fs i t.ino) F' ∧
        Layout (F' i) (put slots (place (R.keeps p.dirp) slots) (some (p.name, n))) := by
  obtain ⟨hdbuf, hoff, hplain⟩ := hs.create rfl
  have hcount : inodeCount < 2 ^ 31 := by decide
  obtain ⟨u', mem, hmake, hwrite, hslot⟩ := R.make buffer s.fs s.ino s.u p.name n hdbuf hn.1
    (hn.2.trans hcount)
  have hd := hs.holds
  rw [cleared herr] at hd
  set k := place (R.keeps p.dirp) slots with hk
  have hmap : k ≤ slots.length ∧ Mappable (d.set s.fs i s.ino) i k fun sb iAddr =>
      k = slots.length → left sb iAddr := by
    rcases place_cases (R.keeps p.dirp) slots with ⟨-, hend⟩ | ⟨-, -, hlt⟩
    · obtain ⟨⟨r, hfs⟩, iFlag, hino⟩ := hplain hend
      refine ⟨hend.le, ?_⟩
      rw [hfs, hino, hk, hend]
      exact (hroom r iFlag).mono fun _ _ h _ => h
    · exact ⟨hlt.le, (hl.mappable hd hlt).mono fun _ _ _ hend => absurd hend hlt.ne⟩
  obtain ⟨t, hwriteI, hquiet, hguard, hleft, F', hd', hl'⟩ :=
    write_slot buffer hd hl hmap.1 hslot hmap.2
  rw [Files.inodes_set_self, Files.fs_set] at hwriteI hguard
  rw [Files.set_set] at hd'
  refine ⟨t, ?_, hquiet, hguard.trans hs.guard, hleft, F', hd', hl'⟩
  unfold Format.writeDir
  rw [hmake, Except.ok_bind, hwrite, hoff]
  exact hwriteI

/-- **`UnLink`** behind a search. -/
theorem Searched.clear (hs : Searched R d F i slots u p .parent s)
    (herr : s.fs.uError = .NOERROR) (hl : Layout (F i) slots) (buffer : ℤ → Block) :
    ∃ (k : ℕ) (n : ℤ), slots[k]? = some (some (p.name, n)) ∧ s.u.uDent.mIno = n ∧
      ∃ t, fmt.writeEntry buffer s.fs s.ino (fmt.clearEntry s.u) = .ok t ∧
        t.fs.uError = .NOERROR ∧ guardOf t.fs t.ino = guardOf d.fs (d.inodes i) ∧
        ∃ F', Holds (d.set t.fs i t.ino) F' ∧ Layout (F' i) (put slots k none) := by
  obtain ⟨k, n, hk, hdent, hoff⟩ := hs.parent rfl
  have hlt := (List.getElem?_eq_some_iff.mp hk).1
  have hd := hs.holds
  rw [cleared herr] at hd
  have hsize := hl.size_eq
  have hle := hd.size_le i
  have hsmall : maxFileSize < 2 ^ 31 := by decide
  obtain ⟨mem, hwrite, hslot⟩ := R.clear buffer s.fs s.ino s.u p.name n k hdent hoff (by omega)
  obtain ⟨t, hwriteI, hquiet, hguard, -, F', hd', hl'⟩ :=
    write_slot buffer hd hl hlt.le hslot (hl.mappable hd hlt)
  rw [Files.inodes_set_self, Files.fs_set] at hwriteI hguard
  rw [Files.set_set] at hd'
  refine ⟨k, n, hk, by rw [hdent], t, hwrite.trans hwriteI, hquiet, hguard.trans hs.guard, F', hd',
    hl'⟩

/-- The directory of the device lists the names of the map. -/
structure Models (disk : Disk ι) (i : ι) (g : Guard) (slots : List Slot) (st : DirSpec.State) :
    Prop where
  files : ∃ F, Holds disk.d F ∧ Layout (F i) slots
  guard : guardOf disk.d.fs (disk.d.inodes i) = g
  lists : Lists slots st.entries
  nodes_eq : disk.nodes = st.nodes
  /-- The numbers are those of inodes. -/
  numbers : ∀ name n, st.entries name = some n → 0 < n ∧ n < inodeCount

variable {disk : Disk ι} {g : Guard} {st : DirSpec.State}

/-- The device after a search alone. -/
theorem Models.searched (h : Models disk i g slots st) (hl : Layout (F i) slots) {o : Outcome}
    (hs : Searched R disk.d F i slots u p o s) :
    Models (disk.after i s.fs s.ino) i g slots st := by
  refine ⟨⟨F, hs.holds, hl⟩, ?_, h.lists, h.nodes_eq, h.numbers⟩
  rw [← h.guard, ← hs.guard, Disk.after, Files.inodes_set_self]
  rfl

omit [DecidableEq ι] in
/-- The numbers with one name changed. -/
theorem Models.numbers_update (h : Models disk i g slots st) {name : Name} {number : Option ℤ}
    (hnumber : ∀ n, number = some n → 0 < n ∧ n < inodeCount) (name' : Name) (n : ℤ)
    (hn : Function.update st.entries name number name' = some n) : 0 < n ∧ n < inodeCount := by
  by_cases hname : name' = name
  · rw [hname, Function.update_self] at hn
    exact hnumber n hn
  · rw [Function.update_of_ne hname] at hn
    exact h.numbers name' n hn

/-- The device after the write of a slot. -/
theorem Models.written (h : Models disk i g slots st) {t : Transfer} {slots' : List Slot}
    {m : Entries} (herr : t.fs.uError = .NOERROR)
    (hguard : guardOf t.fs t.ino = guardOf disk.d.fs (disk.d.inodes i))
    (hfiles : ∃ F', Holds (disk.d.set t.fs i t.ino) F' ∧ Layout (F' i) slots')
    (hlists : Lists slots' m) (hnumbers : ∀ name n, m name = some n → 0 < n ∧ n < inodeCount) :
    Models (disk.after i t.fs t.ino) i g slots' { st with entries := m } := by
  refine ⟨?_, ?_, hlists, h.nodes_eq, hnumbers⟩
  · rw [Disk.after, cleared herr]
    exact hfiles
  · rw [← h.guard, ← hguard, Disk.after, Files.inodes_set_self]
    rfl

omit [DecidableEq ι] in
/-- The inode of a file is another one. -/
theorem Models.setNode (h : Models disk i g slots st) (number : ℤ) (node : Node) :
    Models (disk.setNode number node) i g slots (st.setNode number node) :=
  ⟨h.files, h.guard, h.lists, by rw [Disk.setNode, DirSpec.State.setNode, h.nodes_eq], h.numbers⟩

omit [DecidableEq ι] in
theorem openError_eq (s : Search) (node : Node) :
    openError s node =
      DirSpec.openError (guardOf s.fs s.ino) s.u.uUid s.u.uGid node := by
  unfold openError DirSpec.openError
  dsimp only
  rw [UnixV6pp.access_eq]
  rfl

/-- The searches of a call come to an end. -/
def Ends (R : fmt.Reading) (g : Guard) (uid gid : ℤ) (slots : List Slot) (st : DirSpec.State) :
    DirCall → Prop
  | .lookup p | .creat p _ _ _ _ | .unlink p _ => Searchable g uid gid → R.Comes slots p
  | .link old new _ => Searchable g uid gid → R.Comes slots old ∧
      ∀ found, st.entries old.name = some found → linkError uid (st.nodes found) = none →
        R.Comes slots new

/-- What is to be shown of a call: it does what the specification says. -/
def Does (i : ι) (g : Guard) (r : Except Stop (Result × Disk ι)) (spec : Result × DirSpec.State) :
    Prop :=
  ∃ disk', r = .ok (spec.1, disk') ∧ ∃ slots', Models disk' i g slots' spec.2

/-- The search of a call, case by case. -/
theorem Models.nameI (h : Models disk i g slots st) (R : fmt.Reading) (hroom : Roomy disk.d i)
    (u : User) (p : Path) (hcomes : Searchable g u.uUid u.uGid → R.Comes slots p)
    (mode : DirectorySearchMode) : ∃ F o e s, Holds disk.d F ∧ Layout (F i) slots ∧
      DirSpec.search g u.uUid u.uGid mode p.next (st.entries p.name) = (o, e) ∧
      fmt.nameI i mode disk.d u p = .ok (o, s) ∧ s.fs.uError = e ∧
      Searched R disk.d F i slots u p o s ∧
      ((∃ n, st.entries p.name = some n ∧ o = .next n ∧ e = .NOERROR) ∨
        (∃ n, st.entries p.name = some n ∧ mode = .DELETE ∧ o = .parent ∧ e = .NOERROR) ∨
        (st.entries p.name = none ∧ mode = .CREATE ∧ o = .create ∧ e = .NOERROR) ∨
        o = .failed ∧ e ≠ .NOERROR) := by
  obtain ⟨F, hd, hl⟩ := h.files
  obtain ⟨s, hnameI, herr, hs⟩ := R.nameI_spec hd hl hroom h.lists u p h.guard.symm hcomes mode
  have hcase := DirSpec.search_cases g u.uUid u.uGid mode p.next (st.entries p.name)
  rcases hsearch : DirSpec.search g u.uUid u.uGid mode p.next (st.entries p.name) with ⟨o, e⟩
  rw [hsearch] at hnameI herr hs hcase
  refine ⟨F, o, e, s, hd, hl, rfl, hnameI, herr, hs, ?_⟩
  rcases hcase with ⟨n, hfound, ⟨⟩⟩ | ⟨n, hfound, hmode, ⟨⟩⟩ | ⟨hnone, hmode, ⟨⟩⟩ | ⟨e, hne, ⟨⟩⟩
  · exact .inl ⟨n, hfound, rfl, rfl⟩
  · exact .inr (.inl ⟨n, hfound, hmode, rfl, rfl⟩)
  · exact .inr (.inr (.inl ⟨hnone, hmode, rfl, rfl⟩))
  · exact .inr (.inr (.inr ⟨rfl, hne⟩))

theorem lookup_spec (R : fmt.Reading) (h : Models disk i g slots st) (hroom : Roomy disk.d i)
    (u : User) (p : Path) (hcomes : Searchable g u.uUid u.uGid → R.Comes slots p) :
    Does i g (fmt.lookup i u p disk) (DirSpec.lookup g u.uUid u.uGid st p) := by
  obtain ⟨F, o, e, s, -, hl, hsearch, hnameI, herr, hs, hcase⟩ := h.nameI R hroom u p hcomes .OPEN
  have hmodels := h.searched hl hs
  unfold Format.lookup DirSpec.lookup
  rw [hnameI, hsearch, Except.ok_bind]
  rcases hcase with ⟨n, -, rfl, rfl⟩ | ⟨n, -, hmode, -⟩ | ⟨-, hmode, -⟩ | ⟨rfl, -⟩
  · refine ⟨_, ?_, slots, hmodels⟩
    simp only [report, if_pos herr]
    rfl
  · cases hmode
  · cases hmode
  · subst herr
    exact ⟨_, rfl, slots, hmodels⟩

/-- **`creat` makes a file** if the search says so: the name goes to its place. -/
theorem creat_makes (R : fmt.Reading) (h : Models disk i g slots st) (hroom : Roomy disk.d i)
    (buffer : ℤ → Block) (u : User) (p : Path) (mode : UInt32) {number : ℤ}
    (hnumber : 0 < number ∧ number < inodeCount)
    (hcomes : Searchable g u.uUid u.uGid → R.Comes slots p)
    (hcreate : DirSpec.search g u.uUid u.uGid .CREATE p.next (st.entries p.name) =
      (.create, .NOERROR)) {left : SuperBlock → (ℕ → ℤ) → Prop}
    (hspace : ∀ r iFlag, Mappable
      (disk.d.set (disk.d.fs.ahead r) i { disk.d.inodes i with iFlag := iFlag }) i slots.length left) :
    ∃ disk', fmt.creat buffer i u p mode number disk = .ok (.file number, disk') ∧
      Models disk' i g (put slots (place (R.keeps p.dirp) slots) (some (p.name, number)))
        ((st.setEntry p.name (some number)).setNode number
          (makNode u.uUid u.uGid (newACCMode mode &&& ~~~ISVTX))) ∧
      (place (R.keeps p.dirp) slots = slots.length →
        left disk'.d.fs.sb (disk'.d.inodes i).iAddr) := by
  obtain ⟨F, o, e, s, hd, hl, hsearch, hnameI, herr, hs, hcase⟩ := h.nameI R hroom u p hcomes .CREATE
  cases hsearch.symm.trans hcreate
  rcases hcase with ⟨n, -, hnext, -⟩ | ⟨n, -, hmode, -⟩ | ⟨hnone, -⟩ | ⟨hfailed, -⟩
  · cases hnext
  · cases hmode
  · obtain ⟨t, hwrite, hquiet, hguard, hleft, hfiles⟩ := hs.writeDir herr hl hnumber hspace buffer
    have hlists := h.lists.put_some (n := number) hnone (place_free (R.keeps p.dirp) slots)
    have hwritten := h.written hquiet hguard hfiles hlists
      (h.numbers_update fun n hn => by
        cases hn
        exact hnumber)
    refine ⟨_, ?_, hwritten.setNode number _, fun hend => ?_⟩
    · unfold Format.creat
      rw [hnameI, Except.ok_bind]
      dsimp only
      rw [if_neg (not_not.mpr herr), hwrite, Except.ok_bind, hs.user.1, hs.user.2, report,
        if_pos hquiet]
      rfl
    · rw [Disk.setNode, Disk.after, Files.fs_set, Files.inodes_set_self]
      exact hleft hend
  · cases hfailed

theorem creat_spec (R : fmt.Reading) (h : Models disk i g slots st) (hroom : Roomy disk.d i)
    (buffer : ℤ → Block) (u : User) (p : Path) (mode : UInt32) {number : ℤ}
    (hnumber : 0 < number ∧ number < inodeCount)
    (hcomes : Searchable g u.uUid u.uGid → R.Comes slots p) :
    Does i g (fmt.creat buffer i u p mode number disk)
      (DirSpec.creat g u.uUid u.uGid st p mode number) := by
  obtain ⟨F, o, e, s, hd, hl, hsearch, hnameI, herr, hs, hcase⟩ := h.nameI R hroom u p hcomes .CREATE
  have hmodels := h.searched hl hs
  have hopen (node : Node) : openError s node = DirSpec.openError g u.uUid u.uGid node := by
    rw [openError_eq, hs.guard, h.guard, hs.user.1, hs.user.2]
  unfold Format.creat DirSpec.creat
  rw [hnameI, hsearch, Except.ok_bind]
  rcases hcase with ⟨n, -, rfl, rfl⟩ | ⟨n, -, hmode, -⟩ | ⟨hnone, -, rfl, rfl⟩ | ⟨rfl, hne⟩
  · -- the file is there
    dsimp only
    rw [if_neg (not_not.mpr herr), hopen, h.nodes_eq]
    cases DirSpec.openError g u.uUid u.uGid (st.nodes n) with
    | some e => exact ⟨_, rfl, slots, hmodels.setNode n _⟩
    | none => exact ⟨_, rfl, slots, hmodels.setNode n _⟩
  · cases hmode
  · -- the file is made
    obtain ⟨disk', hcreat, hmade, -⟩ := creat_makes R h hroom buffer u p mode hnumber hcomes hsearch
      fun r iFlag => hroom.mappable hl hd r iFlag
    unfold Format.creat at hcreat
    rw [hnameI, Except.ok_bind] at hcreat
    exact ⟨disk', hcreat, _, hmade⟩
  · subst herr
    refine ⟨_, ?_, slots, hmodels⟩
    dsimp only
    rw [if_pos hne]
    rfl

theorem linkTo_spec (R : fmt.Reading) (h : Models disk i g slots st) (hroom : Roomy disk.d i)
    (buffer : ℤ → Block) (u : User) (p : Path) {found : ℤ}
    (hfound : 0 < found ∧ found < inodeCount)
    (hcomes : Searchable g u.uUid u.uGid → R.Comes slots p) :
    Does i g (fmt.linkTo buffer i u p found disk)
      (DirSpec.linkTo g u.uUid u.uGid st p found) := by
  obtain ⟨F, o, e, s, hd, hl, hsearch, hnameI, herr, hs, hcase⟩ := h.nameI R hroom u p hcomes .CREATE
  have hmodels := h.searched hl hs
  unfold Format.linkTo DirSpec.linkTo
  rw [hnameI, hsearch, Except.ok_bind]
  rcases hcase with ⟨n, -, rfl, rfl⟩ | ⟨n, -, hmode, -⟩ | ⟨hnone, -, rfl, rfl⟩ | ⟨rfl, hne⟩
  · refine ⟨_, ?_, slots, hmodels⟩
    dsimp only
    rw [if_pos herr]
    rfl
  · cases hmode
  · obtain ⟨t, hwrite, hquiet, hguard, -, hfiles⟩ := hs.writeDir herr hl hfound
      (fun r iFlag => hroom.mappable hl hd r iFlag) buffer
    have hlists := h.lists.put_some (n := found) hnone (place_free (R.keeps p.dirp) slots)
    have hwritten := h.written hquiet hguard hfiles hlists
      (h.numbers_update fun n hn => by
        cases hn
        exact hfound)
    dsimp only
    rw [if_neg (not_not.mpr herr), hwrite, Except.ok_bind, h.nodes_eq]
    refine ⟨_, ?_, _, hwritten.setNode found _⟩
    simp only [report, if_pos hquiet]
    rfl
  · subst herr
    exact ⟨_, rfl, slots, hmodels⟩

theorem link_spec (R : fmt.Reading) (h : Models disk i g slots st) (hroom : Roomy disk.d i)
    (buffer : ℤ → Block) (u : User) (old new : Path)
    (hold : Searchable g u.uUid u.uGid → R.Comes slots old)
    (hnew : Searchable g u.uUid u.uGid → ∀ found, st.entries old.name = some found →
      linkError u.uUid (st.nodes found) = none → R.Comes slots new) :
    Does i g (fmt.link buffer i u old new disk) (DirSpec.link g u.uUid u.uGid st old new) := by
  obtain ⟨F, o, e, s, -, hl, hsearch, hnameI, herr, hs, hcase⟩ := h.nameI R hroom u old hold .OPEN
  have hmodels := h.searched hl hs
  unfold Format.link DirSpec.link
  rw [hnameI, hsearch, Except.ok_bind]
  rcases hcase with ⟨n, hfound, rfl, rfl⟩ | ⟨n, -, hmode, -⟩ | ⟨-, hmode, -⟩ | ⟨rfl, hne⟩
  · dsimp only
    rw [if_neg (not_not.mpr herr), hs.user.1, h.nodes_eq]
    cases hrefused : linkError u.uUid (st.nodes n) with
    | some e => exact ⟨_, rfl, slots, hmodels⟩
    | none =>
      have hlinked := linkTo_spec R hmodels hs.roomy buffer s.u new (h.numbers _ _ hfound)
        (by
          rw [hs.user.1, hs.user.2]
          exact fun hsearchable => hnew hsearchable n hfound hrefused)
      rw [hs.user.1, hs.user.2] at hlinked
      exact hlinked
  · cases hmode
  · cases hmode
  · subst herr
    refine ⟨_, ?_, slots, hmodels⟩
    dsimp only
    rw [if_pos hne]
    rfl

/-- **`unlink` takes the name away** if the search and the inode of the file allow it: its slot
is free then. -/
theorem unlink_clears (R : fmt.Reading) (h : Models disk i g slots st) (hroom : Roomy disk.d i)
    (buffer : ℤ → Block) (u : User) (p : Path)
    (hcomes : Searchable g u.uUid u.uGid → R.Comes slots p) {n : ℤ}
    (hdelete : DirSpec.search g u.uUid u.uGid .DELETE p.next (st.entries p.name) =
      (.parent, .NOERROR)) (hfound : st.entries p.name = some n)
    (hallowed : unlinkError u.uUid (st.nodes n) = none) :
    ∃ disk' k, slots[k]? = some (some (p.name, n)) ∧
      fmt.unLink buffer i u p disk = .ok (.file n, disk') ∧
      Models disk' i g (put slots k none) ((st.setEntry p.name none).setNode n
        { st.nodes n with iNlink := (st.nodes n).iNlink - 1 }) := by
  obtain ⟨F, o, e, s, hd, hl, hsearch, hnameI, herr, hs, -⟩ := h.nameI R hroom u p hcomes .DELETE
  cases hsearch.symm.trans hdelete
  obtain ⟨k, n', hk, hmIno, t, hwrite, hquiet, hguard, hfiles⟩ := hs.clear herr hl buffer
  have hsome := (h.lists.mem_iff p.name n').mpr ⟨k, hk⟩
  rw [hfound] at hsome
  cases hsome
  have hwritten := h.written hquiet hguard hfiles (h.lists.put_none hk) (h.numbers_update nofun)
  refine ⟨_, k, hk, ?_, hwritten.setNode n _⟩
  unfold Format.unLink
  rw [hnameI, Except.ok_bind]
  dsimp only
  rw [hmIno, hs.user.1, h.nodes_eq, hallowed]
  dsimp only
  rw [hwrite, Except.ok_bind, report, if_pos hquiet]
  rfl

theorem unlink_spec (R : fmt.Reading) (h : Models disk i g slots st) (hroom : Roomy disk.d i)
    (buffer : ℤ → Block) (u : User) (p : Path)
    (hcomes : Searchable g u.uUid u.uGid → R.Comes slots p) :
    Does i g (fmt.unLink buffer i u p disk) (DirSpec.unlink g u.uUid u.uGid st p) := by
  obtain ⟨F, o, e, s, hd, hl, hsearch, hnameI, herr, hs, hcase⟩ := h.nameI R hroom u p hcomes .DELETE
  have hmodels := h.searched hl hs
  unfold Format.unLink DirSpec.unlink
  rw [hnameI, hsearch, Except.ok_bind]
  rcases hcase with ⟨n, -, rfl, rfl⟩ | ⟨n, hfound, -, rfl, rfl⟩ | ⟨-, hmode, -⟩ | ⟨rfl, hne⟩
  · rw [← herr]
    exact ⟨_, rfl, slots, hmodels⟩
  · unfold DirSpec.unlinkFound
    dsimp only
    rw [hfound, Option.getD_some]
    cases hallowed : unlinkError u.uUid (st.nodes n) with
    | none =>
      obtain ⟨disk', k, -, hunlink, hcleared⟩ :=
        unlink_clears R h hroom buffer u p hcomes hsearch hfound hallowed
      unfold Format.unLink at hunlink
      rw [hnameI, Except.ok_bind] at hunlink
      exact ⟨disk', hunlink, _, hcleared⟩
    | some e =>
      obtain ⟨k, n', hk, hmIno, -⟩ := hs.clear herr hl buffer
      have hsome := (h.lists.mem_iff p.name n').mpr ⟨k, hk⟩
      rw [hfound] at hsome
      cases hsome
      rw [hmIno, hs.user.1, h.nodes_eq, hallowed]
      exact ⟨_, rfl, slots, hmodels⟩
  · cases hmode
  · subst herr
    exact ⟨_, rfl, slots, hmodels⟩

/-- **Every call of either format does what the specification says**, if there is space for
another block of the directory and its searches come to an end. -/
theorem Format.Reading.call_spec (R : fmt.Reading) (h : Models disk i g slots st)
    (hroom : Roomy disk.d i) (buffer : ℤ → Block) (u : User) (c : DirCall)
    (hends : Ends R g u.uUid u.uGid slots st c) :
    Does i g (fmt.call buffer i u disk c) (DirSpec.call g u.uUid u.uGid st c) := by
  cases c with
  | lookup p => exact lookup_spec R h hroom u p hends
  | creat p last mode number hnumber =>
    exact creat_spec R h hroom buffer u p mode hnumber hends
  | link old new last =>
    exact link_spec R h hroom buffer u old new (fun hs => (hends hs).1) fun hs => (hends hs).2
  | unlink p last => exact unlink_spec R h hroom buffer u p hends

end Calls

end FileManager
end UnixV6pp
