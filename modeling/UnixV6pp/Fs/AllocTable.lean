import UnixV6pp.Fs.AllocSteps

/-!
# The table while inodes are handed out

An entry of the table belongs to one process in the middle of a call, or to those that have open
files and directories, or to nobody.  What a step changes is one entry, the place of one process,
and one inode on the disk; the lemmas here say when such a change leaves the rest as it should be.

* `Lists` — the super block.
* `Table` — the entries.
* `Used` — an inode that will not be taken for a free one.
* `Good` — all of it.
* `Table.put`, `Used.put` — **a process goes on with an entry.**
* `Good.like` — nobody does.
-/

namespace UnixV6pp

open Words FileSystem Inode Flags InCore

namespace InodeAlloc

/-! ### Modes on the disk -/

/-- The mode of the inode will be on the disk when it has been given back. -/
def Saved (fs : FsState) (ino : Inode) : Prop := Dirty ino ∨ diskMode fs ino.iNumber ≠ 0

theorem diskMode_congr {fs fs' : FsState} {number : ℤ}
    (h : fs'.blk (sectorOf number) = fs.blk (sectorOf number)) :
    diskMode fs' number = diskMode fs number := by
  unfold diskMode
  rw [h]

/-- Two inodes in one sector are at different places. -/
theorem slotOf_ne {m n : ℤ} (hm : 0 ≤ m) (hn : 0 ≤ n) (hne : m ≠ n) (h : sectorOf m = sectorOf n) :
    slotOf m ≠ slotOf n := by
  unfold sectorOf at h
  unfold slotOf
  have hm' := Int.tmod_add_mul_tdiv m 8
  have hn' := Int.tmod_add_mul_tdiv n 8
  have hm₀ := Int.tmod_nonneg 8 hm
  have hn₀ := Int.tmod_nonneg 8 hn
  omega

/-- What is in the inode cannot be seen in the mode, unless it is 0. -/
theorem iMode_icopy_eq_zero (ino : Inode) (sector : Block) (number : ℤ) :
    (icopy ino sector number).iMode = 0 ↔ getInt sector (16 * slotOf number) = 0 := by
  have hbounds := getInt_bounds sector (16 * slotOf number)
  change UInt32.ofNat (getInt sector (16 * slotOf number + 0) % 2 ^ 32).toNat = 0 ↔ _
  rw [Nat.add_zero]
  generalize getInt sector (16 * slotOf number) = x at hbounds ⊢
  rw [← UInt32.toNat_inj, UInt32.toNat_ofNat']
  change (x % 2 ^ 32).toNat % 2 ^ 32 = 0 ↔ _
  omega

/-- `IUpdate` of an inode changes no other, and does not make an inode free that is in use. -/
theorem diskMode_iupdate {fs fs' : FsState} {ino : Inode} {time : ℤ} (hnfree : fs.sb.sNfree ≤ 100)
    (hninode : fs.sb.sNinode ≤ 100) (hronly : fs.sb.sRonly = 0) (hnumber : 0 ≤ ino.iNumber)
    (h : iupdate fs ino time = .ok fs') :
    fs'.sb = fs.sb ∧ (∀ n, 0 ≤ n → n ≠ ino.iNumber → diskMode fs' n = diskMode fs n) ∧
      (ino.iMode ≠ 0 → Saved fs ino → diskMode fs' ino.iNumber ≠ 0) := by
  have hsb := getFS_of_bounds hnfree hninode
  by_cases hdirty : Dirty ino
  · obtain ⟨fs'', hrun, hblk⟩ := iupdate_of_written time ⟨hdirty, by rw [hsb]; exact hronly⟩ hnumber
    obtain rfl := Except.ok.inj (h.symm.trans hrun)
    refine ⟨?_, fun n hn hne => ?_, fun hmode _ => ?_⟩
    · unfold iupdate at h
      rw [if_neg hdirty] at h
      dsimp only at h
      rw [hsb, if_neg (not_not.mpr hronly)] at h
      split at h
      · cases h
      · cases h
        rfl
    · unfold diskMode
      rw [hblk]
      by_cases hsector : sectorOf n = sectorOf ino.iNumber
      · have hslot := slotOf_ne hn hnumber hne hsector
        rw [hsector, Function.update_self, getInt_setInts_of_outside _ _ _ (by omega)]
      · rw [Function.update_of_ne hsector]
    · have hword := icopy_word ino (fs.blk (sectorOf ino.iNumber)) (slotOf ino.iNumber) time
        (k := 0) (by omega)
      unfold diskMode
      rw [hblk, Function.update_self]
      rw [Nat.add_zero] at hword
      rw [hword]
      change int32 ino.iMode.toNat ≠ 0
      have hlt := ino.iMode.toNat_lt
      have hpos : ino.iMode.toNat ≠ 0 := fun h0 => hmode (UInt32.toNat_inj.mp h0)
      rw [int32_eq]
      omega
  · rw [iupdate_clean (not_not.mp hdirty)] at h
    cases h
    exact ⟨rfl, fun _ _ _ => rfl, fun _ hsaved => hsaved.resolve_left hdirty⟩

/-! ### What holds between two steps -/

variable {ι : Type} {sIsize : ℕ} {s s' : Sys ι} {p q : ι} {i j : Slot} {a : Place}
variable {r : ℕ} {ino : Inode} {fs : FsState} {n number : ℤ}

/-- The super block: the list holds numbers of inodes. -/
structure Fine (sIsize : ℕ) (sb : SuperBlock) : Prop where
  sNfree_le : sb.sNfree ≤ 100
  sNinode_nonneg : 0 ≤ sb.sNinode
  sNinode_le : sb.sNinode ≤ 100
  sRonly_eq : sb.sRonly = 0
  numbers : ∀ k : ℕ, k < sb.sNinode → IsNumber sIsize (sb.sInode k)

/-- Only one process searches at a time, with the list locked and not full. -/
structure Lists (sIsize : ℕ) (s : Sys ι) : Prop where
  fine : Fine sIsize s.sb
  searching : ∀ p k, s.place p = .searching k → s.sb.sIlock ≠ 0 ∧ s.sb.sNinode < 100
  searching_one : ∀ p q k l, s.place p = .searching k → s.place q = .searching l → p = q

/-- The table: an entry belongs to a process in the middle of a call, with the only reference to
it, or to those that have references to it otherwise, or is unused. -/
structure Table (sIsize : ℕ) (s : Sys ι) : Prop where
  consistent : s.core.Consistent
  number : ∀ i, s.core.count i ≠ 0 → IsNumber sIsize (s.core.number i)
  own : ∀ p i, (s.place p).slot = some i →
    s.refs i = 0 ∧ s.core.count i = 1 ∧ s.core.locked i = true
  own_one : ∀ p q i, (s.place p).slot = some i → (s.place q).slot = some i → p = q
  held : ∀ i, s.refs i ≠ 0 → s.core.count i = s.refs i ∧ (s.core.mInode i).iMode ≠ 0 ∧
    Saved s.core.fs (s.core.mInode i)
  unused : ∀ i, s.refs i = 0 → (∀ p, (s.place p).slot ≠ some i) → s.core.count i = 0
  found : ∀ p i, s.place p ≠ .found i
  getting : ∀ p n, s.place p = .getting n → IsNumber sIsize n

/-- The inode in the entry of a process will not be taken for a free one. -/
def Sound (place : Place) (ino : Inode) (mode : ℤ) : Prop :=
  match place with
  | .loading _ | .opening _ => mode ≠ 0
  | .updating _ _ => ino.iMode ≠ 0 ∧ (Dirty ino ∨ mode ≠ 0)
  | _ => True

/-- An inode is in use. -/
structure Used (s : Sys ι) (n : ℤ) : Prop where
  inside : ∀ p i, (s.place p).slot = some i → s.core.number i = n →
    Sound (s.place p) (s.core.mInode i) (diskMode s.core.fs n)
  outside : (∀ i, s.core.count i ≠ 0 → s.core.number i ≠ n) → diskMode s.core.fs n ≠ 0

/-- What holds between two steps. -/
structure Good (sIsize : ℕ) (s : Sys ι) : Prop where
  lists : Lists sIsize s
  table : Table sIsize s
  used : ∀ n, s.out n → IsNumber sIsize n ∧ Used s n

/-! ### A process goes on with an entry -/

/-- The list is locked as before, and nobody has put anything into it. -/
theorem Lists.same (h : Lists sIsize s) (hfine : Fine sIsize s'.sb)
    (hlock : s'.sb.sIlock = s.sb.sIlock) (hle : s'.sb.sNinode ≤ s.sb.sNinode)
    (hplace : ∀ q k, s'.place q = .searching k → s.place q = .searching k) : Lists sIsize s' where
  fine := hfine
  searching q k hq := by
    obtain ⟨hlocked, hroom⟩ := h.searching q k (hplace q k hq)
    rw [hlock]
    exact ⟨hlocked, by omega⟩
  searching_one q q' k l hq hq' := h.searching_one q q' k l (hplace q k hq) (hplace q' l hq')

theorem Lists.keep (h : Lists sIsize s) (hsb : s'.sb = s.sb)
    (hplace : ∀ q k, s'.place q = .searching k → s.place q = .searching k) : Lists sIsize s' := by
  refine h.same ?_ ?_ ?_ hplace
  · rw [hsb]
    exact h.fine
  · rw [hsb]
  · rw [hsb]

/-- Nobody searches. -/
theorem Lists.of_idle (hfine : Fine sIsize s.sb) (hidle : ∀ q k, s.place q ≠ .searching k) :
    Lists sIsize s :=
  ⟨hfine, fun q k hq => absurd hq (hidle q k), fun q _ k _ hq => absurd hq (hidle q k)⟩

/-- Only one process searches. -/
theorem Lists.of_one (hfine : Fine sIsize s.sb) (hlock : s.sb.sIlock ≠ 0)
    (hroom : s.sb.sNinode < 100)
    (hone : ∀ q k, s.place q = .searching k → q = p) : Lists sIsize s :=
  ⟨hfine, fun _ _ _ => ⟨hlock, hroom⟩,
    fun q q' k l hq hq' => (hone q k hq).trans (hone q' l hq').symm⟩

/-- What an entry can be afterwards: it belongs to the process, or to others, or is unused. -/
inductive Status (a : Place) (i : Slot) (r : ℕ) (ino : Inode) (fs : FsState) : Prop
  | own (hslot : a.slot = some i) (hrefs : r = 0) (hcount : ino.iCount = 1)
      (hlock : flag ino.iFlag ILOCK = true)
  | held (hslot : a.slot = none) (hrefs : r ≠ 0) (hcount : ino.iCount = r) (hmode : ino.iMode ≠ 0)
      (hsaved : Saved fs ino)
  | unused (hslot : a.slot = none) (hrefs : r = 0) (hcount : ino.iCount = 0)

theorem Status.slot_eq (h : Status a i r ino fs) (hj : a.slot = some j) : j = i := by
  cases h with
  | own hslot => exact Option.some.inj (hj.symm.trans hslot)
  | held hslot => exact absurd (hslot.symm.trans hj) (Option.some_ne_none j).symm
  | unused hslot => exact absurd (hslot.symm.trans hj) (Option.some_ne_none j).symm

/-- A place that is neither in front of an inode that was found, nor of one that does not exist. -/
def Place.Proper (sIsize : ℕ) : Place → Prop
  | .found _ => False
  | .getting n => IsNumber sIsize n
  | _ => True

theorem Table.proper (h : Table sIsize s) (p : ι) : (s.place p).Proper sIsize := by
  cases hp : s.place p with
  | found i => exact h.found p i hp
  | getting n => exact h.getting p n hp
  | _ => trivial

/-- Nobody has got or lost an entry, or changed one so that it matters. -/
structure Like (sIsize : ℕ) (s s' : Sys ι) : Prop where
  count_eq : ∀ i, s'.core.count i = s.core.count i
  number_eq : ∀ i, s'.core.number i = s.core.number i
  locked_eq : ∀ i, s'.core.locked i = s.core.locked i
  iMode_eq : ∀ i, (s'.core.mInode i).iMode = (s.core.mInode i).iMode
  dirty : ∀ i, Dirty (s.core.mInode i) → Dirty (s'.core.mInode i)
  refs_eq : s'.refs = s.refs
  place_eq : ∀ p i, (s.place p).slot = some i ∨ (s'.place p).slot = some i → s'.place p = s.place p
  diskMode_eq : ∀ n, IsNumber sIsize n → diskMode s'.core.fs n = diskMode s.core.fs n

theorem Like.slot (h : Like sIsize s s') (hp : (s'.place p).slot = some i) :
    (s.place p).slot = some i := by
  rw [← h.place_eq p i (.inr hp)]
  exact hp

theorem Like.saved (h : Like sIsize s s') (hi : IsNumber sIsize (s.core.number i))
    (hsaved : Saved s.core.fs (s.core.mInode i)) : Saved s'.core.fs (s'.core.mInode i) := by
  rcases hsaved with hdirty | hdisk
  · exact .inl (h.dirty i hdirty)
  · right
    change diskMode s'.core.fs (s'.core.number i) ≠ 0
    rw [h.number_eq i, h.diskMode_eq _ hi]
    exact hdisk

theorem Table.like (h : Table sIsize s) (hlike : Like sIsize s s')
    (hproper : ∀ p, (s'.place p).Proper sIsize) : Table sIsize s' where
  consistent := by
    refine ⟨fun i => ?_, fun i j hi hj hij => ?_⟩
    · rw [hlike.count_eq]
      exact h.consistent.count_nonneg i
    · rw [hlike.count_eq] at hi hj
      rw [hlike.number_eq, hlike.number_eq] at hij
      exact h.consistent.distinct i j hi hj hij
  number i hi := by
    rw [hlike.count_eq] at hi
    rw [hlike.number_eq]
    exact h.number i hi
  own p i hp := by
    rw [hlike.refs_eq, hlike.count_eq, hlike.locked_eq]
    exact h.own p i (hlike.slot hp)
  own_one p q i hp hq := h.own_one p q i (hlike.slot hp) (hlike.slot hq)
  held i hi := by
    rw [hlike.refs_eq] at hi ⊢
    obtain ⟨hcount, hmode, hsaved⟩ := h.held i hi
    rw [hlike.count_eq, hlike.iMode_eq]
    exact ⟨hcount, hmode, hlike.saved (h.number i (by omega)) hsaved⟩
  unused i hi hall := by
    rw [hlike.refs_eq] at hi
    rw [hlike.count_eq]
    refine h.unused i hi fun p hp => hall p ?_
    rw [hlike.place_eq p i (.inl hp)]
    exact hp
  found p i hp := by
    have := hproper p
    rw [hp] at this
    exact this
  getting p n hp := by
    have := hproper p
    rw [hp] at this
    exact this

theorem Used.like (h : Used s n) (hn : IsNumber sIsize n) (hlike : Like sIsize s s') :
    Used s' n where
  inside p i hp hi := by
    have hplace := hlike.place_eq p i (.inr hp)
    rw [hlike.number_eq] at hi
    have hsound := h.inside p i (hlike.slot hp) hi
    rw [hplace, hlike.diskMode_eq n hn]
    cases hq : s.place p with
    | updating j again =>
      rw [hq] at hsound
      obtain ⟨hmode, hsaved⟩ := hsound
      refine ⟨?_, hsaved.imp_left (hlike.dirty i)⟩
      rw [hlike.iMode_eq]
      exact hmode
    | _ =>
      rw [hq] at hsound
      exact hsound
  outside hall := by
    rw [hlike.diskMode_eq n hn]
    refine h.outside fun i hi => ?_
    have := hall i
    rw [hlike.count_eq, hlike.number_eq] at this
    exact this hi

/-- The entry `i` may be changed by `p`: it belongs to no other process. -/
structure Unshared (s : Sys ι) (p : ι) (i : Slot) : Prop where
  others : ∀ q ≠ p, (s.place q).slot ≠ some i
  mine : ∀ j, (s.place p).slot = some j → j = i

theorem Good.like (h : Good sIsize s) (hlike : Like sIsize s s')
    (hproper : ∀ q, (s'.place q).Proper sIsize) (hlists : Lists sIsize s') (hout : s'.out = s.out) :
    Good sIsize s' where
  lists := hlists
  table := h.table.like hlike hproper
  used n hn := by
    rw [hout] at hn
    obtain ⟨hnumber, hused⟩ := h.used n hn
    exact ⟨hnumber, hused.like hnumber hlike⟩

/-- An entry without references is nobody's. -/
theorem Table.refs_of_count (h : Table sIsize s) (hi : s.core.count i = 0) : s.refs i = 0 := by
  by_contra hrefs
  have := (h.held i hrefs).1
  omega

theorem Table.unshared_of_count (h : Table sIsize s) (hslot : (s.place p).slot = none)
    (hi : s.core.count i = 0) : Unshared s p i where
  others q _ hq := by
    have := (h.own q i hq).2.1
    omega
  mine j hj := by
    rw [hslot] at hj
    cases hj

/-- An entry with other references belongs to no call. -/
theorem Table.unshared_of_refs (h : Table sIsize s) (hslot : (s.place p).slot = none)
    (hi : s.refs i ≠ 0) : Unshared s p i where
  others q _ hq := hi (h.own q i hq).1
  mine j hj := by
    rw [hslot] at hj
    cases hj

/-- A process that has an entry. -/
theorem Table.unshared_of_own (h : Table sIsize s) (hslot : (s.place p).slot = some i) :
    Unshared s p i where
  others q hqp hq := hqp (h.own_one q p i hq hslot)
  mine _ hj := Option.some.inj (hj.symm.trans hslot)

/-- Whoever finds an inode in the table, not locked, finds one in use. -/
theorem Table.refs_of_unlocked (h : Table sIsize s) (hcount : s.core.count i ≠ 0)
    (hlock : s.core.locked i = false) : s.refs i ≠ 0 := fun hrefs =>
  hcount (h.unused i hrefs fun q hq => by
    rw [(h.own q i hq).2.2] at hlock
    cases hlock)

/-! ### Flags -/

theorem dirty_iff (ino : Inode) : Dirty ino ↔ flag ino.iFlag (IUPD ||| IACC) = true :=
  (bne_iff_ne (a := ino.iFlag &&& (IUPD ||| IACC))).symm

theorem Dirty.prele {ino : Inode} (h : Dirty ino) : Dirty ino.prele := by
  rw [dirty_iff] at h ⊢
  have hclear : flag (ino.iFlag &&& ~~~ILOCK) (IUPD ||| IACC) = true := by
    rw [flag_and_of_eq (by decide)]
    exact h
  unfold Inode.prele
  dsimp only
  split
  · exact (flag_and_of_eq (by decide)).trans hclear
  · exact hclear

theorem Dirty.or {ino : Inode} (h : Dirty ino) (m : UInt32) :
    Dirty { ino with iFlag := ino.iFlag ||| m } := by
  rw [dirty_iff] at h ⊢
  exact flag_or_left h

theorem locked_of_and {c : InCore} (h : (c.mInode i).iFlag &&& ILOCK ≠ 0) : c.locked i = true := by
  unfold InCore.locked
  exact bne_iff_ne.mpr h

theorem place_note (s : Sys ι) : s.note.place = s.place := rfl

section

variable [DecidableEq ι]

theorem place_put_self (s : Sys ι) (p : ι) (a : Place) (i : Slot) (r : ℕ) (ino : Inode)
    (fs : FsState) : (s.put p a i r ino fs).place p = a := by
  change Function.update s.place p a p = a
  rw [Function.update_self]

theorem place_update {place : ι → Place} {b : Place} (hq : Function.update place p a q = b) :
    q = p ∧ a = b ∨ q ≠ p ∧ place q = b := by
  by_cases h : q = p
  · subst h
    rw [Function.update_self] at hq
    exact .inl ⟨rfl, hq⟩
  · rw [Function.update_of_ne h] at hq
    exact .inr ⟨h, hq⟩

theorem slot_update {place : ι → Place} (hq : (Function.update place p a q).slot = some j) :
    q = p ∧ a.slot = some j ∨ q ≠ p ∧ (place q).slot = some j := by
  rcases place_update (b := Function.update place p a q) rfl with ⟨h, ha⟩ | ⟨h, ha⟩
  · exact .inl ⟨h, by rw [ha]; exact hq⟩
  · exact .inr ⟨h, by rw [ha]; exact hq⟩

theorem Table.put (h : Table sIsize s) (hfree : Unshared s p i) (hnew : Status a i r ino fs)
    (hproper : a.Proper sIsize)
    (hnumber : ino.iCount ≠ 0 → IsNumber sIsize ino.iNumber ∧
      ∀ j ≠ i, s.core.count j ≠ 0 → s.core.number j ≠ ino.iNumber)
    (hdisk : ∀ j ≠ i, s.core.count j ≠ 0 →
      diskMode fs (s.core.number j) = diskMode s.core.fs (s.core.number j)) :
    Table sIsize (s.put p a i r ino fs) where
  consistent := by
    refine h.consistent.set ?_ fun hc => (hnumber hc).2
    cases hnew with
    | own _ _ hcount => omega
    | held _ _ hcount => omega
    | unused _ _ hcount => omega
  number j hj := by
    change (s.core.set i ino fs).count j ≠ 0 at hj
    change IsNumber sIsize ((s.core.set i ino fs).number j)
    by_cases hji : j = i
    · subst hji
      rw [count_set_self] at hj
      rw [number_set_self]
      exact (hnumber hj).1
    · rw [count_set_of_ne hji] at hj
      rw [number_set_of_ne hji]
      exact h.number j hj
  own q j hq := by
    change Function.update s.refs i r j = 0 ∧ (s.core.set i ino fs).count j = 1 ∧
      (s.core.set i ino fs).locked j = true
    rcases slot_update hq with ⟨-, hj⟩ | ⟨hqp, hj⟩
    · obtain rfl := hnew.slot_eq hj
      rw [Function.update_self, count_set_self, locked_set_self]
      cases hnew with
      | own _ hrefs hcount hlock => exact ⟨hrefs, hcount, hlock⟩
      | held hslot => exact absurd (hslot.symm.trans hj) (Option.some_ne_none j).symm
      | unused hslot => exact absurd (hslot.symm.trans hj) (Option.some_ne_none j).symm
    · have hji : j ≠ i := fun hji => hfree.others q hqp (hji ▸ hj)
      rw [Function.update_of_ne hji, count_set_of_ne hji, locked_set_of_ne hji]
      exact h.own q j hj
  own_one q q' j hq hq' := by
    rcases slot_update hq with ⟨rfl, hj⟩ | ⟨hqp, hj⟩
    · rcases slot_update hq' with ⟨rfl, -⟩ | ⟨hqp', hj'⟩
      · rfl
      · exact absurd (hnew.slot_eq hj ▸ hj') (hfree.others q' hqp')
    · rcases slot_update hq' with ⟨rfl, hj'⟩ | ⟨hqp', hj'⟩
      · exact absurd (hnew.slot_eq hj' ▸ hj) (hfree.others q hqp)
      · exact h.own_one q q' j hj hj'
  held j hj := by
    change Function.update s.refs i r j ≠ 0 at hj
    change (s.core.set i ino fs).count j = (Function.update s.refs i r j : ℕ) ∧
      ((s.core.set i ino fs).mInode j).iMode ≠ 0 ∧ Saved fs ((s.core.set i ino fs).mInode j)
    by_cases hji : j = i
    · subst hji
      rw [Function.update_self] at hj
      rw [Function.update_self, count_set_self, mInode_set_self]
      cases hnew with
      | own _ hrefs => exact absurd hrefs hj
      | held _ _ hcount hmode hsaved => exact ⟨hcount, hmode, hsaved⟩
      | unused _ hrefs => exact absurd hrefs hj
    · rw [Function.update_of_ne hji] at hj
      rw [Function.update_of_ne hji, count_set_of_ne hji, mInode_set_of_ne hji]
      obtain ⟨hcount, hmode, hsaved⟩ := h.held j hj
      have hne : s.core.count j ≠ 0 := by omega
      exact ⟨hcount, hmode, hsaved.imp_right fun hd h0 => hd ((hdisk j hji hne).symm.trans h0)⟩
  unused j hj hall := by
    change Function.update s.refs i r j = 0 at hj
    change (s.core.set i ino fs).count j = 0
    have hp : a.slot ≠ some j := by
      have := hall p
      change (Function.update s.place p a p).slot ≠ some j at this
      rwa [Function.update_self] at this
    by_cases hji : j = i
    · subst hji
      rw [Function.update_self] at hj
      rw [count_set_self]
      cases hnew with
      | own hslot => exact absurd hslot hp
      | held _ hrefs => exact absurd hj hrefs
      | unused _ _ hcount => exact hcount
    · rw [Function.update_of_ne hji] at hj
      rw [count_set_of_ne hji]
      refine h.unused j hj fun q hq => ?_
      by_cases hqp : q = p
      · subst hqp
        exact hji (hfree.mine j hq)
      · have := hall q
        change (Function.update s.place p a q).slot ≠ some j at this
        rw [Function.update_of_ne hqp] at this
        exact this hq
  found q j hq := by
    rcases place_update hq with ⟨-, ha⟩ | ⟨-, hold⟩
    · rw [ha] at hproper
      exact hproper
    · exact h.found q j hold
  getting q n hq := by
    rcases place_update hq with ⟨-, ha⟩ | ⟨-, hold⟩
    · rw [ha] at hproper
      exact hproper
    · exact h.getting q n hold

theorem Used.put (h : Used s n) (hfree : Unshared s p i) (hnew : Status a i r ino fs)
    (hdisk : diskMode s.core.fs n ≠ 0 → diskMode fs n ≠ 0)
    (hsound : a.slot = some i → ino.iNumber = n → Sound a ino (diskMode fs n))
    (hgone : s.core.count i ≠ 0 → s.core.number i = n → ino.iCount = 0 ∨ ino.iNumber ≠ n →
      diskMode fs n ≠ 0) : Used (s.put p a i r ino fs) n where
  inside q j hq hj := by
    change Sound (Function.update s.place p a q) ((s.core.set i ino fs).mInode j) (diskMode fs n)
    change (s.core.set i ino fs).number j = n at hj
    rcases slot_update hq with ⟨rfl, haj⟩ | ⟨hqp, hqj⟩
    · obtain rfl := hnew.slot_eq haj
      rw [number_set_self] at hj
      rw [Function.update_self, mInode_set_self]
      exact hsound haj hj
    · have hji : j ≠ i := fun hji => hfree.others q hqp (hji ▸ hqj)
      rw [number_set_of_ne hji] at hj
      rw [Function.update_of_ne hqp, mInode_set_of_ne hji]
      have hold := h.inside q j hqj hj
      cases hplace : s.place q with
      | loading _ =>
        rw [hplace] at hold
        exact hdisk hold
      | opening _ =>
        rw [hplace] at hold
        exact hdisk hold
      | updating _ _ =>
        rw [hplace] at hold
        exact ⟨hold.1, hold.2.imp_right hdisk⟩
      | _ => trivial
  outside hall := by
    change diskMode fs n ≠ 0
    have hothers : ∀ j ≠ i, s.core.count j ≠ 0 → s.core.number j ≠ n := by
      intro j hji hj
      have := hall j
      change (s.core.set i ino fs).count j ≠ 0 → (s.core.set i ino fs).number j ≠ n at this
      rw [count_set_of_ne hji, number_set_of_ne hji] at this
      exact this hj
    have hself : ino.iCount = 0 ∨ ino.iNumber ≠ n := by
      have := hall i
      change (s.core.set i ino fs).count i ≠ 0 → (s.core.set i ino fs).number i ≠ n at this
      rw [count_set_self, number_set_self] at this
      by_cases hcount : ino.iCount = 0
      · exact .inl hcount
      · exact .inr (this hcount)
    by_cases hi : s.core.count i ≠ 0 ∧ s.core.number i = n
    · exact hgone hi.1 hi.2 hself
    · refine hdisk (h.outside fun j hj hjn => ?_)
      by_cases hji : j = i
      · subst hji
        exact hi ⟨hj, hjn⟩
      · exact hothers j hji hj hjn

/-! ### Steps that change no entry -/

theorem Like.go (hslot : (s.place p).slot = none) (ha : a.slot = none) (sb : SuperBlock) :
    Like sIsize s ((s.setSb sb).go p a) where
  count_eq _ := rfl
  number_eq _ := rfl
  locked_eq _ := rfl
  iMode_eq _ := rfl
  dirty _ := id
  refs_eq := rfl
  place_eq q i hq := by
    change Function.update s.place p a q = s.place q
    by_cases hqp : q = p
    · subst hqp
      change _ ∨ (Function.update s.place q a q).slot = some i at hq
      rw [Function.update_self, hslot, ha] at hq
      rcases hq with h | h <;> cases h
    · exact Function.update_of_ne hqp _ _
  diskMode_eq _ _ := rfl

theorem Like.touch (hslot : (s.place p).slot = none) (ha : a.slot = none)
    (hcount : ino.iCount = s.core.count i) (hnumber : ino.iNumber = s.core.number i)
    (hlock : flag ino.iFlag ILOCK = s.core.locked i)
    (hmode : ino.iMode = (s.core.mInode i).iMode) (hdirty : Dirty (s.core.mInode i) → Dirty ino) :
    Like sIsize s (s.put p a i (s.refs i) ino s.core.fs) where
  count_eq j := by
    change (s.core.set i ino s.core.fs).count j = _
    by_cases hji : j = i
    · subst hji
      rw [count_set_self, hcount]
    · exact count_set_of_ne hji
  number_eq j := by
    change (s.core.set i ino s.core.fs).number j = _
    by_cases hji : j = i
    · subst hji
      rw [number_set_self, hnumber]
    · exact number_set_of_ne hji
  locked_eq j := by
    change (s.core.set i ino s.core.fs).locked j = _
    by_cases hji : j = i
    · subst hji
      rw [locked_set_self, hlock]
    · exact locked_set_of_ne hji
  iMode_eq j := by
    change ((s.core.set i ino s.core.fs).mInode j).iMode = _
    by_cases hji : j = i
    · subst hji
      rw [mInode_set_self, hmode]
    · rw [mInode_set_of_ne hji]
  dirty j hj := by
    change Dirty ((s.core.set i ino s.core.fs).mInode j)
    by_cases hji : j = i
    · subst hji
      rw [mInode_set_self]
      exact hdirty hj
    · rw [mInode_set_of_ne hji]
      exact hj
  refs_eq := Function.update_eq_self i s.refs
  place_eq := by
    have hgo : Like sIsize s ((s.setSb s.sb).go p a) := Like.go hslot ha s.sb
    exact hgo.place_eq
  diskMode_eq _ _ := rfl

theorem Table.proper_update (h : Table sIsize s) (ha : a.Proper sIsize) (q : ι) :
    (Function.update s.place p a q).Proper sIsize := by
  rcases place_update (b := Function.update s.place p a q) rfl with ⟨-, hq⟩ | ⟨-, hq⟩
  · rw [← hq]
    exact ha
  · rw [← hq]
    exact h.proper q

theorem searching_update (ha : ∀ k, a ≠ .searching k) (q : ι) (k : ℕ)
    (hq : Function.update s.place p a q = .searching k) : s.place q = .searching k := by
  rcases place_update hq with ⟨-, h⟩ | ⟨-, h⟩
  · exact absurd h (ha k)
  · exact h

end

end InodeAlloc
end UnixV6pp
