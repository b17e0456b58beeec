import UnixV6pp.Fs.AllocTable

/-!
# Runs of the processes that hand out inodes

* `Good.look`, `Good.take` — `IAlloc` goes to `IGet` with a number from the list.
* `Good.hand`, `Good.emptied`, `Good.updated` — an inode is handed out, freed, and written back.
* `Good.step` — **every step leaves things as they should be**, if the loop of `IAlloc` does not
  come back to an empty list.
-/

namespace UnixV6pp

open Words FileSystem Inode Flags InCore

namespace InodeAlloc

variable {ι : Type} {sIsize : ℕ} {s s' : Sys ι} {p q : ι} {i j : Slot} {a : Place}
variable {r : ℕ} {ino : Inode} {fs : FsState} {n number : ℤ}

section

variable [DecidableEq ι]

/-! ### `IGet` in `IAlloc` -/

theorem Used.load (h : Used s n) (hfree : Unshared s p i) (hi : s.core.count i = 0)
    (hnew : Status a i r ino s.core.fs) (hnone : s.core.isLoaded number = none)
    (hnumber : ino.iNumber = number)
    (hsound : diskMode s.core.fs n ≠ 0 → Sound a ino (diskMode s.core.fs n)) :
    Used (s.put p a i r ino s.core.fs) n := by
  refine h.put hfree hnew id (fun _ hn => ?_) fun hcount => absurd hi hcount
  rw [hnumber] at hn
  subst hn
  exact hsound (h.outside (isLoaded_none hnone))

/-- `IGet` of an inode that is not in the table. -/
theorem Good.load (h : Good sIsize s) (hslot : (s.place p).slot = none) (ha : a.slot = some i)
    (hproper : a.Proper sIsize) (hsearch : ∀ k, a ≠ .searching k) (hn : IsNumber sIsize number)
    (hnone : s.core.isLoaded number = none) (hfind : s.core.getFreeInode = some i)
    (hsound : ∀ ino mode, mode ≠ 0 → Sound a ino mode) :
    Good sIsize (s.put p a i (s.refs i) (s.core.prepared i number) s.core.fs) := by
  have hcount := getFreeInode_some hfind
  have hrefs := h.table.refs_of_count hcount
  have hfree := h.table.unshared_of_count hslot hcount
  have hnew : Status a i (s.refs i) (s.core.prepared i number) s.core.fs := by
    have hlock : flag ILOCK ILOCK = true := by decide
    refine .own ha hrefs ?_ hlock
    change s.core.count i + 1 = 1
    omega
  refine ⟨h.lists.keep rfl (searching_update hsearch), ?_, fun n hn => ?_⟩
  · exact h.table.put hfree hnew hproper
      (fun _ => ⟨hn, fun j _ hj => isLoaded_none hnone j hj⟩) fun _ _ _ => rfl
  · obtain ⟨hn', hused⟩ := h.used n hn
    exact ⟨hn', hused.load hfree hcount hnew hnone rfl (hsound _ _)⟩

/-- **`IGet` in `IAlloc`** up to its first sleep. -/
theorem Good.look (h : Good sIsize s) (hslot : (s.place p).slot = none)
    (hn : IsNumber sIsize number) : Good sIsize (s.look p number) := by
  unfold Sys.look
  cases hload : s.core.isLoaded number with
  | some i =>
    obtain ⟨-, hcount⟩ := isLoaded_some hload
    dsimp only
    split
    · next hlock =>
      have hlike : Like sIsize s (s.put p (.getting number) i (s.refs i)
          { s.core.mInode i with iFlag := (s.core.mInode i).iFlag ||| IWANT } s.core.fs) := by
        refine Like.touch hslot rfl rfl rfl ?_ rfl fun hdirty => hdirty.or IWANT
        rw [locked_of_and hlock]
        exact flag_or_left (locked_of_and hlock)
      exact h.like hlike (h.table.proper_update hn)
        (h.lists.keep rfl (searching_update nofun)) rfl
    · next hlock =>
      have hopen : s.core.locked i = false := by
        unfold InCore.locked flag
        rw [not_not.mp hlock]
        rfl
      obtain ⟨-, hmode, -⟩ := h.table.held i (h.table.refs_of_unlocked hcount hopen)
      rw [if_neg hmode]
      have hlike : Like sIsize s (s.put p .turning i (s.refs i) (prele
          { s.core.mInode i with
            iCount := (s.core.mInode i).iCount + 1 - 1
            iFlag := (s.core.mInode i).iFlag ||| ILOCK }) s.core.fs) := by
        obtain ⟨iFlag', hprele⟩ := prele_eq { s.core.mInode i with
          iCount := (s.core.mInode i).iCount + 1 - 1
          iFlag := (s.core.mInode i).iFlag ||| ILOCK }
        refine Like.touch hslot rfl ?_ ?_ ?_ ?_ ?_
        · rw [hprele]
          change (s.core.mInode i).iCount + 1 - 1 = (s.core.mInode i).iCount
          omega
        · rw [hprele]
          rfl
        · rw [flag_prele, hopen]
        · rw [hprele]
        · exact fun hdirty => Dirty.prele (hdirty.or ILOCK)
      exact h.like hlike (h.table.proper_update trivial)
        (h.lists.keep rfl (searching_update nofun)) rfl
  | none =>
    dsimp only
    split
    · next hfull =>
      exact h.like (Like.go (a := .overflow) hslot rfl s.sb) (h.table.proper_update trivial)
        (h.lists.keep rfl (searching_update nofun)) rfl
    · next i hfree =>
      exact h.load hslot rfl trivial nofun hn hload hfree fun _ _ => id

end

/-! ### The list -/

theorem Fine.pop {sb : SuperBlock} (h : Fine sIsize sb) (hpos : 0 < sb.sNinode) :
    Fine sIsize { sb with sNinode := sb.sNinode - 1 } where
  sNfree_le := h.sNfree_le
  sNinode_nonneg := Int.sub_nonneg_of_le hpos
  sNinode_le := Int.le_trans (Int.sub_le_self _ Int.one_nonneg) h.sNinode_le
  sRonly_eq := h.sRonly_eq
  numbers k hk := by
    change (k : ℤ) < sb.sNinode - 1 at hk
    exact h.numbers k (by omega)

/-- The top of the list. -/
theorem Fine.reads {sb : SuperBlock} (h : Fine sIsize sb) (hpos : 0 < sb.sNinode)
    (hread : Reads sb number) : number = sb.sInode (sb.sNinode - 1).toNat := by
  have hle := h.sNinode_le
  exact hread _ (if_pos ⟨by omega, by push_cast; omega⟩)

theorem Fine.isNumber {sb : SuperBlock} (h : Fine sIsize sb) (hpos : 0 < sb.sNinode)
    (hread : Reads sb number) : IsNumber sIsize number := by
  rw [h.reads hpos hread]
  exact h.numbers _ (by omega)

/-- A number is put on the list. -/
theorem Fine.push {sb sb' : SuperBlock} (h : Fine sIsize sb) (hroom : sb.sNinode < 100)
    (hn : IsNumber sIsize number) (hnfree : sb'.sNfree = sb.sNfree)
    (hronly : sb'.sRonly = sb.sRonly) (hninode : sb'.sNinode = sb.sNinode + 1)
    (hinode : sb'.sInode = Function.update sb.sInode sb.sNinode.toNat number) :
    Fine sIsize sb' where
  sNfree_le := hnfree ▸ h.sNfree_le
  sNinode_nonneg := by
    have := h.sNinode_nonneg
    omega
  sNinode_le := by omega
  sRonly_eq := hronly.trans h.sRonly_eq
  numbers k hk := by
    have hnonneg := h.sNinode_nonneg
    rw [hinode]
    by_cases hlast : k = sb.sNinode.toNat
    · subst hlast
      rw [Function.update_self]
      exact hn
    · rw [Function.update_of_ne hlast]
      exact h.numbers k (by omega)

/-- A number is on the list. -/
def Cached (sb : SuperBlock) (n : ℤ) : Prop := ∃ k : ℕ, k < sb.sNinode ∧ sb.sInode k = n

theorem Cached.push {sb sb' : SuperBlock} (h : Cached sb n) (hninode : sb'.sNinode = sb.sNinode + 1)
    (hinode : sb'.sInode = Function.update sb.sInode sb.sNinode.toNat number) : Cached sb' n := by
  obtain ⟨k, hk, hn⟩ := h
  refine ⟨k, by omega, ?_⟩
  rw [hinode, Function.update_of_ne (by omega), hn]

theorem cached_of_push {sb sb' : SuperBlock} (hnonneg : 0 ≤ sb.sNinode)
    (hninode : sb'.sNinode = sb.sNinode + 1)
    (hinode : sb'.sInode = Function.update sb.sInode sb.sNinode.toNat number) :
    Cached sb' number := by
  refine ⟨sb.sNinode.toNat, by omega, ?_⟩
  rw [hinode, Function.update_self]

/-- What `IFree` does to the list. -/
theorem ifree_list {fs fs' : FsState} (hfine : Fine sIsize fs.sb) (h : ifree fs number = .ok fs') :
    fs'.blk = fs.blk ∧ (fs'.sb = fs.sb ∨ fs.sb.sIlock = 0 ∧ fs.sb.sNinode < 100 ∧
      fs'.sb.sIlock = 0 ∧ fs'.sb.sNfree = fs.sb.sNfree ∧ fs'.sb.sRonly = fs.sb.sRonly ∧
      fs'.sb.sNinode = fs.sb.sNinode + 1 ∧
      fs'.sb.sInode = Function.update fs.sb.sInode fs.sb.sNinode.toNat number) := by
  unfold ifree at h
  dsimp only at h
  rw [getFS_of_bounds hfine.sNfree_le hfine.sNinode_le] at h
  split at h
  · cases h
    exact ⟨rfl, .inl rfl⟩
  · next hlock =>
    split at h
    · cases h
      exact ⟨rfl, .inl rfl⟩
    · next hroom =>
      obtain ⟨sInode, hwrite, h⟩ := Except.bind_eq_ok.mp h
      cases h
      have hopen : fs.sb.sIlock = 0 := not_not.mp hlock
      exact ⟨rfl, .inr ⟨hopen, by omega, hopen, rfl, rfl, rfl, (writeAt_eq_ok hwrite).2⟩⟩

/-- What is known when some inodes of a sector have been looked at. -/
structure Noted (sIsize : ℕ) (c : InCore) (sector : Block) (numbers : List ℕ)
    (sb sb' : SuperBlock) : Prop where
  fine : Fine sIsize sb'
  sIlock_eq : sb'.sIlock = sb.sIlock
  sNinode_le : sb.sNinode ≤ sb'.sNinode
  kept : ∀ n, Cached sb n → Cached sb' n
  seen : sb'.sNinode < 100 → ∀ m ∈ numbers,
    (getInt sector (16 * (m % 8)) ≠ 0 ∨ c.isLoaded m ≠ none) ∨ Cached sb' m

theorem noted {c : InCore} {sector : Block} {numbers : List ℕ} {sb sb' : SuperBlock}
    (hfine : Fine sIsize sb) (hroom : sb.sNinode < 100)
    (hnumbers : ∀ m ∈ numbers, IsNumber sIsize (m : ℤ))
    (h : c.noteInodes sector numbers sb = .ok sb') : Noted sIsize c sector numbers sb sb' := by
  induction numbers generalizing sb with
  | nil =>
    cases h
    exact ⟨hfine, rfl, Int.le_refl _, fun _ => id, fun _ _ hm => absurd hm List.not_mem_nil⟩
  | cons m numbers ih =>
    have htail : ∀ m' ∈ numbers, IsNumber sIsize (m' : ℤ) :=
      fun m' hm' => hnumbers m' (List.mem_cons_of_mem m hm')
    unfold noteInodes at h
    split at h
    · next hused =>
      have hrest := ih hfine hroom htail h
      refine ⟨hrest.fine, hrest.sIlock_eq, hrest.sNinode_le, hrest.kept, fun hlt m' hm' => ?_⟩
      rcases List.mem_cons.mp hm' with rfl | hm'
      · exact .inl hused
      · exact hrest.seen hlt m' hm'
    · obtain ⟨sInode, hwrite, h⟩ := Except.bind_eq_ok.mp h
      have hinode := (writeAt_eq_ok hwrite).2
      have hm : IsNumber sIsize (m : ℤ) := hnumbers m List.mem_cons_self
      have hpush : Fine sIsize { sb with sInode := sInode, sNinode := sb.sNinode + 1 } :=
        hfine.push hroom hm rfl rfl rfl hinode
      have hcached : Cached { sb with sInode := sInode, sNinode := sb.sNinode + 1 } m :=
        cached_of_push hfine.sNinode_nonneg rfl hinode
      dsimp only at h
      split at h
      · next hfull =>
        cases h
        refine ⟨hpush, rfl, Int.le_of_lt (Int.lt_succ _), fun n hn => hn.push rfl hinode, ?_⟩
        intro hlt
        exact absurd hlt (Int.not_lt.mpr hfull)
      · next hmore =>
        have hrest := ih hpush (Int.not_le.mp hmore) htail h
        refine ⟨hrest.fine, hrest.sIlock_eq, ?_, fun n hn => hrest.kept n (hn.push rfl hinode), ?_⟩
        · exact Int.le_trans (Int.le_of_lt (Int.lt_succ _)) hrest.sNinode_le
        · intro hlt m' hm'
          rcases List.mem_cons.mp hm' with rfl | hm'
          · exact .inr (hrest.kept _ hcached)
          · exact hrest.seen hlt m' hm'

/-! ### The steps -/

theorem Like.setSb (sb : SuperBlock) : Like sIsize s (s.setSb sb) where
  count_eq _ := rfl
  number_eq _ := rfl
  locked_eq _ := rfl
  iMode_eq _ := rfl
  dirty _ := id
  refs_eq := rfl
  place_eq _ _ _ := rfl
  diskMode_eq _ _ := rfl

theorem Good.setPast (h : Good sIsize s) (past : ι → ℤ → Prop) :
    Good sIsize { s with past := past } where
  lists := h.lists.keep rfl fun _ _ => id
  table := h.table.like ⟨fun _ => rfl, fun _ => rfl, fun _ => rfl, fun _ => rfl, fun _ => id, rfl,
    fun _ _ _ => rfl, fun _ _ => rfl⟩ h.table.proper
  used n hn := ⟨(h.used n hn).1, (h.used n hn).2.inside, (h.used n hn).2.outside⟩

/-- `IFree` puts nothing on the list while somebody searches. -/
theorem Lists.ifree {fs' : FsState} (h : Lists sIsize s) (hn : IsNumber sIsize number)
    (hfree : FileSystem.ifree s.core.fs number = .ok fs') (hsb : s'.sb = fs'.sb)
    (hplace : ∀ q k, s'.place q = .searching k → s.place q = .searching k) : Lists sIsize s' := by
  obtain ⟨-, hsame | ⟨hopen, hroom, -, hnfree, hronly, hninode, hinode⟩⟩ := ifree_list h.fine hfree
  · exact h.keep (hsb.trans hsame) hplace
  · refine .of_idle ?_ fun q k hq => (h.searching q k (hplace q k hq)).1 hopen
    rw [hsb]
    exact h.fine.push hroom hn hnfree hronly hninode hinode

/-- Nobody else's inode is taken for that of the process. -/
theorem Used.of_given (h : Table sIsize s) (hp : s.place p = .given i) (hi : s.core.number i = n) :
    Used s n where
  inside q j hq hj := by
    have hown := h.own p i (by rw [hp]; rfl)
    have hother := h.own q j hq
    obtain rfl := h.consistent.distinct j i (by omega) (by omega) (hj.trans hi.symm)
    obtain rfl := h.own_one q p j hq (by rw [hp]; rfl)
    rw [hp]
    trivial
  outside hall := by
    have hown := h.own p i (by rw [hp]; rfl)
    exact absurd hi (hall i (by omega))

/-- An inode is handed out or freed; the others are not. -/
theorem Good.setOut {out : Prop} (hlists : Lists sIsize s) (htable : Table sIsize s)
    (hothers : ∀ n ≠ number, s.out n → IsNumber sIsize n ∧ Used s n)
    (hself : out → IsNumber sIsize number ∧ Used s number) : Good sIsize (s.setOut number out) where
  lists := ⟨hlists.fine, hlists.searching, hlists.searching_one⟩
  table := ⟨htable.consistent, htable.number, htable.own, htable.own_one, htable.held,
    htable.unused, htable.found, htable.getting⟩
  used n hn := by
    change Function.update s.out number out n at hn
    have hold : IsNumber sIsize n ∧ Used s n := by
      by_cases hnn : n = number
      · subst hnn
        rw [Function.update_self] at hn
        exact hself hn
      · rw [Function.update_of_ne hnn] at hn
        exact hothers n hnn hn
    exact ⟨hold.1, hold.2.inside, hold.2.outside⟩

/-- No other entry has the inode of an entry in use. -/
theorem Table.distinct_of_count (h : Table sIsize s) (hcount : s.core.count i ≠ 0) :
    ∀ j ≠ i, s.core.count j ≠ 0 → s.core.number j ≠ s.core.number i :=
  fun j hji hj hij => hji (h.consistent.distinct j i hj hcount hij)

/-- `ITrunc` leaves the number, the references and the lock. -/
theorem itrunc_kept {buffer : ℤ → Block} {fs₀ fs₁ : FsState} {ino ino' : Inode}
    (h : itrunc buffer fs₀ ino = .ok (ino', fs₁)) : ino'.iNumber = ino.iNumber ∧
      ino'.iCount = ino.iCount ∧ (flag ino.iFlag ILOCK = true → flag ino'.iFlag ILOCK = true) := by
  cases hdev : ino.isDevice with
  | true =>
    unfold itrunc at h
    rw [if_pos hdev] at h
    cases h
    exact ⟨rfl, rfl, id⟩
  | false =>
    obtain ⟨-, -, -, hino⟩ := itrunc_fields hdev h
    rw [hino]
    exact ⟨rfl, rfl, flag_or_left⟩

theorem slot_eq_none {place : Place} (hp : s.place p = place) (h : place.slot = none) :
    (s.place p).slot = none := by rw [hp, h]

theorem slot_eq_some {place : Place} (hp : s.place p = place) (h : place.slot = some i) :
    (s.place p).slot = some i := by rw [hp, h]

theorem isNumber_sector {k : ℕ} (hk : k < sIsize) :
    ∀ m ∈ (List.range 8).map (8 * k + ·), IsNumber sIsize (m : ℤ) := by
  intro m hm
  obtain ⟨l, hl, rfl⟩ := List.mem_map.mp hm
  have hl := List.mem_range.mp hl
  refine ⟨Int.natCast_nonneg _, ?_⟩
  push_cast
  omega

/-- A sector has been looked at. -/
theorem Good.noted {k : ℕ} {sb : SuperBlock} (h : Good sIsize s) (hp : s.place p = .searching k)
    (hk : k < sIsize) (hnote : s.core.noteInodes (s.core.fs.blk (inodeZoneStartSector + k))
      ((List.range 8).map (8 * k + ·)) s.sb = .ok sb) :
    Noted sIsize s.core (s.core.fs.blk (inodeZoneStartSector + k))
      ((List.range 8).map (8 * k + ·)) s.sb sb :=
  InodeAlloc.noted h.lists.fine (h.lists.searching p k hp).2 (isNumber_sector hk) hnote

/-- The mode that `IGet` reads. -/
theorem loaded_iMode (s : Sys ι) (i : Slot) :
    (s.loaded i).iMode = 0 ↔ diskMode s.core.fs (s.core.number i) = 0 :=
  iMode_icopy_eq_zero _ _ _

/-- Modes stay as they are where the inode zone does. -/
theorem diskMode_zone {fs fs' : FsState} (hzone : ∀ k < sIsize,
    fs'.blk (inodeZoneStartSector + k) = fs.blk (inodeZoneStartSector + k))
    (hn : IsNumber sIsize n) : diskMode fs' n = diskMode fs n := by
  obtain ⟨hnonneg, hlt⟩ := hn
  have hk := hzone (n.toNat / 8) (by omega)
  have hdiv : n.tdiv 8 = ((n.toNat / 8 : ℕ) : ℤ) := by
    rw [Int.tdiv_eq_ediv_of_nonneg hnonneg]
    omega
  apply diskMode_congr
  unfold sectorOf
  rw [hdiv]
  exact hk

/-- A number is taken from the list. -/
theorem Good.pop (h : Good sIsize s) (hpos : 0 < s.sb.sNinode) :
    Good sIsize (s.setSb { s.sb with sNinode := s.sb.sNinode - 1 }) := by
  refine h.like (.setSb _) h.table.proper ?_ rfl
  exact h.lists.same (h.lists.fine.pop hpos) rfl (Int.sub_le_self _ Int.one_nonneg) fun _ _ => id

section

variable [DecidableEq ι]

theorem Good.setSb_go {sb : SuperBlock} (h : Good sIsize s) (hslot : (s.place p).slot = none)
    (ha : a.slot = none) (hproper : a.Proper sIsize) (hlists : Lists sIsize ((s.setSb sb).go p a)) :
    Good sIsize ((s.setSb sb).go p a) :=
  h.like (Like.go hslot ha sb) (h.table.proper_update hproper) hlists rfl

theorem look_go (s : Sys ι) (p : ι) (a : Place) (n : ℤ) : (s.go p a).look p n = s.look p n := by
  unfold Sys.look Sys.go Sys.put
  simp only [Function.update_idem]

theorem take_go (s : Sys ι) (p : ι) (a : Place) (n : ℤ) : (s.go p a).take p n = s.take p n :=
  look_go (s.setSb { s.sb with sNinode := s.sb.sNinode - 1 }) p a n

theorem Good.take (h : Good sIsize s) (hslot : (s.place p).slot = none) (hpos : 0 < s.sb.sNinode)
    (hread : Reads s.sb number) : Good sIsize (s.take p number) := by
  have hn := h.lists.fine.isNumber hpos hread
  exact (h.pop hpos).look hslot hn

/-- The search ends. -/
theorem Good.unlock {k : ℕ} {sb : SuperBlock} (h : Good sIsize s) (hp : s.place p = .searching k)
    (hfine : Fine sIsize sb) (ha : a.slot = none) (hproper : a.Proper sIsize)
    (hsearch : ∀ l, a ≠ .searching l) : Good sIsize ((s.setSb { sb with sIlock := 0 }).go p a) := by
  refine h.setSb_go (slot_eq_none hp rfl) ha hproper (.of_idle ?_ fun q l hq => ?_)
  · exact ⟨hfine.sNfree_le, hfine.sNinode_nonneg, hfine.sNinode_le, hfine.sRonly_eq, hfine.numbers⟩
  · rcases place_update hq with ⟨-, ha⟩ | ⟨hqp, hold⟩
    · exact hsearch l ha
    · exact hqp (h.lists.searching_one q p l k hold hp)

/-- There is something on the list. -/
theorem Good.unlock_take {sb : SuperBlock} {k : ℕ} (h : Good sIsize s)
    (hp : s.place p = .searching k) (hfine : Fine sIsize sb) (hpos : 0 < sb.sNinode)
    (hread : Reads sb number) : Good sIsize ((s.setSb { sb with sIlock := 0 }).take p number) := by
  have hopen : Good sIsize ((s.setSb { sb with sIlock := 0 }).go p .turning) :=
    h.unlock hp hfine rfl trivial nofun
  rw [← take_go _ p .turning]
  refine hopen.take ?_ hpos hread
  change (Function.update s.place p .turning p).slot = none
  rw [Function.update_self]
  rfl

/-- An entry comes to be held by others than the calls. -/
theorem Good.settle (h : Good sIsize s) (hfree : Unshared s p i) (hcount : s.core.count i ≠ 0)
    (hr : r ≠ 0) (hr' : ino.iCount = r) (hmode : ino.iMode ≠ 0)
    (hnumber : ino.iNumber = s.core.number i) (hsaved : Saved s.core.fs ino) :
    Good sIsize (s.put p .away i r ino s.core.fs) := by
  have hnew : Status .away i r ino s.core.fs := .held rfl hr hr' hmode hsaved
  refine ⟨h.lists.keep rfl (searching_update nofun), ?_, fun n hn => ?_⟩
  · refine h.table.put hfree hnew trivial (fun _ => ?_) fun _ _ _ => rfl
    rw [hnumber]
    exact ⟨h.table.number i hcount,
      fun j hji hj hij => hji (h.table.consistent.distinct j i hj hcount hij)⟩
  · obtain ⟨hn', hused⟩ := h.used n hn
    refine ⟨hn', hused.put hfree hnew id nofun fun _ hi hgone => ?_⟩
    rcases hgone with h0 | hne
    · omega
    · exact absurd (hnumber.trans hi) hne

/-- The last reference is given back. -/
theorem Good.startPut {again : Bool} (h : Good sIsize s) (hfree : Unshared s p i)
    (hcount : s.core.count i ≠ 0) (hone : ino.iCount = 1) (hmode : ino.iMode ≠ 0)
    (hnumber : ino.iNumber = s.core.number i) (hsaved : Saved s.core.fs ino) :
    Good sIsize (s.startPut p i again ino) := by
  have hnew : Status (if ino.iNlink ≤ 0 then .emptying i again else .updating i again) i 0
      { ino with iFlag := ino.iFlag ||| ILOCK } s.core.fs := by
    have hlock : flag (ino.iFlag ||| ILOCK) ILOCK = true := flag_or_right (by decide)
    refine .own ?_ rfl hone hlock
    split <;> rfl
  unfold Sys.startPut
  refine ⟨h.lists.keep rfl (searching_update ?_), ?_, fun n hn => ?_⟩
  · intro k
    split <;> nofun
  · refine h.table.put hfree hnew ?_ (fun _ => ?_) fun _ _ _ => rfl
    · split <;> trivial
    · change IsNumber sIsize ino.iNumber ∧ ∀ j ≠ i, _ → _ ≠ ino.iNumber
      rw [hnumber]
      exact ⟨h.table.number i hcount,
        fun j hji hj hij => hji (h.table.consistent.distinct j i hj hcount hij)⟩
  · obtain ⟨hn', hused⟩ := h.used n hn
    refine ⟨hn', hused.put hfree hnew id (fun _ hi => ?_) fun _ hi hgone => ?_⟩
    · split
      · trivial
      · change ino.iNumber = n at hi
        subst hi
        exact ⟨hmode, hsaved.imp_left fun hdirty => hdirty.or ILOCK⟩
    · rcases hgone with h0 | hne
      · change ino.iCount = 0 at h0
        omega
      · exact absurd (hnumber.trans hi) hne

/-- **`IAlloc` hands an inode out.** -/
theorem Good.hand (h : Good sIsize s) (hp : s.place p = .loading i) :
    Good sIsize ((s.put p (.given i) i (s.refs i) (s.loaded i).clean
      { s.core.fs with sb := s.sb.setFmod }).setOut (s.core.number i) True) := by
  have hslot : (s.place p).slot = some i := by rw [hp]; rfl
  obtain ⟨hrefs, hcount, hlock⟩ := h.table.own p i hslot
  have hne : s.core.count i ≠ 0 := by omega
  have hfree := h.table.unshared_of_own hslot
  have hnew : Status (.given i) i (s.refs i) (s.loaded i).clean
      { s.core.fs with sb := s.sb.setFmod } := .own rfl hrefs hcount hlock
  have hfine := h.lists.fine
  have htable : Table sIsize (s.put p (.given i) i (s.refs i) (s.loaded i).clean
      { s.core.fs with sb := s.sb.setFmod }) :=
    h.table.put hfree hnew trivial
      (fun _ => ⟨h.table.number i hne, h.table.distinct_of_count hne⟩) fun _ _ _ => rfl
  refine .setOut ?_ htable (fun n hni hn => ?_) fun _ => ⟨h.table.number i hne, ?_⟩
  · refine h.lists.same ?_ rfl (Int.le_refl _) (searching_update nofun)
    exact ⟨hfine.sNfree_le, hfine.sNinode_nonneg, hfine.sNinode_le, hfine.sRonly_eq, hfine.numbers⟩
  · obtain ⟨hn', hused⟩ := h.used n hn
    exact ⟨hn', hused.put hfree hnew id (fun _ hi => absurd hi.symm hni)
      fun _ hi _ => absurd hi.symm hni⟩
  · exact Used.of_given (i := i) htable (Function.update_self p _ _) number_set_self

/-- **`IPut` frees an inode.** -/
theorem Good.emptied {again : Bool} {buffer : ℤ → Block} {fs₀ fs₁ : FsState} (h : Good sIsize s)
    (hp : s.place p = .emptying i again)
    (htrunc : itrunc buffer fs₀ (s.core.mInode i) = .ok (ino, fs₁))
    (hifree : FileSystem.ifree s.core.fs ino.iNumber = .ok fs) :
    Good sIsize ((s.put p (.updating i again) i (s.refs i) { ino with iMode := 0 } fs).setOut
      ino.iNumber False) := by
  have hslot : (s.place p).slot = some i := by rw [hp]; rfl
  obtain ⟨hrefs, hcount, hlock⟩ := h.table.own p i hslot
  obtain ⟨hnumber, hcount', hlock'⟩ := itrunc_kept htrunc
  have hne : s.core.count i ≠ 0 := by omega
  have hfree := h.table.unshared_of_own hslot
  have hn : IsNumber sIsize ino.iNumber := by
    rw [hnumber]
    exact h.table.number i hne
  have hnew : Status (.updating i again) i (s.refs i) { ino with iMode := 0 } fs :=
    .own rfl hrefs (hcount'.trans hcount) (hlock' hlock)
  obtain ⟨hblk, -⟩ := ifree_list h.lists.fine hifree
  have hdisk : ∀ n, diskMode fs n = diskMode s.core.fs n := fun n => diskMode_congr (by rw [hblk])
  refine .setOut ?_ ?_ (fun n hni hn => ?_) False.elim
  · exact h.lists.ifree hn hifree rfl (searching_update nofun)
  · refine h.table.put hfree hnew trivial (fun _ => ⟨hn, ?_⟩) fun j _ _ => hdisk _
    change ∀ j ≠ i, _ → _ ≠ ino.iNumber
    rw [hnumber]
    exact h.table.distinct_of_count hne
  · obtain ⟨hn', hused⟩ := h.used n hn
    refine ⟨hn', hused.put hfree hnew ?_ (fun _ hi => absurd hi.symm hni) fun _ hi _ => ?_⟩
    · rw [hdisk]
      exact id
    · exact absurd (hi.symm.trans hnumber.symm) hni

/-- **`IPut` gives the entry up.** -/
theorem Good.updated {again : Bool} {time : ℤ} (h : Good sIsize s)
    (hp : s.place p = .updating i again)
    (hupdate : iupdate s.core.fs (s.core.mInode i) time = .ok fs) (hcount : ino.iCount = 0) :
    Good sIsize (s.put p (if again then .turning else .away) i (s.refs i) ino fs) := by
  have hslot : (s.place p).slot = some i := by rw [hp]; rfl
  obtain ⟨hrefs, hone, -⟩ := h.table.own p i hslot
  have hne : s.core.count i ≠ 0 := by omega
  have hfree := h.table.unshared_of_own hslot
  have hfine := h.lists.fine
  have hi := h.table.number i hne
  obtain ⟨hsb, hothers, hself⟩ :=
    diskMode_iupdate hfine.sNfree_le hfine.sNinode_le hfine.sRonly_eq hi.1 hupdate
  have hnone : (if again then Place.turning else Place.away).slot = none := by
    cases again <;> rfl
  have hnew : Status (if again then .turning else .away) i (s.refs i) ino fs :=
    .unused hnone hrefs hcount
  refine ⟨h.lists.keep hsb (searching_update ?_), ?_, fun n hn => ?_⟩
  · intro k
    cases again <;> nofun
  · refine h.table.put hfree hnew ?_ (fun hc => absurd hcount hc) fun j hji hj => ?_
    · cases again <;> trivial
    · exact hothers _ (h.table.number j hj).1 (h.table.distinct_of_count hne j hji hj)
  · obtain ⟨hn', hused⟩ := h.used n hn
    -- the mode of an inode that is in use gets to the disk
    have hdisk : diskMode s.core.fs n ≠ 0 ∨ s.core.number i = n → diskMode fs n ≠ 0 := by
      by_cases hin : s.core.number i = n
      · intro _
        have hsound := hused.inside p i hslot hin
        rw [hp] at hsound
        subst hin
        exact hself hsound.1 hsound.2
      · intro hor
        rw [hothers n hn'.1 fun hni => hin hni.symm]
        exact hor.resolve_right hin
    refine ⟨hn', hused.put hfree hnew (fun hd => hdisk (.inl hd)) (fun ha => ?_) fun _ hin _ => ?_⟩
    · rw [hnone] at ha
      cases ha
    · exact hdisk (.inr hin)

theorem Good.search (h : Good sIsize s) (hp : s.place p = .waiting) (hlock : s.sb.sIlock = 0)
    (hempty : s.sb.sNinode ≤ 0) :
    Good sIsize ((s.setSb { s.sb with sIlock := s.sb.sIlock + 1 }).go p (.searching 0)) := by
  have hfine := h.lists.fine
  refine h.setSb_go (slot_eq_none hp rfl) rfl trivial (.of_one (p := p) ?_ ?_ ?_ fun q k hq => ?_)
  · exact ⟨hfine.sNfree_le, hfine.sNinode_nonneg, hfine.sNinode_le, hfine.sRonly_eq, hfine.numbers⟩
  · change s.sb.sIlock + 1 ≠ 0
    omega
  · change s.sb.sNinode < 100
    omega
  · rcases place_update hq with ⟨hqp, -⟩ | ⟨-, hold⟩
    · exact hqp
    · exact absurd hlock (h.lists.searching q k hold).1

theorem Good.sector {k : ℕ} {sb : SuperBlock} (h : Good sIsize s) (hp : s.place p = .searching k)
    (hk : k < sIsize) (hnote : s.core.noteInodes (s.core.fs.blk (inodeZoneStartSector + k))
      ((List.range 8).map (8 * k + ·)) s.sb = .ok sb) (hroom : sb.sNinode < 100) :
    Good sIsize ((s.setSb sb).go p (.searching (k + 1))) := by
  have hnoted := h.noted hp hk hnote
  obtain ⟨hlocked, -⟩ := h.lists.searching p k hp
  refine h.setSb_go (slot_eq_none hp rfl) rfl trivial (.of_one (p := p) hnoted.fine ?_ hroom ?_)
  · change sb.sIlock ≠ 0
    rw [hnoted.sIlock_eq]
    exact hlocked
  · intro q l hq
    rcases place_update hq with ⟨hqp, -⟩ | ⟨-, hold⟩
    · exact hqp
    · exact h.lists.searching_one q p l k hold hp

theorem Good.call (h : Good sIsize s) (hp : s.place p = .away) :
    Good sIsize ((s.setSb (getFS s.sb)).go p .waiting) := by
  have hfine := h.lists.fine
  rw [getFS_of_bounds hfine.sNfree_le hfine.sNinode_le]
  exact h.setSb_go (slot_eq_none hp rfl) rfl trivial (h.lists.keep rfl (searching_update nofun))

/-- **One step.** -/
theorem Good.step {e : Event ι} (h : Good sIsize s) (hok : Guarded s e)
    (hstep : Step sIsize s e s') : Good sIsize s' := by
  cases hstep with
  | call hp => exact (h.call hp).setPast _
  | search hp hlock hempty => exact h.search hp hlock hempty
  | first hp _ hcached hread => exact h.take (slot_eq_none hp rfl) hcached hread
  | sector hp hk hnote hroom => exact h.sector hp hk hnote hroom
  | full hp hk hnote hfull hread =>
    exact h.unlock_take hp (h.noted hp hk hnote).fine (by omega) hread
  | last hp _ hcached hread => exact h.unlock_take hp h.lists.fine hcached hread
  | empty hp => exact h.unlock hp h.lists.fine rfl trivial nofun
  | turn hp hread => exact h.take (slot_eq_none hp rfl) (hok _ _ rfl hp) hread
  | get hp => exact h.look (slot_eq_none hp rfl) (h.table.getting _ _ hp)
  | overflow hp =>
    exact h.setSb_go (slot_eq_none hp rfl) rfl trivial (h.lists.keep rfl (searching_update nofun))
  | found hp => exact absurd hp (h.table.found _ _)
  | loadFree hp => exact h.hand hp
  | @loadUsed p i hp hmode =>
    have hslot : (s.place p).slot = some i := slot_eq_some hp rfl
    have hone := (h.table.own p i hslot).2.1
    have hdisk := mt (loaded_iMode s i).mpr hmode
    exact h.startPut (h.table.unshared_of_own hslot) (by omega) hone hmode rfl (.inr hdisk)
  | @fill p i ino hp hmode hdirty hcount hnumber =>
    have hslot : (s.place p).slot = some i := slot_eq_some hp rfl
    obtain ⟨hrefs, hone, -⟩ := h.table.own p i hslot
    refine h.settle (h.table.unshared_of_own hslot) (by omega) (Nat.succ_ne_zero _) ?_ hmode hnumber
      (.inl hdirty)
    rw [hrefs, hcount, hone]
    rfl
  | emptied hp htrunc hfree => exact h.emptied hp htrunc hfree
  | @updated p i again time fs hp hupdate =>
    refine h.updated hp hupdate ?_
    have hone := (h.table.own p i (slot_eq_some hp rfl)).2.1
    obtain ⟨iFlag', hprele⟩ := prele_eq (s.core.mInode i)
    obtain ⟨iFlag'', hprele'⟩ := prele_eq { (s.core.mInode i).prele with
      iFlag := 0
      iNumber := -1
      iCount := (s.core.mInode i).prele.iCount - 1 }
    rw [hprele', hprele]
    change s.core.count i - 1 = 0
    omega
  | @give p i hp hrefs hcount =>
    have hslot := slot_eq_none hp rfl
    obtain ⟨hheld, hmode, hsaved⟩ := h.table.held i hrefs
    obtain ⟨iFlag', hprele⟩ := prele_eq { s.core.mInode i with iCount := s.core.count i - 1 }
    refine h.settle (h.table.unshared_of_refs hslot hrefs) (by omega) (by omega) ?_ ?_ ?_ ?_
    · rw [hprele]
      change s.core.count i - 1 = _
      omega
    · rw [hprele]
      exact hmode
    · rw [hprele]
      rfl
    · refine hsaved.imp (fun hdirty => Dirty.prele hdirty) fun hdisk => ?_
      rw [hprele]
      exact hdisk
  | @giveLast p i hp hrefs hcount =>
    have hslot := slot_eq_none hp rfl
    obtain ⟨-, hmode, hsaved⟩ := h.table.held i hrefs
    exact h.startPut (h.table.unshared_of_refs hslot hrefs) (by omega) hcount hmode rfl hsaved
  | @share p i hp hrefs =>
    have hslot := slot_eq_none hp rfl
    obtain ⟨hheld, hmode, hsaved⟩ := h.table.held i hrefs
    refine h.settle (h.table.unshared_of_refs hslot hrefs) (by omega) (Nat.succ_ne_zero _) ?_ hmode
      rfl ?_
    · change s.core.count i + 1 = _
      push_cast
      omega
    · exact hsaved.imp_left fun hdirty => hdirty.or ILOCK
  | «open» hp hn hnone hfind =>
    exact h.load (slot_eq_none hp rfl) rfl trivial nofun hn hnone hfind fun _ _ => id
  | @opened p i hp hmode =>
    have hslot : (s.place p).slot = some i := slot_eq_some hp rfl
    obtain ⟨hrefs, hone, -⟩ := h.table.own p i hslot
    have hdisk := mt (loaded_iMode s i).mpr hmode
    refine h.settle (h.table.unshared_of_own hslot) (by omega) (Nat.succ_ne_zero _) ?_ hmode rfl
      (.inr hdisk)
    rw [hrefs]
    exact hone
  | @use p i ino hp hrefs hmode hdirty hcount hnumber =>
    have hslot := slot_eq_none hp rfl
    obtain ⟨hheld, -, hsaved⟩ := h.table.held i hrefs
    refine h.settle (h.table.unshared_of_refs hslot hrefs) (by omega) hrefs (by omega) hmode hnumber
      (hsaved.imp hdirty fun hdisk => ?_)
    rw [hnumber]
    exact hdisk
  | @free number fs hn hfree =>
    obtain ⟨hblk, -⟩ := ifree_list h.lists.fine hfree
    have hlike : Like sIsize s { s with core := ⟨fs, s.core.mInode⟩ } :=
      ⟨fun _ => rfl, fun _ => rfl, fun _ => rfl, fun _ => rfl, fun _ => id, rfl, fun _ _ _ => rfl,
        fun _ _ => diskMode_congr (congrFun hblk _)⟩
    have hkept := h.like hlike h.table.proper (h.lists.ifree hn hfree rfl fun _ _ => id) rfl
    exact .setOut hkept.lists hkept.table (fun n _ => hkept.used n) False.elim
  | @elsewhere fs hzone hsb hnfree =>
    have hlike : Like sIsize s { s with core := ⟨fs, s.core.mInode⟩ } :=
      ⟨fun _ => rfl, fun _ => rfl, fun _ => rfl, fun _ => rfl, fun _ => id, rfl, fun _ _ _ => rfl,
        fun _ hn => diskMode_zone hzone hn⟩
    have hfine := h.lists.fine
    refine h.like hlike h.table.proper (h.lists.same ?_ ?_ ?_ fun _ _ => id) rfl
    · change Fine sIsize fs.sb
      refine ⟨hnfree, ?_, ?_, ?_, ?_⟩
      · rw [hsb]
        exact hfine.sNinode_nonneg
      · rw [hsb]
        exact hfine.sNinode_le
      · rw [hsb]
        exact hfine.sRonly_eq
      · rw [hsb]
        exact hfine.numbers
    · change fs.sb.sIlock = _
      rw [hsb]
    · change fs.sb.sNinode ≤ _
      rw [hsb]

end

end InodeAlloc
end UnixV6pp
