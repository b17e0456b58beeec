import UnixV6pp.Fs.AllocRun

/-!
# What `IAlloc` promises

A call of `IAlloc` that fails has seen every inode in use, or no entry for it, at some time since
it began; one that succeeds returns an inode that was free and is in no other hands.

* `Watched` — what has been seen by those who search.
* `alloc_run` — **as long as the loop of `IAlloc` does not come back to an empty list, no step of
  `IAlloc` does anything wrong**, in any run.
* `exists_wrong` — otherwise it can.
-/

namespace UnixV6pp

open Words FileSystem Inode Flags InCore

namespace InodeAlloc

variable {ι : Type} {sIsize : ℕ} {s s' s₀ : Sys ι} {p q : ι} {i j : Slot} {a : Place}
variable {n number : ℤ} {sb : SuperBlock}

/-! ### What has been seen -/

/-- What a search has passed was not free, or is on the list. -/
structure Watched (sIsize : ℕ) (s : Sys ι) : Prop where
  searching : ∀ p k, s.place p = .searching k → ∀ n, IsNumber sIsize n → n < 8 * k →
    s.past p n ∨ Cached s.sb n
  overflow : ∀ p, s.place p = .overflow → ∀ n, s.past p n

/-- Now an inode can be seen not to be free, or that there is no entry for it. -/
def Seen (s : Sys ι) (n : ℤ) : Prop := ¬s.Free n ∨ s.core.getFreeInode = none

/-- A step that neither reads a sector nor begins a call. -/
theorem Watched.keep (h : Watched sIsize s) (hpast : s'.past = s.past)
    (hcached : ∀ n, Cached s.sb n → Cached s'.sb n ∨ Seen s' n)
    (hsearch : ∀ q k, s'.place q = .searching k → s.place q = .searching k)
    (hover : ∀ q, s'.place q = .overflow → s.place q = .overflow ∨ s'.core.getFreeInode = none) :
    Watched sIsize s'.note where
  searching q k hq n hn hlt := by
    change (s'.past q n ∨ Seen s' n) ∨ Cached s'.sb n
    rw [hpast]
    rcases h.searching q k (hsearch q k hq) n hn hlt with hold | hold
    · exact .inl (.inl hold)
    · rcases hcached n hold with hnew | hseen
      · exact .inr hnew
      · exact .inl (.inr hseen)
  overflow q hq n := by
    change s'.past q n ∨ Seen s' n
    rw [hpast]
    rcases hover q hq with hold | hfull
    · exact .inl (h.overflow q hold n)
    · exact .inr (.inr hfull)

/-! ### Before the first call -/

/-- Before the first call: the super block is in range, what it lists are inodes, and an entry of
the table is used only by those who have references to it, with an inode that is in use. -/
structure Start (sIsize : ℕ) (s : Sys ι) : Prop where
  fine : Fine sIsize s.sb
  away : ∀ p, s.place p = .away
  consistent : s.core.Consistent
  count_eq : ∀ i, s.core.count i = s.refs i
  used : ∀ i, s.refs i ≠ 0 → IsNumber sIsize (s.core.number i) ∧ (s.core.mInode i).iMode ≠ 0 ∧
    Saved s.core.fs (s.core.mInode i)
  out : ∀ n, ¬s.out n

theorem Start.good (h : Start sIsize s) : Good sIsize s where
  lists := .of_idle h.fine fun q k hq => by
    rw [h.away] at hq
    cases hq
  table := by
    have hnone : ∀ p, (s.place p).slot = none := fun p => slot_eq_none (h.away p) rfl
    have hown : ∀ p i, (s.place p).slot ≠ some i := fun p i hp => by
      rw [hnone] at hp
      cases hp
    refine ⟨h.consistent, fun i hi => (h.used i ?_).1, fun p i hp => absurd hp (hown p i),
      fun p _ i hp => absurd hp (hown p i), fun i hi => ⟨h.count_eq i, (h.used i hi).2⟩,
      fun i hi _ => ?_, fun p i hp => ?_, fun p n hp => ?_⟩
    · have := h.count_eq i
      omega
    · rw [h.count_eq, hi]
      rfl
    · rw [h.away] at hp
      cases hp
    · rw [h.away] at hp
      cases hp
  used n hn := absurd hn (h.out n)

theorem Start.watched (h : Start sIsize s) : Watched sIsize s where
  searching p k hp := by
    rw [h.away] at hp
    cases hp
  overflow p hp := by
    rw [h.away] at hp
    cases hp

/-! ### What a step keeps -/

section

variable [DecidableEq ι]

theorem seen_put {r : ℕ} {ino : Inode} {fs : FsState} (hn : ino.iNumber = n)
    (hcount : ino.iCount ≠ 0) : Seen (s.put p a i r ino fs) n := by
  left
  intro hfree
  refine isLoaded_none hfree.2 i ?_ (number_set_self.trans hn)
  exact fun h0 => hcount (count_set_self.symm.trans h0)

/-- After `IGet` has looked for an inode, it is in the table, or there is no entry for it. -/
theorem seen_look (h : Good sIsize s) : Seen (s.look p n) n := by
  unfold Sys.look
  cases hload : s.core.isLoaded n with
  | some i =>
    obtain ⟨hn, hcount⟩ := isLoaded_some hload
    have hnonneg := h.table.consistent.count_nonneg i
    dsimp only
    split
    · exact seen_put hn hcount
    · split
      · refine seen_put hn ?_
        change s.core.count i + 1 ≠ 0
        omega
      · obtain ⟨iFlag', hprele⟩ := prele_eq { s.core.mInode i with
          iCount := (s.core.mInode i).iCount + 1 - 1
          iFlag := (s.core.mInode i).iFlag ||| ILOCK }
        rw [hprele]
        refine seen_put hn ?_
        change s.core.count i + 1 - 1 ≠ 0
        omega
  | none =>
    dsimp only
    split
    · next hfull => exact .inr hfull
    · next i hfree =>
      have hzero := getFreeInode_some hfree
      refine seen_put rfl ?_
      change s.core.count i + 1 ≠ 0
      omega

theorem look_fields (s : Sys ι) (p : ι) (n : ℤ) : (s.look p n).past = s.past ∧
    (s.look p n).sb = s.sb ∧ ∃ a, (s.look p n).place = Function.update s.place p a ∧
      (∀ k, a ≠ .searching k) ∧
      (a = .overflow → (s.look p n).core.getFreeInode = none) := by
  unfold Sys.look
  cases s.core.isLoaded n with
  | some i =>
    dsimp only
    split
    · exact ⟨rfl, rfl, _, rfl, nofun, nofun⟩
    · split
      · exact ⟨rfl, rfl, _, rfl, nofun, nofun⟩
      · exact ⟨rfl, rfl, _, rfl, nofun, nofun⟩
  | none =>
    dsimp only
    split
    · next hfull => exact ⟨rfl, rfl, _, rfl, nofun, fun _ => hfull⟩
    · exact ⟨rfl, rfl, _, rfl, nofun, nofun⟩

theorem Watched.look_of_cached (h : Watched sIsize s)
    (hcached : ∀ m, Cached s.sb m → Cached sb m ∨ m = n)
    (hgood : Good sIsize (s.setSb sb)) : Watched sIsize ((s.setSb sb).look p n).note := by
  obtain ⟨hpast, hsb, a, hplace, hsearch, hover⟩ := look_fields (s.setSb sb) p n
  refine h.keep hpast (fun m hm => ?_) (fun q k hq => ?_) fun q hq => ?_
  · rw [hsb]
    rcases hcached m hm with hold | rfl
    · exact .inl hold
    · exact .inr (seen_look hgood)
  · rw [hplace] at hq
    exact searching_update hsearch q k hq
  · rw [hplace] at hq
    rcases place_update hq with ⟨-, ha⟩ | ⟨-, hold⟩
    · exact .inr (hover ha)
    · exact .inl hold

/-- The number that is taken is the only one that leaves the list. -/
theorem Fine.cached_pop (h : Fine sIsize sb) (hpos : 0 < sb.sNinode) (hread : Reads sb number)
    (hn : Cached sb n) : Cached { sb with sNinode := sb.sNinode - 1 } n ∨ n = number := by
  obtain ⟨k, hk, rfl⟩ := hn
  by_cases hlast : k = (sb.sNinode - 1).toNat
  · right
    rw [h.reads hpos hread, hlast]
  · left
    refine ⟨k, ?_, rfl⟩
    change (k : ℤ) < sb.sNinode - 1
    omega

theorem Watched.take (h : Watched sIsize s) (hgood : Good sIsize s) (hpos : 0 < s.sb.sNinode)
    (hread : Reads s.sb number) : Watched sIsize (s.take p number).note :=
  h.look_of_cached (fun _ hm => hgood.lists.fine.cached_pop hpos hread hm) (hgood.pop hpos)

/-- The lock is let go, and the process goes on to take a number. -/
theorem Watched.go (h : Watched sIsize s) (hcached : ∀ n, Cached s.sb n → Cached sb n)
    (hsearch : ∀ k, a ≠ .searching k) (hover : a ≠ .overflow) :
    Watched sIsize ((s.setSb sb).go p a) where
  searching q k hq n hn hlt := by
    have hold := h.searching q k (searching_update hsearch q k hq) n hn hlt
    exact hold.imp_right (hcached n)
  overflow q hq n := by
    rcases place_update hq with ⟨-, ha⟩ | ⟨-, hold⟩
    · exact absurd ha hover
    · exact h.overflow q hold n

theorem Watched.unlock_take {k : ℕ} (h : Watched sIsize s) (hgood : Good sIsize s)
    (hp : s.place p = .searching k) (hfine : Fine sIsize sb) (hpos : 0 < sb.sNinode)
    (hread : Reads sb number) (hcached : ∀ n, Cached s.sb n → Cached sb n) :
    Watched sIsize ((s.setSb { sb with sIlock := 0 }).take p number).note := by
  have hopen : Good sIsize ((s.setSb { sb with sIlock := 0 }).go p .turning) :=
    hgood.unlock hp hfine rfl trivial nofun
  have hwatched : Watched sIsize ((s.setSb { sb with sIlock := 0 }).go p .turning) :=
    h.go (fun n hn => hcached n hn) nofun nofun
  rw [← take_go _ p .turning]
  exact hwatched.take hopen hpos hread

/-- The inodes of a sector that has been read were in use, or are on the list. -/
theorem Watched.sector {k : ℕ} (h : Watched sIsize s)
    (hnoted : Noted sIsize s.core (s.core.fs.blk (inodeZoneStartSector + k))
      ((List.range 8).map (8 * k + ·)) s.sb sb) (hroom : sb.sNinode < 100)
    (hp : s.place p = .searching k) :
    Watched sIsize ((s.setSb sb).go p (.searching (k + 1))).note where
  searching q l hq n hn hlt := by
    rcases place_update hq with ⟨rfl, hl⟩ | ⟨-, hold⟩
    · obtain rfl : k + 1 = l := by
        injection hl
      by_cases hbefore : n < 8 * k
      · exact (h.searching q k hp n hn hbefore).imp .inl (hnoted.kept n)
      · obtain ⟨m, rfl⟩ := Int.eq_ofNat_of_zero_le hn.1
        push_cast at hlt
        have hmem : m ∈ (List.range 8).map (8 * k + ·) :=
          List.mem_map.mpr ⟨m - 8 * k, List.mem_range.mpr (by omega), by omega⟩
        have hsector : sectorOf m = inodeZoneStartSector + k := by
          unfold sectorOf
          rw [Int.tdiv_eq_ediv_of_nonneg hn.1]
          omega
        have hslot : slotOf m = m % 8 := by
          unfold slotOf
          rw [Int.tmod_eq_emod_of_nonneg hn.1]
          omega
        rcases hnoted.seen hroom m hmem with hused | hcached
        · left
          right
          left
          rintro ⟨hmode, hnone⟩
          rcases hused with hdisk | hin
          · unfold diskMode at hmode
            rw [hsector, hslot] at hmode
            exact hdisk hmode
          · exact hin hnone
        · exact .inr hcached
    · exact (h.searching q l hold n hn hlt).imp .inl (hnoted.kept n)
  overflow q hq n := by
    rcases place_update hq with ⟨-, ha⟩ | ⟨-, hold⟩
    · cases ha
    · exact .inl (h.overflow q hold n)

/-- A step that leaves the list alone, or puts something into it, and where a process gets neither
into a search nor to a full table. -/
theorem Watched.put {r : ℕ} {ino : Inode} {fs : FsState} (h : Watched sIsize s)
    (hcached : ∀ n, Cached s.sb n → Cached fs.sb n) (hsearch : ∀ k, a ≠ .searching k)
    (hover : a ≠ .overflow) : Watched sIsize (s.put p a i r ino fs).note := by
  refine h.keep rfl (fun n hn => .inl (hcached n hn)) (searching_update hsearch) fun q hq => ?_
  rcases place_update hq with ⟨-, ha⟩ | ⟨-, hold⟩
  · exact absurd ha hover
  · exact .inl hold

theorem cached_ifree {fs fs' : FsState} (hfine : Fine sIsize fs.sb)
    (h : FileSystem.ifree fs number = .ok fs') (hn : Cached fs.sb n) : Cached fs'.sb n := by
  obtain ⟨-, hsame | ⟨-, -, -, -, -, hninode, hinode⟩⟩ := ifree_list hfine h
  · rw [hsame]
    exact hn
  · exact hn.push hninode hinode

/-- **One step.** -/
theorem Watched.step {e : Event ι} (h : Watched sIsize s) (hgood : Good sIsize s)
    (hok : Guarded s e) (hstep : Step sIsize s e s') : Watched sIsize s'.note := by
  cases hstep with
  | @call p hp =>
    have hfine := hgood.lists.fine
    rw [getFS_of_bounds hfine.sNfree_le hfine.sNinode_le]
    refine ⟨fun q k hq n hn hlt => ?_, fun q hq n => ?_⟩
    · rcases place_update hq with ⟨-, ha⟩ | ⟨hqp, hold⟩
      · cases ha
      · refine (h.searching q k hold n hn hlt).imp_left fun hpast => .inl ?_
        change Function.update s.past p _ q n
        rw [Function.update_of_ne hqp]
        exact hpast
    · rcases place_update hq with ⟨-, ha⟩ | ⟨hqp, hold⟩
      · cases ha
      · left
        change Function.update s.past p _ q n
        rw [Function.update_of_ne hqp]
        exact h.overflow q hold n
  | @search p hp hlock hempty =>
    refine ⟨fun q k hq n hn hlt => ?_, fun q hq n => ?_⟩
    · rcases place_update hq with ⟨-, ha⟩ | ⟨-, hold⟩
      · obtain rfl : 0 = k := by
          injection ha
        have := hn.1
        omega
      · exact (h.searching q k hold n hn hlt).imp_left .inl
    · rcases place_update hq with ⟨-, ha⟩ | ⟨-, hold⟩
      · cases ha
      · exact .inl (h.overflow q hold n)
  | first hp _ hcached hread => exact h.take hgood hcached hread
  | sector hp hk hnote hroom => exact h.sector (hgood.noted hp hk hnote) hroom hp
  | full hp hk hnote hfull hread =>
    have hnoted := hgood.noted hp hk hnote
    exact h.unlock_take hgood hp hnoted.fine (by omega) hread hnoted.kept
  | last hp _ hcached hread =>
    exact h.unlock_take hgood hp hgood.lists.fine hcached hread fun _ => id
  | empty hp =>
    refine h.keep rfl (fun n hn => .inl hn) (searching_update nofun) fun q hq => ?_
    rcases place_update hq with ⟨-, ha⟩ | ⟨-, hold⟩
    · cases ha
    · exact .inl hold
  | turn hp hread => exact h.take hgood (hok _ _ rfl hp) hread
  | @get p number hp =>
    have hlook : Watched sIsize ((s.setSb s.sb).look p number).note :=
      h.look_of_cached (fun _ => .inl) hgood
    exact hlook
  | overflow hp =>
    refine h.keep rfl (fun n hn => .inl hn) (searching_update nofun) fun q hq => ?_
    rcases place_update hq with ⟨-, ha⟩ | ⟨-, hold⟩
    · cases ha
    · exact .inl hold
  | found hp => exact absurd hp (hgood.table.found _ _)
  | @loadFree p i hp =>
    have hput : Watched sIsize (s.put p (.given i) i (s.refs i) (s.loaded i).clean
      { s.core.fs with sb := s.sb.setFmod }).note := h.put (fun _ => id) nofun nofun
    exact ⟨hput.searching, hput.overflow⟩
  | loadUsed hp hmode =>
    refine h.put (fun _ => id) (fun k => ?_) ?_
    · split <;> nofun
    · split <;> nofun
  | fill hp => exact h.put (fun _ => id) nofun nofun
  | @emptied p i again buffer fs₀ fs₁ ino fs hp htrunc hfree =>
    have hput : Watched sIsize
        (s.put p (.updating i again) i (s.refs i) { ino with iMode := 0 } fs).note :=
      h.put (fun _ => cached_ifree hgood.lists.fine hfree) nofun nofun
    exact ⟨hput.searching, hput.overflow⟩
  | @updated p i again time fs hp hupdate =>
    have hfine := hgood.lists.fine
    have hone := (hgood.table.own p i (slot_eq_some hp rfl)).2.1
    have hi := hgood.table.number i (by omega)
    obtain ⟨hsb, -⟩ :=
      diskMode_iupdate hfine.sNfree_le hfine.sNinode_le hfine.sRonly_eq hi.1 hupdate
    refine h.put (fun n hn => ?_) (fun k => ?_) ?_
    · rw [hsb]
      exact hn
    · cases again <;> nofun
    · cases again <;> nofun
  | give hp => exact h.put (fun _ => id) nofun nofun
  | giveLast hp =>
    refine h.put (fun _ => id) (fun k => ?_) ?_
    · split <;> nofun
    · split <;> nofun
  | share hp => exact h.put (fun _ => id) nofun nofun
  | «open» hp => exact h.put (fun _ => id) nofun nofun
  | opened hp => exact h.put (fun _ => id) nofun nofun
  | use hp => exact h.put (fun _ => id) nofun nofun
  | free hn hfree =>
    exact h.keep rfl (fun _ hm => .inl (cached_ifree hgood.lists.fine hfree hm)) (fun _ _ => id)
      fun _ => .inl
  | @elsewhere fs hzone hsb hnfree =>
    refine h.keep rfl (fun n hn => .inl ?_) (fun _ _ => id) fun _ => .inl
    change Cached fs.sb n
    rw [hsb]
    exact hn

/-! ### What the steps of `IAlloc` do -/

/-- **Every step of `IAlloc` does what is expected.** -/
theorem right_of_step {e : Event ι} (hgood : Good sIsize s) (h : Watched sIsize s)
    (hok : Guarded s e) (hstep : Step sIsize s e s') : Right sIsize s e s'.note := by
  have hfine := hgood.lists.fine
  cases hstep with
  | first hp _ hcached => exact ⟨hcached, hfine.sNinode_le⟩
  | full hp hk hnote hfull => exact ⟨by omega, (hgood.noted hp hk hnote).fine.sNinode_le⟩
  | last hp _ hcached => exact ⟨hcached, hfine.sNinode_le⟩
  | @empty p k hp hk hempty =>
    refine ⟨nofun, fun n hn => .inl ?_⟩
    have hlt := hn.2
    rcases h.searching p k hp n hn (by omega) with hpast | ⟨l, hl, -⟩
    · exact hpast
    · omega
  | turn hp => exact ⟨hok _ _ rfl hp, hfine.sNinode_le⟩
  | @overflow p hp => exact ⟨nofun, fun n _ => .inl (h.overflow p hp n)⟩
  | found hp => exact absurd hp (hgood.table.found _ _)
  | @loadFree p i hp hmode =>
    have hslot : (s.place p).slot = some i := slot_eq_some hp rfl
    obtain ⟨-, hone, hlock⟩ := hgood.table.own p i hslot
    have hdisk := (loaded_iMode s i).mp hmode
    have htable := (hgood.hand hp).table
    have hnumber : ((s.put p (.given i) i (s.refs i) (s.loaded i).clean
        { s.core.fs with sb := s.sb.setFmod }).core).number i = s.core.number i := number_set_self
    have hcount : ((s.put p (.given i) i (s.refs i) (s.loaded i).clean
        { s.core.fs with sb := s.sb.setFmod }).core).count i = 1 := count_set_self.trans hone
    refine ⟨hdisk, ?_, hnumber, fun hout => ?_, ?_, hcount, ?_⟩
    · exact congrArg iMode mInode_set_self
    · have hsound := (hgood.used _ hout).2.inside p i hslot rfl
      rw [hp] at hsound
      exact hsound hdisk
    · exact locked_set_self.trans hlock
    · refine htable.distinct_of_count ?_
      change ((s.put p (.given i) i (s.refs i) (s.loaded i).clean
        { s.core.fs with sb := s.sb.setFmod }).core).count i ≠ 0
      omega
  | _ => trivial

/-! ### Runs -/

/-- What a step keeps, a run keeps. -/
theorem good_run (hgood : Good sIsize s₀) (hwatched : Watched sIsize s₀)
    (hrun : Runs (Move sIsize) Guarded s₀ s) : Good sIsize s ∧ Watched sIsize s := by
  refine hrun.invariant (I := fun s => Good sIsize s ∧ Watched sIsize s) ?_ ⟨hgood, hwatched⟩
  rintro s e s' ⟨hg, hw⟩ hok ⟨s₁, hstep, rfl⟩
  exact ⟨(hg.step hok hstep).setPast _, hw.step hg hok hstep⟩

/-- **In every run in which the loop of `IAlloc` never comes back to an empty list, the list stays
in range, and every step of `IAlloc` is right.** -/
theorem alloc_run (h : Start sIsize s₀) (hrun : Runs (Move sIsize) Guarded s₀ s) :
    (0 ≤ s.sb.sNinode ∧ s.sb.sNinode ≤ 100) ∧
      ∀ e s', Guarded s e → Move sIsize s e s' → Right sIsize s e s' := by
  obtain ⟨hgood, hwatched⟩ := good_run h.good h.watched hrun
  refine ⟨⟨hgood.lists.fine.sNinode_nonneg, hgood.lists.fine.sNinode_le⟩, ?_⟩
  rintro e s' hok ⟨s₁, hstep, rfl⟩
  exact right_of_step hgood hwatched hok hstep

end

/-! ### The loop comes back to an empty list -/

/-- One process, and a list with one inode, which is in use. -/
def staleHint : Sys Unit where
  core :=
    { fs := ⟨⟨1, fun _ => 0, 1, fun _ => 0, 0, 0, 0, 0⟩, fun _ _ => 1, .NOERROR, 0⟩
      mInode := fun _ => ⟨0, 0, 0, 0, -1, -1, -1, 0, fun _ => 0, -1⟩ }
  place := fun _ => .away
  refs := fun _ => 0
  out := fun _ => False
  past := fun _ _ => False

theorem start_staleHint : Start 1 staleHint where
  fine := by
    refine ⟨by decide, by decide, by decide, rfl, fun k _ => ?_⟩
    have hlt : (0 : ℤ) < 8 * (1 : ℕ) := by decide
    exact ⟨Int.le_refl 0, hlt⟩
  away _ := rfl
  consistent := ⟨fun _ => Int.le_refl 0, fun _ _ hi => absurd rfl hi⟩
  count_eq _ := rfl
  used _ hi := absurd rfl hi
  out _ := id

/-- The only process takes the inode that is listed. -/
theorem staleHint_takes : ∃ s, Runs (Move 1) Guarded staleHint s ∧ s.place () = .loading 0 ∧
    s.core.number 0 = 0 ∧ s.core.count 0 = 1 ∧ (s.loaded 0).iMode ≠ 0 ∧ 0 < (s.loaded 0).iNlink ∧
    (s.loaded 0).iFlag = ILOCK ∧ s.sb.sNinode = 0 := by
  have h₁ : Runs (Move 1) Guarded staleHint _ :=
    Runs.single (l := .calls ()) nofun ⟨_, .call rfl, rfl⟩
  have h₂ := h₁.tail (l := .reads () 1) (fun _ _ _ hturn => by cases hturn)
    ⟨_, @Step.first _ _ _ _ () 0 rfl rfl Int.one_pos fun w hw => (Except.ok.inj hw), rfl⟩
  exact ⟨_, h₂, rfl, rfl, rfl, by decide +kernel, by decide +kernel, rfl, rfl⟩

/-- The beginning of that run is right. -/
theorem alloc_run_staleHint : ∃ s, Runs (Move 1) Guarded staleHint s ∧ s.place () = .loading 0 ∧
    (0 ≤ s.sb.sNinode ∧ s.sb.sNinode ≤ 100) ∧
      ∀ e s', Guarded s e → Move 1 s e s' → Right 1 s e s' := by
  obtain ⟨s, hrun, hplace, -⟩ := staleHint_takes
  exact ⟨s, hrun, hplace, alloc_run start_staleHint hrun⟩

/-- The inode is in use and is given back, and the list is empty then. -/
theorem staleHint_turns : ∃ s, Runs (Move 1) (fun _ _ => True) staleHint s ∧
    s.place () = .turning ∧ s.sb.sNinode = 0 := by
  obtain ⟨s, hrun, hplace, -, -, hmode, hlink, hflag, hempty⟩ := staleHint_takes
  have hused := (hrun.mono fun _ _ _ => trivial).tail (l := .quiet) trivial
    ⟨_, Step.loadUsed hplace hmode, rfl⟩
  have hupdating : (s.startPut () 0 true (s.loaded 0)).note.place () = .updating 0 true := by
    unfold Sys.startPut
    rw [place_note, place_put_self, if_neg (Int.not_le.mpr hlink)]
  have hclean : ((s.startPut () 0 true (s.loaded 0)).note.core.mInode 0).iFlag &&&
      (IUPD ||| IACC) = 0 := by
    have hentry : (s.startPut () 0 true (s.loaded 0)).note.core.mInode 0 =
        { s.loaded 0 with iFlag := (s.loaded 0).iFlag ||| ILOCK } := mInode_set_self
    rw [hentry]
    dsimp only
    rw [hflag]
    decide
  have hupdate : iupdate (s.startPut () 0 true (s.loaded 0)).note.core.fs
      ((s.startPut () 0 true (s.loaded 0)).note.core.mInode 0) 0 =
        .ok (s.startPut () 0 true (s.loaded 0)).note.core.fs := iupdate_clean hclean
  have hturn := hused.tail (l := .quiet) trivial ⟨_, Step.updated hupdating hupdate, rfl⟩
  refine ⟨_, hturn, ?_, hempty⟩
  rw [place_note, place_put_self]
  rfl

/-- **The loop of `IAlloc` reads below the list**, though there is nobody else. -/
theorem exists_wrong : ¬ ∀ (ι : Type) [DecidableEq ι] (sIsize : ℕ) (s₀ s : Sys ι) (e : Event ι)
    (s' : Sys ι), Start sIsize s₀ → Runs (Move sIsize) (fun _ _ => True) s₀ s →
    Move sIsize s e s' → Right sIsize s e s' := by
  intro hall
  obtain ⟨s, hrun, hplace, hempty⟩ := staleHint_turns
  have hbelow : Reads s.sb 0 := by
    intro w hw
    unfold readAt at hw
    rw [hempty, if_neg (by decide)] at hw
    cases hw
  have hright := hall Unit 1 staleHint s _ _ start_staleHint hrun ⟨_, Step.turn hplace hbelow, rfl⟩
  have hpos : 0 < s.sb.sNinode := hright.1
  omega

end InodeAlloc
end UnixV6pp
