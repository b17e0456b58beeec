import UnixV6pp.Fs.Scan

/-!
# Each record once

The search reads every record once, and from the right block, if and only if no free
record has further units and it does not wait for itself: passing over the further
units of a free record moves `m_Offset` but not `m_Count`, so that the two no longer
agree about where the directory ends.

## Main definitions

* `skipped` — how many units a search has passed over without counting them.
* `Directory.ScansOnce` — the search reads what it should and stops at the end.

## Main results

* `scan_skipped` — `m_Offset` and `m_Count` in any search.
* `scansOnce_iff` — **when a search is right.**
-/

namespace UnixV6pp
namespace FileManager

open Words FileSystem Inode BufferManager DirectoryEntry

/-- How many units were passed over behind the heads in the list. -/
def skipped : List UnitRead → ℤ
  | [] => 0
  | .head _ _ mIno mAdditionEsize :: log => (if mIno = 0 then mAdditionEsize else 0) + skipped log
  | .addition _ _ :: log => skipped log

theorem skipped_append (log log' : List UnitRead) :
    skipped (log ++ log') = skipped log + skipped log' := by
  induction log with
  | nil => exact (zero_add _).symm
  | cons r log ih =>
    cases r with
    | head _ _ mIno mAdditionEsize =>
      simp only [List.cons_append, skipped, ih]
      omega
    | addition _ _ => exact ih

/-- `m_Offset` and `m_Count` agree up to the units passed over, as 32-bit numbers do. -/
def Agree (s s' : Search) : Prop :=
  ∃ log k, s'.reads = s.reads ++ log ∧
    s'.u.mOffset + 32 * s'.u.mCount = s.u.mOffset + 32 * s.u.mCount + 32 * skipped log + 2 ^ 32 * k

theorem Agree.refl (s : Search) : Agree s s :=
  ⟨[], 0, (List.append_nil _).symm, by simp [skipped]⟩

theorem Agree.trans {s s' s'' : Search} (h : Agree s s') (h' : Agree s' s'') : Agree s s'' := by
  obtain ⟨log, k, hreads, hsum⟩ := h
  obtain ⟨log', k', hreads', hsum'⟩ := h'
  refine ⟨log ++ log', k + k', by rw [hreads', hreads, List.append_assoc], ?_⟩
  rw [hsum', hsum, skipped_append]
  omega

variable {s s' : Search}

theorem reload_frame (h : reload s = .ok s') : s'.u = s.u ∧ s'.reads = s.reads := by
  rcases reload_ok h with rfl | ⟨blkno, -, hs⟩
  · exact ⟨rfl, rfl⟩
  · rw [hs]
    exact ⟨rfl, rfl⟩

theorem noteFree_frame (h : noteFree s = .ok s') : s'.u = s.u ∧ s'.reads = s.reads := by
  rcases noteFree_ok h with rfl | rfl | ⟨length, blkno, -, -, hs⟩
  · exact ⟨rfl, rfl⟩
  · exact ⟨rfl, rfl⟩
  · rw [hs]
    exact ⟨rfl, rfl⟩

/-- Moving on by one unit. -/
theorem nextUnit_sum (u : User) : ∃ k, (nextUnit u).mOffset + 32 * (nextUnit u).mCount =
    u.mOffset + 32 * u.mCount + 2 ^ 32 * k := by
  simp only [nextUnit, int32_eq]
  refine ⟨-((u.mOffset + 32 + 2 ^ 31) / 2 ^ 32) - 32 * ((u.mCount - 1 + 2 ^ 31) / 2 ^ 32), ?_⟩
  omega

theorem readHead_sum (h : readHead s = .ok s') : ∃ off blkno k,
    s'.reads = s.reads ++ [.head off blkno s'.u.uDent.mIno s'.u.uDent.mAdditionEsize] ∧
      s'.u.mOffset + 32 * s'.u.mCount = s.u.mOffset + 32 * s.u.mCount + 2 ^ 32 * k := by
  unfold readHead at h
  obtain ⟨s₁, hreload, h⟩ := Except.bind_eq_ok.mp h
  obtain ⟨⟨blkno, unit⟩, -, h⟩ := Except.bind_eq_ok.mp h
  cases h
  obtain ⟨hu, hreads⟩ := reload_frame hreload
  obtain ⟨k, hk⟩ := nextUnit_sum { s₁.u with uDent := ofBytes unit }
  refine ⟨s₁.u.mOffset, blkno, k, ?_, ?_⟩
  · rw [← hreads]
    rfl
  · rw [← hu]
    exact hk

theorem readAdditions_agree {n index : ℕ} (h : readAdditions n index s = .ok s') : Agree s s' := by
  induction n generalizing index s with
  | zero =>
    cases h
    exact Agree.refl _
  | succ n ih =>
    rw [readAdditions] at h
    obtain ⟨s₁, hreload, h⟩ := Except.bind_eq_ok.mp h
    obtain ⟨⟨blkno, unit⟩, -, h⟩ := Except.bind_eq_ok.mp h
    dsimp only at h
    split at h
    · cases h
    · obtain ⟨hu, hreads⟩ := reload_frame hreload
      obtain ⟨k, hk⟩ := nextUnit_sum { s₁.u with
        additionEntry := fun k => if 32 * index ≤ k ∧ k < 32 * index + 32
          then unit (k - 32 * index) else s₁.u.additionEntry k }
      refine Agree.trans ⟨[.addition s₁.u.mOffset blkno], k, ?_, ?_⟩ (ih h)
      · rw [← hreads]
      · rw [hk, ← hu]
        simp [skipped]

/-- **One turn** of the loop. -/
theorem scanStep_agree {found : Bool} (h : scanStep s = .ok (found, s')) : Agree s s' := by
  unfold scanStep at h
  obtain ⟨s₁, hhead, h⟩ := Except.bind_eq_ok.mp h
  obtain ⟨off, blkno, k, hreads, hsum⟩ := readHead_sum hhead
  split at h
  · next hfree =>
    obtain ⟨s₂, hnote, h⟩ := Except.bind_eq_ok.mp h
    cases h
    obtain ⟨hu, hreads'⟩ := noteFree_frame hnote
    refine ⟨_, k - (s₂.u.mOffset + 32 * s₂.u.uDent.mAdditionEsize + 2 ^ 31) / 2 ^ 32,
      hreads'.trans hreads, ?_⟩
    change int32 (s₂.u.mOffset + 32 * s₂.u.uDent.mAdditionEsize) + 32 * s₂.u.mCount = _
    rw [hu] at *
    simp only [skipped, if_pos hfree, int32_eq]
    omega
  · next hlive =>
    obtain ⟨s₂, hadd, h⟩ := Except.bind_eq_ok.mp h
    cases h
    refine Agree.trans ⟨_, k, hreads, ?_⟩ (readAdditions_agree hadd)
    simp only [skipped, if_neg hlive]
    omega

/-- **Any search** that comes to an end. -/
theorem scan_skipped {fuel : ℕ} {found : Bool} (h : scan fuel s = .ok (found, s')) :
    Agree s s' := by
  induction fuel generalizing s with
  | zero =>
    rw [scan] at h
    split at h
    · cases h
      exact Agree.refl _
    · cases h
  | succ fuel ih =>
    rw [scan] at h
    split at h
    · cases h
      exact Agree.refl _
    · obtain ⟨⟨found₁, s₁⟩, hstep, h⟩ := Except.bind_eq_ok.mp h
      dsimp only at h
      split at h
      · cases h
        exact scanStep_agree hstep
      · exact (scanStep_agree hstep).trans (ih h)

/-! ### When a search is right -/

namespace Directory

variable {ι : Type*} [DecidableEq ι] {dir : Directory ι}

theorem skipped_additionReads (o n : ℕ) : skipped (dir.additionReads o n) = 0 := by
  induction n generalizing o with
  | zero => rfl
  | succ n ih =>
    rw [additionReads_succ, skipped]
    exact ih _

theorem skipped_recordReads (o : ℕ) : skipped (dir.recordReads o) =
    if IsFree dir.f.bytes o then (entryAt dir.f.bytes o).mAdditionEsize else 0 := by
  rw [recordReads, skipped]
  by_cases hfree : IsFree dir.f.bytes o
  · rw [if_pos hfree, if_pos hfree]
    refine (congrArg (· + _) (if_pos hfree)).trans ?_
    exact add_zero _
  · rw [if_neg hfree, if_neg hfree, skipped_additionReads]
    exact congrArg (· + _) (if_neg hfree)

/-- The units passed over in well formed records. -/
theorem skipped_records {o e : ℕ} {rs : List ℕ} (h : Framed dir.f.bytes e o rs) :
    0 ≤ skipped (rs.flatMap dir.recordReads) ∧
      32 * skipped (rs.flatMap dir.recordReads) ≤ e - o ∧
      (skipped (rs.flatMap dir.recordReads) = 0 →
        ∀ r ∈ rs, IsFree dir.f.bytes r → (entryAt dir.f.bytes r).mAdditionEsize = 0) := by
  induction rs generalizing o with
  | nil =>
    cases h
    exact ⟨le_rfl, by simp [skipped], fun _ r hr => by cases hr⟩
  | cons r rs ih =>
    obtain ⟨rfl, hok, hrest⟩ := h
    obtain ⟨hnonneg, hle, hzero⟩ := ih hrest
    have hunits := hok.mAdditionEsize_eq
    have hend : endAt dir.f.bytes r = r + 32 * (unitsAt dir.f.bytes r + 1) := rfl
    rw [List.flatMap_cons, skipped_append, skipped_recordReads]
    by_cases hfree : IsFree dir.f.bytes r
    · rw [if_pos hfree]
      refine ⟨by omega, by omega, fun hsum q hq hfreeq => ?_⟩
      rcases List.mem_cons.mp hq with rfl | hq
      · omega
      · exact hzero (by omega) q hq hfreeq
    · rw [if_neg hfree]
      refine ⟨by omega, by omega, fun hsum q hq hfreeq => ?_⟩
      rcases List.mem_cons.mp hq with rfl | hq
      · exact absurd hfreeq hfree
      · exact hzero (by omega) q hq hfreeq

variable (dir)

/-- The search as `NameI` starts it. -/
def start (u : User) (dbuf : ℕ → UInt8) (dirp : List UInt8) : Search :=
  startSearch dir.d.fs (dir.d.inodes dir.i) u dbuf dirp

/-- The search ends without a match, has read every record once, each unit from its block,
and stops at the end of the directory, where a new record goes if no free one was found. -/
def ScansOnce (u : User) (dbuf : ℕ → UInt8) (dirp : List UInt8) : Prop :=
  ∃ fuel s, scan fuel (dir.start u dbuf dirp) = .ok (false, s) ∧
    s.reads = dir.records.flatMap dir.recordReads ∧ s.u.mCount = 0 ∧ s.u.mOffset = dir.f.size ∧
    ∀ s', s.freeEntryOffset = 0 → notFound .CREATE 0 s = (.create, s') →
      s'.u.mOffset = dir.f.size

variable {dir}

theorem start_at (u : User) (dbuf : ℕ → UInt8) (dirp : List UInt8) :
    dir.At (dir.start u dbuf dirp) 0 := by
  have hsize := dir.dvd_size
  refine ⟨fun _ => ⟨dir.d.fs.rablock, rfl⟩, fun _ => rfl, rfl, ?_, fun _ h => absurd rfl h, rfl, ?_⟩
  · change 32 * (dir.d.inodes dir.i).iSize.tdiv 32 = _
    rw [dir.located.size_eq, Int.tdiv_eq_ediv_of_nonneg (by omega)]
    omega
  · intro _
    exact dir.holds.ahead dir.d.fs.rablock

/-- A search takes no more turns than it is given. -/
theorem scan_mono {fuel : ℕ} {s s' : Search} {found : Bool} (h : scan fuel s = .ok (found, s'))
    (k : ℕ) : scan (fuel + k) s = .ok (found, s') := by
  induction fuel generalizing s with
  | zero =>
    rw [scan] at h
    split at h
    · next hcount =>
      cases h
      exact scan_end _ hcount
    · cases h
  | succ fuel ih =>
    rw [Nat.add_right_comm, scan]
    rw [scan] at h
    split at h
    · next hcount =>
      rw [if_pos hcount]
      exact h
    · next hcount =>
      rw [if_neg hcount]
      obtain ⟨⟨found₁, s₁⟩, hstep, h⟩ := Except.bind_eq_ok.mp h
      rw [hstep, Except.ok_bind]
      dsimp only at h ⊢
      split at h
      · next hfound =>
        rw [if_pos hfound]
        exact h
      · next hfound =>
        rw [if_neg hfound]
        exact ih h

section ScansOnce

variable {u : User} {dbuf : ℕ → UInt8} {dirp : List UInt8} {L : ℕ}

/-- A search that is right passes over no units. -/
theorem ScansOnce.units (h : dir.ScansOnce u dbuf dirp) :
    ∀ r ∈ dir.records, IsFree dir.f.bytes r → (entryAt dir.f.bytes r).mAdditionEsize = 0 := by
  obtain ⟨fuel, s, hscan, hreads, hcount, hoff, -⟩ := h
  obtain ⟨log, k, hlog, hsum⟩ := scan_skipped hscan
  obtain ⟨hnonneg, hle, hzero⟩ := skipped_records dir.framed_f
  have hstart := dir.start_at u dbuf dirp
  have hlog' : log = dir.records.flatMap dir.recordReads := by
    rw [← hreads, hlog]
    rfl
  have hsize := hstart.mCount_eq
  have hmax := dir.located.size_le
  have hsmall : maxFileSize < 2 ^ 31 := by decide
  rw [hlog', hstart.mOffset_eq, hoff, hcount] at hsum
  exact hzero (by omega)

/-- Up to the first free record the search is in step, and it sleeps there if the unit it
looks up is in the block in hand. -/
theorem scan_sleeps (hL : stringLength dirp = .ok L) (hshort : L ≤ 24)
    (hlive : ∀ r ∈ dir.records, ¬ IsFree dir.f.bytes r → ¬ Begins dbuf dir.f.bytes r) {r : ℕ}
    (hfirst : dir.records.find? (IsFree dir.f.bytes ·) = some r)
    (hunits : (entryAt dir.f.bytes r).mAdditionEsize = 0) (hsleeps : Sleeps r) :
    ∃ n, ∀ fuel, scan (fuel + n) (dir.start u dbuf dirp) = .error .ownBuffer := by
  have hstart := dir.start_at u dbuf dirp
  obtain ⟨hfree, pre, post, hsplit, hpre⟩ := List.find?_eq_some_iff_append.mp hfirst
  have hlive' : ∀ q ∈ pre, ¬ IsFree dir.f.bytes q := fun q hq => by simpa using hpre q hq
  have hframed := dir.framed_f
  rw [hsplit] at hframed
  obtain ⟨m, hbefore, hr, hok, hafter⟩ := Framed.append.mp hframed
  subst hr
  have hlt : r < dir.f.size := lt_of_lt_of_le lt_endAt hafter.le
  have hpass : Passes (dir.start u dbuf dirp).u.uDbuf dir.f.bytes L
      ((dir.start u dbuf dirp).freeEntryOffset ≠ 0) pre := by
    refine ⟨fun q hq => hlive q (by rw [hsplit]; simp [hq]),
      fun q hq hfreeq => absurd hfreeq (hlive' q hq), fun _ _ q hq => ?_⟩
    have hq' := List.find?_some hq
    exact absurd (by simpa using hq') (hlive' q (List.mem_of_find?_eq_some hq))
  obtain ⟨s₁, hpassed, hat, hsame, hkept, -⟩ :=
    hstart.scan_pass (dvd_zero _) hbefore hlt.le hL hpass
  have hkept₁ : s₁.freeEntryOffset = 0 := by
    have hnone : pre.find? (IsFree dir.f.bytes ·) = none :=
      List.find?_eq_none.mpr fun q hq => by simpa using hlive' q hq
    rw [hkept, keptAfter, hnone]
    exact ite_self _
  have hstop := hat.scanStep_sleeps hlt (hbefore.dvd_end (dvd_zero _)) hunits
    (by simpa using hfree) (by rw [hsame.uDirp_eq]; exact hL) ⟨hkept₁, hshort⟩ hsleeps
  have hcount₁ : s₁.u.mCount ≠ 0 := by
    have := hat.mCount_eq
    omega
  refine ⟨pre.length + 1, fun fuel => ?_⟩
  rw [show fuel + (pre.length + 1) = fuel + 1 + pre.length by omega, hpassed]
  exact scan_stop hcount₁ hstop

/-- A search that is right does not sleep. -/
theorem ScansOnce.awake (h : dir.ScansOnce u dbuf dirp) (hL : stringLength dirp = .ok L)
    (hlive : ∀ r ∈ dir.records, ¬ IsFree dir.f.bytes r → ¬ Begins dbuf dir.f.bytes r)
    (hshort : L ≤ 24) {r : ℕ} (hfirst : dir.records.find? (IsFree dir.f.bytes ·) = some r) :
    ¬ Sleeps r := by
  intro hsleeps
  have hfree := List.find?_some hfirst
  have hunits := h.units r (List.mem_of_find?_eq_some hfirst) (by simpa using hfree)
  obtain ⟨n, hstop⟩ := scan_sleeps (u := u) hL hshort hlive hfirst hunits hsleeps
  obtain ⟨fuel, s, hscan, -⟩ := h
  have hturns := scan_mono hscan n
  rw [hstop] at hturns
  cases hturns

/-- A search that neither passes over units nor sleeps is right. -/
theorem scansOnce_of (hL : stringLength dirp = .ok L)
    (hpass : Passes dbuf dir.f.bytes L False dir.records) : dir.ScansOnce u dbuf dirp := by
  have hstart := dir.start_at u dbuf dirp
  have hpass' : Passes (dir.start u dbuf dirp).u.uDbuf dir.f.bytes L
      ((dir.start u dbuf dirp).freeEntryOffset ≠ 0) dir.records :=
    ⟨hpass.live, hpass.units, fun _ => hpass.awake id⟩
  obtain ⟨s, hscan, hat, -, -, hreads⟩ :=
    hstart.scan_pass (dvd_zero _) dir.framed_f le_rfl hL hpass'
  have hcount : s.u.mCount = 0 := by
    have := hat.mCount_eq
    omega
  refine ⟨0 + dir.records.length, s, (hscan 0).trans (scan_end 0 hcount), hreads, hcount,
    hat.mOffset_eq, fun s' hkept hcreate => ?_⟩
  unfold notFound at hcreate
  rw [if_pos ⟨rfl, rfl⟩, if_neg (not_not.mpr hkept)] at hcreate
  split at hcreate
  · cases hcreate
  · cases hcreate
    exact hat.mOffset_eq

end ScansOnce

/-- **When a search that finds nothing is right**: no free record has further units, and if
the path does not go on for more than 24 characters behind the component, the first free
record ends in the first block or at the end of a block. -/
theorem scansOnce_iff (u : User) (dbuf : ℕ → UInt8) (dirp : List UInt8) {L : ℕ}
    (hL : stringLength dirp = .ok L)
    (hlive : ∀ r ∈ dir.records, ¬ IsFree dir.f.bytes r → ¬ Begins dbuf dir.f.bytes r) :
    dir.ScansOnce u dbuf dirp ↔
      (∀ r ∈ dir.records, IsFree dir.f.bytes r → unitsAt dir.f.bytes r = 0) ∧
      (L ≤ 24 → ∀ r, dir.records.find? (IsFree dir.f.bytes ·) = some r →
        r + 32 < 512 ∨ (r + 32) % 512 = 0) := by
  constructor
  · intro h
    refine ⟨fun r hr hfree => ?_, fun hshort r hfirst => ?_⟩
    · rw [unitsAt, h.units r hr hfree]
      rfl
    · by_contra hnot
      exact h.awake hL hlive hshort hfirst ⟨by omega, by omega⟩
  · intro h
    obtain ⟨hunits, hawake⟩ := h
    refine scansOnce_of hL ⟨hlive, fun r hr hfree => ?_, fun _ hshort r hfirst hsleeps => ?_⟩
    · rw [(dir.framed_f.bounds hr).2.2.1.mAdditionEsize_eq]
      exact congrArg _ (hunits r hr hfree)
    · rcases hawake hshort r hfirst with hlt | hmod
      · exact absurd hsleeps.1 (by omega)
      · exact hsleeps.2 hmod

/-- One free record with one further unit. -/
def freePair (k : ℕ) : UInt8 := if k = 28 then 1 else 0

/-- **Not every search is right**: behind a free record with a further unit `m_Count` is
too large. -/
theorem scansOnce_freePair : ¬ ∀ (dir : Directory Unit) (u : User) (dbuf : ℕ → UInt8),
    (∀ r ∈ dir.records, ¬ IsFree dir.f.bytes r → ¬ Begins dbuf dir.f.bytes r) →
      dir.ScansOnce u dbuf [0] := by
  intro hall
  have hframed : Framed (FlatFile.new.write 0 64 freePair).bytes 64 0 [0] := by decide
  obtain ⟨dir, hf, hrecords, -⟩ := exists_directory (by decide) hframed
  have hfree : IsFree dir.f.bytes 0 := by
    rw [hf]
    decide
  have hone : (entryAt dir.f.bytes 0).mAdditionEsize = 1 := by
    rw [hf]
    decide
  have hzero := (hall dir default (fun _ => 0) fun r hr hlive => ?_).units 0
    (by rw [hrecords]; simp) hfree
  · rw [hone] at hzero
    cases hzero
  · rw [hrecords, List.mem_singleton] at hr
    rw [hr] at hlive
    exact absurd hfree hlive

/-- A free record in the first block is passed. -/
theorem scansOnce_iff_free : ∃ dir : Directory Unit, dir.records = [0] ∧
    dir.ScansOnce default (fun _ => 0) [0] := by
  have hframed : Framed (FlatFile.new.write 0 32 fun _ => 0).bytes 32 0 [0] := by decide
  obtain ⟨dir, hf, hrecords, -⟩ := exists_directory (by decide) hframed
  have hfree : IsFree dir.f.bytes 0 := by
    rw [hf]
    decide
  refine ⟨dir, hrecords, (dir.scansOnce_iff default (fun _ => 0) [0] (L := 0) rfl ?_).mpr ⟨?_, ?_⟩⟩
  · intro r hr hlive
    rw [hrecords, List.mem_singleton] at hr
    rw [hr] at hlive
    exact absurd hfree hlive
  · intro r hr _
    rw [hrecords, List.mem_singleton] at hr
    rw [hr, hf]
    decide
  · intro _ r hr
    rw [hrecords] at hr
    have := List.mem_of_find?_eq_some hr
    rw [List.mem_singleton] at this
    exact .inl (by omega)

end Directory

end FileManager
end UnixV6pp
