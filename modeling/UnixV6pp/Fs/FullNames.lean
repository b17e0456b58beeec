import Mathlib.Data.List.Find
import Mathlib.Data.List.GetD
import Mathlib.Data.List.TakeWhile
import UnixV6pp.Fs.LongNames
import UnixV6pp.Fs.Passing

/-!
# Complete names

`NameI` compares the component with the bytes that a record has for its name, and not with what
follows them in `u_dbuf`.  A name that fills its record has no terminator there, and every longer
component that begins with it is taken for it.

## Main definitions

* `Bears` — the complete name of a record is the component.
* `Steady` — the search keeps to the directory and to the block in hand.
* `Directory.LooksUp` — the component is looked up right.

## Main results

* `scan_taken`, `scan_none` — what a search in a directory comes to.
* `looksUp_iff` — **when a component is looked up right.**
-/

namespace UnixV6pp
namespace FileManager

open Words FileSystem Inode BufferManager DirectoryEntry

/-! ### Names -/

/-- The complete name of the record at `o`, with zeros behind it, is the component. -/
def Bears (bs : List UInt8) (b : ℕ → UInt8) (o : ℕ) : Prop :=
  ∀ k, bs.getD k 0 = if k < nameLength b o then nameAt b o k else 0

section Names

variable {bs : List UInt8} {b : ℕ → UInt8} {o o' : ℕ}

/-- A component that fits into `u_dbuf` is there as a whole. -/
theorem stored_eq (hlen : bs.length ≤ 152) : stored bs = fun k => bs.getD k 0 := by
  funext k
  rw [stored, List.take_of_length_le hlen]

theorem Bears.begins (h : Bears bs b o) (hlen : bs.length ≤ 152) : Begins (stored bs) b o := by
  intro k hk
  rw [stored_eq hlen]
  exact (h k).trans (if_pos hk)

/-- The complete name of a record for which the component is taken is the component, if that is not
longer than the stored name. -/
theorem Begins.bears_iff (h : Begins (stored bs) b o) (hbs : ∀ b ∈ bs, b ≠ 0 ∧ b ≠ slash)
    (hlen : bs.length ≤ 152) : Bears bs b o ↔ bs.length ≤ nameLength b o := by
  rw [stored_eq hlen] at h
  constructor
  · intro hbears
    by_contra hlong
    have hbyte := (hbears (nameLength b o)).trans (if_neg (lt_irrefl _))
    have hlt : nameLength b o < bs.length := by omega
    rw [List.getD_eq_getElem _ _ hlt] at hbyte
    exact (hbs _ (List.getElem_mem hlt)).1 hbyte
  · intro hshort k
    by_cases hk : k < nameLength b o
    · rw [if_pos hk]
      exact h k hk
    · rw [if_neg hk, List.getD_eq_default _ _ (by omega)]

/-- Of two records with the same head, the component is the complete name of both or of none that
is taken. -/
theorem Bears.of_entry (h : Bears bs b o') (hentry : entryAt b o = entryAt b o')
    (hlen : bs.length ≤ 152) (hbegins : Begins (stored bs) b o) : Bears bs b o := by
  have hlength : nameLength b o = nameLength b o' := by
    unfold nameLength unitsAt
    rw [hentry]
  rw [stored_eq hlen] at hbegins
  intro k
  by_cases hk : k < nameLength b o
  · rw [if_pos hk]
    exact hbegins k hk
  · rw [if_neg hk]
    exact (h k).trans (if_neg (hlength ▸ hk))

end Names

/-- **The search keeps to the directory**: each free record that it passes lies in one block, and
none has further units if no record is taken. -/
structure Steady (dbuf b : ℕ → UInt8) (rs : List ℕ) : Prop where
  oneBlock : ∀ r ∈ passed dbuf b rs, IsFree b r → (endAt b r - 1) / 512 = r / 512
  counted : (∀ r ∈ rs, ¬ Taken dbuf b r) → ∀ r ∈ rs, IsFree b r → unitsAt b r = 0

/-! ### A whole directory -/

namespace Directory

variable {ι : Type*} [DecidableEq ι] (dir : Directory ι)

/-- The directory as a file. -/
def any : AnyDirectory := ⟨dir.d.fs, dir.d.inodes dir.i, dir.f, dir.located, dir.dvd_size⟩

/-- **The component is looked up right**: the search ends, and either goes on with the inode number
of a record in use, the one read last, whose complete name is the component, or there is none and
it fails with `ENOENT`. -/
def LooksUp (u : User) (curchar : UInt8) (bs : List UInt8) : Prop :=
  ∃ fuel outcome last s,
    component fuel .OPEN dir.d.fs (dir.d.inodes dir.i) u [] curchar = .ok (outcome, last, s) ∧
    ((∃ r ∈ dir.records, ¬ IsFree dir.f.bytes r ∧ Bears bs dir.f.bytes r ∧
        s.u.uDent = entryAt dir.f.bytes r ∧ outcome = .next (entryAt dir.f.bytes r).mIno) ∨
      (∀ r ∈ dir.records, ¬ IsFree dir.f.bytes r → ¬ Bears bs dir.f.bytes r) ∧
        outcome = .failed ∧ s.fs.uError = .ENOENT)

variable {dir} {u : User} {dbuf : ℕ → UInt8} {dirp : List UInt8} {fuel : ℕ} {found : Bool}
  {s : Search}

theorem start_shows : Shows dir.any (dir.start u dbuf dirp) (Spot.start dir.f u dbuf dirp) :=
  shows_start dir.any u dbuf dirp

theorem not_taken_of_mem {r : ℕ} (hr : r ∈ passed dbuf dir.f.bytes dir.records) :
    ¬ Taken dbuf dir.f.bytes r := by
  simpa using List.mem_takeWhile_imp hr

/-- The directory in front of the record that is taken, and from there on. -/
theorem split_taken {m : ℕ} (hm : dir.records.find? (Taken dbuf dir.f.bytes ·) = some m) :
    Taken dbuf dir.f.bytes m ∧
      ∃ rest, dir.records = passed dbuf dir.f.bytes dir.records ++ m :: rest := by
  obtain ⟨htaken, l, rest, hsplit, hl⟩ := List.find?_eq_some_iff_append.mp hm
  have htaken : Taken dbuf dir.f.bytes m := by simpa using htaken
  refine ⟨htaken, rest, ?_⟩
  have hpassed : passed dbuf dir.f.bytes dir.records = l := by
    unfold passed
    rw [hsplit, List.takeWhile_append_of_pos fun q hq => by simpa using hl q hq,
      List.takeWhile_cons_of_neg (by simpa using htaken), List.append_nil]
  rw [hpassed]
  exact hsplit

/-- Nothing is taken, and all records are passed. -/
theorem passed_eq (hnone : ∀ r ∈ dir.records, ¬ Taken dbuf dir.f.bytes r) :
    passed dbuf dir.f.bytes dir.records = dir.records :=
  List.takeWhile_eq_self_iff.mpr fun r hr => by simpa using hnone r hr

omit [DecidableEq ι] in
/-- A search ends in one way only. -/
theorem scan_unique {fuel' : ℕ} {found' : Bool} {s₀ s' : Search}
    (h : scan fuel s₀ = .ok (found, s)) (h' : scan fuel' s₀ = .ok (found', s')) :
    found = found' ∧ s = s' := by
  have hlong := scan_mono h fuel'
  rw [Nat.add_comm, scan_mono h' fuel] at hlong
  obtain ⟨rfl, rfl⟩ := Prod.mk.inj (Except.ok.inj hlong)
  exact ⟨rfl, rfl⟩

/-! ### The search -/

/-- **A record is taken**, unless a free one in front of it stops the search. -/
theorem scan_taken (u : User) (dirp : List UInt8)
    (hsteady : Steady dbuf dir.f.bytes dir.records) {m : ℕ}
    (hm : dir.records.find? (Taken dbuf dir.f.bytes ·) = some m) :
    ((∃ fuel found s, scan fuel (dir.start u dbuf dirp) = .ok (found, s)) ↔
        Awake dirp dir.f.bytes (passed dbuf dir.f.bytes dir.records)) ∧
      ∀ fuel found s, scan fuel (dir.start u dbuf dirp) = .ok (found, s) →
        found = true ∧ s.u.uDent = entryAt dir.f.bytes m := by
  have hshows : Shows dir.any (dir.start u dbuf dirp) (Spot.start dir.f u dbuf dirp) := start_shows
  have hstart : InStep dir.any.f 0 0 (Spot.start dir.f u dbuf dirp) :=
    inStep_start dir.dvd_size u dbuf dirp
  obtain ⟨htaken, rest, hsplit⟩ := split_taken hm
  have hframed : Framed dir.any.f.bytes dir.any.f.size 0
      (passed dbuf dir.f.bytes dir.records ++ m :: rest) := hsplit ▸ dir.framed_f
  have hnot : ∀ q ∈ passed dbuf dir.f.bytes dir.records, ¬ Taken dbuf dir.f.bytes q :=
    fun q hq => not_taken_of_mem hq
  have hawake : (∃ fuel found s, scan fuel (dir.start u dbuf dirp) = .ok (found, s)) →
      Awake dirp dir.f.bytes (passed dbuf dir.f.bytes dir.records) := by
    rintro ⟨fuel, found, s, hscan⟩
    obtain ⟨m', hbefore, hm', -, hafter⟩ := Framed.append.mp hframed
    subst hm'
    exact hshows.awake hstart (dvd_zero _) hbefore (lt_of_lt_of_le lt_endAt hafter.le) hnot
      hsteady.oneBlock rfl hscan
  have hfound : Awake dirp dir.f.bytes (passed dbuf dir.f.bytes dir.records) →
      ∃ fuel s, scan fuel (dir.start u dbuf dirp) = .ok (true, s) ∧
        s.u.uDent = entryAt dir.f.bytes m := fun hawake =>
    hshows.takes hstart (dvd_zero _) hframed le_rfl hnot hsteady.oneBlock hawake htaken
  refine ⟨⟨hawake, fun h => ?_⟩, fun fuel found s hscan => ?_⟩
  · obtain ⟨fuel, s, hscan, -⟩ := hfound h
    exact ⟨fuel, true, s, hscan⟩
  · obtain ⟨fuel', s', hscan', hdent⟩ := hfound (hawake ⟨fuel, found, s, hscan⟩)
    obtain ⟨rfl, rfl⟩ := scan_unique hscan hscan'
    exact ⟨rfl, hdent⟩

/-- Free records without further units are large enough for a short rest of the path. -/
theorem large_iff {L r : ℕ} (hunits : IsFree dir.f.bytes r → unitsAt dir.f.bytes r = 0) :
    Large dir.f.bytes L r ↔ IsFree dir.f.bytes r ∧ L ≤ 24 := by
  refine and_congr_right fun hfree => ?_
  rw [hunits hfree]
  omega

theorem find?_large {L : ℕ} (hL : L ≤ 24)
    (hunits : ∀ r ∈ dir.records, IsFree dir.f.bytes r → unitsAt dir.f.bytes r = 0) :
    dir.records.find? (Large dir.f.bytes L ·) = dir.records.find? (IsFree dir.f.bytes ·) := by
  refine List.find?_congr fun r hr => ?_
  rw [Bool.eq_iff_iff, decide_eq_true_iff, decide_eq_true_iff, large_iff (hunits r hr)]
  exact and_iff_left hL

/-- **No record is taken**, and the search counts to the end, unless a free record stops it. -/
theorem scan_none (u : User) (dirp : List UInt8) (hsteady : Steady dbuf dir.f.bytes dir.records)
    (hnone : ∀ r ∈ dir.records, ¬ Taken dbuf dir.f.bytes r) :
    ((∃ fuel found s, scan fuel (dir.start u dbuf dirp) = .ok (found, s)) ↔
        Awake dirp dir.f.bytes dir.records) ∧
      ∀ fuel found s, scan fuel (dir.start u dbuf dirp) = .ok (found, s) → found = false := by
  have hshows : Shows dir.any (dir.start u dbuf dirp) (Spot.start dir.f u dbuf dirp) := start_shows
  have hstart : InStep dir.any.f 0 0 (Spot.start dir.f u dbuf dirp) :=
    inStep_start dir.dvd_size u dbuf dirp
  have hunits := hsteady.counted hnone
  have hlive : ∀ r ∈ dir.records, ¬ IsFree dir.f.bytes r → ¬ Begins dbuf dir.f.bytes r :=
    fun r hr hfree hbegins => hnone r hr ⟨hfree, hbegins⟩
  have hunits' : ∀ r ∈ dir.records, IsFree dir.f.bytes r →
      (entryAt dir.f.bytes r).mAdditionEsize = 0 := fun r hr hfree => by
    rw [(dir.framed_f.bounds hr).2.2.1.mAdditionEsize_eq, hunits r hr hfree]
    rfl
  -- a search that ends is not stopped
  have hawake : (∃ fuel found s, scan fuel (dir.start u dbuf dirp) = .ok (found, s)) →
      Awake dirp dir.f.bytes dir.records := by
    rintro ⟨fuel, found, s, hscan⟩ hfree
    obtain ⟨L, hL⟩ : ∃ L, stringLength dirp = .ok L :=
      hshows.measured hstart (dvd_zero _) dir.framed_f le_rfl hnone rfl hscan hfree
    refine ⟨L, hL, fun r hr => ?_⟩
    have hmem := List.mem_of_find?_eq_some hr
    obtain ⟨hfreer, hshort⟩ := (large_iff (hunits r hmem)).mp (by simpa using List.find?_some hr)
    rw [find?_large hshort hunits] at hr
    by_contra hnot
    have hsleeps : Sleeps r := by
      unfold unitBehind at hnot
      exact ⟨by omega, by omega⟩
    obtain ⟨n, hstop⟩ := scan_sleeps (u := u) hL hshort hlive hr (hunits' r hmem hfreer) hsleeps
    have hturns := scan_mono hscan n
    rw [hstop] at hturns
    cases hturns
  -- and one that is not stopped ends
  have hends : Awake dirp dir.f.bytes dir.records →
      ∃ fuel s, scan fuel (dir.start u dbuf dirp) = .ok (false, s) := by
    intro hawake
    by_cases hfree : ∃ r ∈ dir.records, IsFree dir.f.bytes r
    · obtain ⟨L, hL, hcalm⟩ := hawake hfree
      have hcalm' : L ≤ 24 → ∀ r, dir.records.find? (IsFree dir.f.bytes ·) = some r →
          ¬ Sleeps r := by
        intro hshort r hr hsleeps
        have hother := hcalm r ((find?_large hshort hunits).trans hr)
        have h32 := (dir.framed_f.bounds (List.mem_of_find?_eq_some hr)).2.2.2 (dvd_zero _)
        have h512 := hsleeps.1
        have hmod := hsleeps.2
        unfold unitBehind at hother
        omega
      obtain ⟨fuel, s, hscan, -⟩ :=
        scansOnce_of (u := u) hL ⟨hlive, hunits', fun _ => hcalm'⟩
      exact ⟨fuel, s, hscan⟩
    · obtain ⟨s, t, slack, hpass, hshows', hin, -, -, hslack, -⟩ :=
        hshows.pass hstart (dvd_zero _) dir.framed_f le_rfl hnone
          (fun r hr hfreer => absurd ⟨r, hr, hfreer⟩ hfree) (fun _ => hawake)
          fun L r hr hlarge => absurd ⟨r, hr, hlarge.1⟩ hfree
      obtain rfl := hslack fun r hr hfreer => hfree ⟨r, hr, hfreer⟩
      have hcount : s.u.mCount = 0 := by
        have hcount : 32 * t.u.mCount = dir.f.size - dir.f.size + 32 * (0 : ℕ) := hin.mCount_eq
        rw [hshows'.u_eq]
        omega
      exact ⟨0 + dir.records.length, s, (hpass 0).trans (scan_end 0 hcount)⟩
  refine ⟨⟨hawake, fun h => ?_⟩, fun fuel found s hscan => ?_⟩
  · obtain ⟨fuel, s, hscan⟩ := hends h
    exact ⟨fuel, false, s, hscan⟩
  · obtain ⟨fuel', s', hscan'⟩ := hends (hawake ⟨fuel, found, s, hscan⟩)
    exact (scan_unique hscan hscan').1

/-! ### The component -/

section Component

variable {bs rest : List UInt8} {c curchar last : UInt8} {s₀ : Search} {fs : FsState} {ino : Inode}

omit [DecidableEq ι] in
/-- The search with which the turn begins. -/
theorem beginSearch_start (hbs : ∀ b ∈ bs, b ≠ 0 ∧ b ≠ slash) (hc : c = slash ∨ c = 0)
    (hchars : curchar :: u.uDirp = bs ++ c :: rest)
    (h : beginSearch fs ino u [] curchar = .ok (none, last, s₀)) :
    s₀ = startSearch fs ino u (stored bs) s₀.u.uDirp := by
  obtain ⟨dbuf, pChar, hcopy, hstored⟩ := copyComponent_stored u.uDbuf hbs hc hchars
  unfold beginSearch at h
  dsimp only at h
  split at h
  · cases h
  · split at h
    · cases h
    · rw [hcopy, Except.ok_bind] at h
      obtain ⟨⟨last', dirp'⟩, -, h⟩ := Except.bind_eq_ok.mp h
      dsimp only at h
      rw [hstored] at h
      cases h
      rfl

omit [DecidableEq ι] in
/-- What a turn of `NameI` makes of the search. -/
theorem component_open (hbegin : beginSearch fs ino u [] curchar = .ok (none, last, s₀)) :
    component fuel .OPEN fs ino u [] curchar = (do
      let (found, s) ← scan fuel s₀
      let s := FileManager.brelse s s.pBuf
      return if found then (.next s.u.uDent.mIno, last, s)
        else (.failed, last, { s with fs := { s.fs with uError := .ENOENT } })) := by
  unfold component
  rw [hbegin, Except.ok_bind]
  dsimp only
  congr 1
  funext r
  obtain ⟨found, s⟩ := r
  cases found <;> rfl

/-- **When a component is looked up right**, in a directory to which the search keeps: it is not
stopped by a free record, and the first record that it takes has room for the whole component. -/
theorem looksUp_iff (hbs : ∀ b ∈ bs, b ≠ 0 ∧ b ≠ slash) (hlen : bs.length ≤ 152)
    (hc : c = slash ∨ c = 0) (hchars : curchar :: u.uDirp = bs ++ c :: rest)
    (hbegin : beginSearch dir.d.fs (dir.d.inodes dir.i) u [] curchar = .ok (none, last, s₀))
    (hsteady : Steady (stored bs) dir.f.bytes dir.records) :
    dir.LooksUp u curchar bs ↔
      Awake s₀.u.uDirp dir.f.bytes (passed (stored bs) dir.f.bytes dir.records) ∧
      ∀ m, dir.records.find? (Taken (stored bs) dir.f.bytes ·) = some m →
        bs.length ≤ nameLength dir.f.bytes m := by
  obtain ⟨dirp, rfl⟩ : ∃ dirp, s₀ = dir.start u (stored bs) dirp :=
    ⟨_, beginSearch_start hbs hc hchars hbegin⟩
  change _ ↔ Awake dirp _ _ ∧ _
  cases hfind : dir.records.find? (Taken (stored bs) dir.f.bytes ·) with
  | some m =>
    obtain ⟨hends, hresult⟩ := scan_taken u dirp hsteady hfind
    obtain ⟨htaken, -⟩ := split_taken hfind
    have hbears := htaken.2.bears_iff hbs hlen
    constructor
    · rintro ⟨fuel, outcome, last', s, hrun, hright⟩
      rw [component_open hbegin] at hrun
      obtain ⟨⟨found, s₁⟩, hscan, hrun⟩ := Except.bind_eq_ok.mp hrun
      obtain ⟨rfl, hdent⟩ := hresult _ _ _ hscan
      cases hrun
      refine ⟨hends.mp ⟨_, _, _, hscan⟩, fun m' hm' => ?_⟩
      obtain rfl := Option.some.inj hm'
      rcases hright with ⟨r, -, -, hr, hdent', -⟩ | ⟨-, hfailed, -⟩
      · exact hbears.mp (hr.of_entry (hdent.symm.trans hdent') hlen htaken.2)
      · cases hfailed
    · rintro ⟨hawake, hlong⟩
      obtain ⟨fuel, found, s, hscan⟩ := hends.mpr hawake
      obtain ⟨rfl, hdent⟩ := hresult _ _ _ hscan
      refine ⟨fuel, .next s.u.uDent.mIno, last, FileManager.brelse s s.pBuf, ?_, .inl ⟨m,
        List.mem_of_find?_eq_some hfind, htaken.1, hbears.mpr (hlong m rfl), hdent, by rw [hdent]⟩⟩
      rw [component_open hbegin, hscan]
      rfl
  | none =>
    have hnone : ∀ r ∈ dir.records, ¬ Taken (stored bs) dir.f.bytes r := fun r hr => by
      simpa using List.find?_eq_none.mp hfind r hr
    obtain ⟨hends, hresult⟩ := scan_none u dirp hsteady hnone
    rw [passed_eq hnone]
    constructor
    · rintro ⟨fuel, outcome, last', s, hrun, -⟩
      rw [component_open hbegin] at hrun
      obtain ⟨⟨found, s₁⟩, hscan, -⟩ := Except.bind_eq_ok.mp hrun
      exact ⟨hends.mp ⟨_, _, _, hscan⟩, fun m hm => by cases hm⟩
    · rintro ⟨hawake, -⟩
      obtain ⟨fuel, found, s, hscan⟩ := hends.mpr hawake
      obtain rfl := hresult _ _ _ hscan
      refine ⟨fuel, .failed, last, (fail (FileManager.brelse s s.pBuf) .ENOENT).2, ?_,
        .inr ⟨fun r hr hfree hr' => ?_, rfl, rfl⟩⟩
      · rw [component_open hbegin, hscan]
        rfl
      · exact hnone r hr ⟨hfree, hr'.begins hlen⟩

omit [DecidableEq ι] in
/-- The superuser may search a directory. -/
theorem exists_begin (fs : FsState) (hmode : ino.iMode = 0x41FF) (huid : u.uUid = 0)
    (hbs : ∀ b ∈ bs, b ≠ 0 ∧ b ≠ slash) (hchars : curchar :: u.uDirp = bs ++ 0 :: rest) :
    ∃ s₀, beginSearch fs ino u [] curchar = .ok (none, 0, s₀) ∧ s₀.u.uDirp = rest := by
  obtain ⟨dbuf, pChar, hcopy, -⟩ := copyComponent_stored u.uDbuf hbs (.inr rfl) hchars
  have hskip : skipSlashes 0 rest = .ok (0, rest) := by
    rw [skipSlashes.eq_def, if_neg (by decide)]
  have hdir : ¬ ino.iMode &&& IFMT ≠ 0x4000 := by
    rw [hmode]
    decide
  have haccess : ¬ (access { startSearch fs ino u u.uDbuf u.uDirp with busy := [] }
      IEXEC).isSome := by
    have hnowrite : IEXEC ≠ IWRITE := by decide
    have hallowed : (0x41FF : UInt32) &&& (IEXEC ||| IEXEC >>> 3 ||| IEXEC >>> 6) ≠ 0 := by decide
    unfold access startSearch
    dsimp only
    rw [if_neg fun h => hnowrite h.1, if_pos huid, hmode, if_neg fun h => hallowed h.2]
    decide
  unfold beginSearch
  dsimp only
  rw [if_neg hdir, if_neg haccess, hcopy, Except.ok_bind]
  dsimp only
  rw [hskip]
  exact ⟨_, rfl, rfl⟩

/-- One record in use whose name is as many times `a`. -/
def oneName (n : ℕ) : FlatFile :=
  FlatFile.new.write 0 32 fun k => if k = 0 then 1 else if 4 ≤ k ∧ k < 4 + n then 97 else 0

/-- **A name that fills its record is taken for every longer one.** -/
theorem not_looksUp : ¬ ∀ (dir : Directory Unit) (u : User) (bs rest : List UInt8)
    (c curchar last : UInt8) (s₀ : Search), bs ≠ [] → (∀ b ∈ bs, b ≠ 0 ∧ b ≠ slash) →
    bs.length ≤ 152 → c = slash ∨ c = 0 → curchar :: u.uDirp = bs ++ c :: rest →
    beginSearch dir.d.fs (dir.d.inodes dir.i) u [] curchar = .ok (none, last, s₀) →
      dir.LooksUp u curchar bs := by
  intro hall
  have hframed : Framed (oneName 24).bytes 32 0 [0] := by decide
  obtain ⟨dir, hf, hrecords, hmode⟩ := exists_directory (by decide) hframed
  have hbs : ∀ b ∈ List.replicate 25 (97 : UInt8), b ≠ 0 ∧ b ≠ slash := by
    intro b hb
    rw [List.eq_of_mem_replicate hb]
    decide
  have hchars : 97 :: (rootUser (List.replicate 24 97 ++ [0])).uDirp =
      List.replicate 25 (97 : UInt8) ++ 0 :: [] := rfl
  obtain ⟨s₀, hbegin, -⟩ := exists_begin dir.d.fs hmode rfl hbs hchars
  have htaken : Taken (stored (List.replicate 25 97)) dir.f.bytes 0 := by
    rw [hf]
    decide
  have hfind : dir.records.find? (Taken (stored (List.replicate 25 97)) dir.f.bytes ·) =
      some 0 := by
    rw [hrecords]
    exact List.find?_cons_of_pos (by simpa using htaken)
  have hsteady : Steady (stored (List.replicate 25 97)) dir.f.bytes dir.records := by
    refine ⟨fun r hr hfree => ?_, fun hnone => absurd htaken (hnone 0 (by simp [hrecords]))⟩
    have hmem := (List.takeWhile_sublist _).subset hr
    rw [hrecords, List.mem_singleton] at hmem
    exact absurd hfree (hmem ▸ htaken.1)
  obtain ⟨fuel, outcome, last, s, hrun, hright⟩ :=
    hall dir _ _ [] 0 97 0 s₀ (by decide) hbs (by decide) (.inr rfl) hchars hbegin
  rw [component_open hbegin] at hrun
  obtain ⟨⟨found, s₁⟩, hscan, hrun⟩ := Except.bind_eq_ok.mp hrun
  rw [beginSearch_start hbs (.inr rfl) hchars hbegin] at hscan
  obtain ⟨rfl, -⟩ := (scan_taken _ _ hsteady hfind).2 _ _ _ hscan
  cases hrun
  rcases hright with ⟨r, hr, -, hbears, -⟩ | ⟨-, hfailed, -⟩
  · rw [hrecords, List.mem_singleton] at hr
    rw [hr] at hbears
    have hlong := (htaken.2.bears_iff hbs (by decide)).mp hbears
    rw [hf] at hlong
    revert hlong
    decide
  · cases hfailed

/-- The name `a` is found. -/
theorem looksUp_iff_a : ∃ dir : Directory Unit, dir.records = [0] ∧
    dir.LooksUp (rootUser [0]) 97 [97] := by
  have hframed : Framed (oneName 1).bytes 32 0 [0] := by decide
  obtain ⟨dir, hf, hrecords, hmode⟩ := exists_directory (by decide) hframed
  have hbs : ∀ b ∈ [(97 : UInt8)], b ≠ 0 ∧ b ≠ slash := by
    intro b hb
    rw [List.mem_singleton.mp hb]
    decide
  obtain ⟨s₀, hbegin, -⟩ := exists_begin dir.d.fs hmode rfl hbs
    (show 97 :: (rootUser [0]).uDirp = [97] ++ 0 :: [] from rfl)
  have hlive : ∀ r ∈ dir.records, ¬ IsFree dir.f.bytes r := by
    intro r hr
    rw [hrecords, List.mem_singleton] at hr
    rw [hr, hf]
    decide
  have hpassed : ∀ r ∈ passed (stored [97]) dir.f.bytes dir.records, ¬ IsFree dir.f.bytes r :=
    fun r hr => hlive r ((List.takeWhile_sublist _).subset hr)
  refine ⟨dir, hrecords, (looksUp_iff hbs (by decide) (.inr rfl) rfl hbegin ⟨?_, ?_⟩).mpr ⟨?_, ?_⟩⟩
  · exact fun r hr hfree => absurd hfree (hpassed r hr)
  · exact fun _ r hr hfree => absurd hfree (hlive r hr)
  · exact fun ⟨r, hr, hfree⟩ => absurd hfree (hpassed r hr)
  · intro m _
    unfold nameLength
    have hlen : [(97 : UInt8)].length = 1 := rfl
    omega

end Component

end Directory

end FileManager
end UnixV6pp
