import UnixV6pp.Fs.SlotCalls

/-!
# Old and new directories under the same calls

Two devices, one with a directory in the old format and one in the new, both empty at first,
see the same calls of a process that knows only names of at most 24 bytes.  They go on
together: the same results, and the same map from names to files, wherever the records lie.

There is one exception.  At the first free record the new search measures the characters
behind the path, and when the record is large enough for them it reads the block of the unit
behind while it still has the buffer of its own block.  If these are one block it waits for
itself.  So the two agree as long as no search of the new version is `Blocked`.

## Main definitions

* `Disk.file` — the contents of the directory; `Oos1.Names`, `Names` — what its records say.
* `Blocked`, `Clear` — when a search, or a call, of the new version does not come to an end.
* `Both`, `Step` — two devices under the same calls.

## Main results

* `call_stops` — a call that is not clear does not end.
* `sameDirectory_run` — **the two directories agree in every run of clear calls.**
-/

namespace UnixV6pp

open Words FileSystem Inode BufferManager DirectoryEntry

namespace FileManager

variable {ι : Type} [DecidableEq ι]

/-! ### What a directory says -/

/-- The contents of the directory. -/
def Disk.file (disk : Disk ι) (i : ι) : FlatFile where
  size := (disk.d.inodes i).iSize.toNat
  bytes o := if o < (disk.d.inodes i).iSize.toNat then disk.d.view.byte i o else 0
  zero_of_le _ ho := if_neg (not_lt.mpr ho)

/-- An entry of the old directory gives the file `n` this name. -/
def Oos1.Names (f : FlatFile) (name : Name) (n : ℤ) : Prop :=
  n ≠ 0 ∧ ∃ k, 32 * k < f.size ∧ Oos1.ofBytes (fun j => f.bytes (32 * k + j)) = ⟨n, name.pad, 0⟩

/-- A record of the new directory gives the file `n` this name. -/
def Names (f : FlatFile) (name : Name) (n : ℤ) : Prop :=
  n ≠ 0 ∧ ∃ records, Framed f.bytes f.size 0 records ∧
    ∃ o ∈ records, entryAt f.bytes o = ⟨n, name.pad, 0⟩

/-- The search of the new version does not come past the first free record, if this is in front
of the record with the name. -/
def Blocked (f : FlatFile) (p : Path) : Prop :=
  ∃ k, 32 * k < f.size ∧ IsFree f.bytes (32 * k) ∧ Waits p.dirp k ∧ ∀ j < k,
    ¬ IsFree f.bytes (32 * j) ∧ ∀ n, entryAt f.bytes (32 * j) ≠ ⟨n, p.name.pad, 0⟩

/-- No search of the call is blocked. -/
def Clear (disk : Disk ι) (i : ι) (uid gid : ℤ) : DirCall → Prop
  | .lookup p | .creat p _ _ _ _ | .unlink p _ =>
    Searchable (guardOf disk.d.fs (disk.d.inodes i)) uid gid → ¬ Blocked (disk.file i) p
  | .link old new _ =>
    Searchable (guardOf disk.d.fs (disk.d.inodes i)) uid gid → ¬ Blocked (disk.file i) old ∧
      ∀ found, Names (disk.file i) old.name found → linkError uid (disk.nodes found) = none →
        ¬ Blocked (disk.file i) new

section Says

variable {f : FlatFile} {slots : List Slot} {m : Entries} {name : Name} {n : ℤ} {p : Path} {k : ℕ}

/-- What tells the slot of a name, however the slot is read. -/
theorem Slot.entry_iff {slot : Slot} {dent : DirectoryEntry} (hmIno : dent.mIno = slot.mIno)
    (hlive : ∀ e, slot = some e → dent = ⟨e.2, e.1.pad, 0⟩) (hn : n ≠ 0) :
    dent = ⟨n, name.pad, 0⟩ ↔ slot = some (name, n) := by
  cases slot with
  | none =>
    refine iff_of_false ?_ nofun
    rintro rfl
    exact hn hmIno
  | some e =>
    rw [hlive e rfl]
    simp only [DirectoryEntry.mk.injEq, and_true, Option.some.injEq, Prod.ext_iff]
    refine and_comm.trans (and_congr_left fun _ => ?_)
    rw [← Name.pad_inj]
    exact ⟨fun hpad k _ => congrFun hpad k, fun hpad => congrArg Name.pad (Name.pad_inj.mp hpad)⟩

/-- A slot with this name, read as an old entry. -/
theorem IsSlot.oldEntry_iff {slot : Slot} (h : IsSlot f.bytes (32 * k) slot) (hn : n ≠ 0) :
    Oos1.ofBytes (fun j => f.bytes (32 * k + j)) = ⟨n, name.pad, 0⟩ ↔ slot = some (name, n) := by
  refine Slot.entry_iff h.oldEntry_mIno ?_ hn
  rintro e rfl
  exact h.oldEntry_eq

/-- A slot with this name, read as a new record. -/
theorem IsSlot.newEntry_iff {slot : Slot} (h : IsSlot f.bytes (32 * k) slot) (hn : n ≠ 0) :
    entryAt f.bytes (32 * k) = ⟨n, name.pad, 0⟩ ↔ slot = some (name, n) := by
  refine Slot.entry_iff h.entryAt_mIno ?_ hn
  rintro e rfl
  exact h.entryAt_eq

theorem Layout.lt_size_iff (h : Layout f slots) : 32 * k < f.size ↔ k < slots.length := by
  have hsize := h.size_eq
  omega

/-- The number of a file in the map is not zero. -/
theorem Lists.ne_zero (hm : Lists slots m) (h : Layout f slots) (hn : m name = some n) : n ≠ 0 := by
  rcases (hm.mem_iff name n).mp hn with ⟨k, hk⟩
  exact ((h.slot k _ hk).entry _ rfl).1

/-- **The old directory** says what the slots list. -/
theorem Layout.oldNames_iff (h : Layout f slots) (hm : Lists slots m) :
    Oos1.Names f name n ↔ m name = some n := by
  constructor
  · rintro ⟨hn, k, hlt, heq⟩
    have hk := h.lt_size_iff.mp hlt
    refine (hm.mem_iff name n).mpr ⟨k, ?_⟩
    rw [List.getElem?_eq_getElem hk, ((h.get hk).oldEntry_iff hn).mp heq]
  · intro hn
    rcases (hm.mem_iff name n).mp hn with ⟨k, hk⟩
    exact ⟨hm.ne_zero h hn, k, h.lt_size hk, ((h.slot k _ hk).oldEntry_iff (hm.ne_zero h hn)).mpr rfl⟩

/-- The records of a directory of short names are its slots. -/
theorem Layout.records_eq (h : Layout f slots) {m : ℕ} (hk : k + m = slots.length)
    {records : List ℕ} (hframed : Framed f.bytes f.size (32 * k) records) :
    records = (List.range' k m).map (32 * ·) := by
  have hsize := h.size_eq
  induction m generalizing k records with
  | zero =>
    cases records with
    | nil => rfl
    | cons r rs =>
      -- a record behind the last slot ends behind the directory
      have hle := hframed.2.2.le
      rw [endAt] at hle
      omega
  | succ m ih =>
    cases records with
    | nil =>
      have hend : 32 * k = f.size := hframed
      omega
    | cons r rs =>
      rcases hframed with ⟨rfl, -, hrest⟩
      rw [(h.get (show k < slots.length by omega)).endAt] at hrest
      rw [ih (show k + 1 + m = slots.length by omega) hrest, List.range'_succ, List.map_cons]

/-- **The new directory** says what the slots list. -/
theorem Layout.names_iff (h : Layout f slots) (hm : Lists slots m) :
    Names f name n ↔ m name = some n := by
  constructor
  · rintro ⟨hn, records, hframed, o, ho, heq⟩
    rw [h.records_eq (Nat.zero_add _) hframed] at ho
    rcases List.mem_map.mp ho with ⟨k, hk, rfl⟩
    have hlt : k < slots.length := by simpa using hk
    refine (hm.mem_iff name n).mpr ⟨k, ?_⟩
    rw [List.getElem?_eq_getElem hlt, ((h.get hlt).newEntry_iff hn).mp heq]
  · intro hn
    rcases (hm.mem_iff name n).mp hn with ⟨k, hk⟩
    have hlt := (List.getElem?_eq_some_iff.mp hk).1
    refine ⟨hm.ne_zero h hn, _, h.framed slots.length (Nat.zero_add _), 32 * k, ?_,
      ((h.slot k _ hk).newEntry_iff (hm.ne_zero h hn)).mpr rfl⟩
    simpa using hlt

/-- A search that is blocked does not come past the first free slot. -/
theorem Layout.blocked_iff (h : Layout f slots) : Blocked f p ↔ ¬ newReading.Comes slots p := by
  have hfree {j : ℕ} (hj : j < slots.length) :
      IsFree f.bytes (32 * j) ↔ slots[j]? = some none := by
    simp [(h.get hj).isFree, hj]
  have hnamed {j : ℕ} (hj : j < slots.length) (hlive : slots[j]? ≠ some none) :
      (∀ n, entryAt f.bytes (32 * j) ≠ ⟨n, p.name.pad, 0⟩) ↔
        ∀ n, slots[j]? ≠ some (some (p.name, n)) := by
    refine forall_congr' fun n => not_congr ?_
    by_cases hn : n = 0
    · subst hn
      refine iff_of_false ?_ ?_
      · intro heq
        have hzero : IsFree f.bytes (32 * j) := congrArg mIno heq
        exact hlive ((hfree hj).mp hzero)
      · intro heq
        exact ((h.slot j _ heq).entry _ rfl).1 rfl
    · rw [(h.get hj).newEntry_iff hn, List.getElem?_eq_getElem hj, Option.some.injEq]
  simp only [Format.Reading.Comes, not_forall, not_not]
  constructor
  · rintro ⟨k, hlt, hk, hwaits, hbefore⟩
    have hlen := h.lt_size_iff.mp hlt
    have hlive : ∀ j < k, slots[j]? ≠ some none := fun j hj hnone =>
      (hbefore j hj).1 ((hfree (by omega)).mpr hnone)
    exact ⟨k, (hfree hlen).mp hk, hlive,
      fun j hj => (hnamed (by omega) (hlive j hj)).mp (hbefore j hj).2, hwaits⟩
  · rintro ⟨k, hk, hlive, hother, hwaits⟩
    have hlen := (List.getElem?_eq_some_iff.mp hk).1
    refine ⟨k, h.lt_size_iff.mpr hlen, (hfree hlen).mpr hk, hwaits, fun j hj => ⟨?_, ?_⟩⟩
    · exact fun hfree' => hlive j hj ((hfree (by omega)).mp hfree')
    · exact (hnamed (by omega) (hlive j hj)).mpr (hother j hj)

end Says

/-! ### Calls that do not come to an end -/

section Stops

variable {disk : Disk ι} {i : ι} {g : Guard} {slots : List Slot} {st : DirSpec.State}

omit [DecidableEq ι] in
/-- The contents of the directory are those of its file. -/
theorem Models.layout (h : Models disk i g slots st) : Layout (disk.file i) slots := by
  rcases h.files with ⟨F, hd, hl⟩
  have hsize : (disk.d.inodes i).iSize.toNat = (F i).size := by
    rw [hd.size_eq, Int.toNat_natCast]
  have hle := hd.size_le i
  refine ⟨hsize.trans hl.size_eq, fun k slot hk => (hl.slot k slot hk).congr fun j hj => ?_⟩
  have hlt : 32 * k < (F i).size := hl.lt_size hk
  have h32 := hl.size_eq
  exact (if_pos (by omega)).trans (hd.byte_eq i _ (by omega))

omit [DecidableEq ι] in
/-- A call is clear if its searches come to an end. -/
theorem Models.clear_iff (h : Models disk i g slots st) (uid gid : ℤ) (c : DirCall) :
    Clear disk i uid gid c ↔ Ends newReading g uid gid slots st c := by
  cases c <;>
    simp only [Clear, Ends, h.guard, h.layout.blocked_iff, not_not, h.layout.names_iff h.lists,
      h.nodes_eq]

/-- **A call that is not clear does not come to an end.** -/
theorem call_stops (h : Models disk i g slots st) (hroom : Roomy disk.d i) (buffer : ℤ → Block)
    (u : User) (c : DirCall) (hclear : ¬ Clear disk i u.uUid u.uGid c) :
    ∃ e, oos2.call buffer i u disk c = .error e := by
  rw [h.clear_iff] at hclear
  rcases h.files with ⟨F, hd, hl⟩
  have hstops {p : Path} (hends : ¬ (Searchable g u.uUid u.uGid → newReading.Comes slots p))
      (mode : DirectorySearchMode) : ∃ e, oos2.nameI i mode disk.d u p = .error e := by
    rcases Classical.not_imp.mp hends with ⟨hsearchable, hcomes⟩
    exact nameI_stops hd hl hroom u p (h.guard ▸ hsearchable) hcomes mode
  cases c with
  | lookup p =>
    rcases hstops hclear .OPEN with ⟨e, he⟩
    exact ⟨e, congrArg (· >>= _) he⟩
  | creat p last mode number hnumber =>
    rcases hstops hclear .CREATE with ⟨e, he⟩
    exact ⟨e, congrArg (· >>= _) he⟩
  | unlink p last =>
    rcases hstops hclear .DELETE with ⟨e, he⟩
    exact ⟨e, congrArg (· >>= _) he⟩
  | link old new last =>
    by_cases hold : Searchable g u.uUid u.uGid → newReading.Comes slots old
    · -- the second search
      simp only [Ends, Classical.not_imp, not_and, not_forall] at hclear
      rcases hclear with ⟨hsearchable, hnew⟩
      rcases hnew (hold hsearchable) with ⟨found, hfound, hlinked, hcomes⟩
      rcases h.nameI newReading hroom u old hold .OPEN with
        ⟨F', o, e, s, -, hl', hsearch, hnameI, herr, hs, -⟩
      have hnext : DirSpec.search g u.uUid u.uGid .OPEN old.next (st.entries old.name) =
          (.next found, .NOERROR) := by
        unfold DirSpec.search
        rw [if_neg (not_not.mpr hsearchable.1), hsearchable.2, hfound]
        rfl
      rw [hnext] at hsearch
      cases hsearch
      have hmodels := h.searched hl' hs
      rcases hmodels.files with ⟨F₁, hd₁, hl₁⟩
      have hsearchable₁ : Searchable (guardOf (disk.after i s.fs s.ino).d.fs
          ((disk.after i s.fs s.ino).d.inodes i)) s.u.uUid s.u.uGid := by
        rw [hmodels.guard, hs.user.1, hs.user.2]
        exact hsearchable
      rcases nameI_stops hd₁ hl₁ hs.roomy s.u new hsearchable₁ hcomes .CREATE with ⟨e, he⟩
      refine ⟨e, ?_⟩
      change oos2.link buffer i u old new disk = _
      rw [Format.link, hnameI, Except.ok_bind]
      dsimp only
      rw [if_neg (not_not.mpr herr), hs.user.1, h.nodes_eq, hlinked]
      exact congrArg (· >>= _) he
    · rcases hstops hold .OPEN with ⟨e, he⟩
      exact ⟨e, congrArg (· >>= _) he⟩

end Stops

/-! ### Two devices under the same calls -/

/-- A device with a directory in the old format, one with a directory in the new, and what the
calls so far have reported on the two. -/
structure Both (ι : Type) where
  old : Disk ι
  new : Disk ι
  replies : List (Result × Result)

/-- Something else has changed on the device, not the directory. -/
structure Quiet (i : ι) (disk disk' : Disk ι) : Prop where
  files : ∀ F, Holds disk.d F → ∃ F', Holds disk'.d F' ∧ F' i = F i
  guard : guardOf disk'.d.fs (disk'.d.inodes i) = guardOf disk.d.fs (disk.d.inodes i)
  nodes_eq : disk'.nodes = disk.nodes

inductive Label
  /-- A call of a process of this user and group. -/
  | call (c : DirCall) (uid gid : ℤ)
  | rest

/-- The same happens on both devices; the rest of the user structures and what is in the buffers
that are handed out may differ. -/
inductive Step (i : ι) : Both ι → Label → Both ι → Prop
  | call {s : Both ι} {c : DirCall} {uid gid : ℤ} {u₁ u₂ : User} {buffer₁ buffer₂ : ℤ → Block}
      {r₁ r₂ : Result} {disk₁ disk₂ : Disk ι} (user₁ : u₁.uUid = uid ∧ u₁.uGid = gid)
      (user₂ : u₂.uUid = uid ∧ u₂.uGid = gid)
      (heq₁ : oos1.call buffer₁ i u₁ s.old c = .ok (r₁, disk₁))
      (heq₂ : oos2.call buffer₂ i u₂ s.new c = .ok (r₂, disk₂)) :
      Step i s (.call c uid gid) ⟨disk₁, disk₂, s.replies ++ [(r₁, r₂)]⟩
  | rest {s : Both ι} {disk₁ disk₂ : Disk ι} (quiet₁ : Quiet i s.old disk₁)
      (quiet₂ : Quiet i s.new disk₂) : Step i s .rest ⟨disk₁, disk₂, s.replies⟩

/-- The directory is empty. -/
def Empty (i : ι) (disk : Disk ι) : Prop := ∃ F, Holds disk.d F ∧ (F i).size = 0

/-- Two empty directories that the same processes may use, and the same files besides. -/
structure Start (i : ι) (s : Both ι) : Prop where
  old : Empty i s.old
  new : Empty i s.new
  guard : guardOf s.old.d.fs (s.old.d.inodes i) = guardOf s.new.d.fs (s.new.d.inodes i)
  nodes_eq : s.old.nodes = s.new.nodes
  replies_eq : s.replies = []

/-- There is space on both devices. -/
def Space (i : ι) (s : Both ι) : Prop := Roomy s.old.d i ∧ Roomy s.new.d i

/-- A call is made when there is space, and is clear. -/
def ClearStep (i : ι) (s : Both ι) (l : Label) : Prop :=
  ∀ c uid gid, l = .call c uid gid → Space i s ∧ Clear s.new i uid gid c

/-- The directories list the same map, wherever the records lie. -/
structure Together (i : ι) (s : Both ι) : Prop where
  models : ∃ g st slots₁ slots₂, Models s.old i g slots₁ st ∧ Models s.new i g slots₂ st
  replies : ∀ r ∈ s.replies, r.1 = r.2

section Run

variable {i : ι} {s s' s₀ : Both ι} {disk : Disk ι} {g : Guard} {slots slots₁ slots₂ : List Slot}
  {st : DirSpec.State}

omit [DecidableEq ι] in
/-- An empty directory lists no names. -/
theorem Empty.models (h : Empty i disk) :
    Models disk i (guardOf disk.d.fs (disk.d.inodes i)) [] ⟨fun _ => none, disk.nodes⟩ := by
  rcases h with ⟨F, hd, hsize⟩
  exact ⟨⟨F, hd, hsize, by simp⟩, rfl, Lists.nil, rfl, nofun⟩

omit [DecidableEq ι] in
theorem Start.together (h : Start i s) : Together i s := by
  have hnew := h.new.models
  rw [← h.guard, ← h.nodes_eq] at hnew
  refine ⟨⟨_, _, [], [], h.old.models, hnew⟩, ?_⟩
  simp [h.replies_eq]

omit [DecidableEq ι] in
theorem Models.quiet (h : Models disk i g slots st) {disk' : Disk ι} (hquiet : Quiet i disk disk') :
    Models disk' i g slots st := by
  rcases h.files with ⟨F, hd, hl⟩
  rcases hquiet.files F hd with ⟨F', hd', heq⟩
  exact ⟨⟨F', hd', heq ▸ hl⟩, hquiet.guard.trans h.guard, h.lists, hquiet.nodes_eq.trans h.nodes_eq,
    h.numbers⟩

/-- The old version comes past every free slot. -/
theorem ends_old (g : Guard) (uid gid : ℤ) (slots : List Slot) (st : DirSpec.State) (c : DirCall) :
    Ends oldReading g uid gid slots st c := by
  have hcomes (p : Path) : oldReading.Comes slots p := fun _ _ _ _ => id
  cases c with
  | lookup p => exact fun _ => hcomes p
  | creat p last mode number hnumber => exact fun _ => hcomes p
  | link old new last => exact fun _ => ⟨hcomes old, fun _ _ _ => hcomes new⟩
  | unlink p last => exact fun _ => hcomes p

/-- **The same call on both devices**: the old version does it, and so does the new one if the
call is clear. -/
theorem both_call (h₁ : Models s.old i g slots₁ st) (h₂ : Models s.new i g slots₂ st)
    (hspace : Space i s) {u₁ u₂ : User} (huser : u₁.uUid = u₂.uUid ∧ u₁.uGid = u₂.uGid)
    (buffer₁ buffer₂ : ℤ → Block) (c : DirCall) :
    Does i g (oos1.call buffer₁ i u₁ s.old c) (DirSpec.call g u₂.uUid u₂.uGid st c) ∧
      (Clear s.new i u₂.uUid u₂.uGid c →
        Does i g (oos2.call buffer₂ i u₂ s.new c) (DirSpec.call g u₂.uUid u₂.uGid st c)) := by
  constructor
  · have hold := oldReading.call_spec h₁ hspace.1 buffer₁ u₁ c (ends_old _ _ _ _ _ _)
    rwa [huser.1, huser.2] at hold
  · intro hclear
    exact newReading.call_spec h₂ hspace.2 buffer₂ u₂ c ((h₂.clear_iff _ _ c).mp hclear)

/-- What one step preserves. -/
theorem Together.step (h : Together i s) {l : Label} (hok : ClearStep i s l) (hstep : Step i s l s') :
    Together i s' := by
  rcases h.models with ⟨g, st, slots₁, slots₂, h₁, h₂⟩
  cases hstep with
  | @call c uid gid u₁ u₂ buffer₁ buffer₂ r₁ r₂ disk₁ disk₂ user₁ user₂ heq₁ heq₂ =>
    rcases user₂ with ⟨rfl, rfl⟩
    rcases hok c _ _ rfl with ⟨hspace, hclear⟩
    rcases both_call h₁ h₂ hspace user₁ buffer₁ buffer₂ c with ⟨hold, hnew⟩
    rcases hold with ⟨_, hold, slots₁', h₁'⟩
    rcases hnew hclear with ⟨_, hnew, slots₂', h₂'⟩
    cases heq₁.symm.trans hold
    cases heq₂.symm.trans hnew
    refine ⟨⟨g, _, slots₁', slots₂', h₁', h₂'⟩, ?_⟩
    intro r hr
    rcases List.mem_append.mp hr with hr | hr
    · exact h.replies r hr
    · rw [List.mem_singleton.mp hr]
  | rest quiet₁ quiet₂ =>
    exact ⟨⟨g, st, slots₁, slots₂, h₁.quiet quiet₁, h₂.quiet quiet₂⟩, h.replies⟩

/-- **Old and new directories in every run of clear calls**: all calls have reported the same;
the two directories give the same files the same names; and any further call for which there is
space is completed by the old version, and by the new one if and only if it is clear, with the
same result. -/
theorem sameDirectory_run (h₀ : Start i s₀) (hrun : Runs (Step i) (ClearStep i) s₀ s) :
    (∀ r ∈ s.replies, r.1 = r.2) ∧
    (∀ name n, Oos1.Names (s.old.file i) name n ↔ Names (s.new.file i) name n) ∧
    (∀ name n n', Names (s.new.file i) name n → Names (s.new.file i) name n' → n = n') ∧
    s.old.nodes = s.new.nodes ∧
    ∀ c u₁ u₂ buffer₁ buffer₂, u₁.uUid = u₂.uUid ∧ u₁.uGid = u₂.uGid → Space i s →
      ∃ r disk₁, oos1.call buffer₁ i u₁ s.old c = .ok (r, disk₁) ∧
        (Clear s.new i u₂.uUid u₂.uGid c →
          ∃ disk₂, oos2.call buffer₂ i u₂ s.new c = .ok (r, disk₂)) ∧
        (¬ Clear s.new i u₂.uUid u₂.uGid c →
          ∃ e, oos2.call buffer₂ i u₂ s.new c = .error e) := by
  have htogether : Together i s :=
    hrun.invariant (I := Together i) (fun _ _ _ h hok hstep => h.step hok hstep) h₀.together
  rcases htogether.models with ⟨g, st, slots₁, slots₂, h₁, h₂⟩
  refine ⟨htogether.replies, ?_, ?_, h₁.nodes_eq.trans h₂.nodes_eq.symm, ?_⟩
  · intro name n
    rw [h₁.layout.oldNames_iff h₁.lists, h₂.layout.names_iff h₂.lists]
  · intro name n n' hn hn'
    rw [h₂.layout.names_iff h₂.lists] at hn hn'
    exact Option.some.inj (hn.symm.trans hn')
  · intro c u₁ u₂ buffer₁ buffer₂ huser hspace
    rcases both_call h₁ h₂ hspace huser buffer₁ buffer₂ c with ⟨⟨disk₁, hold, -⟩, hnew⟩
    refine ⟨_, disk₁, hold, fun hclear => ?_, fun hclear => ?_⟩
    · rcases hnew hclear with ⟨disk₂, hnew, -⟩
      exact ⟨disk₂, hnew⟩
    · exact call_stops h₂ hspace.2 buffer₂ u₂ c hclear

end Run

end FileManager
end UnixV6pp
