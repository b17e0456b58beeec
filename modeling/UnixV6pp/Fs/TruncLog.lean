import UnixV6pp.Fs.Truncate

/-!
# In which order `ITrunc` reads and frees

The loops of `ITrunc` once more, with a log of the calls of `Bread` and `Free`.  A
block that is freed may take up a group of free block numbers at once, so that an
index block has to be read before it is freed, and all of it has to be read from what
it held at the beginning.

* `Traced` — the file system and the log.
* `itrunc_log` — **every block of the file is freed once, and no other one.**
-/

namespace UnixV6pp
namespace Inode

open Words FileSystem IndexTree BufferManager

/-- The file system, and which blocks have been read (`enter`) and freed (`leave`) so far. -/
structure Traced where
  s : FsState
  log : List (Visit ℤ)

namespace Traced

variable (buffer : ℤ → Block)

/-- The log after a call of `Bread`. -/
def read (t : Traced) (b : ℤ) : Traced := { t with log := t.log ++ [.enter b] }

/-- `Free`, with the log. -/
def free (t : Traced) (b : ℤ) : Except Stop Traced := do
  let s ← FileSystem.free buffer t.s b
  return ⟨s, t.log ++ [.leave b]⟩

/-- `freeEntries`, with the log. -/
def freeEntries (table : ℕ → ℤ) : ℕ → Traced → Except Stop Traced
  | 0, t => .ok t
  | n + 1, t => do
    let t ← if table n ≠ 0 then t.free buffer (table n) else .ok t
    freeEntries table n t

/-- What `freeTables` does with one entry: the blocks below it, and then its own block. -/
def freeTable (double : Bool) (t : Traced) (b : ℤ) : Except Stop Traced :=
  if double then do
    let t ← freeEntries buffer (getInt (bread t.s b).bAddr) 128 (t.read b)
    t.free buffer b
  else t.free buffer b

/-- `freeTables`, with the log. -/
def freeTables (double : Bool) (first : ℕ → ℤ) : ℕ → Traced → Except Stop Traced
  | 0, t => .ok t
  | n + 1, t => do
    let t ← if first n ≠ 0 then t.freeTable buffer double (first n) else .ok t
    freeTables double first n t

/-- What `freeAddrs` does with the element at index `i`. -/
def freeTree (i : ℕ) (t : Traced) (b : ℤ) : Except Stop Traced :=
  if 6 ≤ i ∧ i ≤ 9 then do
    let t ← freeTables buffer (8 ≤ i ∧ i ≤ 9) (getInt (bread t.s b).bAddr) 128 (t.read b)
    t.free buffer b
  else t.free buffer b

/-- `freeAddrs`, with the log. -/
def freeAddrs : ℕ → Traced → Inode → Except Stop (Inode × Traced)
  | 0, t, ino => .ok (ino, t)
  | i + 1, t, ino => do
    if ino.iAddr i ≠ 0 then
      let t ← t.freeTree buffer i (ino.iAddr i)
      freeAddrs i t { ino with iAddr := Function.update ino.iAddr i 0 }
    else
      freeAddrs i t ino

/-- `Inode::ITrunc`, with the log. -/
def itrunc (s : FsState) (ino : Inode) : Except Stop (Inode × Traced) := do
  if ino.isDevice then
    return (ino, ⟨s, []⟩)
  let (ino, t) ← freeAddrs buffer 10 ⟨s, []⟩ ino
  return ({ ino with
    iSize := 0
    iFlag := ino.iFlag ||| IUPD
    iMode := ino.iMode &&& ~~~(ILARG &&& IRWXU &&& IRWXG &&& IRWXO)
    iNlink := 1 }, t)

/-! ### Without the log -/

variable {buffer} {blk : ℤ → Block} {table : ℕ → ℤ} {t t' t'' : Traced} {vs ws : List (Visit ℤ)} {b : ℤ}

theorem read_s (t : Traced) (b : ℤ) : (t.read b).s = t.s := rfl

theorem free_eq_ok (h : t.free buffer b = .ok t') : FileSystem.free buffer t.s b = .ok t'.s := by
  obtain ⟨s, hs, h⟩ := Except.bind_eq_ok.mp h
  cases h
  exact hs

theorem freeEntries_eq_ok {n : ℕ} (h : freeEntries buffer table n t = .ok t') :
    Inode.freeEntries buffer table n t.s = .ok t'.s := by
  induction n generalizing t with
  | zero =>
    cases h
    rfl
  | succ n ih =>
    unfold freeEntries at h
    unfold Inode.freeEntries
    dsimp only at h ⊢
    by_cases h0 : table n ≠ 0
    · rw [if_pos h0] at h ⊢
      obtain ⟨t₁, h₁, h⟩ := Except.bind_eq_ok.mp h
      exact Except.bind_eq_ok.mpr ⟨t₁.s, free_eq_ok h₁, ih h⟩
    · rw [if_neg h0] at h ⊢
      exact ih h

theorem freeTables_eq_ok {double : Bool} {n : ℕ} (h : freeTables buffer double table n t = .ok t') :
    Inode.freeTables buffer double table n t.s = .ok t'.s := by
  induction n generalizing t with
  | zero =>
    cases h
    rfl
  | succ n ih =>
    unfold freeTables freeTable at h
    unfold Inode.freeTables
    dsimp only at h ⊢
    by_cases h0 : table n ≠ 0
    · rw [if_pos h0] at h ⊢
      obtain ⟨t₂, h₂, h⟩ := Except.bind_eq_ok.mp h
      cases double with
      | false =>
        rw [if_neg Bool.false_ne_true, Except.ok_bind]
        exact Except.bind_eq_ok.mpr ⟨t₂.s, free_eq_ok h₂, ih h⟩
      | true =>
        rw [if_pos rfl] at h₂ ⊢
        obtain ⟨t₁, h₁, h₂⟩ := Except.bind_eq_ok.mp h₂
        have hentries := freeEntries_eq_ok h₁
        rw [read_s] at hentries
        exact Except.bind_eq_ok.mpr ⟨t₁.s, hentries, Except.bind_eq_ok.mpr ⟨t₂.s, free_eq_ok h₂, ih h⟩⟩
    · rw [if_neg h0] at h ⊢
      exact ih h

theorem freeAddrs_eq_ok {n : ℕ} {ino ino' : Inode} (h : freeAddrs buffer n t ino = .ok (ino', t')) :
    Inode.freeAddrs buffer n t.s ino = .ok (ino', t'.s) := by
  induction n generalizing t ino with
  | zero =>
    cases h
    rfl
  | succ n ih =>
    unfold freeAddrs freeTree at h
    unfold Inode.freeAddrs
    dsimp only at h ⊢
    by_cases h0 : ino.iAddr n ≠ 0
    · rw [if_pos h0] at h ⊢
      obtain ⟨t₂, h₂, h⟩ := Except.bind_eq_ok.mp h
      by_cases hc : 6 ≤ n ∧ n ≤ 9
      · rw [if_pos hc] at h₂ ⊢
        obtain ⟨t₁, h₁, h₂⟩ := Except.bind_eq_ok.mp h₂
        have htables := freeTables_eq_ok h₁
        rw [read_s] at htables
        exact Except.bind_eq_ok.mpr ⟨t₁.s, htables, Except.bind_eq_ok.mpr ⟨t₂.s, free_eq_ok h₂, ih h⟩⟩
      · rw [if_neg hc] at h₂
        rw [if_neg hc, Except.ok_bind]
        exact Except.bind_eq_ok.mpr ⟨t₂.s, free_eq_ok h₂, ih h⟩
    · rw [if_neg h0] at h ⊢
      exact ih h

theorem itrunc_eq_ok {s : FsState} {ino ino' : Inode} (h : itrunc buffer s ino = .ok (ino', t')) :
    Inode.itrunc buffer s ino = .ok (ino', t'.s) := by
  unfold itrunc at h
  unfold Inode.itrunc
  cases hdev : ino.isDevice with
  | true =>
    rw [hdev, if_pos rfl] at h
    cases h
    rfl
  | false =>
    rw [hdev, if_neg Bool.false_ne_true] at h
    rw [if_neg Bool.false_ne_true]
    obtain ⟨⟨ino₁, t₁⟩, h₁, h⟩ := Except.bind_eq_ok.mp h
    cases h
    exact Except.bind_eq_ok.mpr ⟨_, freeAddrs_eq_ok h₁, rfl⟩

/-! ### What the loops do -/

/-- These steps have been taken: the lock is open again, and only what has been freed is
overwritten. -/
structure Done (t : Traced) (vs : List (Visit ℤ)) (t' : Traced) : Prop where
  log : t'.log = t.log ++ vs
  unlocked : t'.s.sb.sFlock = 0
  blk_eq : ∀ c ∉ leaves vs, t'.s.blk c = t.s.blk c

theorem Done.nil (h : t.s.sb.sFlock = 0) : Done t [] t := ⟨by simp, h, fun _ _ => rfl⟩

theorem Done.trans (h : Done t vs t') (h' : Done t' ws t'') : Done t (vs ++ ws) t'' := by
  refine ⟨by rw [h'.log, h.log, List.append_assoc], h'.unlocked, fun c hc => ?_⟩
  rw [leaves_append, List.mem_append, not_or] at hc
  rw [h'.blk_eq c hc.2, h.blk_eq c hc.1]

/-- The blocks that these steps free are different ones and still hold what they held. -/
structure Intact (blk : ℤ → Block) (t : Traced) (vs : List (Visit ℤ)) : Prop where
  unlocked : t.s.sb.sFlock = 0
  nodup : (leaves vs).Nodup
  blk_eq : ∀ b ∈ leaves vs, t.s.blk b = blk b

theorem Intact.left (h : Intact blk t (vs ++ ws)) : Intact blk t vs := by
  obtain ⟨hunlocked, hnodup, hblk⟩ := h
  rw [leaves_append] at hnodup hblk
  exact ⟨hunlocked, (List.nodup_append.mp hnodup).1, fun b hb => hblk b (List.mem_append_left _ hb)⟩

theorem Intact.after (h : Intact blk t (vs ++ ws)) (hd : Done t vs t') : Intact blk t' ws := by
  obtain ⟨-, hnodup, hblk⟩ := h
  rw [leaves_append] at hnodup hblk
  obtain ⟨-, hws, hdisj⟩ := List.nodup_append.mp hnodup
  refine ⟨hd.unlocked, hws, fun b hb => ?_⟩
  rw [hd.blk_eq b fun hv => hdisj b hv b hb rfl, hblk b (List.mem_append_right _ hb)]

theorem Intact.read (h : Intact blk t (.enter b :: vs)) :
    Intact blk (t.read b) vs ∧ Done t [.enter b] (t.read b) :=
  ⟨⟨h.unlocked, h.nodup, h.blk_eq⟩, rfl, h.unlocked, fun _ _ => rfl⟩

/-- `Free` returns, as long as the list of free blocks is not locked. -/
theorem free_spec (buffer : ℤ → Block) (h : t.s.sb.sFlock = 0) (b : ℤ) :
    ∃ t', t.free buffer b = .ok t' ∧ Done t [.leave b] t' := by
  have hlock : (getFS t.s.sb).setFmod.sFlock = 0 := by
    unfold getFS
    split
    · exact h
    · exact h
  have hle : (getFS t.s.sb).setFmod.sNfree ≤ 100 := by
    unfold getFS
    split
    · exact Int.zero_le_ofNat 100
    · next hno =>
      rw [not_or] at hno
      exact Int.not_lt.mp hno.1
  unfold Traced.free FileSystem.free
  dsimp only
  generalize (getFS t.s.sb).setFmod = sb at hlock hle
  rw [if_neg (not_not.mpr hlock)]
  have hbad : ¬badBlock sb b = true := Bool.false_ne_true
  rw [if_neg hbad]
  -- an exhausted super block gets one element, and a full one is emptied
  have hfirst : ∃ sb₁, (if sb.sNfree ≤ 0 then firstFree sb else sb) = sb₁ ∧ 0 < sb₁.sNfree ∧
      sb₁.sNfree ≤ 100 ∧ sb₁.sFlock = 0 := by
    split
    · exact ⟨_, rfl, Int.one_pos, (by decide : (1 : ℤ) ≤ 100), hlock⟩
    · next hpos => exact ⟨_, rfl, by omega, hle, hlock⟩
  obtain ⟨sb₁, heq, hpos, hle₁, hlock₁⟩ := hfirst
  rw [heq]
  have hblk : ∀ c ∉ leaves [Visit.leave b], (if sb₁.sNfree ≥ 100 then
      Function.update t.s.blk b (storeGroup sb₁ (buffer b)) else t.s.blk) c = t.s.blk c := by
    intro c hc
    have hne : c ≠ b := by simpa using hc
    split
    · exact Function.update_of_ne hne _ _
    · rfl
  by_cases hfull : sb₁.sNfree ≥ 100
  · rw [if_pos hfull] at hblk ⊢
    rw [if_pos hfull]
    refine ⟨_, rfl, rfl, ?_, hblk⟩
    rfl
  · rw [if_neg hfull] at hblk ⊢
    rw [if_neg hfull]
    have hwrite : writeAt 100 sb₁.sFree sb₁.sNfree b =
        .ok (Function.update sb₁.sFree sb₁.sNfree.toNat b) := if_pos (by omega)
    unfold pushFree
    rw [hwrite]
    exact ⟨_, rfl, rfl, hlock₁, hblk⟩

/-- The walks over the first `n` trees of a table, the last tree first. -/
def tours (blk : ℤ → Block) (d : ℕ → ℕ) (table : ℕ → ℤ) (n : ℕ) : List (Visit ℤ) :=
  (List.range n).reverse.flatMap fun j => tour (fun a j => getInt (blk a) j) 128 (d j) (table j)

theorem tours_succ (blk : ℤ → Block) (d : ℕ → ℕ) (table : ℕ → ℤ) (n : ℕ) :
    tours blk d table (n + 1) =
      tour (fun a j => getInt (blk a) j) 128 (d n) (table n) ++ tours blk d table n := by
  simp [tours, List.range_succ]

theorem leaves_tours (d : ℕ → ℕ) (table : ℕ → ℤ) (n : ℕ) :
    leaves (tours blk d table n) = treeBlocks blk d table n := by
  simp [tours, treeBlocks, leaves_flatMap, leaves_tour]

theorem tour_succ (blk : ℤ → Block) (d : ℕ) {a : ℤ} (ha : a ≠ 0) :
    tour (fun a j => getInt (blk a) j) 128 (d + 1) a =
      .enter a :: (tours blk (fun _ => d) (getInt (blk a)) 128 ++ [.leave a]) := if_neg ha

/-- The loop over the entries of a table of data blocks. -/
theorem freeEntries_spec {n : ℕ} (h : Intact blk t (tours blk (fun _ => 0) table n)) :
    ∃ t', freeEntries buffer table n t = .ok t' ∧ Done t (tours blk (fun _ => 0) table n) t' := by
  induction n generalizing t with
  | zero => exact ⟨t, rfl, .nil h.unlocked⟩
  | succ n ih =>
    rw [tours_succ] at h ⊢
    unfold freeEntries
    by_cases h0 : table n = 0
    · rw [if_neg (not_not.mpr h0)]
      rw [h0, tour_zero_root, List.nil_append] at h ⊢
      exact ih h
    · have htour : tour (fun a j => getInt (blk a) j) 128 0 (table n) = [.leave (table n)] := if_neg h0
      rw [htour] at h ⊢
      obtain ⟨t₁, hfree, hdone⟩ := free_spec buffer h.unlocked (table n)
      obtain ⟨t', hrest, hdone'⟩ := ih (h.after hdone)
      rw [if_pos h0, hfree]
      exact ⟨t', hrest, hdone.trans hdone'⟩

/-- One entry of an index block. -/
theorem freeTable_spec {double : Bool} {a : ℤ} (ha : a ≠ 0)
    (h : Intact blk t (tour (fun a j => getInt (blk a) j) 128 (if double then 1 else 0) a)) :
    ∃ t', t.freeTable buffer double a = .ok t' ∧
      Done t (tour (fun a j => getInt (blk a) j) 128 (if double then 1 else 0) a) t' := by
  cases double with
  | false =>
    have htour : tour (fun a j => getInt (blk a) j) 128 0 a = [.leave a] := if_neg ha
    change ∃ t', t.free buffer a = .ok t' ∧ Done t (tour _ 128 0 a) t'
    rw [htour]
    exact free_spec buffer h.unlocked a
  | true =>
    change Intact blk t (tour _ 128 (0 + 1) a) at h
    change ∃ t', (freeEntries buffer (getInt (bread t.s a).bAddr) 128 (t.read a) >>=
      fun t => t.free buffer a) = .ok t' ∧ Done t (tour _ 128 (0 + 1) a) t'
    rw [tour_succ blk 0 ha] at h ⊢
    have hblk : (bread t.s a).bAddr = blk a := h.blk_eq a (by simp)
    obtain ⟨hread, hdone⟩ := h.read
    obtain ⟨t₁, hentries, hdone₁⟩ := freeEntries_spec hread.left
    obtain ⟨t₂, hfree, hdone₂⟩ := free_spec buffer hdone₁.unlocked a
    rw [hblk, hentries]
    exact ⟨t₂, hfree, hdone.trans (hdone₁.trans hdone₂)⟩

/-- The loop over the entries of an index block. -/
theorem freeTables_spec (double : Bool) {n : ℕ}
    (h : Intact blk t (tours blk (fun _ => if double then 1 else 0) table n)) :
    ∃ t', freeTables buffer double table n t = .ok t' ∧
      Done t (tours blk (fun _ => if double then 1 else 0) table n) t' := by
  induction n generalizing t with
  | zero => exact ⟨t, rfl, .nil h.unlocked⟩
  | succ n ih =>
    rw [tours_succ] at h ⊢
    unfold freeTables
    by_cases h0 : table n = 0
    · rw [if_neg (not_not.mpr h0)]
      rw [h0, tour_zero_root, List.nil_append] at h ⊢
      exact ih h
    · obtain ⟨t₁, htable, hdone⟩ := freeTable_spec h0 h.left
      obtain ⟨t', hrest, hdone'⟩ := ih (h.after hdone)
      rw [if_pos h0, htable]
      exact ⟨t', hrest, hdone.trans hdone'⟩

/-- One element of `i_addr`. -/
theorem freeTree_spec {i : ℕ} (hi : i < 10) {a : ℤ} (ha : a ≠ 0)
    (h : Intact blk t (tour (fun a j => getInt (blk a) j) 128 (depth i) a)) :
    ∃ t', t.freeTree buffer i a = .ok t' ∧
      Done t (tour (fun a j => getInt (blk a) j) 128 (depth i) a) t' := by
  unfold freeTree
  by_cases h6 : i < 6
  · have hd : depth i = 0 := if_pos h6
    have htour : tour (fun a j => getInt (blk a) j) 128 0 a = [.leave a] := if_neg ha
    rw [hd, htour, if_neg (by omega)]
    exact free_spec buffer h.unlocked a
  · have hd : depth i = (if decide (8 ≤ i ∧ i ≤ 9) then 1 else 0) + 1 := by
      unfold depth
      by_cases h8 : i < 8
      · rw [if_neg h6, if_pos h8, if_neg (by simp; omega)]
      · rw [if_neg h6, if_neg h8, if_pos (by simp; omega)]
    rw [hd, tour_succ blk _ ha] at h ⊢
    have hblk : (bread t.s a).bAddr = blk a := h.blk_eq a (by simp)
    obtain ⟨hread, hdone⟩ := h.read
    obtain ⟨t₁, htables, hdone₁⟩ := freeTables_spec (decide (8 ≤ i ∧ i ≤ 9)) hread.left
    obtain ⟨t₂, hfree, hdone₂⟩ := free_spec buffer hdone₁.unlocked a
    rw [if_pos (by omega), hblk, htables]
    exact ⟨t₂, hfree, hdone.trans (hdone₁.trans hdone₂)⟩

/-- The loop over `i_addr`. -/
theorem freeAddrs_spec (buffer : ℤ → Block) {n : ℕ} {ino : Inode} (hn : n ≤ 10)
    (h : Intact blk t (tours blk depth ino.iAddr n)) :
    ∃ t', freeAddrs buffer n t ino = .ok (cleared ino n, t') ∧
      Done t (tours blk depth ino.iAddr n) t' := by
  induction n generalizing t ino with
  | zero =>
    have hcl : cleared ino 0 = ino := by simp [cleared]
    rw [hcl]
    exact ⟨t, rfl, .nil h.unlocked⟩
  | succ n ih =>
    rw [tours_succ] at h ⊢
    unfold freeAddrs
    by_cases h0 : ino.iAddr n = 0
    · rw [if_neg (not_not.mpr h0), ← cleared_succ_of_eq h0]
      rw [h0, tour_zero_root, List.nil_append] at h ⊢
      exact ih (by omega) h
    · have hrest : tours blk depth (Function.update ino.iAddr n 0) n = tours blk depth ino.iAddr n := by
        refine List.flatMap_congr fun j hj => ?_
        have hj : j < n := by simpa using hj
        rw [Function.update_of_ne hj.ne]
      obtain ⟨t₁, htree, hdone⟩ := freeTree_spec (by omega) h0 h.left
      let rest : Inode := { ino with iAddr := Function.update ino.iAddr n 0 }
      have h' : Intact blk t₁ (tours blk depth rest.iAddr n) := by
        change Intact blk t₁ (tours blk depth (Function.update ino.iAddr n 0) n)
        rw [hrest]
        exact h.after hdone
      obtain ⟨t', hall, hdone'⟩ := ih (by omega) h'
      rw [if_pos h0, htree, Except.ok_bind, hall, cleared_succ]
      rw [hrest] at hdone'
      exact ⟨t', rfl, hdone.trans hdone'⟩

/-- `ITrunc` of an inode that is not a device's. -/
theorem itrunc_spec (buffer : ℤ → Block) {s : FsState} {ino : Inode} (hlock : s.sb.sFlock = 0)
    (hdev : ino.isDevice = false) (htree : Distinct s.blk ino.iAddr) :
    ∃ ino' t, itrunc buffer s ino = .ok (ino', t) ∧
      Done ⟨s, []⟩ (tours s.blk depth ino.iAddr 10) t ∧ (∀ k < 10, ino'.iAddr k = 0) ∧
      ino'.iSize = 0 := by
  have hleaves : leaves (tours s.blk depth ino.iAddr 10) = fileBlocks s.blk ino.iAddr := leaves_tours ..
  have hintact : Intact s.blk ⟨s, []⟩ (tours s.blk depth ino.iAddr 10) := by
    refine ⟨hlock, ?_, fun _ _ => rfl⟩
    rw [hleaves]
    exact htree.nodup_fileBlocks
  obtain ⟨t, hall, hdone⟩ := freeAddrs_spec buffer (Nat.le_refl 10) hintact
  unfold itrunc
  rw [hdev, if_neg Bool.false_ne_true, hall]
  exact ⟨_, t, rfl, hdone, fun k hk => if_pos hk, rfl⟩

end Traced

/-- A block of the file: a data block, or an index block of the first or the second level. -/
def Reachable (blk : ℤ → Block) (iAddr : ℕ → ℤ) (b : ℤ) : Prop :=
  b ≠ 0 ∧ ∃ k p, IsPath k p ∧ walk (fun a j => getInt (blk a) j) (iAddr k) p = b

/-- **`ITrunc` frees the file and nothing else.**  Of each block it calls `Free` once, after it has
read the entries if it is an index block, and the other blocks keep their contents. -/
theorem itrunc_log {s : FsState} {ino : Inode} (hlock : s.sb.sFlock = 0) (hdev : ino.isDevice = false)
    (htree : Distinct s.blk ino.iAddr) (buffer : ℤ → Block) :
    ∃ ino' t, Traced.itrunc buffer s ino = .ok (ino', t) ∧ itrunc buffer s ino = .ok (ino', t.s) ∧
      (∀ b, Reachable s.blk ino.iAddr b → t.log.count (.leave b) = 1) ∧
      (∀ b, ¬Reachable s.blk ino.iAddr b → t.log.count (.leave b) = 0 ∧ t.s.blk b = s.blk b) ∧
      (∀ k p, IsPath k p → p.length < depth k →
        walk (fun a j => getInt (s.blk a) j) (ino.iAddr k) p ≠ 0 →
          .enter (walk (fun a j => getInt (s.blk a) j) (ino.iAddr k) p) ∈ t.log) ∧
      (∀ l₁ b l₂, t.log = l₁ ++ .enter b :: l₂ → .leave b ∉ l₁ ∧ .leave b ∈ l₂) ∧
      (∀ k < 10, ino'.iAddr k = 0) ∧ ino'.iSize = 0 := by
  obtain ⟨ino', t, hrun, hdone, haddr, hsize⟩ := Traced.itrunc_spec buffer hlock hdev htree
  have hleaves : leaves (Traced.tours s.blk depth ino.iAddr 10) = fileBlocks s.blk ino.iAddr :=
    Traced.leaves_tours ..
  have hlog : t.log = Traced.tours s.blk depth ino.iAddr 10 := hdone.log
  have hnodup : (leaves t.log).Nodup := by
    rw [hlog, hleaves]
    exact htree.nodup_fileBlocks
  have hnested : Nested t.log := by
    rw [hlog]
    exact Nested.flatMap (fun _ => nested_tour) _
  have hcount : ∀ b, t.log.count (.leave b) = if b ∈ fileBlocks s.blk ino.iAddr then 1 else 0 := by
    intro b
    rw [count_leave, hnodup.count, hlog, hleaves]
  refine ⟨ino', t, hrun, Traced.itrunc_eq_ok hrun, fun b hb => ?_, fun b hb => ?_, fun k p hp hlen hne => ?_,
    fun l₁ b l₂ heq => ⟨hnested.not_mem hnodup heq, hnested l₁ b l₂ heq⟩, haddr, hsize⟩
  · rw [hcount, if_pos (mem_fileBlocks.mpr hb)]
  · have hnot : b ∉ fileBlocks s.blk ino.iAddr := fun hmem => hb (mem_fileBlocks.mp hmem)
    refine ⟨by rw [hcount, if_neg hnot], hdone.blk_eq b ?_⟩
    rw [hleaves]
    exact hnot
  · rw [hlog]
    refine List.mem_flatMap.mpr ⟨k, ?_, enter_mem_tour hlen hp.index_lt hne⟩
    simpa using hp.root_lt

/-! ### A file with one index block -/

/-- A device on which the block 1024 is an index block with the entry 1025. -/
def indexed : FsState where
  sb := ⟨0, fun _ => 0, 0, fun _ => 0, 0, 0, 0, 0⟩
  blk := Function.update (fun _ _ => 0) 1024 (setInt (fun _ => 0) 0 1025)
  uError := .NOERROR
  rablock := 0

/-- The file with this index block. -/
def indexedFile : Inode where
  iFlag := 0
  iMode := 0
  iCount := 1
  iNlink := 1
  iNumber := 1
  iUid := 0
  iGid := 0
  iSize := 3584
  iAddr := fun k => if k = 6 then 1024 else 0
  iLastr := -1

theorem distinct_indexed : Distinct indexed.blk indexedFile.iAddr := by
  have hentry : ∀ j, getInt (indexed.blk 1024) j = if j = 0 then 1025 else 0 := by
    intro j
    have hblk : indexed.blk 1024 = setInt (fun _ => 0) 0 1025 := rfl
    rw [hblk, getInt_setInt_eq _ _ _ (by decide) (by decide), getInt_zero]
  -- the two blocks, and where they are
  have hwalk : ∀ k p, IsPath k p →
      walk (fun a j => getInt (indexed.blk a) j) (indexedFile.iAddr k) p =
        if k = 6 ∧ p = [] then 1024 else if k = 6 ∧ p = [0] then 1025 else 0 := by
    intro k p hp
    by_cases hk : k = 6
    · subst hk
      have hroot : indexedFile.iAddr 6 = 1024 := rfl
      rw [hroot]
      match p, hp.length_le with
      | [], _ => rfl
      | [j], _ =>
        rw [walk_cons_of_ne (by decide)]
        dsimp only [walk_nil]
        rw [hentry]
        simp
    · have hroot : indexedFile.iAddr k = 0 := if_neg hk
      rw [hroot, walk_zero, if_neg fun h => hk h.1, if_neg fun h => hk h.1]
  intro k p l q hp hq hne heq
  rw [hwalk k p hp] at hne heq
  rw [hwalk l q hq] at heq
  grind

/-- Both blocks are freed. -/
theorem itrunc_log_indexed : ∃ ino' t, itrunc (fun _ _ => 0) indexed indexedFile = .ok (ino', t) ∧
    ino'.iAddr 6 = 0 := by
  obtain ⟨ino', t, -, hrun, -, -, -, -, haddr, -⟩ :=
    itrunc_log (s := indexed) rfl (by decide : indexedFile.isDevice = false) distinct_indexed
      (fun _ _ => 0)
  exact ⟨ino', t.s, hrun, haddr 6 (by decide)⟩

end Inode
end UnixV6pp
