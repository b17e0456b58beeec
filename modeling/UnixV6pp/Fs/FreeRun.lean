import UnixV6pp.Fs.FreeChain

/-!
# Runs of the block allocator

The blocks of a device are on the free list or in use, and a run of `Alloc` and
`Free` moves them from one side to the other.  A block in use may be overwritten
by its user at any time: the group it held while it was free is read before it is
handed out.

## Main definitions

* `Device`, `Step` — the file system with the blocks in use, and its operations.
* `Partition` — the invariant: every block is free or in use, and not both.

## Main results

* `freeList_run` — **every run** until an `Alloc` finds no block.
* `exhausted_run` — **every run** without an `Alloc` on an empty stack.
* `exhausted_twice` — the second failing `Alloc` reads in front of `s_free`.
-/

namespace UnixV6pp
namespace FileSystem

/-- A file system together with the blocks in use. -/
structure Device where
  fs : FsState
  allocated : Set ℤ

/-- What happens to a device. -/
inductive Event
  /-- `Alloc` with what it returns. -/
  | alloc (ret : Option ℤ)
  /-- `Free`, in a buffer of any contents. -/
  | free (b : ℤ) (buffer : ℤ → Block)
  /-- The user of a block overwrites it. -/
  | write (b : ℤ) (data : Block)

/-- One event: only a block in use is freed or overwritten. -/
inductive Step : Device → Event → Device → Prop
  | alloc {d : Device} {b : ℤ} {fs' : FsState} (h : FileSystem.alloc d.fs = .ok (some b, fs')) :
      Step d (.alloc (some b)) ⟨fs', insert b d.allocated⟩
  | noSpace {d : Device} {fs' : FsState} (h : FileSystem.alloc d.fs = .ok (none, fs')) :
      Step d (.alloc none) ⟨fs', d.allocated⟩
  | free {d : Device} {b : ℤ} {buffer : ℤ → Block} {fs' : FsState} (hb : b ∈ d.allocated)
      (h : FileSystem.free buffer d.fs b = .ok fs') :
      Step d (.free b buffer) ⟨fs', d.allocated \ {b}⟩
  | write {d : Device} {b : ℤ} {data : Block} (hb : b ∈ d.allocated) :
      Step d (.write b data)
        ⟨{ d.fs with blk := Function.update d.fs.blk b data }, d.allocated⟩

/-- **Every block is free or in use**, and `L` lists the free ones. -/
structure Partition (blocks : Set ℤ) (d : Device) (L : List ℤ) : Prop where
  freeList : FreeList d.fs L
  /-- The blocks in use are data blocks. -/
  data : ∀ b ∈ d.allocated, DataBlock b
  /-- No block is free and in use. -/
  disjoint : ∀ b ∈ L, b ∉ d.allocated
  /-- No block is lost and none is new. -/
  cover : {b | b ∈ L} ∪ d.allocated = blocks

namespace Partition

variable {blocks : Set ℤ} {d d' : Device} {L : List ℤ} {fs' : FsState} {b : ℤ}

theorem alloc (h : Partition blocks d (b :: L)) (hfs : FreeList fs' L) :
    Partition blocks ⟨fs', insert b d.allocated⟩ L := by
  have hb := (List.nodup_cons.mp h.freeList.nodup).1
  refine ⟨hfs, ?_, ?_, ?_⟩
  · intro c hc
    rcases hc with rfl | hc
    · exact h.freeList.data c (by simp)
    · exact h.data c hc
  · intro c hcL hc
    rcases hc with rfl | hc
    · exact hb hcL
    · exact h.disjoint c (by simp [hcL]) hc
  · rw [← h.cover]
    apply Set.ext
    intro c
    simp only [Set.mem_union, Set.mem_ofPred_eq, Set.mem_insert_iff, List.mem_cons]
    tauto

theorem noSpace (h : Partition blocks d []) (hfs : FreeList fs' []) :
    Partition blocks ⟨fs', d.allocated⟩ [] :=
  ⟨hfs, h.data, h.disjoint, h.cover⟩

theorem not_mem (h : Partition blocks d L) (hb : b ∈ d.allocated) : b ∉ L :=
  fun hL => h.disjoint b hL hb

theorem free (h : Partition blocks d L) (hb : b ∈ d.allocated) (hfs : FreeList fs' (b :: L)) :
    Partition blocks ⟨fs', d.allocated \ {b}⟩ (b :: L) := by
  refine ⟨hfs, fun c hc => h.data c hc.1, ?_, ?_⟩
  · intro c hcL hc
    rcases List.mem_cons.mp hcL with rfl | hcL
    · exact hc.2 rfl
    · exact h.disjoint c hcL hc.1
  · rw [← h.cover]
    apply Set.ext
    intro c
    simp only [Set.mem_union, Set.mem_ofPred_eq, Set.mem_sdiff, Set.mem_singleton_iff, List.mem_cons]
    by_cases hcb : c = b
    · subst hcb
      simp [hb]
    · simp [hcb]

theorem write (h : Partition blocks d L) (hb : b ∈ d.allocated) (data : Block) :
    Partition blocks ⟨{ d.fs with blk := Function.update d.fs.blk b data }, d.allocated⟩ L := by
  refine ⟨h.freeList.of_eq rfl ?_, h.data, h.disjoint, h.cover⟩
  intro c hc
  exact Function.update_of_ne (ne_of_mem_of_not_mem hc (h.not_mem hb)) _ _

/-- **One event** keeps the blocks apart, as long as `Alloc` is not called on an
empty stack. -/
theorem step {e : Event} (h : Partition blocks d L) (hstep : Step d e d')
    (hok : ∀ r, e = .alloc r → d.fs.sb.sNfree ≠ 0) :
    ∃ L', Partition blocks d' L' ∧ (e ≠ .alloc none → d.fs.sb.sNfree ≠ 0 → d'.fs.sb.sNfree ≠ 0) := by
  cases hstep with
  | alloc heq =>
    cases L with
    | nil =>
      obtain ⟨fs', halloc, -⟩ := h.freeList.alloc_nil (hok _ rfl)
      rw [halloc] at heq
      cases heq
    | cons b L =>
      obtain ⟨fs', halloc, -, -, -, hfs, hne⟩ := h.freeList.alloc_cons
      rw [halloc] at heq
      cases heq
      exact ⟨L, h.alloc hfs, fun _ _ => hne⟩
  | noSpace heq =>
    cases L with
    | nil =>
      obtain ⟨fs', halloc, -, -, -, hfs⟩ := h.freeList.alloc_nil (hok _ rfl)
      rw [halloc] at heq
      cases heq
      exact ⟨[], h.noSpace hfs, fun hne => absurd rfl hne⟩
    | cons b L =>
      obtain ⟨fs', halloc, -⟩ := h.freeList.alloc_cons
      rw [halloc] at heq
      cases heq
  | @free b buffer fs' hb heq =>
    obtain ⟨fs', hfree, -, -, -, hfs⟩ := h.freeList.free (h.data b hb) (h.not_mem hb) buffer
    rw [hfree] at heq
    cases heq
    exact ⟨b :: L, h.free hb hfs, fun _ _ => hfs.nfree_ne_zero⟩
  | @write b data hb => exact ⟨L, h.write hb data, fun _ hne => hne⟩

/-- **Freed and taken again.** -/
theorem free_alloc (h : Partition blocks d L) (hb : b ∈ d.allocated) (buffer : ℤ → Block) :
    ∃ fs₁ fs₂, FileSystem.free buffer d.fs b = .ok fs₁ ∧
      FileSystem.alloc fs₁ = .ok (some b, fs₂) := by
  obtain ⟨fs₁, hfree, -, -, -, hfs⟩ := h.freeList.free (h.data b hb) (h.not_mem hb) buffer
  obtain ⟨fs₂, halloc, -⟩ := hfs.alloc_cons
  exact ⟨fs₁, fs₂, hfree, halloc⟩

end Partition

/-- **The free list over a whole run.**  As long as no `Alloc` has reported
`ENOSPC`, the blocks on the chain and the blocks in use are exactly the initial
blocks, the stack is never empty, no `Alloc` hands out a block in use, and a block
freed is the next one handed out. -/
theorem freeList_run {blocks : Set ℤ} {d₀ d : Device} {L₀ : List ℤ}
    (h₀ : Partition blocks d₀ L₀) (hn₀ : 1 ≤ d₀.fs.sb.sNfree)
    (hrun : Runs Step (fun _ e => e ≠ .alloc none) d₀ d) :
    1 ≤ d.fs.sb.sNfree ∧ d.fs.sb.sNfree ≤ 100 ∧
      (∃ L, Partition blocks d L ∧
        (L = [] → ∃ fs', alloc d.fs = .ok (none, fs') ∧ fs'.uError = .ENOSPC) ∧
        ∀ b L', L = b :: L' → ∃ fs', alloc d.fs = .ok (some b, fs') ∧ b ∉ d.allocated) ∧
      ∀ b ∈ d.allocated, ∀ buffer, ∃ fs₁ fs₂,
        free buffer d.fs b = .ok fs₁ ∧ alloc fs₁ = .ok (some b, fs₂) := by
  have hinv : (∃ L, Partition blocks d L) ∧ d.fs.sb.sNfree ≠ 0 := by
    refine hrun.invariant (I := fun d => (∃ L, Partition blocks d L) ∧ d.fs.sb.sNfree ≠ 0) ?_
      ⟨⟨L₀, h₀⟩, by omega⟩
    intro s e s' hs hok hstep
    obtain ⟨⟨L, hL⟩, hne⟩ := hs
    obtain ⟨L', hL', hne'⟩ := hL.step hstep fun _ _ => hne
    exact ⟨⟨L', hL'⟩, hne' hok hne⟩
  obtain ⟨⟨L, hL⟩, hne⟩ := hinv
  have hb := hL.freeList.nfree_bounds
  refine ⟨by omega, hb.2, ⟨L, hL, ?_, ?_⟩, fun b hb buffer => hL.free_alloc hb buffer⟩
  · intro h
    subst h
    obtain ⟨fs', halloc, herr, -⟩ := hL.freeList.alloc_nil hne
    exact ⟨fs', halloc, herr⟩
  · intro b L' h
    subst h
    obtain ⟨fs', halloc, -⟩ := hL.freeList.alloc_cons
    exact ⟨fs', halloc, hL.disjoint b (by simp)⟩

/-! ### The device runs out of blocks -/

/-- Call `Alloc` a number of times and list what it returns. -/
def allocMany : ℕ → FsState → Except Stop (List (Option ℤ) × FsState)
  | 0, s => .ok ([], s)
  | n + 1, s => do
    let (r, s) ← alloc s
    let (rs, s) ← allocMany n s
    return (r :: rs, s)

/-- The blocks at the head of the list are handed out in their order. -/
theorem allocMany_spec : ∀ (bs : List ℤ) {s : FsState} {L : List ℤ}, FreeList s (bs ++ L) →
    ∃ s', allocMany bs.length s = .ok (bs.map some, s') ∧ FreeList s' L
  | [], s, _, h => ⟨s, rfl, h⟩
  | b :: bs, s, L, h => by
    obtain ⟨s₁, halloc, -, -, -, h₁, -⟩ := FreeList.alloc_cons (L := bs ++ L) h
    obtain ⟨s₂, hmany, h₂⟩ := allocMany_spec bs h₁
    refine ⟨s₂, ?_, h₂⟩
    rw [List.length_cons, allocMany, halloc]
    change (allocMany bs.length s₁ >>= _) = _
    rw [hmany]
    rfl

/-- An `Alloc` on an empty stack reads `s_free[-1]`. -/
theorem FreeList.alloc_empty {s : FsState} {L : List ℤ} (h : FreeList s L)
    (h0 : s.sb.sNfree = 0) : alloc s = .error .outside := by
  unfold alloc
  have hout : readAt 100 s.sb.sFree (0 - 1) = .error .outside := if_neg (by omega)
  simp only [h.getFS_eq, h.unlocked, h0, ne_eq, not_true_eq_false, if_false,
    SuperBlock.sFree_setNfree, SuperBlock.sNfree_setNfree, hout, Except.error_bind]

/-- **An exhausted device over a whole run.**  As long as `Alloc` is not called on
an empty stack, the blocks stay apart and the stack in its bounds.  In every state
reached in which no block is left, `Alloc` reports `ENOSPC` exactly when the stack
is not empty, and whatever blocks are freed then are the blocks handed out next. -/
theorem exhausted_run {blocks : Set ℤ} {d₀ d : Device} {L₀ : List ℤ}
    (h₀ : Partition blocks d₀ L₀)
    (hrun : Runs Step (fun d e => ∀ r, e = .alloc r → d.fs.sb.sNfree ≠ 0) d₀ d) :
    0 ≤ d.fs.sb.sNfree ∧ d.fs.sb.sNfree ≤ 100 ∧ ∃ L, Partition blocks d L ∧
      (L = [] → ((∃ fs', alloc d.fs = .ok (none, fs') ∧ fs'.uError = .ENOSPC ∧
        0 ≤ fs'.sb.sNfree ∧ fs'.sb.sNfree ≤ 100) ↔ d.fs.sb.sNfree ≠ 0)) ∧
      ∀ (buffer : ℤ → Block) (bs : List ℤ), bs.Nodup → (∀ b ∈ bs, b ∈ d.allocated) →
        ∃ fs₁ fs₂, freeAll buffer d.fs bs = .ok fs₁ ∧
          allocMany bs.length fs₁ = .ok (bs.reverse.map some, fs₂) := by
  obtain ⟨L, hL⟩ : ∃ L, Partition blocks d L := by
    refine hrun.invariant (I := fun d => ∃ L, Partition blocks d L) ?_ ⟨L₀, h₀⟩
    intro s e s' hs hok hstep
    obtain ⟨L, hL⟩ := hs
    obtain ⟨L', hL', -⟩ := hL.step hstep hok
    exact ⟨L', hL'⟩
  have hb := hL.freeList.nfree_bounds
  refine ⟨hb.1, hb.2, L, hL, ?_, ?_⟩
  · intro h
    subst h
    constructor
    · intro hfails h0
      obtain ⟨fs', halloc, -⟩ := hfails
      rw [hL.freeList.alloc_empty h0] at halloc
      cases halloc
    · intro hne
      obtain ⟨fs', halloc, herr, hn, -⟩ := hL.freeList.alloc_nil hne
      exact ⟨fs', halloc, herr, by omega, by omega⟩
  · intro buffer bs hnd hbs
    obtain ⟨fs₁, hfree, h₁, -⟩ := freeAll_spec buffer bs hL.freeList hnd
      fun b hb => ⟨hL.data b (hbs b hb), hL.not_mem (hbs b hb)⟩
    obtain ⟨fs₂, hmany, -⟩ := allocMany_spec bs.reverse h₁
    rw [List.length_reverse] at hmany
    exact ⟨fs₁, fs₂, hfree, hmany⟩

/-! ### A device of one block -/

/-- Block 1024 is free and there is no other. -/
def oneBlock : Device where
  fs := {
    sb := { sNfree := 2, sFree := fun i => if i = 1 then 1024 else 0, sNinode := 0
            sInode := fun _ => 0, sFlock := 0, sIlock := 0, sFmod := 0, sRonly := 0 }
    blk := fun _ _ => 0
    uError := .NOERROR
    rablock := 0 }
  allocated := ∅

theorem partition_oneBlock : Partition {1024} oneBlock [1024] := by
  refine ⟨⟨by decide, rfl, by simp [DataBlock, dataZoneStartSector], by simp, .inr ⟨2, rfl, ?_⟩⟩, by simp [oneBlock],
    by simp [oneBlock], by simp [oneBlock]⟩
  exact .pop (n := 1) (by omega) (by omega) (by simp [oneBlock]) (.last (by simp [oneBlock]))

/-- The only block is taken, and the next `Alloc` finds none. -/
theorem oneBlock_used_up : ∃ fs₁ fs₂, alloc oneBlock.fs = .ok (some 1024, fs₁) ∧
    fs₁.sb.sNfree ≠ 0 ∧ alloc fs₁ = .ok (none, fs₂) ∧ fs₂.sb.sNfree = 0 ∧ FreeList fs₂ [] := by
  obtain ⟨fs₁, h₁, -, -, -, hfs₁, hne⟩ := partition_oneBlock.freeList.alloc_cons
  obtain ⟨fs₂, h₂, -, hz, -, hfs₂⟩ := hfs₁.alloc_nil hne
  exact ⟨fs₁, fs₂, h₁, hne, h₂, hz, hfs₂⟩

/-- The only block is taken. -/
theorem freeList_run_oneBlock :
    ∃ fs, alloc oneBlock.fs = .ok (some 1024, fs) ∧ 1 ≤ fs.sb.sNfree ∧ fs.sb.sNfree ≤ 100 := by
  obtain ⟨fs, halloc, -⟩ := partition_oneBlock.freeList.alloc_cons
  have h := freeList_run partition_oneBlock (by decide)
    (Runs.single (l := .alloc (some 1024)) (by simp) (.alloc halloc))
  exact ⟨fs, halloc, h.1, h.2.1⟩

/-- The only block is taken, an `Alloc` fails, and the block is given back and
taken again. -/
theorem exhausted_run_oneBlock : ∃ fs₁ fs₂, alloc oneBlock.fs = .ok (some 1024, fs₁) ∧
    alloc fs₁ = .ok (none, fs₂) ∧ ∀ buffer, ∃ fs₃ fs₄, freeAll buffer fs₂ [1024] = .ok fs₃ ∧
      allocMany 1 fs₃ = .ok ([some 1024], fs₄) := by
  obtain ⟨fs₁, fs₂, h₁, hne, h₂, -⟩ := oneBlock_used_up
  have hrun : Runs Step (fun d e => ∀ r, e = .alloc r → d.fs.sb.sNfree ≠ 0) oneBlock
      ⟨fs₂, insert 1024 ∅⟩ :=
    ((Runs.refl oneBlock).tail (l := .alloc (some 1024)) (fun _ _ => by decide) (.alloc h₁)).tail
      (l := .alloc none) (fun _ _ => hne) (.noSpace h₂)
  obtain ⟨-, -, L, -, -, h⟩ := exhausted_run partition_oneBlock hrun
  exact ⟨fs₁, fs₂, h₁, h₂, fun buffer => h buffer [1024] (by simp) (by simp)⟩

/-- **Two failing calls in a row.**  The first one empties the stack, end mark
included, and the second one reads in front of it. -/
theorem exhausted_twice : ∃ d d', Partition {1024} oneBlock [1024] ∧
    Runs Step (fun _ _ => True) oneBlock d ∧ Step d (.alloc none) d' ∧
      alloc d'.fs = .error .outside := by
  obtain ⟨fs₁, fs₂, h₁, -, h₂, hz, hfs₂⟩ := oneBlock_used_up
  exact ⟨_, _, partition_oneBlock, Runs.single (l := .alloc (some 1024)) trivial (.alloc h₁),
    .noSpace h₂, hfs₂.alloc_empty hz⟩

end FileSystem
end UnixV6pp
