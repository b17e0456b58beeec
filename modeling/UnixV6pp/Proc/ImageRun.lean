import UnixV6pp.Proc.ImageTexts

/-!
# Who has which memory, in all runs

* `Admissible` — what the kernel does not see to.
* `Kept.step` — **every step keeps the invariant.**
* `memory_run`, `swap_run` — every page, and every block, is free or has one owner, and nothing is
  lost.
* `texts_run` — the counts of a text, and what it has as long as it is used.
-/

namespace UnixV6pp
namespace Images

open Allocator Proc Tally Image

/-! ### One step -/

section Step

variable {ν : Type} [DecidableEq ν] {s s' : System ν} {a : System.Action ν} {map₀ : List MapNode}

/-- What the kernel does not see to: the entry of a child that is waited for is not used again, the
sizes are those of images and texts in whole pages, and a text that `Exec` finds is in memory, or it
gets pages and blocks for a new one. -/
def Admissible (s : System ν) : System.Action ν → Prop
  | .fork _ => ∀ c ∈ s.child, ∀ j, (s.process j).stage ≠ .waiting c
  | .expand i newSize => Sized newSize ∧ (newSize < (s.process i).pSize → newSize.toNat % 4096 = 0)
  | .execText _ file textSize =>
    (∀ t ∈ (s.findText file).1, (s.text t).xCcount ≠ 0) ∧
      ((s.findText file).1 = none → Sized textSize ∧ Aligned textSize ∧
        (s.memory.allocMemory textSize).1 ≠ 0 ∧ (s.swapper.allocSwap textSize).1 ≠ 0)
  | _ => True

/-- **Every step keeps the invariant.** -/
theorem Kept.step (hm : Ample OWNERS map₀) (h : Kept map₀ s) (ha : Admissible s a)
    (hstep : s.Step a s') : Kept map₀ s' := by
  unfold System.Step at hstep
  cases a with
  | fork i =>
    obtain ⟨_, hstage, hstep⟩ := Option.bind_eq_some_iff.1 hstep
    rw [Option.guard_eq_some'] at hstage
    obtain ⟨c, hc, hstep⟩ := Option.bind_eq_some_iff.1 hstep
    have hnull := List.find?_some hc
    exact h.fork hm hstage (of_decide_eq_true hnull) (ha c hc) hstep
  | forked i =>
    simp only [System.exec] at hstep
    split at hstep
    · next c hparent =>
      split at hstep
      · next blkno hchild =>
        obtain rfl := Option.some.inj hstep
        exact h.forked hparent hchild
      · cases hstep
    · cases hstep
  | expand i newSize =>
    obtain ⟨_, hrun, hstep⟩ := Option.bind_eq_some_iff.1 hstep
    rw [Option.guard_eq_some'] at hrun
    exact h.expand hm hrun ha.1 ha.2 hstep
  | swappedOut i =>
    simp only [System.exec] at hstep
    split at hstep
    · next blkno size hstage =>
      obtain rfl := Option.some.inj hstep
      exact h.swappedOut hm hstage
    · cases hstep
  | xFree i =>
    obtain ⟨_, hrun, hstep⟩ := Option.bind_eq_some_iff.1 hstep
    rw [Option.guard_eq_some'] at hrun
    obtain ⟨t, ht, hstep⟩ := Option.bind_eq_some_iff.1 hstep
    obtain rfl := Option.some.inj hstep
    exact h.xFree hm hrun ht
  | iPut i =>
    obtain ⟨_, hstage, hstep⟩ := Option.bind_eq_some_iff.1 hstep
    rw [Option.guard_eq_some'] at hstage
    obtain ⟨t, ht, hstep⟩ := Option.bind_eq_some_iff.1 hstep
    obtain rfl := Option.some.inj hstep
    exact h.iPut hstage ht
  | execText i file textSize =>
    obtain ⟨_, hguard, hstep⟩ := Option.bind_eq_some_iff.1 hstep
    obtain ⟨hrun, htext⟩ := (Option.guard_eq_some' _).1 hguard
    split at hstep
    · next t _ hfind =>
      obtain rfl := Option.some.inj hstep
      exact h.share hrun htext (ha.1 t (congrArg Prod.fst hfind))
    · next t hfind =>
      have hfree := List.find?_some (congrArg Prod.snd hfind)
      obtain ⟨hsize, haligned, hne, hne'⟩ := ha.2 (congrArg Prod.fst hfind)
      obtain rfl := Option.some.inj hstep
      exact h.newText hm hrun htext (of_decide_eq_true hfree) hsize haligned hne hne'
    · cases hstep
  | exit i =>
    obtain ⟨_, hguard, hstep⟩ := Option.bind_eq_some_iff.1 hstep
    obtain ⟨hrun, htext⟩ := (Option.guard_eq_some' _).1 hguard
    obtain ⟨_, hne, hstep⟩ := Option.bind_eq_some_iff.1 hstep
    rw [Option.guard_eq_some'] at hne
    obtain rfl := Option.some.inj hstep
    exact h.exit hrun htext hne
  | exited i =>
    simp only [System.exec] at hstep
    split at hstep
    · next blkno hstage =>
      obtain rfl := Option.some.inj hstep
      exact h.exited hm hstage
    · cases hstep
  | wait i j =>
    obtain ⟨_, hguard, hstep⟩ := Option.bind_eq_some_iff.1 hstep
    obtain ⟨hrun, hchild⟩ := (Option.guard_eq_some' _).1 hguard
    obtain rfl := Option.some.inj hstep
    exact h.wait hrun hchild
  | waited i =>
    simp only [System.exec] at hstep
    split at hstep
    · next j hstage =>
      obtain rfl := Option.some.inj hstep
      exact h.waited hstage
    · cases hstep
  | swapIn i =>
    obtain ⟨_, hguard, hstep⟩ := Option.bind_eq_some_iff.1 hstep
    obtain ⟨hstage, hno⟩ := (Option.guard_eq_some' _).1 hguard
    dsimp only at hstep
    split at hstep
    · next t htext =>
      split at hstep
      · next hcc =>
        obtain ⟨_, hne, hstep⟩ := Option.bind_eq_some_iff.1 hstep
        rw [Option.guard_eq_some'] at hne
        obtain rfl := Option.some.inj hstep
        exact h.swapInText hm hstage hno htext hcc hne
      · next hcc =>
        obtain ⟨_, hne, hstep⟩ := Option.bind_eq_some_iff.1 hstep
        rw [Option.guard_eq_some'] at hne
        obtain rfl := Option.some.inj hstep
        refine h.swapIn hm hstage hno (fun u => ?_) (fun u hu => ?_) hne
        · rw [htext, Function.update_apply]
          split
          · next hu => simp [hu]
          · next hu => simp [Ne.symm hu]
        · rw [htext] at hu
          exact Option.some.inj hu ▸ hcc
    · next htext =>
      obtain ⟨_, hne, hstep⟩ := Option.bind_eq_some_iff.1 hstep
      rw [Option.guard_eq_some'] at hne
      obtain rfl := Option.some.inj hstep
      refine h.swapIn hm hstage hno (fun u => ?_) (fun u hu => ?_) hne
      · simp [htext]
      · rw [htext] at hu
        cases hu
  | textRead i =>
    simp only [System.exec] at hstep
    split at hstep
    · next d hstage =>
      obtain ⟨t, ht, hstep⟩ := Option.bind_eq_some_iff.1 hstep
      obtain rfl := Option.some.inj hstep
      exact h.textRead hm hstage ht
    · cases hstep
  | imageRead i =>
    simp only [System.exec] at hstep
    split at hstep
    · next d hstage =>
      obtain rfl := Option.some.inj hstep
      exact h.imageRead hstage
    · cases hstep

end Step

/-! ### Runs -/

section Runs

variable {ν : Type} {s : System ν} {n : UInt32} {map₀ : List MapNode}

/-- What `UserPageManager::Initialize` leaves for a pool of `n` pages. -/
def userMap (n : UInt32) : List MapNode := ⟨n, 0x400⟩ :: List.replicate 0x1ff ⟨0, 0⟩

/-- There are pages, and they are below 4 GiB. -/
def Pool (n : UInt32) : Prop := 0 < n.toNat ∧ 0x400 + n.toNat ≤ 2 ^ 20

instance : Decidable (Pool n) := instDecidableAnd

/-- `SetupProcessZero` has made the first process, whose image is in front of the pool. -/
def boot (ν : Type) (n : UInt32) : System ν where
  memory := ⟨userMap n, 0⟩
  swapper := ⟨swapMap, 0⟩
  process i := if i = 0 then ⟨0x1000, 0x3ff000, none, .loaded⟩ else ⟨0, 0, none, .null⟩
  text _ := ⟨0, 0, 0, none, 0, 0⟩

theorem split_userMap (hn : Pool n) :
    Split (userMap n) [⟨n, 0x400⟩] (List.replicate 0x1ff ⟨0, 0⟩) := by
  have hpos : n ≠ 0 := fun hzero => absurd hn.1 (by rw [hzero]; decide)
  refine ⟨rfl, ⟨?_, List.pairwise_singleton _ _⟩, ?_, ?_⟩
  · have := hn.1
    simp [lo, stop]
    omega
  · have := hn.2
    simp [stop]
    omega
  · intro z hz
    rw [List.eq_of_mem_replicate hz]

theorem ample_userMap (hn : Pool n) : Ample OWNERS (userMap n) :=
  .of_split (split_userMap hn) (by simp [lo]) (by simpa [stop] using hn.2) (by decide)

theorem freeUnits_userMap (hn : Pool n) :
    freeUnits (userMap n) = Set.Ico 0x400 (0x400 + n.toNat) := by
  rw [(split_userMap hn).freeUnits_eq, Extents.units_cons, Extents.units_nil, Set.union_empty]
  rfl

theorem freeUnits_swapMap : freeUnits swapMap = Set.Ico 18000 20000 := by
  rw [split_swapMap.freeUnits_eq, Extents.units_cons, Extents.units_nil, Set.union_empty]
  rfl

theorem owned_boot {m : ℕ} (hm : Ample m map₀) {own : Proc.Slot ⊕ TextSlot → UInt32 × UInt32}
    (hown : ∀ k, (own k).2 = 0) : Owned map₀ ⟨map₀, 0⟩ own := by
  have hlen := hm.length
  refine ⟨⟨hm.wf, subset_rfl, ?_⟩, rfl, (Shares.nobody _).congr fun k => ?_⟩
  · change 0 < map₀.length
    omega
  · rw [hown, range_zero]

theorem kept_boot (hn : Pool n) : Kept (userMap n) (boot ν n) := by
  have hprocess : ∀ i, i ≠ 0 → (boot ν n).process i = ⟨0, 0, none, .null⟩ := fun i hi => if_neg hi
  have hstage : ∀ i, ((boot ν n).process i).stage = .null ∨
      ((boot ν n).process i).stage = .loaded := by
    intro i
    by_cases hi : i = 0
    · rw [hi]
      exact .inr rfl
    · rw [hprocess i hi]
      exact .inl rfl
  have htextp : ∀ i, ((boot ν n).process i).pTextp = none := by
    intro i
    by_cases hi : i = 0
    · rw [hi]
      rfl
    · rw [hprocess i hi]
  refine ⟨owned_boot (ample_userMap hn) fun k => ?_, owned_boot ample_swapMap fun k => ?_, ?_⟩
  · cases k with
    | inl i =>
      by_cases hi : i = 0
      · rw [hi]
        rfl
      · rw [memOwn_image hi, hprocess i hi]
        rfl
    | inr t => rfl
  · cases k with
    | inl i =>
      rcases hstage i with heq | heq <;> simp only [System.swapOwn, Image.blocks, heq]
    | inr t => rfl
  · refine ⟨fun i => ?_, fun t ht => absurd rfl ht, fun t => ?_, fun t => ?_, fun i j hj => ?_,
      fun i j hi => ?_, fun i d hd => ?_, fun i hi => ?_, fun i j t hi => ?_, rfl, .inl rfl⟩
    · by_cases hi : i = 0
      · rw [hi]
        change Sized 0x1000 ∧ Aligned 0x3ff000
        unfold Sized Aligned
        decide
      · rw [hprocess i hi]
        trivial
    · rw [tally_eq_zero fun i => ?_]
      · rfl
      · rcases hstage i with heq | heq <;> simp [Image.user, heq, htextp]
    · rw [tally_eq_zero fun i => ?_]
      · rfl
      · rcases hstage i with heq | heq <;> simp [Image.inMemory, heq, htextp]
    · rcases hstage i with heq | heq <;> rw [heq] at hj <;> cases hj
    · rcases hstage i with heq | heq <;> simp [System.Reading, heq] at hi
    · rcases hstage i with heq | heq <;> rw [heq] at hd <;> cases hd
    · rcases hstage i with heq | heq <;> rw [heq] at hi <;> cases hi
    · rcases hstage i with heq | heq <;> rw [heq] at hi <;> cases hi

variable [DecidableEq ν]

/-- The invariant, over a run. -/
theorem kept_run (hn : Pool n) (hrun : Runs System.Step Admissible (boot ν n) s) :
    Kept (userMap n) s :=
  hrun.invariant (fun _ _ _ h ha hstep => h.step (ample_userMap hn) ha hstep) (kept_boot hn)

/-- The pages that a process has for its image, or a text. -/
def System.pagesOf (s : System ν) (k : Proc.Slot ⊕ TextSlot) : Set ℕ :=
  range (s.memOwn k).1 (s.memOwn k).2

/-- The blocks on the swap area. -/
def System.blocksOf (s : System ν) (k : Proc.Slot ⊕ TextSlot) : Set ℕ :=
  range (s.swapOwn k).1 (s.swapOwn k).2

theorem range_nonempty {start size : UInt32} (h : 0 < size) : (range start size).Nonempty :=
  ⟨start.toNat, le_rfl, by
    have := UInt32.lt_iff_toNat_lt.1 h
    rw [UInt32.toNat_zero] at this
    omega⟩

/-- Nobody has a range, and so everything is free. -/
theorem free_eq_of_nobody {κ α : Type} {pool free : Set α} {own : κ → Set α}
    (h : Shares pool free own) (hown : ∀ k, own k = ∅) : free = pool := by
  ext u
  rw [h.all u]
  simp [hown]

omit [DecidableEq ν] in
/-- There is no process but the first one. -/
theorem Kept.alone (h : Kept map₀ s) (halone : ∀ i, i ≠ 0 → (s.process i).stage = .null)
    (t : TextSlot) : (s.text t).xCount = 0 ∧ (s.text t).xCcount = 0 := by
  have huser : ∀ i, (s.process i).user ≠ some t := by
    intro i
    by_cases hi : i = 0
    · rw [hi]
      have htextp := h.tables.system.1
      rcases h.tables.system.2 with heq | ⟨c, heq⟩ <;> simp [Image.user, heq, htextp]
    · simp [Image.user, halone i hi]
  have hcount := h.tables.count t
  rw [tally_eq_zero huser] at hcount
  have hzero : (s.text t).xCount = 0 := by omega
  refine ⟨hzero, ?_⟩
  by_contra hne
  exact h.tables.count_of_ccount hne hzero

end Runs

/-! ### Listed runs -/

section Listed

variable {ν : Type} [DecidableEq ν] {s : System ν}

instance (size : UInt32) : Decidable (Sized size) := instDecidableAnd

instance (address : UInt32) : Decidable (Aligned address) := instDecidableEqNat _ _

instance (s : System ν) (a : System.Action ν) : Decidable (Admissible s a) := by
  unfold Admissible
  split <;> infer_instance

/-- The state after an action that may be taken. -/
def next (s : System ν) (a : System.Action ν) : System ν := (s.exec a).getD s

/-- Actions that may be taken one after the other are a run. -/
theorem run_of_actions (actions : List (System.Action ν))
    (h : Runs.Meets next (fun s a => Admissible s a ∧ (s.exec a).isSome) actions s) :
    Runs System.Step Admissible s (actions.foldl next s) := by
  refine Runs.mono (fun s a h => h.1) (Runs.of_meets (fun s a hok => ?_) h)
  obtain ⟨s', hs'⟩ := Option.isSome_iff_exists.mp hok.2
  rw [System.Step, next, hs', Option.getD_some]

/-- With eight pages: the first of two processes executes a file, and has to be swapped out to get
larger; after the end of the second one it is swapped in again with its text. -/
def larger : List (System.Action ℕ) :=
  [.fork 0, .fork 0, .execText 1 7 0x1000, .expand 1 0x7000, .swappedOut 1, .exit 2, .exited 2,
    .swapIn 1, .textRead 1, .imageRead 1]

theorem admissible_larger :
    Runs.Meets next (fun s a => Admissible s a ∧ (s.exec a).isSome) larger (boot ℕ 8) := by
  decide +kernel

end Listed

end Images
end UnixV6pp
