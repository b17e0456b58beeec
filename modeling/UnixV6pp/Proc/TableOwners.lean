import UnixV6pp.Lib.Schedule
import UnixV6pp.Mm.PageManager
import UnixV6pp.Proc.Exec

/-!
# Who owns the pages of the kernel

`Fork`, `Exec` and `Exit` use the pages of `KernelPageManager`: a process has two for its own
page tables, and `Exec` takes some for the section headers of the file and for the arguments,
and gives them back later.

* `System`, `System.exec` — the map, and what every process has.
* `fork`, `exec`, `exit` — the calls.
* `tables_run` — **who owns what in all runs** in which there are pages enough and no program is
  too large.
-/

namespace UnixV6pp
namespace TableOwners

open Threads Code Allocator Execution

/-- The map after `KernelPageManager::Initialize`. -/
def kernelMap : List MapNode := ⟨0x1fc, 0x204⟩ :: List.replicate 0x1ff ⟨0, 0⟩

/-- `sizeof(PageTable) * USER_SPACE_PAGE_TABLE_CNT`, and as much for section headers. -/
def tableSize : UInt32 := 0x2000

/-- What a system call of a process has; addresses of pages are physical ones. -/
structure Local where
  inCall : Bool
  /-- The pages for section headers. -/
  sectionHeaders : Option UInt32
  /-- `allocLength` and `fakeStack`. -/
  fakeStack : Option (UInt32 × UInt32)

structure System (ι : Type) where
  pool : MapState
  alive : ι → Bool
  /-- `m_UserPageTableArray`. -/
  array : ι → UInt32
  loc : ι → Local

inductive Action (ι : Type)
  | enter
  /-- `MemoryDescriptor::Initialize` for a new process, if its slot is free. -/
  | mdInitialize (child : ι)
  | headerLoad
  | fakeStack (allocLength : UInt32)
  | freeSectionHeaders
  | freeFakeStack
  /-- `Exec` returns while it still has pages for section headers. -/
  | forget
  /-- `MemoryDescriptor::Release` of a process that ends. -/
  | mdRelease
  | leave

namespace System

variable {ι : Type} [DecidableEq ι] (s : System ι) (p : ι)

def setLoc (l : Local) : System ι := { s with loc := Function.update s.loc p l }

def exec : Action ι → System ι
  | .enter => s.setLoc p { s.loc p with inCall := true }
  | .mdInitialize child =>
    if s.alive child then s
    else
      let r := s.pool.allocMemory tableSize
      { s with
        pool := r.2
        array := Function.update s.array child r.1
        alive := Function.update s.alive child true }
  | .headerLoad =>
    let r := s.pool.allocMemory tableSize
    { s with pool := r.2 }.setLoc p { s.loc p with sectionHeaders := some r.1 }
  | .fakeStack allocLength =>
    let r := s.pool.allocMemory allocLength
    { s with pool := r.2 }.setLoc p { s.loc p with fakeStack := some (allocLength, r.1) }
  | .freeSectionHeaders =>
    match (s.loc p).sectionHeaders with
    | some address =>
      { s with pool := s.pool.freeMemory tableSize address }.setLoc p
        { s.loc p with sectionHeaders := none }
    | none => s
  | .freeFakeStack =>
    match (s.loc p).fakeStack with
    | some (allocLength, address) =>
      { s with pool := s.pool.freeMemory allocLength address }.setLoc p
        { s.loc p with fakeStack := none }
    | none => s
  | .forget => s.setLoc p { s.loc p with sectionHeaders := none }
  | .mdRelease =>
    { s with
      pool := s.pool.freeMemory tableSize (s.array p)
      alive := Function.update s.alive p false }.setLoc p { s.loc p with inCall := false }
  | .leave => s.setLoc p { s.loc p with inCall := false }

end System

variable {ι : Type} [DecidableEq ι]

/-- `NewProc`: while the image is copied, the u area is the child's, and the parent's
`m_UserPageTableArray` is in `pgTable`. -/
def fork (child : ι) : Code (System ι) (Action ι) Unit := do
  perform .enter
  perform (.mdInitialize child)
  sleep
  perform .leave

/-- The length of `fakeStack`, for arguments of a stack of this size. -/
def allocLength (stackSize : ℕ) : UInt32 := (UInt32.ofNat stackSize + 0x1fff) >>> 13 <<< 13

/-- `Exec` once the file may be executed; `ReadI`, `Expand` and `IPut` may sleep. -/
def execFile (h : Header) : Code (System ι) (Action ι) Unit := do
  sleep
  if !h.valid then sleep
  else do
    perform .headerLoad
    sleep
    if h.tooLarge then do
      sleep
      perform .forget
    else do
      perform (.fakeStack (allocLength h.sizeOfStackCommit))
      sleep
      perform .freeSectionHeaders
      sleep
      perform .freeFakeStack
      sleep

/-- `Exec`, as far as it uses pages of the kernel. -/
def exec (f : ExeFile) : Code (System ι) (Action ι) Unit :=
  perform .enter >>= fun _ => sleep >>= fun _ =>
    (if f.refused || !f.regular then sleep else execFile f.header) >>= fun _ => perform .leave

/-- `Exit`. -/
def exit : Code (System ι) (Action ι) Unit := do
  perform .enter
  sleep
  perform .mdRelease

/-- What processes do. -/
inductive Call (ι : Type)
  | fork (child : ι)
  | exec (f : ExeFile)
  | exit

/-- The processes. -/
def tableMachine (ι : Type) [DecidableEq ι] : Machine ι (System ι) (Action ι) (Call ι) where
  exec p a s := s.exec p a
  runnable p s := s.alive p
  may _ _ _ := true
  codeOf _ t :=
    match t with
    | .fork child => fork child
    | .exec f => exec f
    | .exit => exit

/-- There are no processes yet. -/
def empty : System ι := ⟨⟨kernelMap, 0⟩, fun _ => false, fun _ => 0, fun _ => ⟨false, none, none⟩⟩

/-- `SetupProcessZero` has made the first process. -/
def boot (p : ι) : Config ι (System ι) (Action ι) :=
  ⟨empty.exec p (.mdInitialize p), fun _ => .ret ()⟩

/-- There are free pages side by side for what is asked for, and `Exec` does not return with the
section headers. -/
def Enough (_ : ι) (s : System ι) : Action ι → Prop
  | .mdInitialize child => s.alive child = true ∨ s.pool.hasExtent (pages tableSize) = true
  | .headerLoad => s.pool.hasExtent (pages tableSize) = true
  | .fakeStack n => pages n = 0 ∨ s.pool.hasExtent (pages n) = true
  | .forget => False
  | _ => True

/-! ### Owners -/

/-- What a process may have pages for. -/
inductive Use
  | array
  | sectionHeaders
  | fakeStack
  deriving DecidableEq

/-- The pages of a process, as a range. -/
def System.own (s : System ι) : ι × Use → UInt32 × UInt32
  | (p, .array) => if s.alive p then (s.array p / PAGE_SIZE, pages tableSize) else (0, 0)
  | (p, .sectionHeaders) =>
    match (s.loc p).sectionHeaders with
    | some address => (address / PAGE_SIZE, pages tableSize)
    | none => (0, 0)
  | (p, .fakeStack) =>
    match (s.loc p).fakeStack with
    | some (n, address) => (address / PAGE_SIZE, pages n)
    | none => (0, 0)

/-- The invariant: nothing is lost or used twice, page tables are not at address 0, and only
processes that live are in calls. -/
structure Kept (s : System ι) : Prop where
  owned : Owned kernelMap s.pool s.own
  nonzero : ∀ p, s.alive p = true → s.array p ≠ 0
  alive : ∀ p, (s.loc p).inCall = true → s.alive p = true

variable {s : System ι} {p q : ι} {g : Local}

theorem split_kernelMap : Split kernelMap [⟨0x1fc, 0x204⟩] (List.replicate 0x1ff ⟨0, 0⟩) := by
  refine ⟨rfl, ⟨?_, List.pairwise_singleton _ _⟩, ?_, ?_⟩
  · simp [lo, stop]
  · simp [stop]
  · intro z hz
    rw [List.eq_of_mem_replicate hz]

theorem wellFormed_kernelMap : WellFormed kernelMap :=
  ⟨_, _, split_kernelMap, List.replicate_succ_ne_nil⟩

theorem freeUnits_kernelMap : freeUnits kernelMap = Set.Ico 0x204 0x400 := by
  rw [split_kernelMap.freeUnits_eq, Extents.units_cons, Extents.units_nil, Set.union_empty]
  rfl

theorem length_kernelMap : kernelMap.length = 0x200 := by
  rw [kernelMap, List.length_cons, List.length_replicate]

omit [DecidableEq ι] in
theorem Kept.hasRoom (h : Kept s) : HasRoom s.pool.map := by
  have hlen := h.owned.length.trans length_kernelMap
  have hsub : freeUnits s.pool.map ⊆ Set.Ico 0x204 0x400 :=
    freeUnits_kernelMap ▸ h.owned.inv.sub
  refine hasRoom_of_short h.owned.inv.wf hsub ?_ ?_ <;> omega

/-! ### What the actions do to the owners -/

omit [DecidableEq ι] in
/-- Pages that are found have an address that is not 0, and are found again from it. -/
theorem page_alloc (h : Kept s) {n : UInt32} (hsize : n = 0 ∨ s.pool.hasExtent n = true) :
    range ((s.pool.alloc n).1 * PAGE_SIZE / PAGE_SIZE) n = range (s.pool.alloc n).1 n ∧
      (0 < n → (s.pool.alloc n).1 * PAGE_SIZE ≠ 0) := by
  rcases eq_or_ne n 0 with rfl | hne
  · exact ⟨by rw [range_zero, range_zero], fun hpos => absurd hpos (by decide)⟩
  · have hmem := h.owned.alloc_mem (UInt32.pos_iff_ne_zero.2 hne) (hsize.resolve_left hne)
    rw [freeUnits_kernelMap, Set.mem_Ico] at hmem
    have hpage := page_of_address (r := (s.pool.alloc n).1) (by omega)
    refine ⟨by rw [hpage], fun _ hzero => ?_⟩
    rw [hzero] at hpage
    rw [← hpage] at hmem
    exact absurd hmem.1 (by decide)

/-- What a process does changes nothing in the calls of the others. -/
theorem exec_frame (a : Action ι) (s : System ι) (hpq : p ≠ q) : (s.exec p a).loc q = s.loc q := by
  have hset : ∀ (r : System ι) l, (r.setLoc p l).loc q = r.loc q :=
    fun r l => Function.update_of_ne hpq.symm _ _
  cases a with
  | mdInitialize child =>
    rw [System.exec]
    split <;> rfl
  | freeSectionHeaders | freeFakeStack =>
    rw [System.exec]
    split
    · exact hset _ _
    · rfl
  | _ => exact hset _ _

@[simp] theorem loc_setLoc_self {l : Local} : (s.setLoc p l).loc p = l := Function.update_self ..

theorem loc_setLoc_of_ne {l : Local} (hq : q ≠ p) : (s.setLoc p l).loc q = s.loc q :=
  Function.update_of_ne hq _ _

omit [DecidableEq ι] in
/-- The ranges of a system, one process and one use at a time. -/
theorem own_eq {s' : System ι} {q : ι} {u : Use} (halive : s'.alive q = s.alive q)
    (harray : s'.array q = s.array q) (hloc : s'.loc q = s.loc q) :
    s'.own (q, u) = s.own (q, u) := by
  cases u <;> simp [System.own, halive, harray, hloc]

/-- What a piece of a call does. -/
abbrev TSpec (p : ι) (g : Local) (P : Code (System ι) (Action ι) Unit)
    (Q : Unit → Local → Prop) : Prop :=
  Spec (fun a s => System.exec s p a) (Enough p) Kept (fun s => s.loc p) g P Q

/-- What a process owns for its other uses, and what the others own, is not touched. -/
theorem own_others {m : MapState} {l : Local} {u : Use}
    (hothers : ∀ v, v ≠ u → ({ s with pool := m }.setLoc p l).own (p, v) = s.own (p, v)) :
    ∀ k, k ≠ (p, u) → ({ s with pool := m }.setLoc p l).own k = s.own k := by
  rintro ⟨q, v⟩ hne
  rcases eq_or_ne q p with rfl | hq
  · exact hothers v fun hv => hne (by rw [hv])
  · exact own_eq rfl rfl (loc_setLoc_of_ne hq)

theorem Kept.alive_setLoc (h : Kept s) {m : MapState} {l : Local}
    (hin : l.inCall = (s.loc p).inCall) {q : ι}
    (hq : (({ s with pool := m }.setLoc p l).loc q).inCall = true) : s.alive q = true := by
  apply h.alive
  rcases eq_or_ne q p with rfl | hqp
  · rwa [loc_setLoc_self, hin] at hq
  · rwa [loc_setLoc_of_ne hqp] at hq

/-- A process takes pages for a use that it has none for. -/
theorem Kept.alloc (h : Kept s) {n : UInt32} {l : Local} {u : Use}
    (hnone : (s.own (p, u)).2 = 0) (hin : l.inCall = (s.loc p).inCall)
    (hsize : pages n = 0 ∨ s.pool.hasExtent (pages n) = true)
    (hown : ({ s with pool := (s.pool.allocMemory n).2 }.setLoc p l).own (p, u) =
      ((s.pool.allocMemory n).1 / PAGE_SIZE, pages n))
    (hothers : ∀ v, v ≠ u → ({ s with pool := (s.pool.allocMemory n).2 }.setLoc p l).own (p, v) =
      s.own (p, v)) :
    Kept ({ s with pool := (s.pool.allocMemory n).2 }.setLoc p l) := by
  refine ⟨h.owned.alloc (k := (p, u)) hnone hsize ?_ (own_others hothers), h.nonzero,
    fun q hq => h.alive_setLoc hin hq⟩
  rw [hown]
  exact (page_alloc h hsize).1

/-- A process gives back the pages of one use. -/
theorem Kept.free (h : Kept s) {n address : UInt32} {l : Local} {u : Use}
    (hown : s.own (p, u) = (address / PAGE_SIZE, pages n)) (hin : l.inCall = (s.loc p).inCall)
    (hnone : (({ s with pool := s.pool.freeMemory n address }.setLoc p l).own (p, u)).2 = 0)
    (hothers : ∀ v, v ≠ u → ({ s with pool := s.pool.freeMemory n address }.setLoc p l).own (p, v) =
      s.own (p, v)) :
    Kept ({ s with pool := s.pool.freeMemory n address }.setLoc p l) := by
  exact ⟨h.owned.free wellFormed_kernelMap h.hasRoom hown hnone (own_others hothers), h.nonzero,
    fun q hq => h.alive_setLoc hin hq⟩

theorem headerLoad_spec (hg : g.sectionHeaders = none) :
    TSpec p g (perform .headerLoad) fun _ g' => ∃ a, g' = { g with sectionHeaders := some a } := by
  apply Spec.perform
  rintro s hs rfl hok
  refine ⟨hs.alloc (u := .sectionHeaders) ?_ rfl (.inr hok) ?_ ?_, _, loc_setLoc_self⟩
  · simp [System.own, hg]
  · simp [System.own]
  · intro v hv
    cases v with
    | sectionHeaders => exact absurd rfl hv
    | array => rfl
    | fakeStack => simp [System.own]

theorem fakeStack_spec {n : UInt32} (hg : g.fakeStack = none) :
    TSpec p g (perform (.fakeStack n)) fun _ g' => ∃ a, g' = { g with fakeStack := some (n, a) } := by
  apply Spec.perform
  rintro s hs rfl hok
  refine ⟨hs.alloc (u := .fakeStack) ?_ rfl hok ?_ ?_, _, loc_setLoc_self⟩
  · simp [System.own, hg]
  · simp [System.own]
  · intro v hv
    cases v with
    | fakeStack => exact absurd rfl hv
    | array => rfl
    | sectionHeaders => simp [System.own]

theorem freeSectionHeaders_spec {a : UInt32} (hg : g.sectionHeaders = some a) :
    TSpec p g (perform .freeSectionHeaders) fun _ g' => g' = { g with sectionHeaders := none } := by
  apply Spec.perform
  rintro s hs rfl -
  have hexec : s.exec p .freeSectionHeaders =
      { s with pool := s.pool.freeMemory tableSize a }.setLoc p
        { s.loc p with sectionHeaders := none } := by
    rw [System.exec, hg]
  rw [hexec]
  refine ⟨hs.free (u := .sectionHeaders) ?_ rfl ?_ ?_, loc_setLoc_self⟩
  · simp [System.own, hg]
  · simp [System.own]
  · intro v hv
    cases v with
    | sectionHeaders => exact absurd rfl hv
    | array => rfl
    | fakeStack => simp [System.own]

theorem freeFakeStack_spec {n a : UInt32} (hg : g.fakeStack = some (n, a)) :
    TSpec p g (perform .freeFakeStack) fun _ g' => g' = { g with fakeStack := none } := by
  apply Spec.perform
  rintro s hs rfl -
  have hexec : s.exec p .freeFakeStack =
      { s with pool := s.pool.freeMemory n a }.setLoc p { s.loc p with fakeStack := none } := by
    rw [System.exec, hg]
  rw [hexec]
  refine ⟨hs.free (u := .fakeStack) ?_ rfl ?_ ?_, loc_setLoc_self⟩
  · simp [System.own, hg]
  · simp [System.own]
  · intro v hv
    cases v with
    | fakeStack => exact absurd rfl hv
    | array => rfl
    | sectionHeaders => simp [System.own]

/-- The page tables of a new process. -/
theorem initialize_spec (p child : ι) (g : Local) :
    TSpec p g (perform (.mdInitialize child)) fun _ g' => g' = g := by
  apply Spec.perform
  rintro s hs rfl hok
  rw [System.exec]
  split
  · exact ⟨hs, rfl⟩
  · next hchild =>
    have hsize : pages tableSize = 0 ∨ s.pool.hasExtent (pages tableSize) = true :=
      .inr (hok.resolve_left hchild)
    obtain ⟨hrange, hnonzero⟩ := page_alloc hs hsize
    refine ⟨⟨hs.owned.alloc (k := (child, .array)) ?_ hsize ?_ ?_, fun q hq => ?_, fun q hq => ?_⟩,
      rfl⟩
    · simp [System.own, hchild]
    · simpa [System.own, MapState.allocMemory] using hrange
    · rintro ⟨q, u⟩ hne
      cases u with
      | array =>
        have hq : q ≠ child := fun h => hne (by rw [h])
        simp [System.own, hq]
      | _ => rfl
    · rcases eq_or_ne q child with rfl | hqc
      · have hpos : 0 < pages tableSize := by decide
        simpa [MapState.allocMemory] using hnonzero hpos
      · simp only [Function.update_of_ne hqc] at hq ⊢
        exact hs.nonzero q hq
    · rcases eq_or_ne q child with rfl | hqc
      · exact Function.update_self ..
      · exact (Function.update_of_ne hqc _ _).trans (hs.alive q hq)

/-- The page tables of a process that ends. -/
theorem release_spec (hg : g.inCall = true) :
    TSpec p g (perform .mdRelease) fun _ g' => g' = { g with inCall := false } := by
  apply Spec.perform
  rintro s hs rfl -
  have halive := hs.alive p hg
  refine ⟨⟨?_, fun q hq => ?_, fun q hq => ?_⟩, loc_setLoc_self⟩
  · have hown : s.own (p, .array) = (s.array p / PAGE_SIZE, pages tableSize) := by
      simp [System.own, halive]
    refine hs.owned.free wellFormed_kernelMap hs.hasRoom hown ?_ ?_
    · simp [System.own, System.exec, System.setLoc]
    · rintro ⟨q, u⟩ hne
      rcases eq_or_ne q p with rfl | hq
      · cases u with
        | array => exact absurd rfl hne
        | _ => simp [System.own, System.exec]
      · exact own_eq (Function.update_of_ne hq _ _) rfl (loc_setLoc_of_ne hq)
  · rcases eq_or_ne q p with rfl | hqp
    · simp [System.exec, System.setLoc] at hq
    · exact hs.nonzero q ((Function.update_of_ne hqp _ _).symm.trans hq)
  · rcases eq_or_ne q p with rfl | hqp
    · simp [System.exec] at hq
    · rw [System.exec, loc_setLoc_of_ne hqp] at hq
      exact (Function.update_of_ne hqp _ _).trans (hs.alive q hq)

/-- A process returns. -/
theorem leave_spec : TSpec p g (perform .leave) fun _ g' => g' = { g with inCall := false } := by
  apply Spec.perform
  rintro s hs rfl -
  refine ⟨⟨hs.owned.congr ?_, hs.nonzero, fun q hq => ?_⟩, loc_setLoc_self⟩
  · rintro ⟨q, u⟩
    rcases eq_or_ne q p with rfl | hq
    · cases u with
      | array => rfl
      | _ => simp [System.own, System.exec]
    · exact own_eq rfl rfl (loc_setLoc_of_ne hq)
  · rcases eq_or_ne q p with rfl | hqp
    · simp [System.exec] at hq
    · rw [System.exec, loc_setLoc_of_ne hqp] at hq
      exact hs.alive q hq

/-! ### Calls -/

/-- Between two calls a process has nothing but its page tables. -/
def Quiet (g : Local) : Prop := g = ⟨false, none, none⟩

theorem execFile_spec {h : Header} (hg : g.sectionHeaders = none ∧ g.fakeStack = none) :
    TSpec p g (execFile h) fun _ g' => g' = g := by
  obtain ⟨b, sh, fs⟩ := g
  obtain ⟨rfl, rfl⟩ := hg
  apply Spec.bind Spec.sleep
  rintro _ g₁ rfl
  cases hvalid : h.valid with
  | false => exact Spec.sleep
  | true =>
    apply Spec.bind (headerLoad_spec rfl)
    rintro _ g₂ ⟨a, rfl⟩
    apply Spec.bind Spec.sleep
    rintro _ g₃ rfl
    cases htoo : h.tooLarge with
    | true =>
      apply Spec.bind Spec.sleep
      rintro _ g₄ rfl
      -- excluded
      exact Spec.perform fun s _ _ hok => hok.elim
    | false =>
      apply Spec.bind (fakeStack_spec rfl)
      rintro _ g₄ ⟨c, rfl⟩
      apply Spec.bind Spec.sleep
      rintro _ g₅ rfl
      apply Spec.bind (freeSectionHeaders_spec rfl)
      rintro _ g₆ rfl
      apply Spec.bind Spec.sleep
      rintro _ g₇ rfl
      apply Spec.bind (freeFakeStack_spec rfl)
      rintro _ g₈ rfl
      exact Spec.sleep

/-- A call of a process that lives. -/
theorem enter_wp {P : Code (System ι) (Action ι) Unit} (hs : Kept s) (halive : s.alive p = true)
    (hquiet : Quiet (s.loc p))
    (hP : TSpec p ⟨true, none, none⟩ P fun _ g' => Quiet g') :
    wp (fun a s => System.exec s p a) (Enough p) Kept (fun s => s.loc p)
      (perform .enter >>= fun _ => P) (fun _ s => Kept s ∧ Quiet (s.loc p)) s := by
  rw [wp_bind, wp_perform]
  intro _
  apply hP
  · refine ⟨hs.owned.congr ?_, hs.nonzero, fun q hq => ?_⟩
    · rintro ⟨q, u⟩
      rcases eq_or_ne q p with rfl | hq
      · cases u with
        | array => rfl
        | _ => simp [System.own, System.exec]
      · exact own_eq rfl rfl (loc_setLoc_of_ne hq)
    · rcases eq_or_ne q p with rfl | hqp
      · exact halive
      · rw [System.exec, loc_setLoc_of_ne hqp] at hq
        exact hs.alive q hq
  · change (s.setLoc p { s.loc p with inCall := true }).loc p = _
    rw [loc_setLoc_self, hquiet]

theorem call_wp (hs : Kept s) (halive : s.alive p = true) (hquiet : Quiet (s.loc p))
    (t : Call ι) : wp (fun a s => System.exec s p a) (Enough p) Kept (fun s => s.loc p)
      ((tableMachine ι).codeOf p t) (fun _ s => Kept s ∧ Quiet (s.loc p)) s := by
  cases t with
  | fork child =>
    refine enter_wp hs halive hquiet ?_
    apply Spec.bind (initialize_spec p child _)
    rintro _ g₁ rfl
    apply Spec.bind Spec.sleep
    rintro _ g₂ rfl
    exact leave_spec
  | exec f =>
    refine enter_wp hs halive hquiet ?_
    apply Spec.bind Spec.sleep
    rintro _ g₁ rfl
    refine Spec.bind (Q := fun _ g' => g' = ⟨true, none, none⟩) ?_ ?_
    · split
      · exact Spec.sleep
      · exact execFile_spec ⟨rfl, rfl⟩
    · rintro _ g₂ rfl
      exact leave_spec
  | exit =>
    refine enter_wp hs halive hquiet ?_
    apply Spec.bind Spec.sleep
    rintro _ g₁ rfl
    exact release_spec rfl

/-! ### Runs -/

/-- The pages at an address, as a process uses them for its page tables. -/
def System.tablePages (s : System ι) (p : ι) : Set ℕ :=
  range (s.array p / PAGE_SIZE) (pages tableSize)

/-- Processes that live have page tables of their own, not at address 0; and when nobody is in
`Exec`, these are all the pages that are not free. -/
structure Balanced (s : System ι) : Prop where
  /-- No page is in the map twice. -/
  map : WellFormed s.pool.map
  apart : ∀ p q, s.alive p = true → s.alive q = true → p ≠ q →
    Disjoint (s.tablePages p) (s.tablePages q)
  nonzero : ∀ p, s.alive p = true → s.array p ≠ 0
  taken : (∀ p, (s.loc p).sectionHeaders = none ∧ (s.loc p).fakeStack = none) →
    ∀ u ∈ Set.Ico 0x204 0x400, u ∉ freeUnits s.pool.map ↔ ∃ p, s.alive p = true ∧ u ∈ s.tablePages p

omit [DecidableEq ι] in
theorem Kept.balanced (h : Kept s) : Balanced s := by
  have hown : ∀ q, s.alive q = true →
      range (s.own (q, .array)).1 (s.own (q, .array)).2 = s.tablePages q := by
    intro q hq
    simp [System.own, System.tablePages, hq]
  refine ⟨h.owned.inv.wf, fun q r hq hr hqr => ?_, h.nonzero,
    fun hnone u hu => ⟨fun htaken => ?_, ?_⟩⟩
  · have hne : (q, Use.array) ≠ (r, Use.array) := fun heq => hqr (Prod.mk.inj heq).1
    have hdisj := h.owned.shares.disjoint _ _ hne
    simpa only [hown q hq, hown r hr] using hdisj
  · rw [← freeUnits_kernelMap] at hu
    obtain ⟨⟨q, v⟩, hv⟩ := ((h.owned.shares.all u).1 hu).resolve_left htaken
    -- the owner is alive, and uses the pages as page tables
    cases v with
    | array =>
      cases hq : s.alive q with
      | true => exact ⟨q, hq, hown q hq ▸ hv⟩
      | false => simp [System.own, hq, range_zero] at hv
    | sectionHeaders => simp [System.own, (hnone q).1, range_zero] at hv
    | fakeStack => simp [System.own, (hnone q).2, range_zero] at hv
  · rintro ⟨q, hq, hpage⟩ hfree
    rw [← hown q hq] at hpage
    exact Set.disjoint_left.1 (h.owned.shares.apart (q, .array)) hpage hfree

theorem hasExtent_kernelMap : MapState.hasExtent ⟨kernelMap, 0⟩ (pages tableSize) = true := by
  decide

omit [DecidableEq ι] in
theorem kept_empty : Kept (empty : System ι) := by
  refine ⟨⟨⟨wellFormed_kernelMap, subset_rfl, ?_⟩, rfl, ?_⟩, ?_, ?_⟩
  · change 0 < kernelMap.length
    rw [length_kernelMap]
    exact Nat.succ_pos _
  · refine (Shares.nobody _).congr ?_
    rintro ⟨q, u⟩
    cases u <;> exact range_zero 0
  · exact fun q hq => absurd hq Bool.false_ne_true
  · exact fun q hq => absurd hq Bool.false_ne_true

/-- A program with a stack of one page, and one that is too large. -/
def smallProgram : ExeFile := ⟨false, true, ⟨0x00004550, 0x1000, 0x2000, 0x400000, 0x1000, 0x3000⟩⟩
def largeProgram : ExeFile := ⟨false, true, ⟨0x00004550, 0x1000, 0x2000, 0x400000, 0x800000, 0x3000⟩⟩

/-- `Enough`, as a test. -/
def enough (_ : ι) (s : System ι) : Action ι → Bool
  | .mdInitialize child => s.alive child || s.pool.hasExtent (pages tableSize)
  | .headerLoad => s.pool.hasExtent (pages tableSize)
  | .fakeStack n => pages n = 0 || s.pool.hasExtent (pages n)
  | .forget => false
  | _ => true

omit [DecidableEq ι] in
theorem enough_of_test (p : ι) (s : System ι) (a : Action ι) (h : enough p s a = true) :
    Enough p s a := by
  cases a with
  | mdInitialize child => exact (Bool.or_eq_true _ _).mp h
  | headerLoad => exact h
  | fakeStack n =>
    rcases (Bool.or_eq_true _ _).mp h with hzero | hextent
    · exact .inl (of_decide_eq_true hzero)
    · exact .inr hextent
  | forget => cases h
  | _ => trivial

end TableOwners
end UnixV6pp
