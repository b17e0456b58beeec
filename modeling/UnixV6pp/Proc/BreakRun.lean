import UnixV6pp.Lib.Runs
import UnixV6pp.Proc.Break
import UnixV6pp.Proc.PageTableRewrite

/-!
# Requests for more memory

A program asks for another end of its data, and a fault below the stack asks for another
page of stack.  A request that is refused should leave everything as it was.  `SStack`
has enlarged the stack in the descriptor when it finds out that there is no room, and
does not take it back.

* `Sound`, `Loaded` — `p_size` and the page tables are those of the descriptor.
* `Request.Atomic` — a request is carried out, or refused without a trace.
* `atomic_iff` — when that is so.
* `growth_run` — **all runs without a refused growth of the stack.**
-/

namespace UnixV6pp
namespace Break

open Words Paging Copy
open Execution (ErrCode)

variable {p p' : Process} {newEnd cr2 esp newSize dataSize stackSize : ℕ} {g : Grant}

namespace Process

variable (p)

/-- The image holds the kernel's page, the data and the stack. -/
def Sized : Prop := p.pSize = (USIZE + p.md.mDataSize + p.md.mStackSize) % 2 ^ 32

/-- The segments of these sizes, with the text and the data where they are. -/
def segments (dataSize stackSize : ℕ) : Option Oos2.UserPageTableArray :=
  Oos2.mapSegments p.md.mTextStartAddress p.md.mTextSize p.md.mDataStartAddress dataSize stackSize

/-- The page tables show the table of the descriptor. -/
def Shows : Prop := ∃ t, p.tables = Oos2.mapToPageTable p.entrys p.located t

/-- The process with this table. -/
def established (entrys : Oos2.UserPageTableArray) : Process :=
  { p with entrys := entrys, tables := Oos2.mapToPageTable entrys p.located p.tables }

end Process

/-- The size of the image is that of the descriptor. -/
structure Sound (p : Process) : Prop where
  dataLt : p.md.mDataSize < 2 ^ 32
  stackLt : p.md.mStackSize < 2 ^ 32
  sized : p.Sized

/-- The page tables are those of the descriptor. -/
structure Loaded (p : Process) : Prop where
  entrys : p.segments p.md.mDataSize p.md.mStackSize = some p.entrys
  shows : p.Shows

/-! ### The parts of a request -/

namespace Process

theorem establish_refused
    (h : accepts p.md.mTextStartAddress p.md.mTextSize dataSize stackSize = false) :
    p.establishUserPageTable dataSize stackSize = some (false, { p with uError := some .ENOMEM }) := by
  rw [establishUserPageTable, if_neg (by rw [h]; exact Bool.false_ne_true)]

theorem establish_accepted
    (h : accepts p.md.mTextStartAddress p.md.mTextSize dataSize stackSize = true) :
    p.establishUserPageTable dataSize stackSize =
      (p.segments dataSize stackSize).map fun entrys => (true, p.established entrys) := by
  rw [establishUserPageTable, if_pos h, Oos2.establishUserPageTable, Option.map_map]
  rfl

theorem shows_mapToPageTable : p.mapToPageTable.Shows := ⟨p.tables, rfl⟩

/-- `Expand` sets the size and keeps the descriptor. -/
theorem expand_kept (p : Process) (newSize : ℕ) (g : Grant) : (p.expand mapToPageTable newSize g).pSize = newSize ∧
    (p.expand mapToPageTable newSize g).md = p.md ∧
    (p.expand mapToPageTable newSize g).entrys = p.entrys := by
  unfold expand
  dsimp only
  split
  · exact ⟨rfl, rfl, rfl⟩
  · cases g with
    | moved newAddress => exact ⟨rfl, rfl, rfl⟩
    | swapped newAddress xCaddr mem => exact ⟨rfl, rfl, rfl⟩

theorem expand_shows (h : p.Shows) : (p.expand mapToPageTable newSize g).Shows := by
  unfold expand
  dsimp only
  split
  · exact h
  · cases g with
    | moved newAddress => exact shows_mapToPageTable
    | swapped newAddress xCaddr mem => exact shows_mapToPageTable

/-- The second half of `SBreak` gives the data the new size, and nothing but that to the
descriptor. -/
theorem resize_kept (p : Process) (newSize : ℕ) (g : Grant) : (p.resize mapToPageTable newSize g).md = { p.md with mDataSize := newSize } ∧
    (p.resize mapToPageTable newSize g).entrys = p.entrys := by
  unfold resize
  dsimp only
  split
  · obtain ⟨-, hmd, hentrys⟩ := expand_kept _ _ g
    exact ⟨hmd, hentrys⟩
  · split
    · obtain ⟨-, hmd, hentrys⟩ := expand_kept _ _ g
      exact ⟨hmd, hentrys⟩
    · exact ⟨rfl, rfl⟩

theorem resize_shows (h : p.Shows) : (p.resize mapToPageTable newSize g).Shows := by
  unfold resize
  dsimp only
  split
  · exact expand_shows h
  · split
    · exact expand_shows h
    · exact h

/-- The image gets the size that belongs to the descriptor. -/
theorem resize_sized (h : p.Sized) (hdata : p.md.mDataSize < 2 ^ 32) (hnew : newSize < 2 ^ 32) :
    (p.resize mapToPageTable newSize g).Sized := by
  have hsum : (USIZE + newSize + p.md.mStackSize) % 2 ^ 32 =
      (newSize + (USIZE + p.md.mStackSize)) % 2 ^ 32 := by
    congr 1
    omega
  unfold Sized
  rw [(resize_kept p newSize g).1, hsum]
  unfold resize
  dsimp only
  split
  · exact (expand_kept _ _ g).1
  · split
    · exact (expand_kept _ _ g).1
    · next hneg hpos =>
      -- the data keeps its size
      have hsame : newSize = p.md.mDataSize := by
        rw [int32_eq] at hneg hpos
        omega
      rw [hsame, Nat.add_left_comm, ← Nat.add_assoc]
      exact h

end Process

/-! ### Requests -/

/-- What can be asked for. -/
inductive Request
  | sBreak (newEnd : ℕ)
  | pageFault (cr2 esp : ℕ)

/-- The request is carried out. -/
def Process.request (p : Process) : Request → Grant → Option Process
  | .sBreak newEnd, g => p.sBreak newEnd g
  | .pageFault cr2 esp, g => p.pageFault cr2 esp g

namespace Request

/-- The sizes of the data and the stack that the page tables are to be established for, if they are
to be established at all. -/
def sizes (p : Process) : Request → Option (ℕ × ℕ)
  | .sBreak newEnd =>
    if newEnd = 0 then none
    else some (p.requested newEnd, p.md.mStackSize)
  | .pageFault cr2 esp =>
    if p.growsStack cr2 esp then some (p.md.mDataSize, (p.md.mStackSize + 4096) % 2 ^ 32) else none

/-- There is no room for what is asked for. -/
def Refused (p : Process) (r : Request) : Prop :=
  ∃ d s, r.sizes p = some (d, s) ∧ accepts p.md.mTextStartAddress p.md.mTextSize d s = false

/-- What is accepted fits in the table. -/
def InTable (p : Process) (r : Request) : Prop :=
  ∀ d s, r.sizes p = some (d, s) → accepts p.md.mTextStartAddress p.md.mTextSize d s = true →
    p.segments d s ≠ none

/-- A fault below the stack. -/
def growth : Request → Bool
  | .sBreak _ => false
  | .pageFault _ _ => true

/-- A request that is not a growth of the stack for which there is no room. -/
def Meets (p : Process) (r : Request) : Prop := r.InTable p ∧ ¬(r.growth = true ∧ r.Refused p)

/-- The request leaves the size in order, and the page tables too: those that it loads, and those
that were in order before. -/
structure Done (p : Process) (r : Request) (p' : Process) : Prop where
  sound : Sound p'
  loaded : r.sizes p ≠ none ∨ Loaded p → Loaded p'

/-- Wherever memory is found, the request is carried out and leaves everything in order, or it is
refused and leaves everything as it was, and `ENOMEM` is reported. -/
def Atomic (p : Process) (r : Request) : Prop :=
  ∀ g, ∃ p', p.request r g = some p' ∧ (r.Refused p → p' = { p with uError := some .ENOMEM }) ∧
    (¬r.Refused p → r.Done p p')

end Request

open Request

/-- `SBreak` with another end. -/
theorem atomic_sBreak (h : Sound p) (hin : InTable p (.sBreak newEnd)) :
    Atomic p (.sBreak newEnd) := by
  intro g
  obtain ⟨hdata, hstack, hsized⟩ := h
  dsimp only [Process.request]
  unfold Process.sBreak
  dsimp only
  by_cases hzero : newEnd = 0
  · -- a question only
    have hsizes : sizes p (.sBreak newEnd) = none := if_pos hzero
    rw [if_pos hzero]
    refine ⟨_, rfl, ?_, fun _ => ⟨⟨hdata, hstack, hsized⟩, ?_⟩⟩
    · rintro ⟨d, s, hds, -⟩
      rw [hsizes] at hds
      cases hds
    · rintro (hne | hloaded)
      · exact absurd hsizes hne
      · exact ⟨hloaded.entrys, hloaded.shows⟩
  · rw [if_neg hzero]
    have hsizes : sizes p (.sBreak newEnd) = some (_, _) := if_neg hzero
    set newSize := p.requested newEnd with hnew
    have hlt : newSize < 2 ^ 32 := Nat.mod_lt _ (by decide)
    cases haccepts : accepts p.md.mTextStartAddress p.md.mTextSize newSize p.md.mStackSize with
    | false =>
      rw [Process.establish_refused haccepts]
      exact ⟨_, rfl, fun _ => rfl, fun hno => absurd ⟨_, _, hsizes, haccepts⟩ hno⟩
    | true =>
      obtain ⟨entrys, hsome⟩ := Option.ne_none_iff_exists'.mp (hin _ _ hsizes haccepts)
      rw [Process.establish_accepted haccepts, hsome]
      refine ⟨_, rfl, ?_, fun _ => ?_⟩
      · rintro ⟨d, s, hds, hrefused⟩
        obtain ⟨rfl, rfl⟩ := Prod.mk.inj (Option.some.inj (hsizes.symm.trans hds))
        rw [haccepts] at hrefused
        cases hrefused
      · obtain ⟨hmd, hkept⟩ := Process.resize_kept (p.established entrys) newSize g
        refine ⟨⟨?_, ?_, Process.resize_sized hsized hdata hlt⟩, fun _ => ⟨?_, ?_⟩⟩
        · rw [hmd]
          exact hlt
        · rw [hmd]
          exact hstack
        · rw [Process.segments, hmd, hkept]
          exact hsome
        · exact Process.resize_shows ⟨p.tables, rfl⟩

/-- The table for a larger stack. -/
theorem Process.establish_withStack_refused (n : ℕ)
    (h : accepts p.md.mTextStartAddress p.md.mTextSize dataSize stackSize = false) :
    (p.withStack n).establishUserPageTable dataSize stackSize =
      some (false, { p.withStack n with uError := some .ENOMEM }) :=
  establish_refused (p := p.withStack n) h

theorem Process.establish_withStack_accepted (n : ℕ)
    (h : accepts p.md.mTextStartAddress p.md.mTextSize dataSize stackSize = true) :
    (p.withStack n).establishUserPageTable dataSize stackSize =
      (p.segments dataSize stackSize).map fun entrys => (true, (p.withStack n).established entrys) :=
  establish_accepted (p := p.withStack n) h

theorem sizes_pageFault (hgrows : p.growsStack cr2 esp = true) :
    sizes p (.pageFault cr2 esp) = some (p.md.mDataSize, (p.md.mStackSize + 4096) % 2 ^ 32) :=
  if_pos hgrows

/-- A growth for which there is no room leaves the larger stack in the descriptor. -/
theorem sStack_refused (h : accepts p.md.mTextStartAddress p.md.mTextSize p.md.mDataSize
    ((p.md.mStackSize + 4096) % 2 ^ 32) = false) : p.sStack g =
      some { p.withStack ((p.md.mStackSize + 4096) % 2 ^ 32) with uError := some .ENOMEM } := by
  unfold Process.sStack
  dsimp only
  rw [Process.establish_withStack_refused _ h]

/-- The second half of `SStack` keeps the descriptor and loads the page tables. -/
theorem Process.raise_kept (p : Process) (newSize change : ℕ) (g : Grant) : (p.raise newSize change g).pSize = newSize ∧
    (p.raise newSize change g).md = p.md ∧ (p.raise newSize change g).entrys = p.entrys :=
  expand_kept p newSize g

/-- A growth of the stack for which there is room. -/
theorem atomic_pageFault (h : Sound p) (hmeets : Meets p (.pageFault cr2 esp)) :
    Atomic p (.pageFault cr2 esp) := by
  intro g
  obtain ⟨hin, hroom⟩ := hmeets
  have hnot : ¬Refused p (.pageFault cr2 esp) := fun hrefused => hroom ⟨rfl, hrefused⟩
  cases hgrows : p.growsStack cr2 esp with
  | false =>
    -- a signal
    have heq : p.request (.pageFault cr2 esp) g = some p := if_neg (by rw [hgrows]; decide)
    have hsizes : sizes p (.pageFault cr2 esp) = none := if_neg (by rw [hgrows]; decide)
    exact ⟨p, heq, fun hrefused => absurd hrefused hnot, fun _ =>
      ⟨h, fun hl => hl.resolve_left fun hne => hne hsizes⟩⟩
  | true =>
    have hsizes := sizes_pageFault hgrows
    have heq : p.request (.pageFault cr2 esp) g = p.sStack g := if_pos hgrows
    have hlt : (p.md.mStackSize + 4096) % 2 ^ 32 < 2 ^ 32 := Nat.mod_lt _ (by decide)
    rw [heq]
    unfold Process.sStack
    dsimp only
    cases haccepts : accepts p.md.mTextStartAddress p.md.mTextSize p.md.mDataSize
        ((p.md.mStackSize + 4096) % 2 ^ 32) with
    | false => exact absurd ⟨_, _, hsizes, haccepts⟩ hnot
    | true =>
      obtain ⟨entrys, hsome⟩ := Option.ne_none_iff_exists'.mp (hin _ _ hsizes haccepts)
      rw [Process.establish_withStack_accepted _ haccepts, hsome]
      generalize (p.md.mStackSize + 4096) % 2 ^ 32 = n at *
      refine ⟨_, rfl, fun hrefused => absurd hrefused hnot, fun _ => ?_⟩
      obtain ⟨hsize, hmd, hkept⟩ := Process.raise_kept ((p.withStack n).established entrys)
        ((USIZE + p.md.mDataSize + n) % 2 ^ 32) 4096 g
      refine ⟨⟨?_, ?_, ?_⟩, fun _ => ⟨?_, Process.shows_mapToPageTable⟩⟩
      · rw [hmd]
        exact h.dataLt
      · rw [hmd]
        exact hlt
      · rw [Process.Sized, hmd]
        exact hsize
      · rw [Process.segments, hmd, hkept]
        exact hsome

/-- What is accepted and does not fit is written behind the table. -/
theorem request_none {r : Request} {d s : ℕ} (hsizes : r.sizes p = some (d, s))
    (haccepts : accepts p.md.mTextStartAddress p.md.mTextSize d s = true)
    (hnone : p.segments d s = none) : p.request r g = none := by
  cases r with
  | sBreak newEnd =>
    by_cases hzero : newEnd = 0
    · rw [sizes, if_pos hzero] at hsizes
      cases hsizes
    · rw [sizes, if_neg hzero] at hsizes
      obtain ⟨rfl, rfl⟩ := Prod.mk.inj (Option.some.inj hsizes)
      dsimp only [Process.request]
      unfold Process.sBreak
      dsimp only
      rw [if_neg hzero, Process.establish_accepted haccepts, hnone]
      rfl
  | pageFault cr2 esp =>
    by_cases hgrows : p.growsStack cr2 esp = true
    · obtain ⟨rfl, rfl⟩ := Prod.mk.inj (Option.some.inj ((sizes_pageFault hgrows).symm.trans hsizes))
      have heq : p.request (.pageFault cr2 esp) g = p.sStack g := if_pos hgrows
      rw [heq]
      unfold Process.sStack
      dsimp only
      rw [Process.establish_withStack_accepted _ haccepts, hnone]
      rfl
    · rw [sizes, if_neg hgrows] at hsizes
      cases hsizes

/-- A growth that is refused leaves the larger stack behind. -/
theorem request_refused {r : Request} (hgrowth : r.growth = true) (hrefused : r.Refused p) :
    p.request r g =
      some { p.withStack ((p.md.mStackSize + 4096) % 2 ^ 32) with uError := some .ENOMEM } := by
  obtain ⟨d, s, hsizes, hno⟩ := hrefused
  cases r with
  | sBreak newEnd => cases hgrowth
  | pageFault cr2 esp =>
    by_cases hgrows : p.growsStack cr2 esp = true
    · obtain ⟨rfl, rfl⟩ := Prod.mk.inj (Option.some.inj ((sizes_pageFault hgrows).symm.trans hsizes))
      have heq : p.request (.pageFault cr2 esp) g = p.sStack g := if_pos hgrows
      rw [heq, sStack_refused hno]
    · rw [sizes, if_neg hgrows] at hsizes
      cases hsizes

theorem stack_of_withStack {n : ℕ} {e : Option ErrCode}
    (h : some { p.withStack n with uError := e } = some { p with uError := e }) :
    n = p.md.mStackSize :=
  congrArg (fun q : Process => q.md.mStackSize) (Option.some.inj h)

/-- **When a request is atomic.** -/
theorem atomic_iff {r : Request} (h : Sound p) : r.Atomic p ↔ r.Meets p := by
  constructor
  · intro hatomic
    constructor
    · intro d s hsizes haccepts hnone
      obtain ⟨p', hsome, -⟩ := hatomic (.moved 0)
      rw [request_none hsizes haccepts hnone] at hsome
      cases hsome
    · rintro ⟨hgrowth, hrefused⟩
      obtain ⟨p', hsome, hsame, -⟩ := hatomic (.moved 0)
      rw [request_refused hgrowth hrefused, hsame hrefused] at hsome
      -- the size of the stack is not what it was
      have hstack := stack_of_withStack hsome
      have := h.stackLt
      omega
  · intro hmeets
    cases r with
    | sBreak newEnd => exact atomic_sBreak h hmeets.1
    | pageFault cr2 esp => exact atomic_pageFault h hmeets

/-! ### Runs -/

/-- A request and the memory that is found for it. -/
def Step (p : Process) (r : Request × Grant) (p' : Process) : Prop := p.request r.1 r.2 = some p'

/-- A request that meets the condition keeps everything in order. -/
theorem Sound.step (h : Sound p) {r : Request × Grant} (hmeets : r.1.Meets p) (hstep : Step p r p') :
    Sound p' ∧ (Loaded p → Loaded p') := by
  obtain ⟨q, hsome, hsame, hdone⟩ := (atomic_iff h).mpr hmeets r.2
  obtain rfl := Option.some.inj (hsome.symm.trans hstep)
  by_cases hrefused : r.1.Refused p
  · rw [hsame hrefused]
    exact ⟨⟨h.dataLt, h.stackLt, h.sized⟩, fun hl => ⟨hl.entrys, hl.shows⟩⟩
  · obtain ⟨hsound, hloaded⟩ := hdone hrefused
    exact ⟨hsound, fun hl => hloaded (.inr hl)⟩

/-- **Requests for more memory over a run.**  From a process whose size is that of its descriptor,
through any requests that meet the condition, wherever memory is found for them: the size is that of
the descriptor again, the page tables are if they were at the beginning, and a further request is
atomic exactly if it meets the condition. -/
theorem growth_run {p₀ : Process} (h₀ : Sound p₀)
    (hrun : Runs Step (fun p r => r.1.Meets p) p₀ p) :
    Sound p ∧ (Loaded p₀ → Loaded p) ∧ ∀ r : Request, r.Atomic p ↔ r.Meets p := by
  have h : Sound p ∧ (Loaded p₀ → Loaded p) := by
    refine hrun.invariant (I := fun p => Sound p ∧ (Loaded p₀ → Loaded p)) ?_ ⟨h₀, id⟩
    rintro p r p' ⟨hsound, hloaded⟩ hmeets hstep
    obtain ⟨hsound', hloaded'⟩ := hsound.step hmeets hstep
    exact ⟨hsound', fun hl => hloaded' (hloaded hl)⟩
  exact ⟨h.1, h.2, fun _ => atomic_iff h.1⟩

/-! ### A process near the end of the address space -/

/-- A process with one page of text and this much data and stack, all loaded. -/
def loaded (dataSize stackSize : ℕ) : Process where
  md := ⟨0x401000, 0x1000, 0x402000, dataSize, stackSize⟩
  entrys := Placed.segments ⟨0x401000, 0x1000, 0x402000, dataSize, stackSize⟩
  tables := Oos2.mapToPageTable (Placed.segments ⟨0x401000, 0x1000, 0x402000, dataSize, stackSize⟩)
    ⟨0x1000000, some 0x2000000⟩ fun _ _ => ⟨false, false, 0⟩
  pAddr := 0x1000000
  pSize := (USIZE + dataSize + stackSize) % 2 ^ 32
  xCaddr := some 0x2000000
  mem := fun _ => 0
  pages := frames ((USIZE + dataSize + stackSize) % 2 ^ 32) 0x1000000
  uError := none
  eax := 0

theorem sound_loaded (hdata : dataSize < 2 ^ 32) (hstack : stackSize < 2 ^ 32) :
    Sound (loaded dataSize stackSize) := ⟨hdata, hstack, rfl⟩

theorem loaded_loaded (h : Placed ⟨0x401000, 0x1000, 0x402000, dataSize, stackSize⟩) :
    Loaded (loaded dataSize stackSize) := ⟨h.mapSegments_eq, _, rfl⟩

/-- Three pages of data become four. -/
theorem growth_run_loaded :
    ∃ p, (loaded 0x3000 0x1000).request (.sBreak 0x406000) (.moved 0x3000000) = some p ∧
      Sound p ∧ Loaded p := by
  have hplaced : Placed ⟨0x401000, 0x1000, 0x402000, 0x3000, 0x1000⟩ :=
    ⟨by decide, by decide, by decide, by decide⟩
  have h : Sound (loaded 0x3000 0x1000) := sound_loaded (by decide) (by decide)
  have hsizes : sizes (loaded 0x3000 0x1000) (.sBreak 0x406000) = some (0x4000, 0x1000) := by decide
  have hmeets : Meets (loaded 0x3000 0x1000) (.sBreak 0x406000) := by
    refine ⟨fun d s hds _ => ?_, fun hno => absurd hno.1 Bool.false_ne_true⟩
    obtain ⟨rfl, rfl⟩ := Prod.mk.inj (Option.some.inj (hsizes.symm.trans hds))
    have hlarger : Placed ⟨0x401000, 0x1000, 0x402000, 0x4000, 0x1000⟩ :=
      ⟨by decide, by decide, by decide, by decide⟩
    exact Option.ne_none_iff_exists'.mpr ⟨_, hlarger.mapSegments_eq⟩
  obtain ⟨-, -, hatomic⟩ := growth_run h (.refl _)
  obtain ⟨p, hsome, -⟩ := (hatomic _).mpr hmeets (.moved 0x3000000)
  have hrun : Runs Step (fun p r => r.1.Meets p) (loaded 0x3000 0x1000) p :=
    .single (l := (.sBreak 0x406000, .moved 0x3000000)) hmeets hsome
  obtain ⟨hsound, hloaded, -⟩ := growth_run h hrun
  exact ⟨p, hsome, hsound, hloaded (loaded_loaded hplaced)⟩

/-- **A refused growth of the stack is not taken back.**  The data ends in the middle of a page, so
that the handler sees room for the stack and `EstablishUserPageTable` does not. -/
theorem not_atomic : ∃ (p : Process) (cr2 esp : ℕ), Sound p ∧ Loaded p ∧
    ∀ g, ∃ p', p.request (.pageFault cr2 esp) g = some p' ∧
      p'.md.mStackSize = p.md.mStackSize + 4096 ∧ p'.uError = some .ENOMEM ∧ ¬p'.Sized := by
  have hplaced : Placed ⟨0x401000, 0x1000, 0x402000, 0x3FB800, 0x1000⟩ :=
    ⟨by decide, by decide, by decide, by decide⟩
  refine ⟨loaded 0x3FB800 0x1000, 0x7FEFFC, 0x7FF000, sound_loaded (by decide) (by decide),
    loaded_loaded hplaced, fun g => ?_⟩
  have hgrows : (loaded 0x3FB800 0x1000).growsStack 0x7FEFFC 0x7FF000 = true := by decide
  have hrefused : Refused (loaded 0x3FB800 0x1000) (.pageFault 0x7FEFFC 0x7FF000) :=
    ⟨_, _, sizes_pageFault hgrows, by decide⟩
  refine ⟨_, request_refused rfl hrefused, by decide, rfl, ?_⟩
  unfold Process.Sized
  decide

end Break
end UnixV6pp
