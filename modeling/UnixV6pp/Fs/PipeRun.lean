import UnixV6pp.Fs.PipeSteps

/-!
# The stream through a pipe

Whatever the processes do and in whichever order, what the readers have got is the beginning of
what the writers have given, as long as no close that gives up an end unlocks the inode under
somebody else.

* `Calm` — what is asked of a close.
* `Inv.step` — every step keeps the invariant.
* `stream_run` — **the bytes**, in every run.
* `sleepers_run`, `stuck_run` — **who sleeps**, and what it means when nobody moves.
* `ends_run` — **end of file and broken pipe.**
-/

namespace UnixV6pp
namespace Pipe

open State

variable {ι : Type}

/-! ### Descriptors -/

section Descriptors

variable [Fintype ι] [DecidableEq ι] {s s' : State ι} {p q : ι} {e : End}

/-- The descriptors of one process change. -/
theorem sum_fds (fds : ι → End → ℕ) (p : ι) (v : End → ℕ) (e : End) :
    ∑ q, Function.update fds p v q e + fds p e = ∑ q, fds q e + v e := by
  have h := Tally.sum_update fds p v fun f => (f e : ℤ)
  have hle : (fds p e : ℤ) ≤ ∑ q, (fds q e : ℤ) := Tally.le_sum fds p e
  refine Int.natCast_inj.mp ?_
  push_cast
  omega

/-- A process gives up a descriptor. -/
theorem Counted.close (h : Counted s) (hp : s.place p = .user) (hfds : 0 < s.fds p e)
    (hplace : ∀ q, (s'.place q).side = (s.place q).side)
    (hfds' : s'.fds = Function.update s.fds p (Function.update (s.fds p) e (s.fds p e - 1)))
    (hfCount : s'.fCount = Function.update s.fCount e (s.fCount e - 1))
    (hiCount : s'.iCount = if s.fCount e ≤ 1 then s.iCount - 1 else s.iCount) : Counted s' where
  fCount_eq e' := by
    have hsum := sum_fds s.fds p (Function.update (s.fds p) e (s.fds p e - 1)) e'
    have hle := h.fds_le p e
    have hold := h.fCount_eq e'
    rw [hfCount, hfds']
    by_cases he : e' = e
    · subst he
      rw [Function.update_self] at hsum ⊢
      omega
    · rw [Function.update_of_ne he] at hsum ⊢
      omega
  iCount_eq := by
    have hle := h.fds_le p e
    have heq := h.iCount_eq
    rw [hiCount, hfCount]
    cases e <;> simp only [Function.update_self, ne_eq, reduceCtorEq, not_false_eq_true,
      Function.update_of_ne] <;> split_ifs at heq ⊢ <;> omega
  has q e' hq := by
    rw [hplace] at hq
    rw [hfds']
    by_cases hqp : q = p
    · subst hqp
      rw [hp] at hq
      exact absurd hq nofun
    · rw [Function.update_of_ne hqp]
      exact h.has q e' hq

/-- A process duplicates a descriptor. -/
theorem Counted.dup (h : Counted s) (hfds : 0 < s.fds p e) :
    Counted { s with
      fds := Function.update s.fds p (Function.update (s.fds p) e (s.fds p e + 1))
      fCount := Function.update s.fCount e (s.fCount e + 1) } where
  fCount_eq e' := by
    have hsum := sum_fds s.fds p (Function.update (s.fds p) e (s.fds p e + 1)) e'
    have hold := h.fCount_eq e'
    dsimp only
    by_cases he : e' = e
    · subst he
      rw [Function.update_self] at hsum ⊢
      omega
    · rw [Function.update_of_ne he] at hsum ⊢
      omega
  iCount_eq := by
    have hle := h.fds_le p e
    have heq := h.iCount_eq
    dsimp only
    cases e <;> simp only [Function.update_self, ne_eq, reduceCtorEq, not_false_eq_true,
      Function.update_of_ne] <;> split_ifs at heq ⊢ <;> first | contradiction | omega
  has q e' hq := by
    have hold := h.has q e' hq
    dsimp only
    rw [Tally.update_row]
    split
    · omega
    · exact hold

/-- A process makes another one, that has its descriptors. -/
theorem Counted.fork (h : Counted s) (hq : s.place q = .user)
    (hnone : s.fds q .read = 0 ∧ s.fds q .write = 0) :
    Counted { s with
      fds := Function.update s.fds q (s.fds p)
      fCount := fun e => s.fCount e + s.fds p e } where
  fCount_eq e := by
    have hsum := sum_fds s.fds q (s.fds p) e
    have hold := h.fCount_eq e
    have hzero : s.fds q e = 0 := by cases e <;> [exact hnone.1; exact hnone.2]
    dsimp only
    omega
  iCount_eq := by
    have hread := h.fds_le p .read
    have hwrite := h.fds_le p .write
    have heq := h.iCount_eq
    dsimp only
    split_ifs at heq ⊢ <;> omega
  has r e hr := by
    by_cases hrq : r = q
    · subst hrq
      exact absurd (hq.symm ▸ hr) nofun
    · dsimp only
      rw [Function.update_of_ne hrq]
      exact h.has r e hr

end Descriptors

/-! ### Closing -/

namespace State

variable [DecidableEq ι] (s : State ι) (p : ι) (e : End)

/-- All that sleep for the other end are called, and all counts are put right. -/
def closed : State ι :=
  { ({ s with iread := false, iwrite := false }.wakeUpAll .writers).wakeUpAll .readers with
    fds := Function.update s.fds p (Function.update (s.fds p) e (s.fds p e - 1))
    fCount := Function.update s.fCount e (s.fCount e - 1)
    iCount := if s.fCount e ≤ 1 then s.iCount - 1 else s.iCount }

/-- What `CloseF` comes to. -/
theorem closeF_eq :
    { s with
      fds := Function.update s.fds p (Function.update (s.fds p) e (s.fds p e - 1)) }.closeF e =
      if s.fCount e ≤ 1 then
        if s.iCount = 1 then { (s.closed p e).prele with iSize := 0 } else (s.closed p e).prele
      else s.closed p e := by
  unfold closeF closed
  by_cases hlast : s.fCount e ≤ 1
  · simp only [wakeUpAll, hlast, if_true, iPut]
    by_cases hone : s.iCount = 1
    · simp only [hone, if_true, prele_eq]
      cases s.iwant <;> simp
    · simp only [hone, if_false, prele_eq]
  · simp only [wakeUpAll, hlast, if_false]

end State

section Closing

variable [Fintype ι] {s s' : State ι} {p q : ι} {e : End}

/-- When nobody has the lock, giving it up calls nobody from inside. -/
theorem Inv.prele (h : Inv s) (hlock : s.ilock = false) : Inv s.prele := by
  refine h.frame h.rest.prele (Same.prele s) ?_ ?_ ?_ ?_
  · rw [prele_ilock, hlock]
  · rw [prele_iread]
    exact id
  · intro q hq
    rw [inside_prele] at hq
    rcases s.place_prele q with heq | heq
    · exact heq
    · rw [heq, Place.wake_of_inside hq]
  · intro q hq
    rwa [inside_prele]

/-- The file of a pipe that nobody has any more is cut off. -/
theorem Inv.truncate (h : Inv s) (hcount : s.iCount = 0) (hlock : s.ilock = false)
    (hiread : s.iread = false) (hiwrite : s.iwrite = false) : Inv { s with iSize := 0 } := by
  have hout : ∀ q, (s.place q).inside ≠ true := by
    intro q hin
    exact Bool.false_ne_true (hlock.symm.trans (h.locked q hin))
  have hr := h.rest
  refine {
    rest := { hr with
      counted := hr.counted.congr rfl rfl rfl hr.counted.has
      full := fun hw => absurd (hiwrite.symm.trans hw) Bool.false_ne_true
      size_le := Nat.zero_le _
      offset_le := fun hc => absurd hcount hc
      stream := fun hc => absurd hcount hc }
    locked := h.locked
    alone := h.alone
    held := h.held
    empty := fun _ hr => absurd (hiread.symm.trans hr) Bool.false_ne_true
    reading := fun q off n got hq => absurd ?_ (hout q)
    writing := fun q mem b off n c e hq => absurd ?_ (hout q) }
  · rw [show s.place q = _ from hq]
    rfl
  · rw [show s.place q = _ from hq]
    rfl

variable [DecidableEq ι]

theorem Inv.closed (h : Inv s) (hp : s.place p = .user) (hfds : 0 < s.fds p e) :
    Inv (s.closed p e) := by
  have hb : Rest (({ s with iread := false, iwrite := false }.wakeUpAll .writers).wakeUpAll
      .readers) := h.rest.clearWrite.clearRead
  have hside : ∀ q, ((s.closed p e).place q).side = (s.place q).side := by
    intro q
    exact (Place.side_wake ..).trans (Place.side_wake ..)
  have hc : Counted (s.closed p e) := h.rest.counted.close hp hfds hside rfl rfl rfl
  have hcount : (s.closed p e).iCount ≠ 0 → s.iCount ≠ 0 := by
    unfold State.closed
    dsimp only
    split <;> omega
  refine h.frame (hb.frame ⟨rfl, rfl, rfl, rfl, rfl⟩ hc hcount id hb.wants hb.reader hb.writer)
    ⟨rfl, rfl, rfl, rfl, rfl⟩ rfl (fun hf => absurd hf Bool.false_ne_true) ?_ ?_
  · intro q hq
    have hin : (s.place q).inside = true :=
      ((Place.inside_wake ..).trans (Place.inside_wake ..)).symm.trans hq
    have hw : ((s.place q).wake .writers).inside = true := (Place.inside_wake ..).trans hin
    exact (Place.wake_of_inside hw).trans (Place.wake_of_inside hin)
  · intro q hq
    exact (Place.inside_wake ..).trans ((Place.inside_wake ..).trans hq)

/-- `CloseF`, when the last close of an end finds nobody inside. -/
theorem Inv.closeF (h : Inv s) (hp : s.place p = .user) (hfds : 0 < s.fds p e)
    (hcalm : s.fCount e ≤ 1 → s.ilock = false) :
    Inv ({ s with
      fds := Function.update s.fds p (Function.update (s.fds p) e (s.fds p e - 1)) }.closeF e) := by
  have hclosed := h.closed hp hfds
  rw [closeF_eq]
  split
  · next hlast =>
    have hprele := hclosed.prele (hcalm hlast)
    split
    · next hone =>
      refine hprele.truncate ?_ (prele_ilock _) ?_ ?_
      · rw [prele_iCount]
        unfold State.closed
        simp [hlast, hone]
      · rw [prele_iread]
        rfl
      · rw [prele_iwrite]
        rfl
    · exact hprele
  · exact hclosed

end Closing

/-! ### Runs -/

section Runs

variable [Fintype ι] [DecidableEq ι] {s s' : State ι} {p p₀ q : ι} {e : End} {a : Act ι}

/-- A close that gives up an end finds nobody inside. -/
def Calm (s : State ι) : Act ι → Prop
  | .close _ e => s.fCount e ≤ 1 → s.ilock = false
  | _ => True

theorem inv_start (p₀ : ι) : Inv (start p₀) where
  rest := {
    counted := {
      fCount_eq := fun e => by simp [start]
      iCount_eq := rfl
      has := nofun }
    wants := nofun
    reader := nofun
    writer := nofun
    full := nofun
    size_le := Nat.zero_le _
    offset_le := fun _ => Nat.le_refl _
    stream := fun _ => rfl
    sound := List.prefix_refl _ }
  locked := nofun
  alone := nofun
  held := nofun
  empty := nofun
  reading := nofun
  writing := nofun

/-- **Every step keeps the invariant**, as long as closes are calm. -/
theorem Inv.step (h : Inv s) (hcalm : Calm s a) (hs : Step s a s') : Inv s' := by
  have hr := h.rest
  unfold Step Pipe.step at hs
  cases a with
  | read p count =>
    dsimp only at hs
    split at hs
    · next hp =>
      split at hs
      · next hfds =>
        cases hs
        exact h.aside (by rw [hp]; rfl) rfl (fun e he => by cases he; exact hfds) nofun nofun
      · cases hs
    · cases hs
  | write p mem count =>
    dsimp only at hs
    split at hs
    · next hp =>
      split at hs
      · next hfds =>
        cases hs
        exact h.aside (by rw [hp]; rfl) rfl (fun e he => by cases he; exact hfds) nofun nofun
      · cases hs
    · cases hs
  | close p e =>
    dsimp only at hs
    split at hs
    · next hp =>
      split at hs
      · next hfds =>
        cases hs
        exact h.closeF hp hfds hcalm
      · cases hs
    · cases hs
  | dup p e =>
    dsimp only at hs
    split at hs
    · split at hs
      · next hfds =>
        cases hs
        exact h.frame (hr.frame ⟨rfl, rfl, rfl, rfl, rfl⟩ (hr.counted.dup hfds) id id hr.wants
          hr.reader hr.writer) ⟨rfl, rfl, rfl, rfl, rfl⟩ rfl id
          (fun _ _ => rfl) fun _ => id
      · cases hs
    · cases hs
  | fork p q =>
    dsimp only at hs
    split at hs
    · next hq =>
      split at hs
      · next hnone =>
        cases hs
        exact h.frame (hr.frame ⟨rfl, rfl, rfl, rfl, rfl⟩ (hr.counted.fork hq hnone) id id hr.wants
          hr.reader hr.writer) ⟨rfl, rfl, rfl, rfl, rfl⟩ rfl id
          (fun _ _ => rfl) fun _ => id
      · cases hs
    · cases hs
  | go p =>
    dsimp only at hs
    split at hs
    · next hp =>
      cases hs
      exact h.plock hp
    · next hp =>
      cases hs
      exact h.readI hp
    · next hp =>
      cases hs
      exact h.writeI hp
    · cases hs
  | noSpace p =>
    dsimp only at hs
    split at hs
    · next hp =>
      cases hs
      exact h.noSpace hp
    · cases hs
  | signal p =>
    dsimp only at hs
    split at hs
    any_goals cases hs
    all_goals next hp => exact h.aside (by rw [hp]; rfl) rfl nofun nofun nofun
  | stray p =>
    dsimp only at hs
    split at hs
    · next c hp =>
      cases hs
      exact h.aside (by rw [hp]; rfl) rfl (fun e he => hr.counted.has p e (by rw [hp]; exact he)) nofun nofun
    · next c hp =>
      cases hs
      exact h.aside (by rw [hp]; rfl) rfl (fun e he => hr.counted.has p e (by rw [hp]; exact he)) nofun nofun
    · cases hs

theorem inv_run (h : Runs Step Calm (start p₀) s) : Inv s :=
  h.invariant (fun _ _ _ hi hcalm hs => hi.step hcalm hs) (inv_start p₀)

end Runs

/-! ### Listed runs -/

section Listed

variable [DecidableEq ι] {s : State ι}

instance (s : State ι) (a : Act ι) : Decidable (Calm s a) := by
  unfold Calm
  split <;> infer_instance

/-- The state after an action that may be taken. -/
def next (s : State ι) (a : Act ι) : State ι := (step s a).getD s

/-- Actions that may be taken one after the other are a run. -/
theorem run_of_acts (acts : List (Act ι)) (h : Runs.Meets next (fun s a => Calm s a ∧ (step s a).isSome) acts s) :
    Runs Step Calm s (acts.foldl next s) := by
  refine Runs.mono (fun s a h => h.1) (Runs.of_meets (fun s a hok => ?_) h)
  obtain ⟨s', hs'⟩ := Option.isSome_iff_exists.mp hok.2
  unfold Step next
  rw [hs', Option.getD_some]

end Listed

/-! ### What a run keeps -/

section Results

variable [Fintype ι] [DecidableEq ι] {s s' : State ι} {p p₀ : ι} {e : End}

/-- **The bytes of a pipe.**  What reads have returned is the beginning of what has been taken from
the writers; the rest is in the pipe, which never holds more than `PIPSIZ` bytes. -/
theorem stream_run (h : Runs Step Calm (start p₀) s) :
    s.delivered <+: s.accepted ∧ s.iSize ≤ PIPSIZ ∧
      (s.iCount ≠ 0 → s.fOffset ≤ s.iSize ∧ s.accepted = s.delivered ++ s.unread) := by
  have hr := (inv_run h).rest
  exact ⟨hr.sound, hr.size_le, fun hc => ⟨hr.offset_le hc, hr.stream hc⟩⟩

/-- A process makes another one, which writes three bytes, and reads two of them. -/
def twoOfThree : List (Act (Fin 2)) :=
  [.fork 0 1, .write 1 (fun k => 97 + UInt8.ofNat k) 3, .go 1, .go 1, .go 1, .go 1,
    .read 0 2, .go 0, .go 0, .go 0]

theorem stream_run_two :
    (twoOfThree.foldl next (start 0)).delivered <+: (twoOfThree.foldl next (start 0)).accepted :=
  (stream_run (run_of_acts twoOfThree (by decide))).1

omit [DecidableEq ι] in
/-- A reader that sleeps has seen everything, and a writer that sleeps has filled the file. -/
theorem Inv.asleep (h : Inv s) (hlock : s.ilock = false) {c : Call} (hp : s.place p = .asleep c) :
    (c.side = .read → s.iSize = 0 ∧ s.fOffset = 0) ∧ (c.side = .write → s.iSize = PIPSIZ) := by
  cases c with
  | read n => exact ⟨fun _ => h.empty hlock (h.rest.reader p n hp), nofun⟩
  | write mem b n e => exact ⟨nofun, fun _ => h.rest.full (h.rest.writer p mem b n e hp)⟩

/-- A read that finds all of the file read starts it anew and calls the writers. -/
theorem Inv.drained (h : Inv s) (hlock : s.ilock = false) (hempty : s.fOffset = s.iSize)
    {n : ℕ} (hp : s.place p = .plock (.read n)) :
    ∃ s', Step s (.go p) s' ∧ s'.iSize = 0 ∧ s'.fOffset = 0 ∧
      ∀ q c, s'.place q = .asleep c → c.side = .read := by
  have hstep : Step s (.go p) (s.plock p (.read n)) := by
    unfold Step Pipe.step
    simp only [hp]
  refine ⟨_, hstep, ?_⟩
  have hinv := h.step (a := .go p) trivial hstep
  have hsize : (s.plock p (.read n)).iSize = 0 ∧ (s.plock p (.read n)).fOffset = 0 := by
    have hzero := reset_empty (s := { s with ilock := true }) hempty
    rw [State.plock, if_neg (by simp [hlock])]
    dsimp only
    rw [State.readP, if_pos hempty]
    dsimp only
    split
    · exact ⟨(prele_iSize _).trans hzero.1, (prele_fOffset _).trans hzero.2⟩
    · exact ⟨(prele_iSize _).trans hzero.1, (prele_fOffset _).trans hzero.2⟩
  refine ⟨hsize.1, hsize.2, fun q c hq => ?_⟩
  cases c with
  | read n => rfl
  | write mem b n e =>
    have hno := hinv.rest.full (hinv.rest.writer q mem b n e hq)
    rw [hsize.1] at hno
    exact absurd hno (by decide)

/-- **Who sleeps.**  While nobody has the pipe, readers are asleep only when nothing is in it, so
that they are never stuck, and writers only when it has been filled; if they are stuck all of it
has been read, and the next read lets them go on. -/
theorem sleepers_run (h : Runs Step Calm (start p₀) s) :
    ¬ s.ReadersStuck ∧
      (s.WritersStuck → s.fOffset = PIPSIZ ∧ ∀ p n, s.place p = .plock (.read n) →
        ∃ s', Step s (.go p) s' ∧ s'.iSize = 0 ∧ s'.fOffset = 0 ∧
          ∀ q c, s'.place q = .asleep c → c.side = .read) := by
  have hinv := inv_run h
  constructor
  · rintro ⟨hlock, hdata, ⟨p, hp⟩, hall⟩
    obtain ⟨c, hc⟩ := hall p hp
    rw [hc] at hp
    obtain ⟨hsize, -⟩ := (hinv.asleep hlock hc).1 (Option.some.inj hp)
    omega
  · rintro ⟨hlock, hempty, ⟨p, hp⟩, hall⟩
    obtain ⟨c, hc⟩ := hall p hp
    rw [hc] at hp
    have hfull := (hinv.asleep hlock hc).2 (Option.some.inj hp)
    exact ⟨hempty.trans hfull, fun q n hq => hinv.drained hlock hempty hq⟩

/-- A writer with one byte too many fills the pipe and goes to sleep. -/
def filled : List (Act (Fin 2)) :=
  [.fork 0 1, .write 1 (fun _ => 0) 3073, .go 1, .go 1, .go 1, .go 1, .go 1, .go 1, .go 1, .go 1,
    .go 1]

theorem sleepers_run_filled : ¬ (filled.foldl next (start 0)).ReadersStuck :=
  (sleepers_run (run_of_acts filled (by decide))).1

/-- **When nothing moves.**  If no process in a call can go on, then all of them are asleep for the
other end, where nobody is in a call: readers with the pipe empty, or writers with it filled. -/
theorem stuck_run (h : Runs Step Calm (start p₀) s) (hstuck : ∀ p s', ¬ Step s (.go p) s')
    (hp : (s.place p).side = some e) :
    s.ilock = false ∧ (∀ q, (s.place q).side ≠ none → (s.place q).side = some e) ∧
      s.AllAsleep e ∧ (e = .read → s.iSize = 0 ∧ s.fOffset = 0) ∧
      (e = .write → s.iSize = PIPSIZ) := by
  have hinv := inv_run h
  have hplace : ∀ q, (s.place q).side ≠ none →
      (∃ c, s.place q = .wantsLock c) ∨ ∃ c, s.place q = .asleep c := by
    intro q hq
    have hgo := hstuck q
    unfold Step Pipe.step at hgo
    cases hpl : s.place q with
    | user => exact absurd (by rw [hpl]; rfl) hq
    | wantsLock c => exact .inl ⟨c, rfl⟩
    | asleep c => exact .inr ⟨c, rfl⟩
    | _ => simp [hpl] at hgo
  -- nobody is inside, so nobody has the lock, and nobody waits for it
  have hlock : s.ilock = false := by
    by_contra hl
    obtain ⟨q, hq⟩ := hinv.held (Bool.not_eq_false _ ▸ hl)
    have hside : (s.place q).side ≠ none := by
      intro hn
      cases hpl : s.place q <;> simp_all [Place.inside, Place.side]
    rcases hplace q hside with ⟨c, hc⟩ | ⟨c, hc⟩ <;> rw [hc] at hq <;>
      exact Bool.false_ne_true hq
  have hasleep : ∀ q, (s.place q).side ≠ none → ∃ c, s.place q = .asleep c := by
    intro q hq
    refine (hplace q hq).resolve_left ?_
    rintro ⟨c, hc⟩
    exact Bool.false_ne_true (hlock.symm.trans (hinv.rest.wants q c hc).1)
  have hfile : ∀ q e', (s.place q).side = some e' →
      (e' = .read → s.iSize = 0 ∧ s.fOffset = 0) ∧ (e' = .write → s.iSize = PIPSIZ) := by
    intro q e' hq
    obtain ⟨c, hc⟩ := hasleep q (by rw [hq]; exact Option.some_ne_none _)
    rw [hc] at hq
    cases Option.some.inj hq
    exact hinv.asleep hlock hc
  have hmine := hfile p e hp
  refine ⟨hlock, ?_, ⟨⟨p, hp⟩, fun q hq => hasleep q (by rw [hq]; exact Option.some_ne_none _)⟩,
    hmine⟩
  intro q hq
  obtain ⟨e', he'⟩ := Option.ne_none_iff_exists'.mp hq
  have hother := hfile q e' he'
  rw [he']
  -- an empty file and a filled one are not the same
  cases e <;> cases e'
  · rfl
  · have hfull := hother.2 rfl
    rw [(hmine.1 rfl).1] at hfull
    exact absurd hfull (by decide)
  · have hfull := hmine.2 rfl
    rw [(hother.1 rfl).1] at hfull
    exact absurd hfull (by decide)
  · rfl

theorem stuck_run_filled : (filled.foldl next (start 0)).AllAsleep .write := by
  have hnone : ∀ p, step (filled.foldl next (start 0)) (.go p) = none := by
    intro p
    match p with
    | 0 => rfl
    | 1 => rfl
  exact (stuck_run (p := 1) (run_of_acts filled (by decide))
    (fun p s' hs => nomatch (hnone p).symm.trans hs) rfl).2.2.1

omit [DecidableEq ι] in
/-- With an end gone, nobody has a descriptor for it. -/
theorem Counted.other_gone (h : Counted s) (hfds : 0 < s.fds p e) (hone : s.iCount < 2) (e' : End)
    (he : e' ≠ e) (q : ι) : s.fds q e' = 0 := by
  have hmine := h.fds_le p e
  have hother := h.fds_le q e'
  have heq := h.iCount_eq
  cases e <;> cases e'
  · exact absurd rfl he
  · split_ifs at heq <;> omega
  · split_ifs at heq <;> omega
  · exact absurd rfl he

/-- **End of file and broken pipe.**  A read comes back before it has reached a block only if
nobody has a descriptor for writing any more, and then every byte that was taken has been
delivered; a write with something left to write only if nobody has one for reading. -/
theorem ends_run (h : Runs Step Calm (start p₀) s) (hs : Step s (.go p) s')
    (hback : s'.place p = .user) :
    (∀ n, s.place p = .plock (.read n) →
      (∀ q, s.fds q .write = 0) ∧ s.accepted = s.delivered) ∧
    ∀ mem mBase count uError, s.place p = .plock (.write mem mBase count uError) → count ≠ 0 →
      ∀ q, s.fds q .read = 0 := by
  have hinv := inv_run h
  have hr := hinv.rest
  unfold Step Pipe.step at hs
  constructor
  · intro n hp
    have hfds : 0 < s.fds p .read := hr.counted.has p .read (by rw [hp]; rfl)
    simp only [hp, Option.some.injEq] at hs
    rw [← hs, State.plock] at hback
    split at hback
    · rw [setPlace_self] at hback
      cases hback
    · dsimp only [State.readP] at hback
      split at hback
      · next hoff =>
        split at hback
        · next hcount =>
          rw [prele_iCount, reset_iCount] at hcount
          refine ⟨hr.counted.other_gone hfds hcount .write (by decide), ?_⟩
          rw [hr.stream (hr.counted.iCount_ne hfds), unread, show s.fOffset = s.iSize from hoff,
            slice_self, List.append_nil]
        · rw [setPlace_self] at hback
          cases hback
      · rw [setPlace_self] at hback
        cases hback
  · intro mem b count err hp hne
    have hfds : 0 < s.fds p .write := hr.counted.has p .write (by rw [hp]; rfl)
    simp only [hp, Option.some.injEq] at hs
    rw [← hs, State.plock] at hback
    split at hback
    · rw [setPlace_self] at hback
      cases hback
    · dsimp only [State.writeP] at hback
      rw [if_neg hne] at hback
      split at hback
      · next hcount => exact hr.counted.other_gone hfds hcount .read (by decide)
      · split at hback
        · rw [setPlace_self] at hback
          cases hback
        · rw [setPlace_self] at hback
          cases hback

/-- Nobody can write any more, and a read is about to begin. -/
def abandoned : List (Act (Fin 2)) := [.close 0 .write, .read 0 1]

theorem ends_run_abandoned :
    (abandoned.foldl next (start 0)).accepted = (abandoned.foldl next (start 0)).delivered :=
  ((ends_run (p := 0) (run_of_acts abandoned (by decide))
    (Option.some_get (by rfl)).symm rfl).1 1 rfl).2

end Results

end Pipe
end UnixV6pp
