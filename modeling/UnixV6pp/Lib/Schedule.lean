import UnixV6pp.Lib.Threads

/-!
# Schedules

A schedule says, turn after turn, which thread goes on and which ways it takes.  Playing
it is a computation, so that what a given schedule leads to can be looked up.

* `advance` — one segment of a thread, with the ways it takes.
* `play` — a whole schedule; it stops when a turn is not possible.
* `run_of_play` — **what is played is a run.**
-/

namespace Threads

variable {ι σ α β τ : Type}

/-- What is left of the code after the next segment, when it goes on in the given ways, and the
state then; an action that is not allowed is not taken. -/
def advance (exec : α → σ → σ) (check : σ → α → Bool) :
    Code σ α β → List ℕ → σ → Option (Code σ α β × σ)
  | .ret b, _, s => some (.ret b, s)
  | .get k, ns, s => advance exec check (k s) ns s
  | .act a k, ns, s => if check s a then advance exec check k ns (exec a s) else none
  | .choose k, ns, s => advance exec check (k (ns.headD 0)) ns.tail s
  | .pause k, _, s => some (k, s)
  | .await c k, ns, s =>
    match c s with
    | some a => if check s a then some (.await c k, exec a s) else none
    | none => advance exec check k ns s

theorem segment_advance {exec : α → σ → σ} {check : σ → α → Bool} {P P' : Code σ α β}
    {ns : List ℕ} {s s' : σ} (h : advance exec check P ns s = some (P', s')) :
    Segment exec (fun s a => check s a = true) P s P' s' := by
  induction P generalizing ns s with
  | ret b =>
    cases h
    exact .ret
  | get k ih => exact .get (ih s h)
  | act a k ih =>
    dsimp only [advance] at h
    split at h
    · next hcheck => exact .act hcheck (ih h)
    · cases h
  | choose k ih => exact .choose _ (ih _ h)
  | pause k ih =>
    cases h
    exact .pause
  | await c k ih =>
    dsimp only [advance] at h
    split at h
    · next a ha =>
      split at h
      · next hcheck =>
        cases h
        exact .wait ha hcheck
      · cases h
    · next hgo => exact .go hgo (ih h)

/-- A turn of the thread, with the ways it takes. -/
inductive Turn (ι τ : Type)
  | run (p : ι) (ways : List ℕ)
  /-- It starts a new call. -/
  | call (p : ι) (t : τ) (ways : List ℕ)

/-- What the calls of the threads are, and when a thread may run and start a call. -/
structure Machine (ι σ α τ : Type) where
  exec : ι → α → σ → σ
  runnable : ι → σ → Bool
  may : ι → τ → σ → Bool
  codeOf : ι → τ → Code σ α Unit

/-- Whether the code has returned. -/
def returned : Code σ α Unit → Bool
  | .ret _ => true
  | _ => false

theorem eq_ret_of_returned {P : Code σ α Unit} (h : returned P = true) : P = .ret () := by
  cases P with
  | ret b => rfl
  | _ => cases h

namespace Machine

variable [DecidableEq ι] (M : Machine ι σ α τ)

/-- The calls that a thread may start. -/
def Calls (p : ι) (s : σ) (P : Code σ α Unit) : Prop :=
  ∃ t, M.may p t s = true ∧ P = M.codeOf p t

/-- The thread goes on with the code. -/
def go (check : ι → σ → α → Bool) (p : ι) (P : Code σ α Unit) (ways : List ℕ)
    (c : Config ι σ α) : Option (Config ι σ α) :=
  (advance (M.exec p) (check p) P ways c.state).map fun r => ⟨r.2, Function.update c.code p r.1⟩

/-- One turn. -/
def turn (check : ι → σ → α → Bool) (c : Config ι σ α) : Turn ι τ → Option (Config ι σ α)
  | .run p ways => if M.runnable p c.state then M.go check p (c.code p) ways c else none
  | .call p t ways =>
    if returned (c.code p) && M.runnable p c.state && M.may p t c.state then
      M.go check p (M.codeOf p t) ways c
    else none

/-- The turns one after the other. -/
def play (check : ι → σ → α → Bool) : List (Turn ι τ) → Config ι σ α → Option (Config ι σ α)
  | [], c => some c
  | t :: ts, c => (M.turn check c t).bind (play check ts)

/-- The runs of the machine in which each action meets `ok`. -/
abbrev Runs (ok : ι → σ → α → Prop) : Config ι σ α → Config ι σ α → Prop :=
  Run M.exec (fun p s => M.runnable p s = true) M.Calls ok

variable {M} {check : ι → σ → α → Bool} {c c' : Config ι σ α}

theorem segment_of_go {p : ι} {P : Code σ α Unit} {ways : List ℕ}
    (h : M.go check p P ways c = some c') :
    ∃ P' s', Segment (M.exec p) (fun s a => check p s a = true) P c.state P' s' ∧
      c' = ⟨s', Function.update c.code p P'⟩ := by
  obtain ⟨r, hr, rfl⟩ := Option.map_eq_some_iff.1 h
  exact ⟨r.1, r.2, segment_advance hr, rfl⟩

theorem step_of_turn {t : Turn ι τ} (h : M.turn check c t = some c') :
    Step M.exec (fun p s => M.runnable p s = true) M.Calls (fun p s a => check p s a = true)
      c c' := by
  cases t with
  | run p ways =>
    dsimp only [turn] at h
    split at h
    · next hrun =>
      obtain ⟨P', s', hseg, rfl⟩ := segment_of_go h
      exact .run p hrun hseg
    · cases h
  | call p t ways =>
    dsimp only [turn] at h
    split at h
    · next hcall =>
      rw [Bool.and_eq_true, Bool.and_eq_true] at hcall
      obtain ⟨⟨hret, hrun⟩, hmay⟩ := hcall
      obtain ⟨P', s', hseg, rfl⟩ := segment_of_go h
      exact .call p (eq_ret_of_returned hret) hrun ⟨t, hmay, rfl⟩ hseg
    · cases h

/-- **What is played is a run.** -/
theorem run_of_play {ts : List (Turn ι τ)} (h : M.play check ts c = some c') :
    M.Runs (fun p s a => check p s a = true) c c' := by
  induction ts generalizing c with
  | nil =>
    cases h
    exact .refl
  | cons t ts ih =>
    obtain ⟨c₁, hturn, hplay⟩ := Option.bind_eq_some_iff.1 h
    exact .head (step_of_turn hturn) (ih hplay)

/-- A condition that follows from the one that was checked. -/
theorem Runs.mono {ok ok' : ι → σ → α → Prop} (hok : ∀ p s a, ok p s a → ok' p s a)
    (h : M.Runs ok c c') : M.Runs ok' c c' := by
  refine Relation.ReflTransGen.mono (fun a b hstep => ?_) c c' h
  cases hstep with
  | run p hrun hseg => exact .run p hrun (hseg.mono (hok p))
  | call p hidle hrun hcall hseg => exact .call p hidle hrun hcall (hseg.mono (hok p))

/-- What a schedule leads to, a run leads to. -/
theorem exists_run_of_play {ok : ι → σ → α → Prop} (M : Machine ι σ α τ)
    (check : ι → σ → α → Bool) (hok : ∀ p s a, check p s a = true → ok p s a)
    (ts : List (Turn ι τ)) (T : Config ι σ α → Prop) [DecidablePred T]
    (h : (M.play check ts c).any (fun c => decide (T c)) = true) : ∃ c', M.Runs ok c c' ∧ T c' := by
  obtain ⟨c', hplay, htest⟩ := (Option.any_eq_true _ _).1 h
  exact ⟨c', (run_of_play hplay).mono hok, of_decide_eq_true htest⟩

end Machine

end Threads
