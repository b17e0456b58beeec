import Mathlib.Logic.Relation
import Mathlib.Logic.Function.Basic
import Mathlib.Data.Nat.Notation

/-!
# Threads that give up the processor themselves

In a kernel without preemption a thread runs until it goes to sleep or returns.  What
a thread has still to do is a tree of actions on the shared state; a *segment* of it
is what happens between two such points, and a run interleaves the segments of many
threads, each of which may start a new call once the last one has returned.

The rule for runs asks for an invariant that holds whenever no segment is under way.
About itself a thread may know more, as long as the others leave it alone: that is
`loc`, the part of the state that only the thread itself changes.

* `Code` — what a thread has still to do.
* `Segment` — running up to the next point where another thread may run.
* `wp` — from this state the code keeps the invariant and returns as it should.
* `Spec` — the same, for all states with the invariant and a given `loc`.
* `run_invariant` — **the rule for runs.**
-/

/-- What a thread has still to do, up to its return with a value in `β`: the state is in `σ`, and
it is changed by actions in `α`. -/
inductive Code (σ α β : Type) : Type
  | ret (b : β)
  | get (k : σ → Code σ α β)
  | act (a : α) (k : Code σ α β)
  /-- Go on in one of many ways. -/
  | choose (k : ℕ → Code σ α β)
  /-- Give up the processor for a while. -/
  | pause (k : Code σ α β)
  /-- As long as there is an action to wait by, take it and look again when woken up. -/
  | await (c : σ → Option α) (k : Code σ α β)

namespace Code

variable {σ α β δ : Type}

/-- Go on with the value returned. -/
def bind : Code σ α β → (β → Code σ α δ) → Code σ α δ
  | .ret b, f => f b
  | .get k, f => .get fun s => (k s).bind f
  | .act a k, f => .act a (k.bind f)
  | .choose k, f => .choose fun n => (k n).bind f
  | .pause k, f => .pause (k.bind f)
  | .await c k, f => .await c (k.bind f)

instance : Monad (Code σ α) where
  pure := .ret
  bind := bind

theorem bind_assoc {ε : Type} (P : Code σ α β) (f : β → Code σ α δ) (k : δ → Code σ α ε) :
    P >>= f >>= k = P >>= fun b => f b >>= k := by
  change (P.bind f).bind k = P.bind fun b => (f b).bind k
  induction P with
  | ret b => rfl
  | get P ih => exact congrArg Code.get (funext ih)
  | act a P ih => exact congrArg (Code.act a) ih
  | choose P ih => exact congrArg Code.choose (funext ih)
  | pause P ih => exact congrArg Code.pause ih
  | await c P ih => exact congrArg (Code.await c) ih

/-- The state. -/
def state : Code σ α σ := .get .ret

def perform (a : α) : Code σ α Unit := .act a (.ret ())

/-- Any number. -/
def pick : Code σ α ℕ := .choose .ret

def sleep : Code σ α Unit := .pause (.ret ())

def waitWhile (c : σ → Option α) : Code σ α Unit := .await c (.ret ())

def whenever (b : Bool) (k : Code σ α Unit) : Code σ α Unit := if b then k else pure ()

end Code

namespace Threads

variable {ι σ α β δ γ : Type}

/-! ### Segments -/

/-- A segment leads from a code and a state to others; each action in it meets `ok` in the
state in which it is taken. -/
inductive Segment (exec : α → σ → σ) (ok : σ → α → Prop) :
    Code σ α β → σ → Code σ α β → σ → Prop
  | ret {b s} : Segment exec ok (.ret b) s (.ret b) s
  | get {k s P s'} (h : Segment exec ok (k s) s P s') : Segment exec ok (.get k) s P s'
  | act {a k s P s'} (hok : ok s a) (h : Segment exec ok k (exec a s) P s') :
      Segment exec ok (.act a k) s P s'
  | choose {k s P s'} (n : ℕ) (h : Segment exec ok (k n) s P s') :
      Segment exec ok (.choose k) s P s'
  | pause {k s} : Segment exec ok (.pause k) s k s
  | wait {c k s a} (hwait : c s = some a) (hok : ok s a) :
      Segment exec ok (.await c k) s (.await c k) (exec a s)
  | go {c k s P s'} (hgo : c s = none) (h : Segment exec ok k s P s') :
      Segment exec ok (.await c k) s P s'

section Segment

variable {exec : α → σ → σ} {ok ok' : σ → α → Prop} {P P' : Code σ α β} {s s' : σ}

theorem Segment.mono (hok : ∀ s a, ok s a → ok' s a) (h : Segment exec ok P s P' s') :
    Segment exec ok' P s P' s' := by
  induction h with
  | ret => exact .ret
  | get _ ih => exact .get ih
  | act hact _ ih => exact .act (hok _ _ hact) ih
  | choose n _ ih => exact .choose n ih
  | pause => exact .pause
  | wait hwait hact => exact .wait hwait (hok _ _ hact)
  | go hgo _ ih => exact .go hgo ih

/-- What no action changes, no segment changes. -/
theorem Segment.frame {f : σ → γ} (hframe : ∀ a s, f (exec a s) = f s)
    (h : Segment exec ok P s P' s') : f s' = f s := by
  induction h with
  | ret => rfl
  | get _ ih => exact ih
  | act _ _ ih => exact ih.trans (hframe _ _)
  | choose _ _ ih => exact ih
  | pause => rfl
  | wait _ _ => exact hframe _ _
  | go _ _ ih => exact ih

end Segment

/-! ### What code achieves -/

section Wp

variable (exec : α → σ → σ) (ok : σ → α → Prop) (I : σ → Prop) (loc : σ → γ)

/-- From the state `s` on, whatever the others do while the thread is not running, the code keeps
the invariant and returns with `Q`. -/
def wp : Code σ α β → (β → σ → Prop) → σ → Prop
  | .ret b, Q, s => Q b s
  | .get k, Q, s => wp (k s) Q s
  | .act a k, Q, s => ok s a → wp k Q (exec a s)
  | .choose k, Q, s => ∀ n, wp (k n) Q s
  | .pause k, Q, s => I s ∧ ∀ s', I s' → loc s' = loc s → wp k Q s'
  | .await c k, Q, s => I s ∧ ∀ s', I s' → loc s' = loc s →
      (∀ a, c s' = some a → ok s' a → I (exec a s') ∧ loc (exec a s') = loc s') ∧
        (c s' = none → wp k Q s')

/-- The code keeps the invariant and returns with `Q`, whenever it starts with `loc` being `g`. -/
def Spec (g : γ) (P : Code σ α β) (Q : β → γ → Prop) : Prop :=
  ∀ s, I s → loc s = g → wp exec ok I loc P (fun b s => I s ∧ Q b (loc s)) s

variable {exec ok I loc}

section

variable {b : β} {k : σ → Code σ α β} {a : α} {P : Code σ α β} {n : ℕ → Code σ α β}
variable {c : σ → Option α} {Q Q' : β → σ → Prop} {s s' : σ}

@[simp] theorem wp_pure : wp exec ok I loc (pure b) Q s ↔ Q b s := Iff.rfl

@[simp] theorem wp_state {Q : σ → σ → Prop} : wp exec ok I loc Code.state Q s ↔ Q s s := Iff.rfl

theorem wp_perform {Q : Unit → σ → Prop} :
    wp exec ok I loc (Code.perform a) Q s ↔ (ok s a → Q () (exec a s)) :=
  Iff.rfl

theorem wp_mono (hQ : ∀ b s, Q b s → Q' b s) (h : wp exec ok I loc P Q s) :
    wp exec ok I loc P Q' s := by
  induction P generalizing s with
  | ret b => exact hQ b s h
  | get k ih => exact ih _ h
  | act a k ih => exact fun hok => ih (h hok)
  | choose k ih => exact fun n => ih n (h n)
  | pause k ih => exact ⟨h.1, fun s' hI hloc => ih (h.2 s' hI hloc)⟩
  | await c k ih =>
    refine ⟨h.1, fun s' hI hloc => ?_⟩
    exact ⟨(h.2 s' hI hloc).1, fun hgo => ih ((h.2 s' hI hloc).2 hgo)⟩

theorem wp_bind {f : β → Code σ α δ} {R : δ → σ → Prop} :
    wp exec ok I loc (P >>= f) R s ↔
      wp exec ok I loc P (fun b s => wp exec ok I loc (f b) R s) s := by
  change wp exec ok I loc (P.bind f) R s ↔ _
  induction P generalizing s with
  | ret b => exact Iff.rfl
  | get k ih => exact ih _
  | act a k ih => exact forall_congr' fun hok => ih
  | choose k ih => exact forall_congr' fun n => ih n
  | pause k ih =>
    exact and_congr_right fun _ => forall_congr' fun s' => forall_congr' fun _ =>
      forall_congr' fun _ => ih
  | await c k ih =>
    exact and_congr_right fun _ => forall_congr' fun s' => forall_congr' fun _ =>
      forall_congr' fun _ => and_congr_right fun _ => forall_congr' fun _ => ih

/-- **One segment**: what the code achieves is kept up to its end, and the rest of the code
achieves it from any state in which the thread may run again. -/
theorem wp_segment (hQ : ∀ b s, Q b s → I s ∧ ∀ s', I s' → loc s' = loc s → Q b s')
    {P' : Code σ α β} (hseg : Segment exec ok P s P' s') (h : wp exec ok I loc P Q s) :
    I s' ∧ ∀ s'', I s'' → loc s'' = loc s' → wp exec ok I loc P' Q s'' := by
  induction hseg with
  | ret => exact hQ _ _ h
  | get _ ih => exact ih h
  | act hok _ ih => exact ih (h hok)
  | choose n _ ih => exact ih (h n)
  | pause => exact h
  | wait hwait hok =>
    obtain ⟨hI, hloc⟩ := (h.2 _ h.1 rfl).1 _ hwait hok
    refine ⟨hI, fun s'' hI'' hloc'' => ⟨hI'', fun s₃ hI₃ hloc₃ => ?_⟩⟩
    exact h.2 s₃ hI₃ (hloc₃.trans (hloc''.trans hloc))
  | go hgo _ ih => exact ih ((h.2 _ h.1 rfl).2 hgo)

end

section

variable {g : γ} {P : Code σ α β} {Q Q' : β → γ → Prop}

theorem Spec.ret {b : β} (h : Q b g) : Spec exec ok I loc g (pure b) Q := by
  intro s hI hloc
  refine ⟨hI, ?_⟩
  rw [hloc]
  exact h

theorem Spec.mono (h : Spec exec ok I loc g P Q) (hQ : ∀ b g', Q b g' → Q' b g') :
    Spec exec ok I loc g P Q' := by
  intro s hI hloc
  exact wp_mono (fun b s h => ⟨h.1, hQ b _ h.2⟩) (h s hI hloc)

theorem Spec.bind {f : β → Code σ α δ} {R : δ → γ → Prop} (h : Spec exec ok I loc g P Q)
    (hf : ∀ b g', Q b g' → Spec exec ok I loc g' (f b) R) :
    Spec exec ok I loc g (P >>= f) R := by
  intro s hI hloc
  rw [wp_bind]
  exact wp_mono (fun b s h => hf b _ h.2 s h.1 rfl) (h s hI hloc)

/-- What the code goes on with may depend on the state in any way. -/
theorem Spec.get {f : σ → Code σ α β} (h : ∀ s, Spec exec ok I loc g (f s) Q) :
    Spec exec ok I loc g (Code.state >>= f) Q := by
  intro s hI hloc
  exact h s s hI hloc

theorem Spec.pick {f : ℕ → Code σ α β} (h : ∀ n, Spec exec ok I loc g (f n) Q) :
    Spec exec ok I loc g (Code.pick >>= f) Q := by
  intro s hI hloc n
  exact h n s hI hloc

theorem Spec.sleep : Spec exec ok I loc g Code.sleep fun _ g' => g' = g := by
  intro s hI hloc
  exact ⟨hI, fun s' hI' hloc' => ⟨hI', hloc'.trans hloc⟩⟩

theorem Spec.perform {a : α} {Q : Unit → γ → Prop} (h : ∀ s, I s → loc s = g → ok s a →
    I (exec a s) ∧ Q () (loc (exec a s))) : Spec exec ok I loc g (Code.perform a) Q := by
  intro s hI hloc hok
  exact h s hI hloc hok

end

end Wp

/-! ### Runs -/

/-- A state with what every thread has still to do; a thread that has returned waits for its next
call. -/
structure Config (ι σ α : Type) where
  state : σ
  code : ι → Code σ α Unit

section Runs

variable [DecidableEq ι] (exec : ι → α → σ → σ) (runnable : ι → σ → Prop)
  (calls : ι → σ → Code σ α Unit → Prop) (ok : ι → σ → α → Prop)

/-- A thread that may run goes on, or starts a new call. -/
inductive Step : Config ι σ α → Config ι σ α → Prop
  | run {c : Config ι σ α} {P s} (p : ι) (hrun : runnable p c.state)
      (hseg : Segment (exec p) (ok p) (c.code p) c.state P s) :
      Step c ⟨s, Function.update c.code p P⟩
  | call {c : Config ι σ α} {P P' s} (p : ι) (hidle : c.code p = .ret ())
      (hrun : runnable p c.state) (hcall : calls p c.state P)
      (hseg : Segment (exec p) (ok p) P c.state P' s) :
      Step c ⟨s, Function.update c.code p P'⟩

/-- A run. -/
abbrev Run : Config ι σ α → Config ι σ α → Prop :=
  Relation.ReflTransGen (Step exec runnable calls ok)

/-- Nobody is in the middle of a call. -/
def Idle (c : Config ι σ α) : Prop := ∀ p, c.code p = .ret ()

variable (I : σ → Prop) (loc : ι → σ → γ) (quiet : γ → Prop)

/-- The invariant holds, and every thread keeps it in what it has still to do. -/
def Good (c : Config ι σ α) : Prop :=
  I c.state ∧ ∀ p s, I s → loc p s = loc p c.state →
    wp (exec p) (ok p) I (loc p) (c.code p) (fun _ s => I s ∧ quiet (loc p s)) s

variable {exec runnable calls ok I loc quiet}

theorem Good.step (hframe : ∀ p q a s, p ≠ q → loc q (exec p a s) = loc q s)
    (hcalls : ∀ p s P, I s → runnable p s → calls p s P → quiet (loc p s) →
      wp (exec p) (ok p) I (loc p) P (fun _ s => I s ∧ quiet (loc p s)) s)
    {c c' : Config ι σ α} (h : Good exec ok I loc quiet c)
    (hstep : Step exec runnable calls ok c c') :
    Good exec ok I loc quiet c' := by
  obtain ⟨hI, hcode⟩ := h
  have hQ : ∀ (p : ι) (_ : Unit) s, (I s ∧ quiet (loc p s)) →
      I s ∧ ∀ s', I s' → loc p s' = loc p s → I s' ∧ quiet (loc p s') := by
    intro p _ s hs
    refine ⟨hs.1, fun s' hI' hloc => ⟨hI', ?_⟩⟩
    rw [hloc]
    exact hs.2
  -- the others keep what they know about themselves
  have hothers : ∀ (p : ι) (P₀ P' : Code σ α Unit) (s' : σ),
      Segment (exec p) (ok p) P₀ c.state P' s' →
      wp (exec p) (ok p) I (loc p) P₀ (fun _ s => I s ∧ quiet (loc p s)) c.state →
      Good exec ok I loc quiet ⟨s', Function.update c.code p P'⟩ := by
    intro p P₀ P' s' hseg hwp
    obtain ⟨hI', hrest⟩ := wp_segment (hQ p) hseg hwp
    refine ⟨hI', fun q s'' hI'' hloc => ?_⟩
    by_cases hq : q = p
    · subst hq
      dsimp only
      rw [Function.update_self]
      exact hrest s'' hI'' hloc
    · dsimp only
      rw [Function.update_of_ne hq]
      refine hcode q s'' hI'' (hloc.trans ?_)
      exact hseg.frame fun a s => hframe p q a s (Ne.symm hq)
  cases hstep with
  | run p hrun hseg => exact hothers p _ _ _ hseg (hcode p _ hI rfl)
  | call p hidle hrun hcall hseg =>
    have hquiet := hcode p _ hI rfl
    rw [hidle] at hquiet
    exact hothers p _ _ _ hseg (hcalls p _ _ hI hrun hcall hquiet.2)

/-- **The rule for runs**: if every call keeps the invariant, it holds in every state of every
run that starts with it, and a thread between two calls has left nothing undone. -/
theorem run_invariant (hframe : ∀ p q a s, p ≠ q → loc q (exec p a s) = loc q s)
    (hcalls : ∀ p s P, I s → runnable p s → calls p s P → quiet (loc p s) →
      wp (exec p) (ok p) I (loc p) P (fun _ s => I s ∧ quiet (loc p s)) s)
    {c c' : Config ι σ α} (hidle : Idle c) (hI : I c.state) (hquiet : ∀ p, quiet (loc p c.state))
    (hrun : Run exec runnable calls ok c c') :
    I c'.state ∧ ∀ p, c'.code p = .ret () → quiet (loc p c'.state) := by
  have hgood : Good exec ok I loc quiet c' := by
    induction hrun with
    | refl =>
      refine ⟨hI, fun p s hI' hloc => ?_⟩
      rw [hidle p]
      refine ⟨hI', ?_⟩
      rw [hloc]
      exact hquiet p
    | tail _ hstep ih => exact ih.step hframe hcalls hstep
  refine ⟨hgood.1, fun p hret => ?_⟩
  have hwp := hgood.2 p _ hgood.1 rfl
  rw [hret] at hwp
  exact hwp.2

end Runs

end Threads
