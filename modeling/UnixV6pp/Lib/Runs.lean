import Mathlib.Logic.Relation

/-!
# Runs of a labelled step relation

A component is a labelled step relation: `step s l s'` says that the operation
`l` takes the state `s` to `s'`.  A *guarded run* is a finite sequence of steps
each of which meets a side condition on the state before it and on the label, so
that "every run in which only allocated blocks are freed" is one relation.

* `Runs step ok s s'` — some guarded run leads from `s` to `s'`.
* `Runs.invariant` — **the induction every safety theorem goes through**: what
  one guarded step preserves, a guarded run preserves.
* `Runs.mono` — a run under a stronger side condition is a run under a weaker one.
* `Runs.of_meets` — a list of operations as a run.
* `Runs.meets_iff` — what holds in all states of a run, as a condition on its operations.
-/

/-- Some finite sequence of steps, each meeting `ok`, leads from one state to
the other. -/
def Runs {σ ℓ : Type*} (step : σ → ℓ → σ → Prop) (ok : σ → ℓ → Prop) : σ → σ → Prop :=
  Relation.ReflTransGen fun s s' => ∃ l, ok s l ∧ step s l s'

namespace Runs

variable {σ ℓ : Type*} {step : σ → ℓ → σ → Prop} {ok ok' : σ → ℓ → Prop} {s s' s'' : σ}

theorem refl (s : σ) : Runs step ok s s := Relation.ReflTransGen.refl

theorem trans (h : Runs step ok s s') (h' : Runs step ok s' s'') : Runs step ok s s'' :=
  Relation.ReflTransGen.trans h h'

/-- A run extended by one more step. -/
theorem tail (h : Runs step ok s s') {l : ℓ} (hok : ok s' l) (hstep : step s' l s'') :
    Runs step ok s s'' :=
  Relation.ReflTransGen.tail h ⟨l, hok, hstep⟩

theorem single {l : ℓ} (hok : ok s l) (hstep : step s l s') : Runs step ok s s' :=
  (refl s).tail hok hstep

/-- **Invariance.**  What a guarded step preserves holds at the end of every
guarded run that starts with it. -/
theorem invariant {I : σ → Prop}
    (hstep : ∀ s l s', I s → ok s l → step s l s' → I s')
    (h : Runs step ok s s') (hs : I s) : I s' := by
  induction h with
  | refl => exact hs
  | tail _ hlast ih =>
    obtain ⟨l, hok, hl⟩ := hlast
    exact hstep _ l _ ih hok hl

theorem mono (hok : ∀ s l, ok s l → ok' s l) (h : Runs step ok s s') : Runs step ok' s s' :=
  Relation.ReflTransGen.mono (fun _ _ ⟨l, hl, hs⟩ => ⟨l, hok _ l hl, hs⟩) _ _ h

/-! ### Listed runs -/

section Listed

variable {next : σ → ℓ → σ}

/-- Each of the operations, from `s` on, meets `ok` on the state before it. -/
def Meets (next : σ → ℓ → σ) (ok : σ → ℓ → Prop) : List ℓ → σ → Prop
  | [], _ => True
  | l :: ls, s => ok s l ∧ Meets next ok ls (next s l)

instance Meets.decide [∀ s l, Decidable (ok s l)] : ∀ ls s, Decidable (Meets next ok ls s)
  | [], _ => .isTrue trivial
  | l :: ls, s =>
    have := Meets.decide ls (next s l)
    inferInstanceAs (Decidable (ok s l ∧ Meets next ok ls (next s l)))

/-- A list of operations is a run of steps that compute the next state. -/
theorem of_meets (hstep : ∀ s l, ok s l → step s l (next s l)) {ls : List ℓ} {s : σ}
    (h : Meets next ok ls s) : Runs step ok s (ls.foldl next s) := by
  induction ls generalizing s with
  | nil => exact refl s
  | cons l ls ih => exact (single h.1 (hstep s l h.1)).trans (ih h.2)

/-- Where `ok` is exactly what keeps `P`, given what every operation keeps, the operations meet it
exactly if `P` holds in all states that they go through. -/
theorem meets_iff {S P : σ → Prop} (hkept : ∀ s l, S s → S (next s l))
    (hiff : ∀ s l, S s → P s → (P (next s l) ↔ ok s l)) {ls : List ℓ} {s : σ} (hs : S s)
    (hp : P s) : Meets next ok ls s ↔ ∀ n, P ((ls.take n).foldl next s) := by
  induction ls generalizing s with
  | nil => exact ⟨fun _ n => by rw [List.take_nil]; exact hp, fun _ => trivial⟩
  | cons l ls ih =>
    constructor
    · intro h n
      rcases n with _ | n
      · exact hp
      · exact (ih (hkept s l hs) ((hiff s l hs hp).mpr h.1)).mp h.2 n
    · intro h
      have hnext : P (next s l) := h 1
      exact ⟨(hiff s l hs hp).mp hnext, (ih (hkept s l hs) hnext).mpr fun n => h (n + 1)⟩

end Listed

end Runs
