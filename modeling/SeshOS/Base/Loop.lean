/-
  Loops with an exit, run for a bounded number of rounds.

  `loop body n s` runs `body` from `s` for at most `n` rounds. `Iter.done b` is the loop
  left with `b`; `Iter.next s` is the loop still running, at `s`. The state a bounded run
  stopped in stays visible, so a trace kept in the state can be read off a run that never
  leaves the loop.

  * `loop_add`, `loop_done_mono`: composing runs, and more fuel changes nothing.
  * `loop_variant`: a decreasing measure and an invariant give termination and the
    postcondition.
  * `loop_result`: the rule for a run that is known to have left the loop.
  * `loop_invariant`: what every round keeps holds wherever a bounded run stops.
  * `loop_diverges`: a set of states no round leaves is never left.
-/
import Mathlib

namespace Base

variable {σ β : Type*}

/-- One round of a loop: go round again at a new state, or leave with a result. -/
inductive Iter (σ β : Type*) where
  | next (s : σ)
  | done (b : β)

/-- At most `n` rounds of `body` from `s`. -/
def loop (body : σ → Iter σ β) : Nat → σ → Iter σ β
  | 0, s => .next s
  | n + 1, s =>
    match body s with
    | .next s' => loop body n s'
    | .done b => .done b

/-- Where the run stands, for a loop whose result is its last state. -/
def Iter.val : Iter σ σ → σ
  | .next s => s
  | .done s => s

@[simp] theorem Iter.val_next (s : σ) : (Iter.next s : Iter σ σ).val = s := rfl

@[simp] theorem Iter.val_done (s : σ) : (Iter.done s : Iter σ σ).val = s := rfl

variable {body : σ → Iter σ β}

theorem loop_zero (s : σ) : loop body 0 s = .next s := rfl

theorem loop_next {n : Nat} {s s' : σ} (h : body s = .next s') :
    loop body (n + 1) s = loop body n s' := by
  rw [loop, h]

theorem loop_done {n : Nat} {s : σ} {b : β} (h : body s = .done b) :
    loop body (n + 1) s = .done b := by
  rw [loop, h]

theorem loop_one {body : σ → Iter σ β} (s : σ) : loop body 1 s = body s := by
  cases hb : body s with
  | next t => exact loop_next hb
  | done b => exact loop_done hb

/-- A run of `n` rounds that is still going continues as a run from where it stands. -/
theorem loop_add (n m : Nat) (s s' : σ) (h : loop body n s = .next s') :
    loop body (n + m) s = loop body m s' := by
  induction n generalizing s with
  | zero =>
    cases h
    rw [Nat.zero_add]
  | succ n ih =>
    rw [Nat.succ_add]
    cases hb : body s with
    | next t => rw [loop_next hb]; rw [loop_next hb] at h; exact ih t h
    | done b => rw [loop_done hb] at h; cases h

/-- More rounds do not change a result. -/
theorem loop_done_mono {n m : Nat} {s : σ} {b : β} (h : loop body n s = .done b) (hm : n ≤ m) :
    loop body m s = .done b := by
  induction n generalizing s m with
  | zero => cases h
  | succ n ih =>
    obtain ⟨k, rfl⟩ : ∃ k, m = k + 1 := ⟨m - 1, by omega⟩
    cases hb : body s with
    | next t =>
      rw [loop_next hb] at h ⊢
      exact ih h (by omega)
    | done b' =>
      rw [loop_done hb] at h ⊢
      exact h

/-- Two results of one loop agree, whatever fuel each run had. -/
theorem loop_done_unique {n m : Nat} {s : σ} {b c : β} (hb : loop body n s = .done b)
    (hc : loop body m s = .done c) : b = c := by
  have h1 := loop_done_mono hb (Nat.le_max_left n m)
  have h2 := loop_done_mono hc (Nat.le_max_right n m)
  rw [h1] at h2
  exact Iter.done.inj h2

/-- Total correctness: every round from an `Inv` state either leaves with a `Post` result
    or keeps `Inv` and lowers `μ`. Then `μ s + 1` rounds leave the loop. -/
theorem loop_variant (Inv : σ → Prop) (Post : β → Prop) (μ : σ → Nat)
    (step : ∀ s, Inv s → (∃ b, body s = .done b ∧ Post b) ∨
      ∃ s', body s = .next s' ∧ Inv s' ∧ μ s' < μ s)
    {s : σ} (hs : Inv s) {n : Nat} (hn : μ s < n) :
    ∃ b, loop body n s = .done b ∧ Post b := by
  induction n generalizing s with
  | zero => omega
  | succ n ih =>
    rcases step s hs with ⟨b, hb, hp⟩ | ⟨s', hb, hs', hlt⟩
    · exact ⟨b, loop_done hb, hp⟩
    · rw [loop_next hb]
      exact ih hs' (by omega)

/-- Partial correctness: what every round keeps, and an exit turns into `Post`. -/
theorem loop_result (Inv : σ → Prop) (Post : β → Prop)
    (hnext : ∀ s s', Inv s → body s = .next s' → Inv s')
    (hdone : ∀ s b, Inv s → body s = .done b → Post b)
    {n : Nat} {s : σ} {b : β} (hs : Inv s) (h : loop body n s = .done b) : Post b := by
  induction n generalizing s with
  | zero => cases h
  | succ n ih =>
    cases hb : body s with
    | next t =>
      rw [loop_next hb] at h
      exact ih (hnext s t hs hb) h
    | done c =>
      rw [loop_done hb] at h
      cases h
      exact hdone s b hs hb

/-- What every round keeps, and every exit grants, holds wherever a bounded run stops. -/
theorem loop_invariant (body : σ → Iter σ σ) (Inv : σ → Prop) (Post : σ → Prop)
    (hweak : ∀ s, Inv s → Post s)
    (hnext : ∀ s s', Inv s → body s = .next s' → Inv s')
    (hdone : ∀ s s', Inv s → body s = .done s' → Post s')
    (n : Nat) {s : σ} (hs : Inv s) : Post (loop body n s).val := by
  induction n generalizing s with
  | zero => exact hweak s hs
  | succ n ih =>
    cases hb : body s with
    | next t => rw [loop_next hb]; exact ih (hnext s t hs hb)
    | done t => rw [loop_done hb]; exact hdone s t hs hb

/-- A loop that stays in `C`, where no round leaves it, never returns. -/
theorem loop_diverges (body : σ → Iter σ β) (C : σ → Prop)
    (step : ∀ s, C s → ∃ s', body s = .next s' ∧ C s') {s : σ} (hs : C s) (n : Nat)
    (b : β) : loop body n s ≠ .done b := by
  induction n generalizing s with
  | zero => intro h; cases h
  | succ n ih =>
    obtain ⟨s', hb, hs'⟩ := step s hs
    rw [loop_next hb]
    exact ih hs'

end Base
