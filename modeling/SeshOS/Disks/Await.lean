/-
  The wait of `Read` for its command, against any history of the port's registers.

  A history gives the registers at every instant after the write of `commandIssue`, a schedule
  the instants at which the code reads them. The loop reads `commandIssue` and then
  `interruptStatus`, and does not look at the second again when it finds the first clear
  (`awaitCommand_answered`). `reports_iff`: the loop reports what the adapter did, whatever the
  schedule, exactly for the histories that never show the issue bit clear with the error bit.
-/
import SeshOS.Disks.Port

namespace SeshOS.Disks

open Base

/-- The registers of the port at each instant. -/
abbrev History := Nat → PortRegs

/-- The instant of the `n`-th access of the code. -/
structure Schedule where
  time : Nat → Nat
  mono : StrictMono time

def answers (h : History) (t : Schedule) (n : Nat) : (i : Instr) → Answer i
  | .readReg r => h (t.time n) r
  | .writeReg _ _ => ()
  | .malloc _ => (0 : Nat)
  | .load _ _ _ _ => (0 : Nat)
  | .store _ _ _ _ _ => ()
  | .memset _ _ _ _ => ()

/-- `Read` returns `r`, and reads a register last at access `last`. -/
def Returns (h : History) (t : Schedule) (r last : Nat) : Prop :=
  ∃ fuel, (awaitCommand fuel).answered (answers h t) 0 = some (r, last + 1)

/-- The issue bit is clear; the task-file error bit is set. -/
def PortRegs.issueClear (r : PortRegs) : Prop := r .commandIssue = 0
def PortRegs.taskFileError (r : PortRegs) : Prop := r .interruptStatus &&& hbaPxIsTfes ≠ 0

instance (r : PortRegs) : Decidable r.issueClear :=
  inferInstanceAs (Decidable (r .commandIssue = 0))

instance (r : PortRegs) : Decidable r.taskFileError :=
  inferInstanceAs (Decidable (r .interruptStatus &&& hbaPxIsTfes ≠ 0))

/-- The adapter raises an error no later than it clears the issue bit. -/
def ErrorFirst (h : History) : Prop :=
  ∃ i, (h i).taskFileError ∧ ∀ j < i, ¬ (h j).issueClear

/-- Whatever the schedule, 1 is returned only where the error bit is clear, and with the error
    first 0 is returned. -/
def Reports (h : History) : Prop := ∀ t : Schedule,
  (∀ last, Returns h t 1 last → ¬ (h (t.time last)).taskFileError) ∧
    (ErrorFirst h → ∃ last, Returns h t 0 last)

/-! ## Rounds of the loop -/

section Rounds

variable (h : History) (t : Schedule)

theorem awaitCommand_answered (fuel n : Nat) :
    (awaitCommand (fuel + 1)).answered (answers h t) n =
      if (h (t.time n)).issueClear then some (1, n + 1)
      else if (h (t.time (n + 1))).taskFileError then some (0, n + 2)
      else (awaitCommand fuel).answered (answers h t) (n + 2) := by
  have hite : ∀ (c : Prop) [Decidable c] (p q : Code Nat) (m : Nat),
      (if c then p else q).answered (answers h t) m =
        if c then p.answered (answers h t) m else q.answered (answers h t) m := by
    intro c _ p q m
    split <;> rfl
  show Prog.answered _ (if h (t.time n) .commandIssue = 0 then pure 1 else
    readReg .interruptStatus >>= fun v =>
      if v &&& hbaPxIsTfes ≠ 0 then pure 0 else awaitCommand fuel) (n + 1) = _
  rw [hite]
  show (if _ then _ else Prog.answered _ (if h (t.time (n + 1)) .interruptStatus &&& hbaPxIsTfes ≠ 0
    then pure 0 else awaitCommand fuel) (n + 2)) = _
  rw [hite]
  rfl

variable {h t}

/-- More fuel changes no result. -/
theorem answered_more {fuel n : Nat} {x : Nat × Nat} (more : Nat)
    (hx : (awaitCommand fuel).answered (answers h t) n = some x) :
    (awaitCommand (fuel + more)).answered (answers h t) n = some x := by
  induction fuel generalizing n with
  | zero => cases hx
  | succ fuel ih =>
    rw [Nat.succ_add, awaitCommand_answered]
    rw [awaitCommand_answered] at hx
    split_ifs at hx ⊢ with hclear herror
    · exact hx
    · exact hx
    · exact ih hx

theorem Returns.unique {r r' last last' : Nat} (hr : Returns h t r last)
    (hr' : Returns h t r' last') : r = r' := by
  obtain ⟨fuel, hr⟩ := hr
  obtain ⟨fuel', hr'⟩ := hr'
  have hmore := answered_more fuel' hr
  rw [Nat.add_comm, answered_more fuel hr'] at hmore
  exact (Prod.mk.inj (Option.some.inj hmore)).1.symm

/-- What the last access has seen. -/
theorem answered_last {fuel n r last : Nat}
    (hr : (awaitCommand fuel).answered (answers h t) n = some (r, last + 1)) :
    r = 1 ∧ (h (t.time last)).issueClear ∨ r = 0 ∧ (h (t.time last)).taskFileError := by
  induction fuel generalizing n with
  | zero => cases hr
  | succ fuel ih =>
    rw [awaitCommand_answered] at hr
    split at hr
    · next hclear =>
      obtain ⟨rfl, hn⟩ := Prod.mk.inj (Option.some.inj hr)
      obtain rfl := Nat.succ.inj hn
      exact Or.inl ⟨rfl, hclear⟩
    · split at hr
      · next herror =>
        obtain ⟨rfl, hn⟩ := Prod.mk.inj (Option.some.inj hr)
        obtain rfl : n + 1 = last := Nat.succ.inj hn
        exact Or.inr ⟨rfl, herror⟩
      · exact ih hr

/-- While the issue bit stays set, an error that stays is found. -/
theorem answered_error (hissue : ∀ i, ¬ (h i).issueClear) (rounds : Nat) {n : Nat}
    (herror : ∀ m ≥ n + 2 * rounds, (h (t.time m)).taskFileError) :
    ∃ last, (awaitCommand (rounds + 1)).answered (answers h t) n = some (0, last + 1) := by
  induction rounds generalizing n with
  | zero =>
    rw [awaitCommand_answered, if_neg (hissue _), if_pos (herror (n + 1) (by omega))]
    exact ⟨n + 1, rfl⟩
  | succ rounds ih =>
    rw [awaitCommand_answered, if_neg (hissue _)]
    split
    · exact ⟨n + 1, rfl⟩
    · exact ih fun m hm => herror m (by omega)

end Rounds

/-! ## Schedules -/

/-- The code is first let run at instant `i`, then without a pause. -/
def Schedule.from (i : Nat) : Schedule where
  time n := i + n
  mono _ _ hn := Nat.add_lt_add_left hn i

theorem Schedule.le_time (t : Schedule) (n : Nat) : n ≤ t.time n := t.mono.le_apply

/-- An issue bit seen clear at the first access. -/
theorem returns_clear {h : History} {i : Nat} (hi : (h i).issueClear) :
    Returns h (.from i) 1 0 :=
  ⟨1, (awaitCommand_answered h (.from i) 0 0).trans (if_pos hi)⟩

/-- Every history is reported right exactly when it never shows the issue bit clear with the
    error bit and, if the error comes first, keeps the issue bit set and ends with the error bit
    set. -/
theorem reports_iff (h : History) :
    Reports h ↔ (∀ i, (h i).taskFileError → ¬ (h i).issueClear) ∧
      (ErrorFirst h → (∀ i, ¬ (h i).issueClear) ∧ ∃ n, ∀ i ≥ n, (h i).taskFileError) := by
  constructor
  · intro hrep
    refine ⟨fun i herror hclear => ?_, fun hfirst => ⟨fun i hclear => ?_, ?_⟩⟩
    · exact (hrep (.from i)).1 0 (returns_clear hclear) herror
    · obtain ⟨last, hzero⟩ := (hrep (.from i)).2 hfirst
      exact absurd (hzero.unique (returns_clear hclear)) (by decide)
    · by_contra hnever
      push Not at hnever
      -- a schedule that sees no error
      obtain ⟨time, hmono, hquiet⟩ := Nat.exists_strictMono_subsequence
        (P := fun i => ¬ (h i).taskFileError) fun n => by
          obtain ⟨i, hi, hq⟩ := hnever (n + 1)
          exact ⟨i, hi, hq⟩
      obtain ⟨last, fuel, hzero⟩ := (hrep ⟨time, hmono⟩).2 hfirst
      rcases answered_last hzero with ⟨hone, -⟩ | ⟨-, herror⟩
      · cases hone
      · exact hquiet last herror
  · rintro ⟨hnot, hkeep⟩ t
    refine ⟨fun last hone herror => ?_, fun hfirst => ?_⟩
    · obtain ⟨fuel, hone⟩ := hone
      rcases answered_last hone with ⟨-, hclear⟩ | ⟨hzero, -⟩
      · exact hnot _ herror hclear
      · cases hzero
    · obtain ⟨hissue, n, herror⟩ := hkeep hfirst
      obtain ⟨last, hzero⟩ := answered_error (t := t) hissue n (n := 0) fun m hm =>
        herror _ (le_trans (by omega) (t.le_time m))
      exact ⟨last, n + 1, hzero⟩

/-- An adapter that ends the command with an error: at instant 1 it sets the error bit and clears
    the issue bit. -/
def failedRead : History := fun i r =>
  if i = 0 then (if r = .commandIssue then 1 else 0)
  else if r = .interruptStatus then hbaPxIsTfes else 0

/-- Polled from instant 1 on, the failed read is reported as good. -/
theorem failedRead_unreported : ¬ Reports failedRead := by
  intro hrep
  have herror : (failedRead 1).taskFileError := by decide
  exact (hrep (.from 1)).1 0 (returns_clear rfl) herror

end SeshOS.Disks
