/-
  `sleep` (kernel/time.c): polling the seconds of the clock.

  The loop waits for the seconds to reach the first reading's plus `seconds`. They never pass 59,
  so it returns only from a minute that has enough seconds left (`sleep_endless`); there it
  returns at the right poll (`sleep_returns`).
-/
import SeshOS.Base.Loop
import SeshOS.Rtc.GetTime

namespace SeshOS.Rtc

open Base

/-! ## time.c -/

/-- The state is the number of the last call of `GetTime`, and `CurrentTime`. -/
def sleepBody (reading : Nat → Time) (seconds : BitVec 8) (s : Nat × Time) :
    Iter (Nat × Time) Nat :=
  let oldtime := reading 0
  if s.2.sec.toNat < oldtime.sec.toNat + seconds.toNat then .next (s.1 + 1, reading (s.1 + 1))
  else .done s.1

/-- `sleep`, when the calls of `GetTime` return the readings in turn. The result is the number of
    the last call. -/
def sleep (fuel : Nat) (reading : Nat → Time) (seconds : BitVec 8) : Iter (Nat × Time) Nat :=
  loop (sleepBody reading seconds) fuel (0, reading 0)

/-! ## The polls -/

/-- The calls of `GetTime`: the `k`-th one comes `ticks k` seconds after the first, and one comes
    during every second. -/
structure Polls where
  ticks : Nat → Nat
  first : ticks 0 = 0
  mono : Monotone ticks
  every : ∀ n, ∃ k, ticks k = n

/-- What they return, each reading the clock at one moment (`readAt_still`). -/
def Polls.reading (p : Polls) (c : Clock) (k : Nat) : Time := (c.advance (p.ticks k)).time

/-- `sleep` returns, at the first poll that comes after that many seconds or more. -/
def SleepsFor (c : Clock) (p : Polls) (seconds : BitVec 8) : Prop :=
  ∃ k, (∃ fuel, sleep fuel (p.reading c) seconds = .done k) ∧ seconds.toNat ≤ p.ticks k ∧
    ∀ j < k, p.ticks j < seconds.toNat

variable {c : Clock} {p : Polls} {seconds : BitVec 8}

theorem reading_sec (c : Clock) (p : Polls) (k : Nat) :
    (p.reading c k).sec.toNat = (c.sec + p.ticks k) % 60 := by
  rw [Polls.reading, Clock.time_sec, Clock.advance_sec]

/-- One round, by the seconds alone. -/
theorem sleepBody_reading (c : Clock) (p : Polls) (seconds : BitVec 8) (k : Nat) :
    sleepBody (p.reading c) seconds (k, p.reading c k) =
      if (c.sec + p.ticks k) % 60 < c.sec + seconds.toNat then
        .next (k + 1, p.reading c (k + 1))
      else .done k := by
  have hlt := c.sec.isLt
  simp only [sleepBody, reading_sec, p.first, Nat.add_zero, Nat.mod_eq_of_lt hlt]

/-- The first poll late enough comes exactly then. -/
theorem Polls.exists_first (p : Polls) (n : Nat) :
    ∃ k, p.ticks k = n ∧ ∀ j < k, p.ticks j < n := by
  classical
  refine ⟨Nat.find (p.every n), Nat.find_spec (p.every n), fun j hj => ?_⟩
  have hle := p.mono (Nat.le_of_lt hj)
  rw [Nat.find_spec (p.every n)] at hle
  exact Nat.lt_of_le_of_ne hle (Nat.find_min (p.every n) hj)

theorem sleep_returns {k : Nat} (hminute : c.sec + seconds.toNat ≤ 59)
    (hk : p.ticks k = seconds.toNat) (hbefore : ∀ j < k, p.ticks j < seconds.toNat) :
    sleep (k + 1) (p.reading c) seconds = .done k := by
  have hfrom : ∀ rounds j, j + rounds = k →
      loop (sleepBody (p.reading c) seconds) (rounds + 1) (j, p.reading c j) = .done k := by
    intro rounds
    induction rounds with
    | zero =>
      rintro j rfl
      refine loop_done ?_
      rw [sleepBody_reading, if_neg]
      · rfl
      · rw [Nat.add_zero] at hk
        omega
    | succ rounds ih =>
      intro j hj
      have hearly := hbefore j (by omega)
      rw [loop_next, ih (j + 1) (by omega)]
      rw [sleepBody_reading, if_pos (by omega)]
  exact hfrom k 0 (Nat.zero_add k)

/-- When the sum passes 59 the seconds never reach it. -/
theorem sleep_endless (p : Polls) (hminute : 59 < c.sec + seconds.toNat) (fuel k : Nat) :
    sleep fuel (p.reading c) seconds ≠ .done k := by
  refine loop_diverges _ (fun s => ∃ j, s = (j, p.reading c j)) ?_ ⟨0, rfl⟩ fuel k
  rintro _ ⟨j, rfl⟩
  refine ⟨_, ?_, j + 1, rfl⟩
  rw [sleepBody_reading, if_pos (by omega)]

/-- For every clock, every number of seconds and every sequence of polls: `sleep` sleeps for that
    long exactly when the minute in which it begins has that many seconds left. -/
theorem sleepsFor_iff (c : Clock) (p : Polls) (seconds : BitVec 8) :
    SleepsFor c p seconds ↔ c.sec + seconds.toNat ≤ 59 := by
  constructor
  · rintro ⟨k, ⟨fuel, hreturns⟩, -⟩
    by_contra hminute
    exact sleep_endless p (by omega) fuel k hreturns
  · intro hminute
    obtain ⟨k, hk, hbefore⟩ := p.exists_first seconds.toNat
    exact ⟨k, ⟨k + 1, sleep_returns hminute hk hbefore⟩, hk.ge, hbefore⟩

/-- One poll in every second. -/
def eachSecond : Polls := ⟨id, rfl, monotone_id, fun n => ⟨n, rfl⟩⟩

/-- One second, from the last second of a minute. -/
theorem last_second_endless :
    ¬∀ (c : Clock) (p : Polls) (seconds : BitVec 8), SleepsFor c p seconds := by
  intro h
  obtain ⟨k, ⟨fuel, hreturns⟩, -⟩ := h beforeEleven eachSecond 1
  exact sleep_endless eachSecond (by decide) fuel k hreturns

end SeshOS.Rtc
