/-
  The real-time clock that kernel/time.c reads, and the `time` struct (include/time.h).

  `Clock` is what the clock shows. `tick` is its update, once a second, with all carries; after
  `n` updates it shows `advance n`. `Device.register` is the register file: the fields in BCD or in
  binary, the hours in 24-hour or in 12-hour form, as register B says.

  In less than a minute the seconds carry once at most, so every other field is that of the
  minute or of `nextMinute` (`advance_field`).
-/
import SeshOS.Base.Bytes

namespace SeshOS.Rtc

open Base

/-- The struct `time`. -/
structure Time where
  sec : BitVec 8
  min : BitVec 8
  hour : BitVec 8
  weekDay : BitVec 8
  day : BitVec 8
  month : BitVec 8
  year : BitVec 16
  deriving DecidableEq

/-! ## What the clock shows -/

/-- The days of a month, January being 0, in a year from 2000 on. -/
def daysIn (month : Fin 12) (year : Fin 100) : Nat :=
  if month = 1 then if year.val % 4 = 0 then 29 else 28
  else if month ∈ [3, 5, 8, 10] then 30 else 31

theorem daysIn_bounds (month : Fin 12) (year : Fin 100) :
    28 ≤ daysIn month year ∧ daysIn month year ≤ 31 := by
  unfold daysIn
  split_ifs <;> decide

/-- A date and a time of day; Sunday and January are 0, the year 2000 is 0. -/
structure Clock where
  sec : Fin 60
  min : Fin 60
  hour : Fin 24
  weekDay : Fin 7
  day : Nat
  month : Fin 12
  year : Fin 100
  day_pos : 1 ≤ day
  day_le : day ≤ daysIn month year

namespace Clock

/-- The clock as the struct `time`. -/
def time (c : Clock) : Time where
  sec := .ofNat 8 c.sec
  min := .ofNat 8 c.min
  hour := .ofNat 8 c.hour
  weekDay := .ofNat 8 c.weekDay
  day := .ofNat 8 c.day
  month := .ofNat 8 (c.month + 1)
  year := .ofNat 16 (2000 + c.year)

/-- The next date. -/
def nextDay (c : Clock) : Clock :=
  if h : c.day < daysIn c.month c.year then
    { c with
      weekDay := c.weekDay + 1
      day := c.day + 1
      day_pos := Nat.le_add_left 1 c.day
      day_le := h }
  else
    { c with
      weekDay := c.weekDay + 1
      day := 1
      month := c.month + 1
      year := if c.month = 11 then c.year + 1 else c.year
      day_pos := Nat.le_refl 1
      day_le := Nat.le_trans (by decide) (daysIn_bounds _ _).1 }

/-- One second later. -/
def tick (c : Clock) : Clock :=
  if c.sec ≠ 59 then { c with sec := c.sec + 1 }
  else if c.min ≠ 59 then { c with sec := 0, min := c.min + 1 }
  else if c.hour ≠ 23 then { c with sec := 0, min := 0, hour := c.hour + 1 }
  else { c.nextDay with sec := 0, min := 0, hour := 0 }

/-- `n` seconds later. -/
def advance (c : Clock) (n : Nat) : Clock := tick^[n] c

theorem tick_sec (c : Clock) : c.tick.sec = c.sec + 1 := by
  unfold tick
  split_ifs with hsec hmin hhour
  · rfl
  all_goals
    rw [not_not.mp hsec]
    rfl

/-- The seconds go round, whatever is carried. -/
theorem advance_sec (c : Clock) (n : Nat) : ((c.advance n).sec : Nat) = (c.sec + n) % 60 := by
  induction n with
  | zero => exact (Nat.mod_eq_of_lt c.sec.isLt).symm
  | succ n ih =>
    have hone : ((1 : Fin 60) : Nat) = 1 := rfl
    rw [advance, Function.iterate_succ_apply', ← advance, tick_sec, Fin.val_add, ih, hone,
      Nat.mod_add_mod, Nat.add_assoc]

theorem advance_add (c : Clock) (n k : Nat) : c.advance (n + k) = (c.advance n).advance k := by
  rw [advance, Nat.add_comm, Function.iterate_add_apply]
  rfl

/-- The next clock with another minute. -/
def nextMinute (c : Clock) : Clock := { c with sec := 59 }.tick

/-- Second 0 of the minute. -/
def startOfMinute (c : Clock) : Clock := { c with sec := 0 }

theorem tick_startOfMinute (c : Clock) :
    c.tick.startOfMinute = if c.sec = 59 then c.nextMinute else c.startOfMinute := by
  by_cases hsec : c.sec = 59
  · have hnext : c.nextMinute = c.tick := by
      rw [nextMinute, ← hsec]
    have hzero : c.tick.sec = 0 := by
      rw [tick_sec, hsec]
      rfl
    rw [if_pos hsec, hnext, startOfMinute, ← hzero]
  · rw [if_neg hsec, tick, if_pos hsec]
    rfl

/-- In less than a minute there is at most one carry out of the seconds. -/
theorem advance_startOfMinute (c : Clock) {k : Nat} (hk : k < 60) :
    (c.advance k).startOfMinute =
      if 60 ≤ c.sec + k then c.nextMinute else c.startOfMinute := by
  induction k with
  | zero => exact (if_neg (by omega)).symm
  | succ k ih =>
    have hsec := c.advance_sec k
    have hstep : (c.advance (k + 1)).startOfMinute =
        if (c.advance k).sec = 59 then (c.advance k).nextMinute
        else (c.advance k).startOfMinute := by
      rw [advance, Function.iterate_succ_apply', ← advance]
      exact tick_startOfMinute _
    rw [hstep]
    by_cases hlast : (c.advance k).sec = 59
    · have hval := congrArg Fin.val hlast
      rw [hsec, show ((59 : Fin 60) : Nat) = 59 from rfl] at hval
      have hnext : (c.advance k).nextMinute = (c.advance k).startOfMinute.nextMinute := rfl
      rw [if_pos hlast, if_pos (by omega), hnext, ih (by omega), if_neg (by omega)]
      rfl
    · have hval : ((c.advance k).sec : Nat) ≠ 59 := fun h => hlast (Fin.ext h)
      rw [if_neg hlast, ih (by omega)]
      split_ifs <;> first | rfl | omega

/-- So a field that is not the seconds is that of the minute or of the next one. -/
theorem advance_field {α : Type} (f : Clock → α) (hf : ∀ c, f c.startOfMinute = f c)
    (c : Clock) {k : Nat} (hk : k < 60) :
    f (c.advance k) = if 60 ≤ c.sec + k then f c.nextMinute else f c := by
  rw [← hf (c.advance k), advance_startOfMinute c hk]
  split_ifs
  · rfl
  · exact hf c

/-! ## Carries -/

/-- The last minute of a day, of a month and of a year. -/
def EndsDay (c : Clock) : Prop := c.min = 59 ∧ c.hour = 23
def EndsMonth (c : Clock) : Prop := c.EndsDay ∧ c.day = daysIn c.month c.year
def EndsYear (c : Clock) : Prop := c.EndsMonth ∧ c.month = 11

instance (c : Clock) : Decidable c.EndsDay := inferInstanceAs (Decidable (_ ∧ _))
instance (c : Clock) : Decidable c.EndsMonth := inferInstanceAs (Decidable (_ ∧ _))
instance (c : Clock) : Decidable c.EndsYear := inferInstanceAs (Decidable (_ ∧ _))

/-- The date does not go by the seconds. -/
theorem nextDay_sec (c : Clock) (s : Fin 60) :
    { c with sec := s }.nextDay = { c.nextDay with sec := s } := by
  unfold nextDay
  dsimp only
  split <;> rfl

theorem nextMinute_eq (c : Clock) :
    c.nextMinute =
      if c.min ≠ 59 then { c with sec := 0, min := c.min + 1 }
      else if c.hour ≠ 23 then { c with sec := 0, min := 0, hour := c.hour + 1 }
      else { c.nextDay with sec := 0, min := 0, hour := 0 } := by
  rw [nextMinute, tick, if_neg (not_not.mpr rfl), nextDay_sec]

theorem nextMinute_min_ne (c : Clock) : c.nextMinute.min ≠ c.min := by
  have hne : ∀ n : Fin 60, n + 1 ≠ n := by decide
  rw [nextMinute_eq]
  split_ifs with hmin hhour
  · exact hne c.min
  all_goals
    rw [not_not.mp hmin]
    exact show (0 : Fin 60) ≠ 59 by decide

theorem nextMinute_hour (c : Clock) :
    c.nextMinute.hour = if c.min = 59 then c.hour + 1 else c.hour := by
  rw [nextMinute_eq, ite_not]
  by_cases hmin : c.min = 59
  · rw [if_pos hmin, if_pos hmin]
    split_ifs with hhour
    · rfl
    · rw [not_not.mp hhour]
      rfl
  · rw [if_neg hmin, if_neg hmin]

theorem nextMinute_hour_iff (c : Clock) : c.nextMinute.hour = c.hour ↔ c.min ≠ 59 := by
  have hne : ∀ n : Fin 24, n + 1 ≠ n := by decide
  rw [nextMinute_hour]
  split_ifs with hmin
  · exact iff_of_false (hne c.hour) (not_not.mpr hmin)
  · exact iff_of_true rfl hmin

theorem nextMinute_endsDay {c : Clock} (h : c.EndsDay) :
    c.nextMinute = { c.nextDay with sec := 0, min := 0, hour := 0 } := by
  rw [nextMinute_eq, if_neg (not_not.mpr h.1), if_neg (not_not.mpr h.2)]

/-- Before its end the day does not change. -/
theorem nextMinute_sameDay {c : Clock} (h : ¬c.EndsDay) :
    c.nextMinute.weekDay = c.weekDay ∧ c.nextMinute.day = c.day ∧
      c.nextMinute.month = c.month ∧ c.nextMinute.year = c.year := by
  rw [nextMinute_eq]
  split_ifs with hmin hhour
  · exact ⟨rfl, rfl, rfl, rfl⟩
  · exact ⟨rfl, rfl, rfl, rfl⟩
  · exact absurd ⟨not_not.mp hmin, not_not.mp hhour⟩ h

theorem nextMinute_weekDay_iff (c : Clock) :
    c.nextMinute.weekDay = c.weekDay ↔ ¬c.EndsDay := by
  have hne : ∀ n : Fin 7, n + 1 ≠ n := by decide
  refine ⟨fun h hends => hne c.weekDay ?_, fun h => (nextMinute_sameDay h).1⟩
  rw [nextMinute_endsDay hends] at h
  unfold nextDay at h
  split at h <;> exact h

theorem nextMinute_day_iff (c : Clock) : c.nextMinute.day = c.day ↔ ¬c.EndsDay := by
  refine ⟨fun h hends => ?_, fun h => (nextMinute_sameDay h).2.1⟩
  rw [nextMinute_endsDay hends] at h
  have hdays := (daysIn_bounds c.month c.year).1
  have hle := c.day_le
  unfold nextDay at h
  split at h <;> dsimp only at h <;> omega

theorem nextMinute_month_iff (c : Clock) : c.nextMinute.month = c.month ↔ ¬c.EndsMonth := by
  have hne : ∀ n : Fin 12, n + 1 ≠ n := by decide
  by_cases hends : c.EndsDay
  · rw [nextMinute_endsDay hends, EndsMonth, and_iff_right hends, nextDay]
    have hle := c.day_le
    by_cases hlast : c.day < daysIn c.month c.year
    · rw [dif_pos hlast]
      exact iff_of_true rfl (by omega)
    · rw [dif_neg hlast]
      exact iff_of_false (hne c.month) (by omega)
  · exact iff_of_true (nextMinute_sameDay hends).2.2.1 fun h => hends h.1

theorem nextMinute_year_iff (c : Clock) : c.nextMinute.year = c.year ↔ ¬c.EndsYear := by
  have hne : ∀ n : Fin 100, n + 1 ≠ n := by decide
  by_cases hends : c.EndsMonth
  · rw [nextMinute_endsDay hends.1, EndsYear, and_iff_right hends, nextDay,
      dif_neg (by have := hends.2; omega)]
    by_cases hmonth : c.month = 11
    · refine iff_of_false (fun h => hne c.year ?_) (not_not.mpr hmonth)
      exact (if_pos hmonth).symm.trans h
    · exact iff_of_true (if_neg hmonth) hmonth
  · refine iff_of_true ?_ fun h => hends h.1
    by_cases hday : c.EndsDay
    · have hlast : c.day < daysIn c.month c.year :=
        Nat.lt_of_le_of_ne c.day_le fun h => hends ⟨hday, h⟩
      rw [nextMinute_endsDay hday, nextDay, dif_pos hlast]
    · exact (nextMinute_sameDay hday).2.2.2

theorem day_lt (c : Clock) : c.day < 32 := by
  have hle := c.day_le
  have hdays := (daysIn_bounds c.month c.year).2
  omega

theorem time_sec (c : Clock) : c.time.sec.toNat = c.sec := by
  have hlt := c.sec.isLt
  rw [time, BitVec.toNat_ofNat]
  omega

end Clock

/-- 14 May 2025, one second before eleven. -/
def beforeEleven : Clock := ⟨59, 59, 10, 3, 14, 4, 25, by decide, by decide⟩

/-! ## The registers -/

/-- The clock's register B, and what the registers hold that are not modelled. -/
structure Device where
  regB : Byte
  other : Byte → Byte

namespace Device

/-- Register B: the data mode is binary. -/
def Binary (r : Device) : Prop := r.regB &&& 4 ≠ 0

/-- Register B: the hours count to 24. -/
def Hours24 (r : Device) : Prop := r.regB &&& 2 ≠ 0

instance (r : Device) : Decidable r.Binary := inferInstanceAs (Decidable (_ ≠ _))

instance (r : Device) : Decidable r.Hours24 := inferInstanceAs (Decidable (_ ≠ _))

/-- A field in its register. -/
def encode (r : Device) (n : Nat) : Byte :=
  if r.Binary then .ofNat 8 n else .ofNat 8 (n / 10 * 16 + n % 10)

/-- The hours in their register; in 12-hour form the top bit is PM. -/
def hourRegister (r : Device) (hour : Nat) : Byte :=
  if r.Hours24 then r.encode hour
  else r.encode (if hour % 12 = 0 then 12 else hour % 12) ||| if 12 ≤ hour then 0x80 else 0

/-- The register at an address, while the clock shows `c`. -/
def register (r : Device) (c : Clock) (addr : Byte) : Byte :=
  if addr = 0x00 then r.encode c.sec
  else if addr = 0x02 then r.encode c.min
  else if addr = 0x04 then r.hourRegister c.hour
  else if addr = 0x06 then r.encode (c.weekDay + 1)
  else if addr = 0x07 then r.encode c.day
  else if addr = 0x08 then r.encode (c.month + 1)
  else if addr = 0x09 then r.encode c.year
  else if addr = 0x0b then r.regB
  else r.other addr

end Device

end SeshOS.Rtc
