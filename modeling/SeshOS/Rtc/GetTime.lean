/-
  `GetTime` (kernel/time.c) against a clock that is updated while it is read.

  The seven fields are read one after the other, each at its own moment: `getTime_run` says what
  a run returns, for every interleaving of the updates with the port accesses, and `getTime_reach`
  that the moments may be any in order. So the fields may come from different moments.
  `getTime_shown_iff` says when the time returned is nevertheless one the clock has shown.
-/
import SeshOS.Base.Prog
import SeshOS.Rtc.Clock

namespace SeshOS.Rtc

open Base

/-! ## time.c -/

def regSec : Byte := 0x00
def regMin : Byte := 0x02
def regHour : Byte := 0x04
def regWeekDay : Byte := 0x06
def regDay : Byte := 0x07
def regMonth : Byte := 0x08
def regYear : Byte := 0x09
def regB : Byte := 0x0b

def ioRtcIndex : Nat := 0x70
def ioRtcTarget : Nat := 0x71

/-- `REGB_DM`. -/
def regbDm : Byte := 4

/-- The port instructions of io.h. -/
inductive PortAccess where
  | outb (port : Nat) (value : Byte)
  | inb (port : Nat)

abbrev Answer : PortAccess → Type
  | .outb _ _ => Unit
  | .inb _ => Byte

def bcdToBin (val : Byte) : Byte := (val &&& 0xf) + (val >>> 4) * 10

def rtcRead (addr : Byte) : Prog PortAccess Answer Byte :=
  .op (.outb ioRtcIndex addr) fun _ => .op (.inb ioRtcTarget) .ret

/-- A field, by the data mode. -/
def converted (regb val : Byte) : Byte := if ~~~regb &&& regbDm ≠ 0 then bcdToBin val else val

/-- What `GetTime` makes of the registers. -/
def assembled (sec min hour weekDay day month year regb : Byte) : Time where
  sec := converted regb sec
  min := converted regb min
  hour := converted regb hour
  weekDay := weekDay - 1
  day := converted regb day
  month := converted regb month
  year := (converted regb year).setWidth 16 + 2000

def getTime : Prog PortAccess Answer Time := do
  let sec ← rtcRead regSec
  let min ← rtcRead regMin
  let hour ← rtcRead regHour
  let weekDay ← rtcRead regWeekDay
  let day ← rtcRead regDay
  let month ← rtcRead regMonth
  let year ← rtcRead regYear
  let regb ← rtcRead regB
  pure (assembled sec min hour weekDay day month year regb)

/-! ## The clock as the program meets it -/

/-- The updates so far, the register selected, and the moments (in updates) at which a register
    has been read. -/
structure Ports where
  updates : Nat
  index : Byte
  reads : List Nat

/-- A clock that shows `c` at first. -/
def rtcWorld (d : Device) (c : Clock) : World PortAccess Answer Ports where
  exec
    | .outb port v, w, _, w' => w' = if port = ioRtcIndex then { w with index := v } else w
    | .inb port, w, x, w' =>
      if port = ioRtcTarget then
        x = d.register (c.advance w.updates) w.index ∧
          w' = { w with reads := w.reads ++ [w.updates] }
      else w' = w
  tick w w' := w' = { w with updates := w.updates + 1 }

/-- When the eight registers are read. -/
structure Moments where
  sec : Nat
  min : Nat
  hour : Nat
  weekDay : Nat
  day : Nat
  month : Nat
  year : Nat
  regB : Nat
  ordered : sec ≤ min ∧ min ≤ hour ∧ hour ≤ weekDay ∧ weekDay ≤ day ∧ day ≤ month ∧
    month ≤ year ∧ year ≤ regB

def Moments.list (m : Moments) : List Nat :=
  [m.sec, m.min, m.hour, m.weekDay, m.day, m.month, m.year, m.regB]

theorem Moments.list_inj {m m' : Moments} (h : m.list = m'.list) : m = m' := by
  cases m
  cases m'
  simpa [Moments.list] using h

/-- What `GetTime` returns that reads the registers at these moments. -/
def readAt (d : Device) (c : Clock) (m : Moments) : Time :=
  assembled (d.register (c.advance m.sec) regSec) (d.register (c.advance m.min) regMin)
    (d.register (c.advance m.hour) regHour) (d.register (c.advance m.weekDay) regWeekDay)
    (d.register (c.advance m.day) regDay) (d.register (c.advance m.month) regMonth)
    (d.register (c.advance m.year) regYear) (d.register (c.advance m.regB) regB)

section Runs

variable {d : Device} {c : Clock} {α : Type}

theorem idle_iff {w w' : Ports} :
    Idle (rtcWorld d c) w w' ↔ ∃ k, w' = { w with updates := w.updates + k } := by
  constructor
  · intro h
    induction h with
    | refl => exact ⟨0, rfl⟩
    | tail _ ht ih =>
      obtain ⟨k, rfl⟩ := ih
      exact ⟨k + 1, ht⟩
  · rintro ⟨k, rfl⟩
    induction k with
    | zero => exact Relation.ReflTransGen.refl
    | succ k ih => exact ih.tail rfl

/-- A register is read at a moment of its own. -/
theorem wp_rtcRead {addr : Byte} {f : Byte → Prog PortAccess Answer α} {Q : α → Ports → Prop}
    {w : Ports} (h : ∀ n w', w.updates ≤ n → w'.updates = n → w'.reads = w.reads ++ [n] →
      wp (rtcWorld d c) (fun _ _ => True) (f (d.register (c.advance n) addr)) Q w') :
    wp (rtcWorld d c) (fun _ _ => True) (rtcRead addr >>= f) Q w := by
  intro w₁ h₁
  obtain ⟨k, rfl⟩ := idle_iff.mp h₁
  refine ⟨trivial, fun _ w₂ h₂ => ?_⟩
  obtain rfl : w₂ = ⟨w.updates + k, addr, w.reads⟩ := h₂
  intro w₃ h₃
  obtain ⟨l, rfl⟩ := idle_iff.mp h₃
  refine ⟨trivial, fun x w₄ h₄ => ?_⟩
  obtain ⟨rfl, rfl⟩ : x = d.register (c.advance (w.updates + k + l)) addr ∧
      w₄ = ⟨w.updates + k + l, addr, w.reads ++ [w.updates + k + l]⟩ := h₄
  exact h _ _ (by omega) rfl rfl

/-- And at any moment to come. -/
theorem reach_rtcRead (addr : Byte) (f : Byte → Prog PortAccess Answer α) (w : Ports) {n : Nat}
    (h : w.updates ≤ n) : Reach (rtcWorld d c) (rtcRead addr >>= f, w)
      (f (d.register (c.advance n) addr), ⟨n, addr, w.reads ++ [n]⟩) := by
  have hidle : Idle (rtcWorld d c) w ⟨n, w.index, w.reads⟩ :=
    idle_iff.mpr ⟨n - w.updates, by rw [Nat.add_sub_cancel' h]⟩
  have hout : (rtcWorld d c).exec (.outb ioRtcIndex addr) ⟨n, w.index, w.reads⟩ ()
      ⟨n, addr, w.reads⟩ := rfl
  have hin : (rtcWorld d c).exec (.inb ioRtcTarget) ⟨n, addr, w.reads⟩
      (d.register (c.advance n) addr) ⟨n, addr, w.reads ++ [n]⟩ := ⟨rfl, rfl⟩
  exact (reach_idle hidle).trans
    ((Relation.ReflTransGen.single (Step.issue hout)).tail (Step.issue hin))

/-- What a run returns is read at the moments it has recorded. -/
theorem getTime_run {index : Byte} {t : Time} {w : Ports}
    (h : Reach (rtcWorld d c) (getTime, ⟨0, index, []⟩) (.ret t, w)) :
    ∃ m : Moments, w.reads = m.list ∧ t = readAt d c m := by
  have hwp : wp (rtcWorld d c) (fun _ _ => True) getTime
      (fun t w => ∃ m : Moments, w.reads = m.list ∧ t = readAt d c m) ⟨0, index, []⟩ := by
    refine wp_rtcRead fun n₁ w₁ _ h₁ r₁ => wp_rtcRead fun n₂ w₂ l₂ h₂ r₂ =>
      wp_rtcRead fun n₃ w₃ l₃ h₃ r₃ => wp_rtcRead fun n₄ w₄ l₄ h₄ r₄ =>
      wp_rtcRead fun n₅ w₅ l₅ h₅ r₅ => wp_rtcRead fun n₆ w₆ l₆ h₆ r₆ =>
      wp_rtcRead fun n₇ w₇ l₇ h₇ r₇ => wp_rtcRead fun n₈ w₈ l₈ h₈ r₈ => ?_
    intro w₉ hidle
    obtain ⟨k, rfl⟩ := idle_iff.mp hidle
    refine ⟨⟨n₁, n₂, n₃, n₄, n₅, n₆, n₇, n₈, by omega⟩, ?_, rfl⟩
    simp only [r₁, r₂, r₃, r₄, r₅, r₆, r₇, r₈]
    rfl
  exact wp_ret (wp_reach hwp h)

/-- Every choice of moments is that of a run. -/
theorem getTime_reach (index : Byte) (m : Moments) :
    Reach (rtcWorld d c) (getTime, ⟨0, index, []⟩)
      (.ret (readAt d c m), ⟨m.regB, regB, m.list⟩) := by
  obtain ⟨h₁, h₂, h₃, h₄, h₅, h₆, h₇⟩ := m.ordered
  exact (reach_rtcRead _ _ _ (Nat.zero_le m.sec)).trans <| (reach_rtcRead _ _ _ h₁).trans <|
    (reach_rtcRead _ _ _ h₂).trans <| (reach_rtcRead _ _ _ h₃).trans <|
    (reach_rtcRead _ _ _ h₄).trans <| (reach_rtcRead _ _ _ h₅).trans <|
    (reach_rtcRead _ _ _ h₆).trans <| reach_rtcRead _ _ _ h₇

end Runs

/-! ## What the registers are read as -/

theorem bcdToBin_bcd : ∀ n < 100, bcdToBin (.ofNat 8 (n / 10 * 16 + n % 10)) = .ofNat 8 n := by
  decide

theorem regbDm_clear_iff (d : Device) : ~~~d.regB &&& regbDm ≠ 0 ↔ ¬ d.Binary := by
  have hbit : ∀ b : Byte, ~~~b &&& 4 ≠ 0 ↔ ¬ b &&& 4 ≠ 0 := by decide
  exact hbit d.regB

/-- A field is read as it was encoded, in either data mode. -/
theorem converted_encode (d : Device) {n : Nat} (h : n < 100) :
    converted d.regB (d.encode n) = .ofNat 8 n := by
  unfold converted Device.encode
  by_cases hbin : d.Binary
  · rw [if_neg ((regbDm_clear_iff d).not.mpr (not_not.mpr hbin)), if_pos hbin]
  · rw [if_pos ((regbDm_clear_iff d).mpr hbin), if_neg hbin, bcdToBin_bcd n h]

/-- What `GetTime` takes the hours for. -/
def Device.hourRead (d : Device) (hour : Nat) : Byte := converted d.regB (d.hourRegister hour)

theorem hourRead_hours24 {d : Device} (h : d.Hours24) {hour : Nat} (hlt : hour < 24) :
    d.hourRead hour = .ofNat 8 hour := by
  rw [Device.hourRead, Device.hourRegister, if_pos h, converted_encode d (by omega)]

theorem weekDay_encode (d : Device) {n : Nat} (h : n < 7) :
    d.encode (n + 1) - 1 = .ofNat 8 n := by
  have hbcd : (n + 1) / 10 * 16 + (n + 1) % 10 = n + 1 := by omega
  unfold Device.encode
  rw [hbcd, ite_self, BitVec.ofNat_add]
  exact BitVec.add_sub_cancel _ _

/-- What `GetTime` returns, field by field. -/
theorem readAt_eq (d : Device) (c : Clock) (m : Moments) :
    readAt d c m =
      { sec := .ofNat 8 (c.advance m.sec).sec
        min := .ofNat 8 (c.advance m.min).min
        hour := d.hourRead (c.advance m.hour).hour
        weekDay := .ofNat 8 (c.advance m.weekDay).weekDay
        day := .ofNat 8 (c.advance m.day).day
        month := .ofNat 8 ((c.advance m.month).month + 1)
        year := .ofNat 16 (2000 + (c.advance m.year).year) } := by
  have hread : ∀ n < 100, converted d.regB (d.encode n) = .ofNat 8 n := fun n hn =>
    converted_encode d hn
  have hyear : ∀ n < 100, (BitVec.ofNat 8 n).setWidth 16 + 2000 = .ofNat 16 (2000 + n) := by
    decide
  -- the registers by their addresses
  change assembled (d.encode _) (d.encode _) (d.hourRegister _) (d.encode _) (d.encode _)
    (d.encode _) (d.encode _) d.regB = _
  unfold assembled
  rw [hread _ (by omega), hread _ (by omega), weekDay_encode d (Fin.isLt _),
    hread _ ((c.advance m.day).day_lt.trans (by decide)), hread _ (by omega),
    hread _ (by omega), hyear _ (by omega)]
  rfl

/-! ## Torn times -/

/-- The time returned is one the clock showed between the first and the last of the reads. -/
def ShownBetween (c : Clock) (m : Moments) (t : Time) : Prop :=
  ∃ s, m.sec ≤ s ∧ s ≤ m.regB ∧ t = (c.advance s).time

/-- Every field that is read after the seconds is read as what it is at the moment `s`. -/
structure Untorn (d : Device) (c : Clock) (m : Moments) (s : Nat) : Prop where
  min : (c.advance m.min).min = (c.advance s).min
  hour : d.hourRead (c.advance m.hour).hour = .ofNat 8 (c.advance s).hour
  weekDay : (c.advance m.weekDay).weekDay = (c.advance s).weekDay
  day : (c.advance m.day).day = (c.advance s).day
  month : (c.advance m.month).month = (c.advance s).month
  year : (c.advance m.year).year = (c.advance s).year

theorem ofNat_eq_iff {w a b : Nat} (ha : a < 2 ^ w) (hb : b < 2 ^ w) :
    BitVec.ofNat w a = BitVec.ofNat w b ↔ a = b := by
  rw [← BitVec.toNat_inj, BitVec.toNat_ofNat, BitVec.toNat_ofNat, Nat.mod_eq_of_lt ha,
    Nat.mod_eq_of_lt hb]

/-- The time read is the clock's at `s` exactly when the seconds are, and nothing is torn. -/
theorem readAt_eq_time_iff (d : Device) (c : Clock) (m : Moments) (s : Nat) :
    readAt d c m = (c.advance s).time ↔
      (c.sec + m.sec) % 60 = (c.sec + s) % 60 ∧ Untorn d c m s := by
  have hday : ∀ c : Clock, c.day < 2 ^ 8 := fun c => c.day_lt.trans (by decide)
  rw [readAt_eq, Clock.time, Time.mk.injEq, ofNat_eq_iff (by omega) (by omega),
    ofNat_eq_iff (by omega) (by omega), ofNat_eq_iff (by omega) (by omega),
    ofNat_eq_iff (hday _) (hday _), ofNat_eq_iff (by omega) (by omega),
    ofNat_eq_iff (by omega) (by omega), Clock.advance_sec, Clock.advance_sec]
  refine and_congr_right fun _ => ⟨?_, ?_⟩
  · rintro ⟨hmin, hhour, hweekDay, hday, hmonth, hyear⟩
    exact ⟨Fin.ext hmin, hhour, Fin.ext hweekDay, hday, Fin.ext (by omega), Fin.ext (by omega)⟩
  · rintro ⟨hmin, hhour, hweekDay, hday, hmonth, hyear⟩
    exact ⟨congrArg Fin.val hmin, hhour, congrArg Fin.val hweekDay, hday, by rw [hmonth],
      by rw [hyear]⟩

/-- A time with these seconds has been shown only whole minutes after they were read. -/
theorem shownBetween_readAt_iff (d : Device) (c : Clock) (m : Moments) :
    ShownBetween c m (readAt d c m) ↔
      ∃ q, m.sec + 60 * q ≤ m.regB ∧ Untorn d c m (m.sec + 60 * q) := by
  constructor
  · rintro ⟨s, hfirst, hlast, ht⟩
    obtain ⟨hsec, huntorn⟩ := (readAt_eq_time_iff d c m s).mp ht
    obtain ⟨q, rfl⟩ : ∃ q, s = m.sec + 60 * q := ⟨(s - m.sec) / 60, by omega⟩
    exact ⟨q, hlast, huntorn⟩
  · rintro ⟨q, hlast, huntorn⟩
    exact ⟨m.sec + 60 * q, by omega, hlast,
      (readAt_eq_time_iff d c m _).mpr ⟨by omega, huntorn⟩⟩

/-! ## Reads within a minute -/

/-- The minute in which the seconds were read is over by the moment `n`. -/
def Moments.Over (m : Moments) (c : Clock) (n : Nat) : Prop :=
  60 ≤ (c.advance m.sec).sec + (n - m.sec)

instance (m : Moments) (c : Clock) (n : Nat) : Decidable (m.Over c n) :=
  inferInstanceAs (Decidable (_ ≤ _))

/-- The hours are in a form that `GetTime` reads; and when the minute is over before a field is
    read, what it carries does not reach this field. -/
structure NoCarry (d : Device) (c : Clock) (m : Moments) : Prop where
  form : d.Hours24 ∨ 1 ≤ (c.advance m.sec).hour.val ∧ (c.advance m.sec).hour.val < 12
  min : ¬m.Over c m.min
  hour : m.Over c m.hour → (c.advance m.sec).min ≠ 59
  day : m.Over c m.day → ¬(c.advance m.sec).EndsDay
  month : m.Over c m.month → ¬(c.advance m.sec).EndsMonth
  year : m.Over c m.year → ¬(c.advance m.sec).EndsYear

/-- Of the hours of a minute and the next, none is read as the other one, and in 12-hour form
    those from 1 to 11 in the morning are read right. -/
theorem hourRead_eq_iff (d : Device) {a b : Fin 24} (hab : a = b ∨ a = b + 1) :
    d.hourRead a = .ofNat 8 b ↔ (d.Hours24 ∨ 1 ≤ b.val ∧ b.val < 12) ∧ a = b := by
  by_cases h24 : d.Hours24
  · rw [hourRead_hours24 h24 a.isLt, ofNat_eq_iff (by omega) (by omega), Fin.val_inj]
    exact (and_iff_right (Or.inl h24)).symm
  · rw [Device.hourRead, Device.hourRegister, if_neg h24, or_iff_right h24]
    unfold converted Device.encode
    by_cases hbin : d.Binary
    · rw [if_neg ((regbDm_clear_iff d).not.mpr (not_not.mpr hbin)), if_pos hbin]
      revert a b
      decide
    · rw [if_pos ((regbDm_clear_iff d).mpr hbin), if_neg hbin]
      revert a b
      decide

/-- A field at a moment less than a minute after the seconds were read. -/
theorem advance_later {α : Type} (f : Clock → α) (hf : ∀ c, f c.startOfMinute = f c)
    (c : Clock) (m : Moments) {n : Nat} (hfirst : m.sec ≤ n) (hlast : n < m.sec + 60) :
    f (c.advance n) =
      if m.Over c n then f (c.advance m.sec).nextMinute else f (c.advance m.sec) := by
  have hadd : c.advance n = (c.advance m.sec).advance (n - m.sec) := by
    rw [← Clock.advance_add, Nat.add_sub_cancel' hfirst]
  rw [hadd]
  exact Clock.advance_field f hf _ (by omega)

theorem untorn_iff_noCarry (d : Device) (c : Clock) {m : Moments}
    (hminute : m.regB < m.sec + 60) : Untorn d c m m.sec ↔ NoCarry d c m := by
  obtain ⟨h₁, h₂, h₃, h₄, h₅, h₆, h₇⟩ := m.ordered
  have hmin : (c.advance m.min).min = (c.advance m.sec).min ↔ ¬m.Over c m.min := by
    rw [advance_later Clock.min (fun _ => rfl) c m h₁ (by omega), ite_eq_right_iff]
    exact forall_congr' fun _ => iff_false_intro (Clock.nextMinute_min_ne _)
  have hhour : d.hourRead (c.advance m.hour).hour = .ofNat 8 (c.advance m.sec).hour ↔
      (d.Hours24 ∨ 1 ≤ (c.advance m.sec).hour.val ∧ (c.advance m.sec).hour.val < 12) ∧
        (m.Over c m.hour → (c.advance m.sec).min ≠ 59) := by
    have hlater := advance_later Clock.hour (fun _ => rfl) c m (h₁.trans h₂) (by omega)
    rw [hourRead_eq_iff, hlater, ite_eq_right_iff, Clock.nextMinute_hour_iff]
    rw [hlater, Clock.nextMinute_hour]
    split_ifs <;> simp
  have hweekDay : (c.advance m.weekDay).weekDay = (c.advance m.sec).weekDay ↔
      (m.Over c m.weekDay → ¬(c.advance m.sec).EndsDay) := by
    rw [advance_later Clock.weekDay (fun _ => rfl) c m (by omega) (by omega), ite_eq_right_iff,
      Clock.nextMinute_weekDay_iff]
  have hday : (c.advance m.day).day = (c.advance m.sec).day ↔
      (m.Over c m.day → ¬(c.advance m.sec).EndsDay) := by
    rw [advance_later Clock.day (fun _ => rfl) c m (by omega) (by omega), ite_eq_right_iff,
      Clock.nextMinute_day_iff]
  have hmonth : (c.advance m.month).month = (c.advance m.sec).month ↔
      (m.Over c m.month → ¬(c.advance m.sec).EndsMonth) := by
    rw [advance_later Clock.month (fun _ => rfl) c m (by omega) (by omega), ite_eq_right_iff,
      Clock.nextMinute_month_iff]
  have hyear : (c.advance m.year).year = (c.advance m.sec).year ↔
      (m.Over c m.year → ¬(c.advance m.sec).EndsYear) := by
    rw [advance_later Clock.year (fun _ => rfl) c m (by omega) (by omega), ite_eq_right_iff,
      Clock.nextMinute_year_iff]
  -- the day of the week is read before the day, and carried to with it
  have hbefore : m.Over c m.weekDay → m.Over c m.day := by
    unfold Moments.Over
    omega
  constructor
  · intro h
    exact ⟨(hhour.mp h.hour).1, hmin.mp h.min, (hhour.mp h.hour).2, hday.mp h.day,
      hmonth.mp h.month, hyear.mp h.year⟩
  · intro h
    exact ⟨hmin.mpr h.min, hhour.mpr ⟨h.form, h.hour⟩,
      hweekDay.mpr fun hover => h.day (hbefore hover), hday.mpr h.day, hmonth.mpr h.month,
      hyear.mpr h.year⟩

/-- When less than a minute passes, only the moment of the seconds remains. -/
theorem shownBetween_minute_iff (d : Device) (c : Clock) {m : Moments}
    (hminute : m.regB < m.sec + 60) :
    ShownBetween c m (readAt d c m) ↔ NoCarry d c m := by
  rw [← untorn_iff_noCarry d c hminute, shownBetween_readAt_iff]
  constructor
  · rintro ⟨q, hlast, huntorn⟩
    obtain rfl : q = 0 := by omega
    exact huntorn
  · intro huntorn
    obtain ⟨h₁, h₂, h₃, h₄, h₅, h₆, h₇⟩ := m.ordered
    exact ⟨0, by omega, huntorn⟩

/-- With the clock standing still and counting to 24, `GetTime` returns what it shows. -/
theorem readAt_still {d : Device} (c : Clock) {m : Moments} (h : d.Hours24)
    (hstill : m.regB = m.sec) : readAt d c m = (c.advance m.sec).time := by
  obtain ⟨n₁, n₂, n₃, n₄, n₅, n₆, n₇, n₈, h₁, h₂, h₃, h₄, h₅, h₆, h₇⟩ := m
  obtain ⟨rfl, rfl, rfl, rfl, rfl, rfl, rfl⟩ : n₁ = n₂ ∧ n₁ = n₃ ∧ n₁ = n₄ ∧ n₁ = n₅ ∧ n₁ = n₆ ∧
      n₁ = n₇ ∧ n₁ = n₈ := by
    dsimp only at hstill
    omega
  exact (readAt_eq_time_iff d c _ _).mpr
    ⟨rfl, rfl, hourRead_hours24 h (Fin.isLt _), rfl, rfl, rfl, rfl⟩

/-- For every clock and every interleaving of its updates with the port accesses: the time
    returned has been shown between the first and the last read exactly when there is a moment,
    whole minutes after the seconds were read, at which no later field is torn. When less than a
    minute passes, this is when no update carries into a field that is still to be read. -/
theorem getTime_shown_iff {d : Device} {c : Clock} {index : Byte} {t : Time} {w : Ports}
    (h : Reach (rtcWorld d c) (getTime, ⟨0, index, []⟩) (.ret t, w)) :
    ∃ m : Moments, w.reads = m.list ∧
      (ShownBetween c m t ↔ ∃ q, m.sec + 60 * q ≤ m.regB ∧ Untorn d c m (m.sec + 60 * q)) ∧
      (m.regB < m.sec + 60 → (ShownBetween c m t ↔ NoCarry d c m)) := by
  obtain ⟨m, hreads, rfl⟩ := getTime_run h
  exact ⟨m, hreads, shownBetween_readAt_iff d c m, shownBetween_minute_iff d c⟩

/-- A clock that counts to 24, in BCD. -/
def counting24 : Device := ⟨2, fun _ => 0⟩

/-- The update between the hours and the day of the week. -/
def afterHour : Moments := ⟨0, 0, 0, 1, 1, 1, 1, 1, by decide⟩

/-- It carries into the minutes and the hours, which have been read: 10:59:59 is returned. -/
theorem getTime_shown_carried :
    ∃ m : Moments, afterHour.list = m.list ∧
      ShownBetween beforeEleven m (readAt counting24 beforeEleven afterHour) := by
  obtain ⟨m, hreads, -, hminute⟩ :=
    getTime_shown_iff (getTime_reach (d := counting24) (c := beforeEleven) 0 afterHour)
  obtain rfl : afterHour = m := Moments.list_inj hreads
  exact ⟨afterHour, rfl, (hminute (by decide)).mpr
    ⟨by decide, by decide, by decide, by decide, by decide, by decide⟩⟩

/-- The update between the seconds and the minutes. -/
def afterSeconds : Moments := ⟨0, 1, 1, 1, 1, 1, 1, 1, by decide⟩

/-- The time returned is 11:00:59, which was never shown. -/
theorem hour_torn :
    ¬∀ (d : Device) (c : Clock) (index : Byte) (t : Time) (w : Ports),
      Reach (rtcWorld d c) (getTime, ⟨0, index, []⟩) (.ret t, w) →
      ∃ m : Moments, w.reads = m.list ∧ ShownBetween c m t := by
  intro h
  obtain ⟨m, hreads, s, hfirst, hlast, ht⟩ := h counting24 beforeEleven 0 _ _
    (getTime_reach 0 afterSeconds)
  obtain rfl : afterSeconds = m := Moments.list_inj hreads
  have hle : s ≤ 1 := hlast
  obtain rfl | rfl : s = 0 ∨ s = 1 := by omega
  · exact absurd ht (by decide)
  · exact absurd ht (by decide)

end SeshOS.Rtc
