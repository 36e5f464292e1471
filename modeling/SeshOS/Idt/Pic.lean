/-
  The interrupt controllers and their set-up by `create_idt` (kernel/idt/idt.c).

  Two 8259s, the slave on line 2 of the master, and the keyboard controller on its line 1. A
  command with bit 4 set starts the initialization of a controller: it masks no line any more and
  forgets the requests it has latched, and the bytes for the data port that follow are its
  settings. A line requests when it rises, and that of the keyboard only falls when port `0x60` is
  read. So a scan code that waits there while the master is reset has lost its request, and none
  comes after it (`early`).

  `create_idt` leaves the same settings whatever the controllers were doing, and whatever
  interrupts are requested meanwhile (`create_idt_sets_up`).

  Left out are spurious interrupts, the mouse's bytes on port `0x60`, and that the keyboard's queue
  is full some time.
-/
import SeshOS.Rtc.GetTime

namespace SeshOS.Idt

open Base
open Rtc (PortAccess Answer)

/-! ## interrupts.h and idt.c -/

def mastrPicCmndPort : Nat := 0x20
def slavePicCmndPort : Nat := 0xA0
def mastrPicDataPort : Nat := 0x21
def slavePicDataPort : Nat := 0xA1

def icw1Init : Byte := 0x10
def icw1Icw4 : Byte := 0x01
def icw48086 : Byte := 0x01
def picEoi : Byte := 0x20

def outb (port : Nat) (value : Byte) : Prog PortAccess Answer Unit := .op (.outb port value) .ret

def inb (port : Nat) : Prog PortAccess Answer Byte := .op (.inb port) .ret

def ioWait : Prog PortAccess Answer Unit := outb 0x80 0

def remapInterruptsForIo : Prog PortAccess Answer Unit := do
  let mastrDataValue ← inb mastrPicDataPort
  ioWait
  let slaveDataValue ← inb slavePicDataPort
  ioWait
  outb mastrPicCmndPort (icw1Init ||| icw1Icw4)
  ioWait
  outb slavePicCmndPort (icw1Init ||| icw1Icw4)
  ioWait
  outb mastrPicDataPort 0x20
  ioWait
  outb slavePicDataPort 0x28
  ioWait
  outb mastrPicDataPort 4
  ioWait
  outb slavePicDataPort 2
  ioWait
  outb mastrPicDataPort icw48086
  ioWait
  outb slavePicDataPort icw48086
  ioWait
  outb mastrPicDataPort mastrDataValue
  ioWait
  outb slavePicDataPort slaveDataValue
  ioWait

/-- `create_idt` behind `lidt`, up to `sti`. -/
def createIdtPorts : Prog PortAccess Answer Unit := do
  remapInterruptsForIo
  outb mastrPicDataPort 0b11111001
  outb slavePicDataPort 0b11101111

/-! ## An 8259 -/

/-- What the next byte for the data port is. -/
inductive Stage where
  | ready
  | icw2 (single ic4 : Bool)
  | icw3 (ic4 : Bool)
  | icw4
deriving DecidableEq

structure Settings where
  stage : Stage
  imr : Byte
  offset : Byte
  cascade : Byte
  mode : Byte
deriving DecidableEq

/-- With the requests latched and the interrupts in service, a bit for each line. -/
structure Pic where
  settings : Settings
  irr : Byte
  isr : Byte

/-- A byte for the command port. -/
def Settings.command (s : Settings) (v : Byte) : Settings :=
  if v.getLsbD 4 then
    { s with
      stage := .icw2 (v.getLsbD 1) (v.getLsbD 0)
      imr := 0
      mode := if v.getLsbD 0 then s.mode else 0 }
  else s

/-- A byte for the data port. -/
def Settings.data (s : Settings) (v : Byte) : Settings :=
  match s.stage with
  | .ready => { s with imr := v }
  | .icw2 single ic4 =>
    { s with
      offset := v &&& 0xF8
      stage := if !single then .icw3 ic4 else if ic4 then .icw4 else .ready }
  | .icw3 ic4 => { s with cascade := v, stage := if ic4 then .icw4 else .ready }
  | .icw4 => { s with mode := v, stage := .ready }

/-- The end of the interrupt with the highest priority: the lowest bit. -/
def endOfInterrupt (isr : Byte) : Byte := isr &&& (isr - 1)

/-- Whether an initialization ends what is in service is left open, and so is what the other ends
    of interrupt do. -/
def Pic.Command (v : Byte) (p p' : Pic) : Prop :=
  p'.settings = p.settings.command v ∧
    if v.getLsbD 4 then p'.irr = 0 ∧ (p'.isr = p.isr ∨ p'.isr = 0)
    else p'.irr = p.irr ∧ (v = picEoi → p'.isr = endOfInterrupt p.isr)

def Pic.data (v : Byte) (p : Pic) : Pic := { p with settings := p.settings.data v }

/-! ## The devices -/

/-- `waiting` are the scan codes for port `0x60`, `taken` those that have been read from it and
    `sent` all that there have been; `early` says that one was waiting when the master was last
    reset. -/
structure Devices where
  master : Pic
  slave : Pic
  waiting : List Byte
  taken : List Byte
  sent : List Byte
  early : Bool

/-- Line 1 of the master. -/
def keyboardLine : Byte := 0b10

def Pic.raise (p : Pic) (lines : Byte) : Pic := { p with irr := p.irr ||| lines }

/-- A scan code comes from the keyboard. The line rises unless it is up. -/
def Devices.key (w : Devices) (b : Byte) : Devices :=
  { w with
    master := if w.waiting = [] then w.master.raise keyboardLine else w.master
    waiting := w.waiting ++ [b]
    sent := w.sent ++ [b] }

/-- The line falls, and rises again for the next scan code. -/
def Devices.take (w : Devices) (b : Byte) (rest : List Byte) : Devices :=
  { w with
    master := if rest = [] then { w.master with irr := w.master.irr &&& ~~~keyboardLine }
      else w.master.raise keyboardLine
    waiting := rest
    taken := w.taken ++ [b] }

/-- What the devices do on their own. A line of the master other than the keyboard's and the
    slave's, or any line of the slave, may rise at any time. -/
inductive Devices.Tick (w : Devices) : Devices → Prop
  | key (b : Byte) : Tick w (w.key b)
  | master (lines : Byte) (hkeyboard : lines.getLsbD 1 = false) (hslave : lines.getLsbD 2 = false) :
      Tick w { w with master := w.master.raise lines }
  | slave (lines : Byte) : Tick w { w with slave := w.slave.raise lines }

/-- The data port of a controller can be read when it is ready. -/
def Pic.Reads (p : Pic) (x : Byte) : Prop := p.settings.stage = .ready → x = p.settings.imr

def devicesWorld : World PortAccess Answer Devices where
  exec
    | .outb port v, w, _, w' =>
      if port = mastrPicCmndPort then
        ∃ p, w.master.Command v p ∧ w' = { w with
          master := p
          early := if v.getLsbD 4 then !w.waiting.isEmpty else w.early }
      else if port = slavePicCmndPort then ∃ p, w.slave.Command v p ∧ w' = { w with slave := p }
      else if port = mastrPicDataPort then w' = { w with master := w.master.data v }
      else if port = slavePicDataPort then w' = { w with slave := w.slave.data v }
      else w' = w
    | .inb port, w, x, w' =>
      if port = 0x60 then
        match w.waiting with
        | [] => w' = w
        | b :: rest => x = b ∧ w' = w.take b rest
      else
        (port = mastrPicDataPort → w.master.Reads x) ∧ (port = slavePicDataPort → w.slave.Reads x) ∧
          w' = w
  tick := Devices.Tick

/-! ## One way to answer -/

/-- A controller that leaves in service what an initialization finds there. -/
def Pic.commanded (v : Byte) (p : Pic) : Pic where
  settings := p.settings.command v
  irr := if v.getLsbD 4 then 0 else p.irr
  isr := if v.getLsbD 4 then p.isr else if v = picEoi then endOfInterrupt p.isr else p.isr

theorem commanded_command (v : Byte) (p : Pic) : p.Command v (p.commanded v) := by
  refine ⟨rfl, ?_⟩
  unfold Pic.commanded
  dsimp only
  split
  · exact ⟨rfl, Or.inl rfl⟩
  · exact ⟨rfl, fun h => if_pos h⟩

def respond : (i : PortAccess) → Devices → Answer i × Devices
  | .outb port v, w =>
    ((),
      if port = mastrPicCmndPort then
        { w with
          master := w.master.commanded v
          early := if v.getLsbD 4 then !w.waiting.isEmpty else w.early }
      else if port = slavePicCmndPort then { w with slave := w.slave.commanded v }
      else if port = mastrPicDataPort then { w with master := w.master.data v }
      else if port = slavePicDataPort then { w with slave := w.slave.data v }
      else w)
  | .inb port, w =>
    if port = 0x60 then
      match w.waiting with
      | [] => (0, w)
      | b :: rest => (b, w.take b rest)
    else (if port = mastrPicDataPort then w.master.settings.imr else w.slave.settings.imr, w)

theorem respond_exec (i : PortAccess) (w : Devices) :
    devicesWorld.exec i w (respond i w).1 (respond i w).2 := by
  cases i with
  | outb port v =>
    unfold devicesWorld respond
    dsimp only
    by_cases hmaster : port = mastrPicCmndPort
    · rw [if_pos hmaster, if_pos hmaster]
      exact ⟨_, commanded_command v w.master, rfl⟩
    · by_cases hslave : port = slavePicCmndPort
      · rw [if_neg hmaster, if_neg hmaster, if_pos hslave, if_pos hslave]
        exact ⟨_, commanded_command v w.slave, rfl⟩
      · rw [if_neg hmaster, if_neg hmaster, if_neg hslave, if_neg hslave]
        split
        · rfl
        · split <;> rfl
  | inb port =>
    unfold devicesWorld respond
    dsimp only
    by_cases hport : port = 0x60
    · rw [if_pos hport, if_pos hport]
      cases w.waiting with
      | nil => rfl
      | cons b rest => exact ⟨rfl, rfl⟩
    · rw [if_neg hport, if_neg hport]
      refine ⟨fun hmaster _ => if_pos hmaster, fun hslave _ => if_neg ?_, rfl⟩
      rw [hslave]
      decide

/-- The devices as a boot loader may leave them: every line masked, and `waiting` in the keyboard
    controller. -/
def maskedDevices (waiting : List Byte) : Devices where
  master := ⟨⟨.ready, 0xFF, 0x08, 4, 1⟩, 0, 0⟩
  slave := ⟨⟨.ready, 0xFF, 0x70, 2, 1⟩, 0, 0⟩
  waiting := waiting
  taken := []
  sent := waiting
  early := false

/-- The devices behind the set-up. -/
def upDevices (waiting : List Byte) : Devices :=
  { maskedDevices waiting with
    master := ⟨⟨.ready, 0b11111001, 0x20, 4, 1⟩, 0, 0⟩
    slave := ⟨⟨.ready, 0b11101111, 0x28, 2, 1⟩, 0, 0⟩
    early := !waiting.isEmpty }

theorem reach_upDevices (waiting : List Byte) : Reach devicesWorld
    (createIdtPorts, maskedDevices waiting) (.ret (), upDevices waiting) :=
  reach_drive (fun i w => ⟨w, Relation.ReflTransGen.refl, respond_exec i w⟩) 26 _

/-! ## What is kept -/

/-- Unless a request has been lost, line 1 requests as long as a scan code waits. -/
def Linked (w : Devices) : Prop :=
  if w.early then w.waiting ≠ [] ∧ w.master.irr.getLsbD 1 = false
  else w.master.irr.getLsbD 1 = true ↔ w.waiting ≠ []

theorem Linked.tick {w w' : Devices} (h : Linked w) (ht : w.Tick w') : Linked w' := by
  unfold Linked at h ⊢
  cases ht with
  | key b =>
    cases hearly : w.early with
    | true =>
      rw [hearly, if_pos rfl] at h
      have hmaster : (w.key b).master = w.master := if_neg h.1
      rw [show (w.key b).early = true from hearly, if_pos rfl, hmaster]
      exact ⟨List.append_ne_nil_of_right_ne_nil _ (List.cons_ne_nil b []), h.2⟩
    | false =>
      rw [hearly, if_neg Bool.false_ne_true] at h
      rw [show (w.key b).early = false from hearly, if_neg Bool.false_ne_true]
      have hwaiting : (w.key b).waiting ≠ [] :=
        List.append_ne_nil_of_right_ne_nil _ (List.cons_ne_nil b [])
      refine iff_of_true ?_ hwaiting
      by_cases hempty : w.waiting = []
      · have hmaster : (w.key b).master = w.master.raise keyboardLine := if_pos hempty
        rw [hmaster, Pic.raise, keyboardLine]
        simp
      · have hmaster : (w.key b).master = w.master := if_neg hempty
        rw [hmaster]
        exact h.mpr hempty
  | master lines hkeyboard hslave =>
    have hirr : (w.master.raise lines).irr.getLsbD 1 = w.master.irr.getLsbD 1 := by
      rw [Pic.raise, BitVec.getLsbD_or, hkeyboard, Bool.or_false]
    rwa [hirr]
  | slave lines => exact h

/-- A scan code changes nothing of the master but a request. -/
theorem key_master (w : Devices) (b : Byte) : (w.key b).master.settings = w.master.settings ∧
    (w.key b).master.isr = w.master.isr := by
  unfold Devices.key
  dsimp only
  split <;> exact ⟨rfl, rfl⟩

/-- How far the set-up has come, from the devices `w₀`: the settings, and whether the master has
    been reset. -/
structure SettingUp (w₀ : Devices) (reset : Bool) (m s : Settings) (w : Devices) : Prop where
  master : w.master.settings = m
  slave : w.slave.settings = s
  quiet : w.master.isr = 0 ∧ w.slave.isr = 0
  untaken : w.taken = [] ∧ w.sent = w.waiting
  waited : w₀.waiting ≠ [] → w.waiting ≠ []
  linked : reset = true → Linked w
  early : reset = true → w₀.waiting ≠ [] → w.early = true

theorem SettingUp.start {w : Devices} (hquiet : w.master.isr = 0 ∧ w.slave.isr = 0)
    (huntaken : w.taken = [] ∧ w.sent = w.waiting) :
    SettingUp w false w.master.settings w.slave.settings w :=
  ⟨rfl, rfl, hquiet, huntaken, id, fun h => absurd h Bool.false_ne_true,
    fun h => absurd h Bool.false_ne_true⟩

theorem stable_settingUp (w₀ : Devices) (reset : Bool) (m s : Settings) :
    Stable devicesWorld (SettingUp w₀ reset m s) := by
  rintro w w' ⟨hmaster, hslave, hquiet, huntaken, hwaited, hlinked, hearly⟩ ht
  have hlinked' := fun h => (hlinked h).tick ht
  cases ht with
  | key b =>
    obtain ⟨hsettings, hisr⟩ := key_master w b
    refine ⟨hsettings.trans hmaster, hslave, ⟨hisr.trans hquiet.1, hquiet.2⟩,
      ⟨huntaken.1, ?_⟩, fun _ => ?_, hlinked', hearly⟩
    · show w.sent ++ [b] = w.waiting ++ [b]
      rw [huntaken.2]
    · exact List.append_ne_nil_of_right_ne_nil _ (List.cons_ne_nil b [])
  | master lines _ _ => exact ⟨hmaster, hslave, hquiet, huntaken, hwaited, hlinked', hearly⟩
  | slave lines => exact ⟨hmaster, hslave, hquiet, huntaken, hwaited, hlinked', hearly⟩

/-! ## The set-up -/

section SetUp

variable {w₀ : Devices} {reset : Bool} {m s : Settings}

/-- A reset of the master. -/
theorem triple_resetMaster {v : Byte} (hv : v.getLsbD 4 = true) :
    Triple devicesWorld (fun _ _ => True) (SettingUp w₀ reset m s) (outb mastrPicCmndPort v)
      fun _ => SettingUp w₀ true (m.command v) s := by
  refine triple_issue (stable_settingUp _ _ _ _) (fun _ => stable_settingUp _ _ _ _)
    (fun _ _ => trivial) ?_
  rintro w x w' ⟨hmaster, hslave, hquiet, huntaken, hwaited, -, -⟩ hexec
  obtain ⟨p, ⟨hsettings, hcommand⟩, rfl⟩ := hexec
  rw [if_pos hv] at hcommand
  obtain ⟨hirr, hisr⟩ := hcommand
  have hisr0 : p.isr = 0 := by
    rcases hisr with hisr | hisr
    · rw [hisr, hquiet.1]
    · exact hisr
  refine ⟨hsettings.trans (congrArg (Settings.command · v) hmaster), hslave, ⟨hisr0, hquiet.2⟩,
    huntaken, hwaited, fun _ => ?_, fun _ hwait => ?_⟩
  · unfold Linked
    dsimp only
    rw [if_pos hv, hirr]
    cases hlist : w.waiting with
    | nil => exact iff_of_false (by decide) (not_not.mpr rfl)
    | cons b rest => exact ⟨List.cons_ne_nil b rest, by decide⟩
  · dsimp only
    rw [if_pos hv]
    cases hlist : w.waiting with
    | nil => exact absurd hlist (hwaited hwait)
    | cons b rest => rfl

theorem triple_resetSlave {v : Byte} (hv : v.getLsbD 4 = true) :
    Triple devicesWorld (fun _ _ => True) (SettingUp w₀ reset m s) (outb slavePicCmndPort v)
      fun _ => SettingUp w₀ reset m (s.command v) := by
  refine triple_issue (stable_settingUp _ _ _ _) (fun _ => stable_settingUp _ _ _ _)
    (fun _ _ => trivial) ?_
  rintro w x w' ⟨hmaster, hslave, hquiet, huntaken, hwaited, hlinked, hearly⟩ hexec
  obtain ⟨p, ⟨hsettings, hcommand⟩, rfl⟩ := hexec
  rw [if_pos hv] at hcommand
  have hisr0 : p.isr = 0 := by
    rcases hcommand.2 with hisr | hisr
    · rw [hisr, hquiet.2]
    · exact hisr
  exact ⟨hmaster, hsettings.trans (congrArg (Settings.command · v) hslave), ⟨hquiet.1, hisr0⟩,
    huntaken, hwaited, hlinked, hearly⟩

theorem triple_masterData (v : Byte) :
    Triple devicesWorld (fun _ _ => True) (SettingUp w₀ reset m s) (outb mastrPicDataPort v)
      fun _ => SettingUp w₀ reset (m.data v) s := by
  refine triple_issue (stable_settingUp _ _ _ _) (fun _ => stable_settingUp _ _ _ _)
    (fun _ _ => trivial) ?_
  rintro w x w' ⟨hmaster, hslave, hquiet, huntaken, hwaited, hlinked, hearly⟩ rfl
  exact ⟨congrArg (Settings.data · v) hmaster, hslave, hquiet, huntaken, hwaited, hlinked, hearly⟩

theorem triple_slaveData (v : Byte) :
    Triple devicesWorld (fun _ _ => True) (SettingUp w₀ reset m s) (outb slavePicDataPort v)
      fun _ => SettingUp w₀ reset m (s.data v) := by
  refine triple_issue (stable_settingUp _ _ _ _) (fun _ => stable_settingUp _ _ _ _)
    (fun _ _ => trivial) ?_
  rintro w x w' ⟨hmaster, hslave, hquiet, huntaken, hwaited, hlinked, hearly⟩ rfl
  exact ⟨hmaster, congrArg (Settings.data · v) hslave, hquiet, huntaken, hwaited, hlinked, hearly⟩

theorem triple_ioWait :
    Triple devicesWorld (fun _ _ => True) (SettingUp w₀ reset m s) ioWait
      fun _ => SettingUp w₀ reset m s := by
  refine triple_issue (stable_settingUp _ _ _ _) (fun _ => stable_settingUp _ _ _ _)
    (fun _ _ => trivial) ?_
  rintro w x w' hw rfl
  exact hw

theorem triple_inb {port : Nat} (hport : port ≠ 0x60) :
    Triple devicesWorld (fun _ _ => True) (SettingUp w₀ reset m s) (inb port)
      fun _ => SettingUp w₀ reset m s := by
  refine triple_issue (stable_settingUp _ _ _ _) (fun _ => stable_settingUp _ _ _ _)
    (fun _ _ => trivial) ?_
  intro w x w' hw hexec
  have hsame : w' = w := by
    have h : (if port = 0x60 then _ else _ : Prop) := hexec
    rw [if_neg hport] at h
    exact h.2.2
  rwa [hsame]

/-- What `create_idt` makes of the settings. -/
def masterSettings : Settings := ⟨.ready, 0b11111001, 0x20, 4, 1⟩
def slaveSettings : Settings := ⟨.ready, 0b11101111, 0x28, 2, 1⟩

/-- The initialization words, from any stage. -/
theorem master_words (m : Settings) (v : Byte) :
    (((((m.command (icw1Init ||| icw1Icw4)).data 0x20).data 4).data icw48086).data v) =
      { masterSettings with imr := v } := rfl

theorem slave_words (s : Settings) (v : Byte) :
    (((((s.command (icw1Init ||| icw1Icw4)).data 0x28).data 2).data icw48086).data v) =
      { slaveSettings with imr := v } := rfl

/-- The masks that `remap_interrupts_for_io` writes are those that it has read. -/
theorem triple_remap :
    Triple devicesWorld (fun _ _ => True) (SettingUp w₀ false m s) remapInterruptsForIo
      fun _ w => ∃ x y, SettingUp w₀ true { masterSettings with imr := x }
        { slaveSettings with imr := y } w := by
  refine triple_bind (triple_inb (by decide)) fun mastrDataValue => ?_
  refine triple_bind triple_ioWait fun _ => triple_bind (triple_inb (by decide)) fun slaveDataValue => ?_
  refine triple_bind triple_ioWait fun _ => triple_bind (triple_resetMaster rfl) fun _ => ?_
  refine triple_bind triple_ioWait fun _ => triple_bind (triple_resetSlave rfl) fun _ => ?_
  refine triple_bind triple_ioWait fun _ => triple_bind (triple_masterData _) fun _ => ?_
  refine triple_bind triple_ioWait fun _ => triple_bind (triple_slaveData _) fun _ => ?_
  refine triple_bind triple_ioWait fun _ => triple_bind (triple_masterData _) fun _ => ?_
  refine triple_bind triple_ioWait fun _ => triple_bind (triple_slaveData _) fun _ => ?_
  refine triple_bind triple_ioWait fun _ => triple_bind (triple_masterData _) fun _ => ?_
  refine triple_bind triple_ioWait fun _ => triple_bind (triple_slaveData _) fun _ => ?_
  refine triple_bind triple_ioWait fun _ => triple_bind (triple_masterData _) fun _ => ?_
  refine triple_bind triple_ioWait fun _ => triple_bind (triple_slaveData _) fun _ => ?_
  refine triple_weaken triple_ioWait (fun _ hw => hw) fun _ w hw => ?_
  rw [master_words, slave_words] at hw
  exact ⟨mastrDataValue, slaveDataValue, hw⟩

theorem triple_createIdtPorts :
    Triple devicesWorld (fun _ _ => True) (SettingUp w₀ false m s) createIdtPorts
      fun _ => SettingUp w₀ true masterSettings slaveSettings := by
  refine triple_bind triple_remap fun _ => ?_
  rintro w ⟨x, y, hw⟩
  exact triple_bind (triple_masterData _) (fun _ => triple_slaveData _) w hw

/-- From the devices as they are found, with nothing in service and nothing read: whatever stage
    the controllers are in, and whatever comes while the set-up runs. -/
theorem create_idt_sets_up {w₀ w : Devices} (hquiet : w₀.master.isr = 0 ∧ w₀.slave.isr = 0)
    (huntaken : w₀.taken = [] ∧ w₀.sent = w₀.waiting)
    (hrun : Reach devicesWorld (createIdtPorts, w₀) (.ret (), w)) :
    w.master.settings = masterSettings ∧ w.slave.settings = slaveSettings ∧
      (w.master.isr = 0 ∧ w.slave.isr = 0) ∧ Linked w ∧ (w₀.waiting ≠ [] → w.early = true) := by
  have hend := wp_ret (wp_reach (triple_createIdtPorts w₀ (.start hquiet huntaken)) hrun)
  exact ⟨hend.master, hend.slave, hend.quiet, hend.linked rfl, hend.early rfl⟩

theorem create_idt_sets_up_waiting :
    (upDevices [0x1E]).master.settings = masterSettings ∧
      (upDevices [0x1E]).slave.settings = slaveSettings ∧
      ((upDevices [0x1E]).master.isr = 0 ∧ (upDevices [0x1E]).slave.isr = 0) ∧
      Linked (upDevices [0x1E]) ∧
      ((maskedDevices [0x1E]).waiting ≠ [] → (upDevices [0x1E]).early = true) :=
  create_idt_sets_up ⟨rfl, rfl⟩ ⟨rfl, rfl⟩ (reach_upDevices [0x1E])

end SetUp

end SeshOS.Idt
