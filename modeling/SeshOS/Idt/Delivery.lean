/-
  Keyboard interrupts from the line to the driver, over whole runs of the kernel.

  A run starts in `create_idt`; from `sti` on the processor takes what the controllers request,
  whenever no handler is running, since the gates are interrupt gates. `Keyboard_Handler` ends its
  interrupt twice: `HandleKeyboard` does it and then `PIC_EndMaster`. In every run both come while
  nothing but the keyboard's own interrupt can be in service (`interrupts_served`), and no scan
  code is lost, doubled or moved on its way to the driver.

  The other line that `create_idt` leaves unmasked is line 4 of the slave, and its vector has no
  entry in the table: that interrupt is the only one that makes the kernel panic. A scan code that
  came before the controllers were reset keeps all of its followers from being heard
  (`keyboard_heard_iff`).
-/
import SeshOS.Idt.Entries
import SeshOS.Idt.Pic
import SeshOS.UserInput.Interrupts

namespace SeshOS.Idt

open Base
open Rtc (PortAccess Answer)
open UserInput

/-! ## The table -/

/-- The handlers of interrupts.c. -/
inductive Handler where
  | pageFault
  | divideByZero
  | doubleFault
  | gpFault
  | keyboard
  | test
deriving DecidableEq

/-- The calls of `CreateEntry` in `create_idt`. -/
def createIdtCalls : List (Fin 256 × Handler) :=
  [(0xE, .pageFault), (0x0, .divideByZero), (0x8, .doubleFault), (0xD, .gpFault),
    (0x21, .keyboard), (0x69, .test)]

def gate (v : Fin 256) : Option Handler :=
  (createIdtCalls.filter (·.1 = v)).getLast?.map Prod.snd

/-- The entries in memory are the gates, for handlers at any addresses. -/
theorem gate_entries (p : IdtPage) {m : Mem} (hm : ∀ i < 4096, m (p.base + i) = 0)
    (address : Handler → BitVec 64) (v : Fin 256) :
    EntryIs (createEntries p.base ⟨m, []⟩ (createIdtCalls.map fun c => (c.1, address c.2))).mem
      (p.entry v) ((gate v).map address) := by
  have hlast : lastHandler (createIdtCalls.map fun c => (c.1, address c.2)) v =
      (gate v).map address := by
    rw [lastHandler, gate, List.filter_map, List.getLast?_map, Option.map_map, Option.map_map]
    rfl
  rw [← hlast]
  exact createEntries_entries p hm _ v

/-! ## Acknowledging -/

/-- The line with the highest priority of those that request, when it is not masked and nothing of
    its priority or a higher one is in service. -/
def Pic.pending (p : Pic) (requests : Byte) : Option (Fin 8) :=
  (List.finRange 8).find? fun k =>
    (requests &&& ~~~p.settings.imr).getLsbD k &&
      decide (p.isr &&& (BitVec.twoPow 8 k ||| (BitVec.twoPow 8 k - 1)) = 0)

/-- Line 2 of the master is the slave's. -/
def Devices.requests (w : Devices) : Byte :=
  (w.master.irr &&& ~~~0b100) |||
    if (w.slave.pending w.slave.irr).isSome then 0b100 else 0

/-- An interrupt is in service until it is ended, unless the mode ends it at once. -/
def Pic.accept (p : Pic) (k : Fin 8) : Pic :=
  { p with
    irr := p.irr &&& ~~~BitVec.twoPow 8 k
    isr := if p.settings.mode.getLsbD 1 then p.isr else p.isr ||| BitVec.twoPow 8 k }

def Pic.vector (p : Pic) (k : Fin 8) : Byte := p.settings.offset ||| BitVec.ofNat 8 k

/-- The vector that the processor is given. -/
def Devices.acknowledge (w : Devices) : Option (Byte × Devices) :=
  (w.master.pending w.requests).bind fun k =>
    if k = 2 then
      (w.slave.pending w.slave.irr).map fun j =>
        (w.slave.vector j, { w with master := w.master.accept k, slave := w.slave.accept j })
    else some (w.master.vector k, { w with master := w.master.accept k })

/-! ## The machine -/

/-- `Keyboard_Handler` on the ports: the byte of port `0x60`, and what the driver and
    `PIC_EndMaster` write. -/
def keyboardHandlerPorts (k : Keyboard) : Prog PortAccess Answer Keyboard := do
  let scancode ← inb 0x60
  Prog.walk (fun (port, value) => outb (BitVec.toNat port) value)
    ((keyboardHandler k scancode).ports.drop k.ports.length)
  pure (keyboardHandler k scancode)

/-- What the processor is doing: the set-up, anything with interrupts enabled, a handler, or the
    loop at the end of `panic`. -/
inductive Cpu where
  | setUp (p : Prog PortAccess Answer Unit)
  | kernel
  | handler (p : Prog PortAccess Answer Keyboard)
  | panicked (vector : Byte)

structure Machine where
  cpu : Cpu
  devices : Devices
  keyboard : Keyboard

/-- Where a vector leads. Without a gate there is a general protection fault, and its handler
    panics as those of the other faults do. -/
def enter (vector : Byte) (k : Keyboard) : Cpu :=
  match gate vector.toFin with
  | some .keyboard => .handler (keyboardHandlerPorts k)
  | some .test => .kernel
  | _ => .panicked vector

inductive Machine.Step : Machine → Machine → Prop
  | device {cpu : Cpu} {w w' : Devices} {k : Keyboard} (h : w.Tick w') :
      Step ⟨cpu, w, k⟩ ⟨cpu, w', k⟩
  | setUp {p p' : Prog PortAccess Answer Unit} {w w' : Devices} {k : Keyboard}
      (h : Base.Step devicesWorld (p, w) (p', w')) : Step ⟨.setUp p, w, k⟩ ⟨.setUp p', w', k⟩
  | sti {w : Devices} {k : Keyboard} : Step ⟨.setUp (.ret ()), w, k⟩ ⟨.kernel, w, k⟩
  | interrupt {w w' : Devices} {k : Keyboard} {vector : Byte}
      (h : w.acknowledge = some (vector, w')) : Step ⟨.kernel, w, k⟩ ⟨enter vector k, w', k⟩
  | handler {p p' : Prog PortAccess Answer Keyboard} {w w' : Devices} {k : Keyboard}
      (h : Base.Step devicesWorld (p, w) (p', w')) : Step ⟨.handler p, w, k⟩ ⟨.handler p', w', k⟩
  | iret {w : Devices} {k k' : Keyboard} : Step ⟨.handler (.ret k'), w, k⟩ ⟨.kernel, w, k'⟩

/-- The kernel at `create_idt`. -/
def Machine.start (w : Devices) (k : Keyboard) : Machine := ⟨.setUp createIdtPorts, w, k⟩

abbrev Machine.Run : Machine → Machine → Prop := Relation.ReflTransGen Machine.Step

/-! ## What is acknowledged -/

theorem master_pending {p : Pic} (hsettings : p.settings = masterSettings) (hisr : p.isr = 0)
    (requests : Byte) :
    p.pending requests =
      if requests.getLsbD 1 then some 1 else if requests.getLsbD 2 then some 2 else none := by
  rw [Pic.pending, hsettings, hisr]
  revert requests
  decide +kernel

theorem slave_pending {p : Pic} (hsettings : p.settings = slaveSettings) (hisr : p.isr = 0)
    (requests : Byte) :
    p.pending requests = if requests.getLsbD 4 then some 4 else none := by
  rw [Pic.pending, hsettings, hisr]
  revert requests
  decide +kernel

/-- The keyboard, or line 4 of the slave. -/
theorem acknowledge_eq {w : Devices} (hmaster : w.master.settings = masterSettings)
    (hslave : w.slave.settings = slaveSettings) (hquiet : w.master.isr = 0 ∧ w.slave.isr = 0) :
    w.acknowledge =
      if w.master.irr.getLsbD 1 then some (0x21, { w with master := w.master.accept 1 })
      else if w.slave.irr.getLsbD 4 then
        some (0x2C, { w with master := w.master.accept 2, slave := w.slave.accept 4 })
      else none := by
  have hline : w.requests.getLsbD 1 = w.master.irr.getLsbD 1 := by
    rw [Devices.requests, slave_pending hslave hquiet.2]
    split <;> simp
  have hcascade : w.requests.getLsbD 2 = w.slave.irr.getLsbD 4 := by
    rw [Devices.requests, slave_pending hslave hquiet.2]
    cases w.slave.irr.getLsbD 4 <;> simp
  have hkeyboard : w.master.vector 1 = 0x21 := by
    rw [Pic.vector, hmaster]
    rfl
  have hslaveVector : w.slave.vector 4 = 0x2C := by
    rw [Pic.vector, hslave]
    rfl
  rw [Devices.acknowledge, master_pending hmaster hquiet.1, slave_pending hslave hquiet.2, hline,
    hcascade]
  cases w.master.irr.getLsbD 1 with
  | true =>
    show some (w.master.vector 1, _) = _
    rw [hkeyboard]
    rfl
  | false =>
    cases w.slave.irr.getLsbD 4 with
    | true =>
      show some (w.slave.vector 4, _) = _
      rw [hslaveVector]
      rfl
    | false => rfl

/-! ## The keyboard handler -/

theorem shiftKeys_ports (k : Keyboard) (scancode c : Byte) :
    (shiftKeys k scancode c).1.ports = k.ports := by
  unfold shiftKeys
  by_cases hleft : scancode = usQwertyLeftShift
  · rw [if_pos hleft]
    dsimp only
    split
    · rfl
    · split <;> rfl
  · rw [if_neg hleft]
    by_cases hright : scancode = usQwertyRightShift
    · rw [if_pos hright]
      dsimp only
      split
      · rfl
      · split <;> rfl
    · rw [if_neg hright]
      dsimp only
      split
      · rfl
      · split <;> rfl

theorem clearInput_ports (k : Keyboard) : k.clearInput.ports = k.ports := by
  have hfold : ∀ (js : List Nat) (k : Keyboard),
      (js.foldl (fun k (j : Nat) => k.store j 0) k).ports = k.ports := by
    intro js
    induction js with
    | nil => exact fun _ => rfl
    | cons j js ih => exact fun k => ih (k.store j 0)
  exact hfold _ k

theorem lineKeys_ports (k : Keyboard) (scancode c : Byte) :
    (lineKeys k scancode c).1.ports = k.ports := by
  unfold lineKeys
  by_cases henter : scancode = usQwertyEnter
  · rw [if_pos henter]
    exact clearInput_ports _
  · rw [if_neg henter]
    by_cases hbackspace : scancode = usQwertyBackspace
    · rw [if_pos hbackspace]
      dsimp only
      split <;> rfl
    · rw [if_neg hbackspace]

theorem read_ports (k : Keyboard) (scancode : Byte) : (k.read scancode).ports = k.ports := by
  unfold Keyboard.read
  split <;> rfl

theorem handleKeyboard_ports (k : Keyboard) (scancode : Byte) :
    (handleKeyboard k scancode).ports = k.ports ++ [(0x20, 0x20)] := by
  have hkeys : ∀ c, (lineKeys (shiftKeys (k.read scancode) scancode c).1 scancode
      (shiftKeys (k.read scancode) scancode c).2).1.ports = k.ports := fun c => by
    rw [lineKeys_ports, shiftKeys_ports, read_ports]
  rw [handleKeyboard]
  dsimp only
  split
  · exact congrArg (· ++ [(0x20, 0x20)]) (hkeys _)
  · exact congrArg (· ++ [(0x20, 0x20)]) (hkeys _)

/-- The driver ends the interrupt, and the handler ends it again. -/
theorem handler_ports (k : Keyboard) (scancode : Byte) :
    (keyboardHandler k scancode).ports.drop k.ports.length = [(0x20, 0x20), (0x20, 0x20)] := by
  show ((handleKeyboard k scancode).ports ++ [(0x20, 0x20)]).drop k.ports.length = _
  rw [handleKeyboard_ports, List.append_assoc, List.drop_left]
  rfl

/-- An end of interrupt is one, and nothing but the keyboard's interrupt can be in service. -/
def EndsKeyboard : PortAccess → Devices → Prop
  | .outb port v, w => port = mastrPicCmndPort →
      v = picEoi ∧ w.slave.isr = 0 ∧ (w.master.isr = keyboardLine ∨ w.master.isr = 0)
  | .inb _, _ => True

/-- At the entry of the handler. -/
structure Entered (t : List Byte) (w : Devices) : Prop where
  master : w.master.settings = masterSettings
  slave : w.slave.settings = slaveSettings
  service : w.master.isr = keyboardLine ∧ w.slave.isr = 0
  early : w.early = false
  held : w.master.irr.getLsbD 1 = false ∧ w.waiting ≠ []
  taken : w.taken = t

/-- Behind its read of port `0x60`. -/
structure Taken (t : List Byte) (isr : Byte) (w : Devices) : Prop where
  master : w.master.settings = masterSettings
  slave : w.slave.settings = slaveSettings
  service : w.master.isr = isr ∧ w.slave.isr = 0
  early : w.early = false
  linked : Linked w
  taken : w.taken = t

theorem tick_frame {w w' : Devices} (ht : w.Tick w') :
    w'.early = w.early ∧ w'.taken = w.taken := by
  cases ht <;> exact ⟨rfl, rfl⟩

theorem Taken.tick {t : List Byte} {isr : Byte} {w w' : Devices} (h : Taken t isr w)
    (ht : w.Tick w') : Taken t isr w' := by
  obtain ⟨hmaster, hslave, hservice, hearly, hlinked, htaken⟩ := h
  have hlinked' := hlinked.tick ht
  cases ht with
  | key b =>
    obtain ⟨hsettings, hisr⟩ := key_master w b
    exact ⟨hsettings.trans hmaster, hslave, ⟨hisr.trans hservice.1, hservice.2⟩, hearly, hlinked',
      htaken⟩
  | master lines _ _ => exact ⟨hmaster, hslave, hservice, hearly, hlinked', htaken⟩
  | slave lines => exact ⟨hmaster, hslave, hservice, hearly, hlinked', htaken⟩

theorem Entered.tick {t : List Byte} {w w' : Devices} (h : Entered t w) (ht : w.Tick w') :
    Entered t w' := by
  obtain ⟨hmaster, hslave, hservice, hearly, ⟨hirr, hwaiting⟩, htaken⟩ := h
  cases ht with
  | key b =>
    have hsame : (w.key b).master = w.master := if_neg hwaiting
    refine ⟨?_, hslave, ?_, hearly, ⟨?_, ?_⟩, htaken⟩
    · rw [hsame, hmaster]
    · rw [hsame]
      exact hservice
    · rw [hsame, hirr]
    · exact List.append_ne_nil_of_left_ne_nil hwaiting [b]
  | master lines hkeyboard _ =>
    refine ⟨hmaster, hslave, hservice, hearly, ⟨?_, hwaiting⟩, htaken⟩
    show (w.master.raise lines).irr.getLsbD 1 = false
    rw [Pic.raise, BitVec.getLsbD_or, hkeyboard, hirr, Bool.or_false]
  | slave lines => exact ⟨hmaster, hslave, hservice, hearly, ⟨hirr, hwaiting⟩, htaken⟩

theorem scancode_read {w w' : Devices} {x b : Byte} {rest : List Byte} (hlist : w.waiting = b :: rest)
    (hexec : devicesWorld.exec (.inb 0x60) w x w') : x = b ∧ w' = w.take b rest := by
  unfold devicesWorld at hexec
  dsimp only at hexec
  rw [if_pos rfl, hlist] at hexec
  exact hexec

theorem triple_readScancode (t : List Byte) :
    Triple devicesWorld EndsKeyboard (Entered t) (inb 0x60)
      fun scancode => Taken (t ++ [scancode]) keyboardLine := by
  refine triple_issue (fun _ _ h => h.tick) (fun _ _ _ h => h.tick) (fun _ _ => trivial) ?_
  rintro w x w' ⟨hmaster, hslave, hservice, hearly, ⟨hirr, hwaiting⟩, htaken⟩ hexec
  cases hlist : w.waiting with
  | nil => exact absurd hlist hwaiting
  | cons b rest =>
    obtain ⟨rfl, rfl⟩ := scancode_read hlist hexec
    have htaken' : (w.take x rest).taken = t ++ [x] := congrArg (· ++ [x]) htaken
    by_cases hrest : rest = []
    · have hsame : (w.take x rest).master =
          { w.master with irr := w.master.irr &&& ~~~keyboardLine } := if_pos hrest
      refine ⟨by rw [hsame]; exact hmaster, hslave, by rw [hsame]; exact hservice, hearly, ?_, htaken'⟩
      unfold Linked
      rw [if_neg (by rw [show (w.take x rest).early = w.early from rfl, hearly]; decide), hsame]
      refine iff_of_false ?_ (not_not.mpr hrest)
      rw [keyboardLine]
      simp
    · have hsame : (w.take x rest).master = w.master.raise keyboardLine := if_neg hrest
      refine ⟨by rw [hsame]; exact hmaster, hslave, by rw [hsame]; exact hservice, hearly, ?_, htaken'⟩
      unfold Linked
      rw [if_neg (by rw [show (w.take x rest).early = w.early from rfl, hearly]; decide), hsame]
      refine iff_of_true ?_ hrest
      rw [Pic.raise, keyboardLine]
      simp

/-- An end of interrupt. -/
theorem triple_end (t : List Byte) {isr : Byte} (hisr : isr = keyboardLine ∨ isr = 0) :
    Triple devicesWorld EndsKeyboard (Taken t isr) (outb mastrPicCmndPort picEoi)
      fun _ => Taken t 0 := by
  refine triple_issue (fun _ _ h => h.tick) (fun _ _ _ h => h.tick) ?_ ?_
  · rintro w ⟨-, -, hservice, -, -, -⟩ -
    rw [hservice.1]
    exact ⟨rfl, hservice.2, hisr⟩
  · rintro w x w' ⟨hmaster, hslave, hservice, hearly, hlinked, htaken⟩ hexec
    obtain ⟨p, ⟨hsettings, hcommand⟩, rfl⟩ := hexec
    have hbit : picEoi.getLsbD 4 = false := by decide
    rw [hbit, if_neg Bool.false_ne_true] at hcommand
    obtain ⟨hirr, hend⟩ := hcommand
    have hisr0 : p.isr = 0 := by
      rw [hend rfl, hservice.1]
      rcases hisr with rfl | rfl <;> decide
    refine ⟨hsettings.trans ?_, hslave, ⟨hisr0, hservice.2⟩, ?_, ?_, htaken⟩
    · rw [Settings.command, hbit, if_neg Bool.false_ne_true, hmaster]
    · dsimp only
      rw [hbit, if_neg Bool.false_ne_true, hearly]
    · unfold Linked at hlinked ⊢
      dsimp only
      rwa [hbit, if_neg Bool.false_ne_true, hirr]

theorem triple_handler (k : Keyboard) (t : List Byte) :
    Triple devicesWorld EndsKeyboard (Entered t) (keyboardHandlerPorts k)
      fun k' w => ∃ scancode, k' = keyboardHandler k scancode ∧ Taken (t ++ [scancode]) 0 w := by
  refine triple_bind (triple_readScancode t) fun scancode => ?_
  rw [handler_ports]
  refine triple_bind (R := fun _ => Taken (t ++ [scancode]) 0) ?_ fun _ => ?_
  · exact triple_bind (triple_end _ (Or.inl rfl)) fun _ => triple_bind (triple_end _ (Or.inr rfl))
      fun _ => triple_ret (fun _ _ h => h.tick) fun _ h => h
  · exact triple_ret (fun _ _ ⟨b, hb, h⟩ ht => ⟨b, hb, h.tick ht⟩) fun _ h => ⟨scancode, rfl, h⟩

/-! ## Runs -/

/-- With interrupts enabled, or a handler that has nothing left to do. -/
structure Served (k₀ : Keyboard) (w : Devices) (k : Keyboard) : Prop where
  master : w.master.settings = masterSettings
  slave : w.slave.settings = slaveSettings
  quiet : w.master.isr = 0 ∧ w.slave.isr = 0
  linked : Linked w
  heard : k = w.taken.foldl keyboardHandler k₀
  deaf : w.early = true → w.taken = []

theorem Served.tick {k₀ k : Keyboard} {w w' : Devices} (h : Served k₀ w k) (ht : w.Tick w') :
    Served k₀ w' k := by
  obtain ⟨hmaster, hslave, hquiet, hlinked, hheard, hdeaf⟩ := h
  have hlinked' := hlinked.tick ht
  cases ht with
  | key b =>
    obtain ⟨hsettings, hisr⟩ := key_master w b
    exact ⟨hsettings.trans hmaster, hslave, ⟨hisr.trans hquiet.1, hquiet.2⟩, hlinked', hheard, hdeaf⟩
  | master lines _ _ => exact ⟨hmaster, hslave, hquiet, hlinked', hheard, hdeaf⟩
  | slave lines => exact ⟨hmaster, hslave, hquiet, hlinked', hheard, hdeaf⟩

/-- What holds in every state of a run, from the devices `w₀` and the driver `k₀`. -/
def Inv (w₀ : Devices) (k₀ : Keyboard) (m : Machine) : Prop :=
  match m.cpu with
  | .setUp p => m.keyboard = k₀ ∧ wp devicesWorld (fun _ _ => True) p
      (fun _ w => Served k₀ w k₀ ∧ (w₀.waiting ≠ [] → w.early = true)) m.devices
  | .kernel => Served k₀ m.devices m.keyboard ∧ (w₀.waiting ≠ [] → m.devices.early = true)
  | .handler p => w₀.waiting = [] ∧
      wp devicesWorld EndsKeyboard p (fun k w => Served k₀ w k) m.devices
  | .panicked vector => vector = 0x2C ∧
      (w₀.waiting ≠ [] → m.devices.taken = [] ∧ m.keyboard = k₀)

theorem start_inv {w : Devices} (hquiet : w.master.isr = 0 ∧ w.slave.isr = 0)
    (huntaken : w.taken = [] ∧ w.sent = w.waiting) (k : Keyboard) : Inv w k (.start w k) := by
  have hstart := SettingUp.start hquiet huntaken
  refine ⟨rfl, wp_mono (fun _ w' h => ?_) (triple_createIdtPorts w hstart)⟩
  refine ⟨⟨h.master, h.slave, h.quiet, h.linked rfl, ?_, fun _ => h.untaken.1⟩, h.early rfl⟩
  rw [h.untaken.1]
  rfl

/-- An interrupt that is taken enters the keyboard handler, or panics. -/
theorem interrupt_inv {w₀ w w' : Devices} {k₀ k : Keyboard} {vector : Byte}
    (h : Served k₀ w k) (hearly : w₀.waiting ≠ [] → w.early = true)
    (hack : w.acknowledge = some (vector, w')) : Inv w₀ k₀ ⟨enter vector k, w', k⟩ := by
  obtain ⟨hmaster, hslave, hquiet, hlinked, hheard, hdeaf⟩ := h
  rw [acknowledge_eq hmaster hslave hquiet] at hack
  cases hline : w.master.irr.getLsbD 1 with
  | true =>
    rw [hline, if_pos rfl] at hack
    obtain ⟨rfl, rfl⟩ := Prod.mk.inj (Option.some_inj.mp hack)
    have hlive : w.early = false := by
      by_contra hlost
      unfold Linked at hlinked
      rw [if_pos (Bool.not_eq_false _ ▸ hlost), hline] at hlinked
      cases hlinked.2
    have hnone : w₀.waiting = [] := by
      by_contra hwait
      rw [hearly hwait] at hlive
      cases hlive
    have hwaiting : w.waiting ≠ [] := by
      unfold Linked at hlinked
      rw [hlive, if_neg Bool.false_ne_true] at hlinked
      exact hlinked.mp hline
    have hentered : Entered w.taken { w with master := w.master.accept 1 } := by
      refine ⟨hmaster, hslave, ⟨?_, hquiet.2⟩, hlive, ⟨?_, hwaiting⟩, rfl⟩
      · show (w.master.accept 1).isr = keyboardLine
        rw [Pic.accept, hmaster, hquiet.1]
        rfl
      · show (w.master.accept 1).irr.getLsbD 1 = false
        rw [Pic.accept]
        simp
    refine ⟨hnone, wp_mono ?_ (triple_handler k w.taken _ hentered)⟩
    rintro k' w' ⟨scancode, rfl, htaken⟩
    refine ⟨htaken.master, htaken.slave, htaken.service, htaken.linked, ?_, fun hlost => ?_⟩
    · rw [htaken.taken, List.foldl_append, hheard]
      rfl
    · rw [htaken.early] at hlost
      cases hlost
  | false =>
    rw [hline, if_neg Bool.false_ne_true] at hack
    cases hother : w.slave.irr.getLsbD 4 with
    | true =>
      rw [hother, if_pos rfl] at hack
      obtain ⟨rfl, rfl⟩ := Prod.mk.inj (Option.some_inj.mp hack)
      refine ⟨rfl, fun hwait => ?_⟩
      have htaken := hdeaf (hearly hwait)
      exact ⟨htaken, by rw [hheard, htaken]; rfl⟩
    | false =>
      rw [hother, if_neg Bool.false_ne_true] at hack
      cases hack

theorem step_inv {w₀ : Devices} {k₀ : Keyboard} {m m' : Machine} (h : Inv w₀ k₀ m)
    (hstep : m.Step m') : Inv w₀ k₀ m' := by
  cases hstep with
  | @device cpu w w' k ht =>
    have hidle : Idle devicesWorld w w' := Relation.ReflTransGen.single ht
    cases cpu with
    | setUp p => exact ⟨h.1, wp_idle h.2 hidle⟩
    | kernel => exact ⟨h.1.tick ht, fun hwait => (tick_frame ht).1.trans (h.2 hwait)⟩
    | handler p => exact ⟨h.1, wp_idle h.2 hidle⟩
    | panicked vector =>
      exact ⟨h.1, fun hwait => ⟨(tick_frame ht).2.trans (h.2 hwait).1, (h.2 hwait).2⟩⟩
  | setUp hs => exact ⟨h.1, wp_step h.2 hs⟩
  | @sti w k =>
    obtain ⟨hserved, hearly⟩ := wp_ret h.2
    have hk : k = k₀ := h.1
    subst hk
    exact ⟨hserved, hearly⟩
  | interrupt hack => exact interrupt_inv h.1 h.2 hack
  | handler hs => exact ⟨h.1, wp_step h.2 hs⟩
  | @iret w k k' =>
    have hserved := wp_ret (Q := fun k w => Served k₀ w k) h.2
    exact ⟨hserved, fun hwait => absurd h.1 hwait⟩

/-- A run from `create_idt` on: nothing is in service there, and nothing has been read. -/
structure KernelRun (w : Devices) (k : Keyboard) (m : Machine) : Prop where
  quiet : w.master.isr = 0 ∧ w.slave.isr = 0
  untaken : w.taken = [] ∧ w.sent = w.waiting
  run : Machine.Run (.start w k) m

theorem KernelRun.inv {w : Devices} {k : Keyboard} {m : Machine} (h : KernelRun w k m) :
    Inv w k m := by
  obtain ⟨hquiet, huntaken, hrun⟩ := h
  induction hrun with
  | refl => exact start_inv hquiet huntaken k
  | tail _ hstep ih => exact step_inv ih hstep

/-! ### Scan codes -/

/-- Every scan code is where it belongs. -/
def Conserved (w : Devices) : Prop := w.sent = w.taken ++ w.waiting

theorem Conserved.tick {w w' : Devices} (h : Conserved w) (ht : w.Tick w') : Conserved w' := by
  cases ht with
  | key b =>
    show w.sent ++ [b] = w.taken ++ (w.waiting ++ [b])
    rw [h, List.append_assoc]
  | master lines _ _ => exact h
  | slave lines => exact h

theorem Conserved.exec {w w' : Devices} (h : Conserved w) {i : PortAccess} {x : Answer i}
    (hexec : devicesWorld.exec i w x w') : Conserved w' := by
  cases i with
  | outb port v =>
    unfold devicesWorld at hexec
    dsimp only at hexec
    split at hexec
    · obtain ⟨p, -, rfl⟩ := hexec
      exact h
    · split at hexec
      · obtain ⟨p, -, rfl⟩ := hexec
        exact h
      · split at hexec
        · rw [hexec]
          exact h
        · split at hexec <;> (rw [hexec]; exact h)
  | inb port =>
    unfold devicesWorld at hexec
    dsimp only at hexec
    split at hexec
    · cases hlist : w.waiting with
      | nil =>
        rw [hlist] at hexec
        rw [hexec]
        exact h
      | cons b rest =>
        rw [hlist] at hexec
        obtain ⟨-, rfl⟩ := hexec
        show w.sent = w.taken ++ [b] ++ rest
        rw [h, hlist, List.append_assoc, List.singleton_append]
    · rw [hexec.2.2]
      exact h

theorem Conserved.step {α : Type} {c c' : Prog PortAccess Answer α × Devices} (h : Conserved c.2)
    (hs : Base.Step devicesWorld c c') : Conserved c'.2 := by
  cases hs with
  | issue hexec => exact h.exec hexec
  | tick ht => exact h.tick ht

/-- An interrupt moves no scan code. -/
theorem acknowledge_frame {w w' : Devices} {vector : Byte}
    (h : w.acknowledge = some (vector, w')) :
    w'.sent = w.sent ∧ w'.taken = w.taken ∧ w'.waiting = w.waiting := by
  unfold Devices.acknowledge at h
  obtain ⟨k, -, h⟩ := Option.bind_eq_some_iff.mp h
  split at h
  · obtain ⟨j, -, heq⟩ := Option.map_eq_some_iff.mp h
    cases heq
    exact ⟨rfl, rfl, rfl⟩
  · cases h
    exact ⟨rfl, rfl, rfl⟩

theorem run_conserved {m m' : Machine} (h : Conserved m.devices) (hrun : m.Run m') :
    Conserved m'.devices := by
  induction hrun with
  | refl => exact h
  | tail _ hstep ih =>
    cases hstep with
    | device ht => exact ih.tick ht
    | setUp hs => exact ih.step hs
    | sti => exact ih
    | interrupt hack =>
      obtain ⟨hsent, htaken, hwaiting⟩ := acknowledge_frame hack
      unfold Conserved at ih ⊢
      dsimp only at ih ⊢
      rw [hsent, htaken, hwaiting, ih]
    | handler hs => exact ih.step hs
    | iret => exact ih

/-! ### Results -/

/-- In every state of every run: the scan codes sent are those that have been read, in their order,
    and then those that wait; no handler is about to end an interrupt but the keyboard's; while no
    handler runs nothing is in service, and the driver has been given the scan codes read; and a
    panic is one of the interrupt without a gate. -/
theorem interrupts_served {w : Devices} {k : Keyboard} {m : Machine} (h : KernelRun w k m) :
    m.devices.sent = m.devices.taken ++ m.devices.waiting ∧
      (∀ i f, m.cpu = .handler (.op i f) → EndsKeyboard i m.devices) ∧
      (m.cpu = .kernel → (m.devices.master.isr = 0 ∧ m.devices.slave.isr = 0) ∧
        m.keyboard = m.devices.taken.foldl keyboardHandler k) ∧
      ∀ vector, m.cpu = .panicked vector → vector = 0x2C := by
  have hconserved : Conserved w := by
    unfold Conserved
    rw [h.untaken.1, h.untaken.2]
    rfl
  have hinv := h.inv
  unfold Inv at hinv
  refine ⟨run_conserved (m := .start w k) hconserved h.run, fun i f hcpu => ?_, fun hcpu => ?_,
    fun vector hcpu => ?_⟩
  · rw [hcpu] at hinv
    exact wp_ok hinv.2
  · rw [hcpu] at hinv
    exact ⟨hinv.1.quiet, hinv.1.heard⟩
  · rw [hcpu] at hinv
    exact hinv.1

/-- A key, while the kernel waits behind the set-up. -/
def keyMachine (waiting : List Byte) (b : Byte) (k : Keyboard) : Machine :=
  ⟨.kernel, (upDevices waiting).key b, k⟩

theorem keyMachine_run (waiting : List Byte) (b : Byte) (k : Keyboard) :
    KernelRun (maskedDevices waiting) k (keyMachine waiting b k) := by
  have hsetUp : Machine.Run (.start (maskedDevices waiting) k)
      ⟨.setUp (.ret ()), upDevices waiting, k⟩ :=
    Relation.ReflTransGen.lift
      (fun c : Prog PortAccess Answer Unit × Devices => (⟨.setUp c.1, c.2, k⟩ : Machine))
      (fun _ _ hs => Machine.Step.setUp hs) _ _ (reach_upDevices waiting)
  exact ⟨⟨rfl, rfl⟩, ⟨rfl, rfl⟩, (hsetUp.tail .sti).tail (.device (.key b))⟩

theorem interrupts_served_key :
    let m := keyMachine [] 0x1E (bootKeyboard 0)
    m.devices.sent = m.devices.taken ++ m.devices.waiting ∧
      (∀ i f, m.cpu = .handler (.op i f) → EndsKeyboard i m.devices) ∧
      (m.cpu = .kernel → (m.devices.master.isr = 0 ∧ m.devices.slave.isr = 0) ∧
        m.keyboard = m.devices.taken.foldl keyboardHandler (bootKeyboard 0)) ∧
      ∀ vector, m.cpu = .panicked vector → vector = 0x2C :=
  interrupts_served (keyMachine_run [] 0x1E (bootKeyboard 0))

/-- While no handler runs, the interrupt of a scan code that waits is the next that the processor
    takes, unless a scan code had been waiting when the controllers were reset. -/
theorem keyboard_heard_iff {w : Devices} {k : Keyboard} {m : Machine} (h : KernelRun w k m)
    (hcpu : m.cpu = .kernel) (hwaiting : m.devices.waiting ≠ []) :
    (∃ w', m.devices.acknowledge = some (0x21, w')) ↔ m.devices.early = false := by
  have hinv := h.inv
  unfold Inv at hinv
  rw [hcpu] at hinv
  obtain ⟨⟨hmaster, hslave, hservice, hlinked, -, -⟩, -⟩ := hinv
  unfold Linked at hlinked
  rw [acknowledge_eq hmaster hslave hservice]
  cases hearly : m.devices.early with
  | true =>
    rw [hearly, if_pos rfl] at hlinked
    rw [hlinked.2, if_neg Bool.false_ne_true]
    refine iff_of_false ?_ (by decide)
    rintro ⟨w', hack⟩
    split at hack
    · have hvector : (0x2C : Byte) = 0x21 := congrArg Prod.fst (Option.some_inj.mp hack)
      exact absurd hvector (by decide)
    · cases hack
  | false =>
    rw [hearly, if_neg Bool.false_ne_true] at hlinked
    rw [hlinked.mpr hwaiting, if_pos rfl]
    exact iff_of_true ⟨_, rfl⟩ rfl

theorem keyboard_heard_iff_key :
    (∃ w', (keyMachine [] 0x1E (bootKeyboard 0)).devices.acknowledge = some (0x21, w')) ↔
      (keyMachine [] 0x1E (bootKeyboard 0)).devices.early = false :=
  keyboard_heard_iff (keyMachine_run [] 0x1E (bootKeyboard 0)) rfl (List.cons_ne_nil _ _)

/-- A scan code that is already waiting at `create_idt`: whatever is typed from then on, no handler
    is ever entered for it. -/
theorem early_scancode_silences {w : Devices} {k : Keyboard} {m : Machine} (h : KernelRun w k m)
    (hwaiting : w.waiting ≠ []) (hcpu : ∀ p, m.cpu ≠ .setUp p) :
    (∀ p, m.cpu ≠ .handler p) ∧ m.devices.taken = [] ∧ m.keyboard = k := by
  have hinv := h.inv
  unfold Inv at hinv
  cases hstate : m.cpu with
  | setUp p => exact absurd hstate (hcpu p)
  | kernel =>
    rw [hstate] at hinv
    obtain ⟨hserved, hearly⟩ := hinv
    have htaken := hserved.deaf (hearly hwaiting)
    refine ⟨fun _ h => (nomatch h), htaken, ?_⟩
    rw [hserved.heard, htaken]
    rfl
  | handler p =>
    rw [hstate] at hinv
    exact absurd hinv.1 hwaiting
  | panicked vector =>
    rw [hstate] at hinv
    exact ⟨fun _ h => (nomatch h), hinv.2 hwaiting⟩

theorem early_scancode_silences_key :
    let m := keyMachine [0x1E] 0x30 (bootKeyboard 0)
    (∀ p, m.cpu ≠ .handler p) ∧ m.devices.taken = [] ∧ m.keyboard = bootKeyboard 0 :=
  early_scancode_silences (keyMachine_run [0x1E] 0x30 (bootKeyboard 0)) (List.cons_ne_nil _ _)
    fun _ h => nomatch h

end SeshOS.Idt
