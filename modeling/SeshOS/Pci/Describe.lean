/-
  The line that `EnumerateFunction` prints for a function: `pci/pciDesc.c`, and the `printf` of
  `pci/pci.c`.

  A lookup returns a literal or what `to_hstring` returns, and that is one buffer for all five
  arguments. All of them are evaluated, in an order that C leaves open, before `printf` reads the
  first text; so every text in the buffer is that of the lookup that came last
  (`evaluate_output`).
-/
import SeshOS.Libc.Hex
import SeshOS.Pci.Enumerate
import Mathlib.Logic.Function.Basic

namespace SeshOS.Pci

open Base Libc

/-! ## pciDesc.c -/

/-- How a lookup returns: with a literal, or with what `to_hstring` returns for a value. -/
inductive Lookup
  | literal (text : String)
  | toHstring (value : BitVec 64)
deriving DecidableEq

def deviceClasses : List String :=
  ["Unclassified", "Mass Storage Controller", "Network Controller", "Display Controller",
    "Multimedia Controller", "Memory Controller", "Bridge Device",
    "Simple Communication Controller", "Base System Peripheral", "Input Device Controller",
    "Docking Station", "Processor", "Serial Bus Controller", "Wireless Controller",
    "Intelligent Controller", "Satellite Communication Controller", "Encryption Controller",
    "Signal Processing Controller", "Processing Accelerator", "Non Essential Instrumentation"]

def getVendorName (vendorID : Nat) : Lookup :=
  match vendorID with
  | 0x8086 => .literal "Intel Corp"
  | 0x1022 => .literal "AMD"
  | 0x10DE => .literal "NVIDIA Corporation"
  | _ => .toHstring (.ofNat 64 vendorID)

def getDeviceName (vendorID deviceID : Nat) : Lookup :=
  match vendorID, deviceID with
  | 0x8086, 0x29C0 => .literal "Express DRAM Controller"
  | 0x8086, 0x2918 => .literal "LPC Interface Controller"
  | 0x8086, 0x2922 => .literal "6 port SATA Controller [AHCI mode]"
  | 0x8086, 0x2930 => .literal "SMBus Controller"
  | _, _ => .toHstring (.ofNat 64 deviceID)

def massStorageControllerSubclassName (subclassCode : Nat) : Lookup :=
  match subclassCode with
  | 0x00 => .literal "SCSI Bus Controller"
  | 0x01 => .literal "IDE Controller"
  | 0x02 => .literal "Floppy Disk Controller"
  | 0x03 => .literal "IPI Bus Controller"
  | 0x04 => .literal "RAID Controller"
  | 0x05 => .literal "ATA Controller"
  | 0x06 => .literal "Serial ATA"
  | 0x07 => .literal "Serial Attached SCSI"
  | 0x08 => .literal "Non-Volatile Memory Controller"
  | 0x80 => .literal "Other"
  | _ => .toHstring (.ofNat 64 subclassCode)

def serialBusControllerSubclassName (subclassCode : Nat) : Lookup :=
  match subclassCode with
  | 0x00 => .literal "FireWire (IEEE 1394) Controller"
  | 0x01 => .literal "ACCESS Bus"
  | 0x02 => .literal "SSA"
  | 0x03 => .literal "USB Controller"
  | 0x04 => .literal "Fibre Channel"
  | 0x05 => .literal "SMBus"
  | 0x06 => .literal "Infiniband"
  | 0x07 => .literal "IPMI Interface"
  | 0x08 => .literal "SERCOS Interface (IEC 61491)"
  | 0x09 => .literal "CANbus"
  | 0x80 => .literal "SerialBusController - Other"
  | _ => .toHstring (.ofNat 64 subclassCode)

def bridgeDeviceSubclassName (subclassCode : Nat) : Lookup :=
  match subclassCode with
  | 0x00 => .literal "Host Bridge"
  | 0x01 => .literal "ISA Bridge"
  | 0x02 => .literal "EISA Bridge"
  | 0x03 => .literal "MCA Bridge"
  | 0x04 => .literal "PCI-to-PCI Bridge"
  | 0x05 => .literal "PCMCIA Bridge"
  | 0x06 => .literal "NuBus Bridge"
  | 0x07 => .literal "CardBus Bridge"
  | 0x08 => .literal "RACEway Bridge"
  | 0x09 => .literal "PCI-to-PCI Bridge"
  | 0x0A => .literal "InfiniBand-to-PCI Host Bridge"
  | 0x80 => .literal "Other"
  | _ => .toHstring (.ofNat 64 subclassCode)

def getSubclassName (classCode subclassCode : Nat) : Lookup :=
  match classCode with
  | 0x01 => massStorageControllerSubclassName subclassCode
  | 0x03 =>
    match subclassCode with
    | 0x00 => .literal "VGA Compatible Controller"
    | _ => .literal "Unknown"
  | 0x06 => bridgeDeviceSubclassName subclassCode
  | 0x0C => serialBusControllerSubclassName subclassCode
  | _ => .toHstring (.ofNat 64 subclassCode)

/-- The switch over the serial bus controllers has no default for the subclass. -/
def getProgIFName (classCode subclassCode progIF : Nat) : Lookup :=
  match classCode, subclassCode, progIF with
  | 0x01, 0x06, 0x00 => .literal "Vendor Specific Interface"
  | 0x01, 0x06, 0x01 => .literal "AHCI 1.0"
  | 0x01, 0x06, 0x02 => .literal "Serial Storage Bus"
  | 0x01, _, _ => .literal "Unknown"
  | 0x03, 0x00, 0x00 => .literal "VGA Controller"
  | 0x03, 0x00, 0x01 => .literal "8514-Compatible Controller"
  | 0x03, _, _ => .literal "Unknown"
  | 0x0C, 0x03, 0x00 => .literal "UHCI Controller"
  | 0x0C, 0x03, 0x10 => .literal "OHCI Controller"
  | 0x0C, 0x03, 0x20 => .literal "EHCI (USB2) Controller"
  | 0x0C, 0x03, 0x30 => .literal "XHCI (USB3) Controller"
  | 0x0C, 0x03, 0x80 => .literal "Unspecified"
  | 0x0C, 0x03, 0xFE => .literal "USB Device (Not a Host Controller)"
  | 0x0C, 0x03, _ => .literal "Unknown"
  | _, _, _ => .toHstring (.ofNat 64 progIF)

/-! ## The printf of EnumerateFunction -/

/-- What an argument points to: a literal, or `hexTo_StringOutput`. -/
inductive Text
  | literal (text : String)
  | hexToStringOutput

/-- `%s` -/
def Text.read (o : HexOutput) : Text → List Byte
  | .literal text => ascii text
  | .hexToStringOutput => visible o.buffer.toList

/-- Calling a lookup; `behind` is what `to_hstring` finds behind its parameter. -/
def Lookup.call (behind : Nat → Byte) (o : HexOutput) : Lookup → Text × HexOutput
  | .literal text => (.literal text, o)
  | .toHstring value => (.hexToStringOutput, Libc.toHstring value behind o)

/-- The text of a lookup that is called alone. -/
def Lookup.alone (behind : Nat → Byte) (o : HexOutput) (l : Lookup) : List Byte :=
  (l.call behind o).1.read (l.call behind o).2

/-- The five arguments; `class_` is the entry of `DeviceClasses`. -/
def argument (p : Found) (class_ : String) : Fin 5 → Lookup
  | 0 => getVendorName p.vendorID
  | 1 => getDeviceName p.vendorID p.deviceID
  | 2 => .literal class_
  | 3 => getSubclassName p.class_ p.subclass
  | 4 => getProgIFName p.class_ p.subclass p.progIF

/-- `none` when `DeviceClasses` is read outside of its bounds. -/
def arguments (p : Found) : Option (Fin 5 → Lookup) := deviceClasses[p.class_]?.map (argument p)

/-- The arguments evaluated so far, and the buffer. -/
structure Evaluation where
  texts : Fin 5 → Text
  output : HexOutput

def evaluateArgument (args : Fin 5 → Lookup) (behind : Fin 5 → Nat → Byte) (s : Evaluation)
    (k : Fin 5) : Evaluation :=
  let returned := (args k).call (behind k) s.output
  ⟨Function.update s.texts k returned.1, returned.2⟩

def evaluate (args : Fin 5 → Lookup) (behind : Fin 5 → Nat → Byte) (o : HexOutput)
    (order : List (Fin 5)) : Evaluation :=
  order.foldl (evaluateArgument args behind) ⟨fun _ => .literal "", o⟩

/-- `"%s / %s / %s / %s / %s\n"` -/
def lineFormat (texts : Fin 5 → List Byte) : List Byte :=
  texts 0 ++ ascii " / " ++ texts 1 ++ ascii " / " ++ texts 2 ++ ascii " / " ++ texts 3 ++
    ascii " / " ++ texts 4 ++ ascii "\n"

/-- The line, with the arguments evaluated in this order. -/
def printedLine (p : Found) (order : List (Fin 5)) (behind : Fin 5 → Nat → Byte) (o : HexOutput) :
    Option (List Byte) :=
  (arguments p).map fun args =>
    let s := evaluate args behind o order
    lineFormat fun k => (s.texts k).read s.output

/-! ## What the arguments point to -/

/-- The text a lookup stands for: its literal, or its own value. -/
def Lookup.own : Lookup → List Byte
  | .literal text => ascii text
  | .toHstring value => hexDigits value

theorem Lookup.alone_eq (behind : Nat → Byte) (o : HexOutput) (l : Lookup) :
    l.alone behind o = l.own := by
  cases l with
  | literal text => rfl
  | toHstring value => exact (toHstring_holds value behind o).visible

/-- Where the text of a lookup is, whatever has been evaluated before it. -/
def Lookup.text : Lookup → Text
  | .literal text => .literal text
  | .toHstring _ => .hexToStringOutput

theorem evaluateArgument_texts (args : Fin 5 → Lookup) (behind : Fin 5 → Nat → Byte)
    (s : Evaluation) (k : Fin 5) :
    (evaluateArgument args behind s k).texts = Function.update s.texts k (args k).text := by
  unfold evaluateArgument
  cases args k <;> rfl

theorem evaluate_snoc (args : Fin 5 → Lookup) (behind : Fin 5 → Nat → Byte) (o : HexOutput)
    (order : List (Fin 5)) (k : Fin 5) :
    evaluate args behind o (order ++ [k]) =
      evaluateArgument args behind (evaluate args behind o order) k := by
  rw [evaluate, List.foldl_append]
  rfl

theorem evaluate_texts (args : Fin 5 → Lookup) (behind : Fin 5 → Nat → Byte) (o : HexOutput)
    {order : List (Fin 5)} {k : Fin 5} (hk : k ∈ order) :
    (evaluate args behind o order).texts k = (args k).text := by
  induction order using List.reverseRecOn with
  | nil => cases hk
  | append_singleton order last ih =>
    rw [evaluate_snoc, evaluateArgument_texts]
    by_cases hlast : k = last
    · rw [hlast, Function.update_self]
    · rw [Function.update_of_ne hlast]
      refine ih ((List.mem_append.mp hk).resolve_right fun h => hlast ?_)
      exact List.mem_singleton.mp h

/-- The buffer holds the value of one of the arguments in it, if there is any. -/
theorem evaluate_output (args : Fin 5 → Lookup) (behind : Fin 5 → Nat → Byte) (o : HexOutput)
    {order : List (Fin 5)} {k : Fin 5} {v : BitVec 64} (hk : k ∈ order)
    (hv : args k = .toHstring v) :
    ∃ j w, args j = .toHstring w ∧
      Holds (evaluate args behind o order).output.buffer (hexDigits w) := by
  induction order using List.reverseRecOn with
  | nil => cases hk
  | append_singleton order last ih =>
    rw [evaluate_snoc]
    unfold evaluateArgument
    cases hlast : args last with
    | toHstring w => exact ⟨last, w, hlast, toHstring_holds w _ _⟩
    | literal text =>
      refine ih ((List.mem_append.mp hk).resolve_right fun h => ?_)
      rw [List.mem_singleton.mp h, hlast] at hv
      cases hv

/-- The text that `printf` reads for argument `k`. -/
def shown (args : Fin 5 → Lookup) (behind : Fin 5 → Nat → Byte) (o : HexOutput)
    (order : List (Fin 5)) (k : Fin 5) : List Byte :=
  ((evaluate args behind o order).texts k).read (evaluate args behind o order).output

/-- The values that lookups leave to `to_hstring` are equal. -/
def SameValue (args : Fin 5 → Lookup) : Prop :=
  ∀ j k v w, args j = .toHstring v → args k = .toHstring w → v = w

theorem shown_toHstring {args : Fin 5 → Lookup} {behind : Fin 5 → Nat → Byte} {o : HexOutput}
    {order : List (Fin 5)} {k : Fin 5} {v w : BitVec 64} (hk : k ∈ order)
    (hv : args k = .toHstring v)
    (hholds : Holds (evaluate args behind o order).output.buffer (hexDigits w)) :
    shown args behind o order k = hexDigits w := by
  rw [shown, evaluate_texts args behind o hk, hv]
  exact hholds.visible

/-- Every argument shows its own text exactly when there is one value for the buffer. -/
theorem shown_own_iff (args : Fin 5 → Lookup) (behind : Fin 5 → Nat → Byte) (o : HexOutput)
    {order : List (Fin 5)} (horder : ∀ k, k ∈ order) :
    (∀ k, shown args behind o order k = (args k).own) ↔ SameValue args := by
  constructor
  · intro h j k v w hv hw
    obtain ⟨i, u, -, hholds⟩ := evaluate_output args behind o (horder j) hv
    have hj := h j
    have hk := h k
    rw [shown_toHstring (horder j) hv hholds, hv] at hj
    rw [shown_toHstring (horder k) hw hholds, hw] at hk
    exact hexDigits_injective (hj.symm.trans hk)
  · intro hsame k
    cases hv : args k with
    | literal text =>
      rw [shown, evaluate_texts args behind o (horder k), hv]
      rfl
    | toHstring v =>
      obtain ⟨j, w, hw, hholds⟩ := evaluate_output args behind o (horder k) hv
      rw [shown_toHstring (horder k) hv hholds, hsame j k w v hw hv]
      rfl

/-! ## The texts in the line -/

/-- No literal of a lookup has the character between the texts in it. -/
def Lookup.Clean : Lookup → Prop
  | .literal text => chr '/' ∉ ascii text
  | .toHstring _ => True

/-- The literals of lookups are short, end at their terminators, and are clean. -/
def Lookup.Plain : Lookup → Prop
  | .literal text => chr '/' ∉ ascii text ∧ 0 ∉ ascii text ∧ (ascii text).length ≤ 100
  | .toHstring _ => True

theorem Lookup.Plain.clean {l : Lookup} (h : l.Plain) : l.Clean := by
  cases l with
  | literal text => exact h.1
  | toHstring value => trivial

theorem getVendorName_plain (vendorID : Nat) : (getVendorName vendorID).Plain := by
  unfold getVendorName
  split <;> simp only [Lookup.Plain] <;> decide

theorem getDeviceName_plain (vendorID deviceID : Nat) : (getDeviceName vendorID deviceID).Plain := by
  unfold getDeviceName
  split <;> simp only [Lookup.Plain] <;> decide

theorem getSubclassName_plain (classCode subclassCode : Nat) :
    (getSubclassName classCode subclassCode).Plain := by
  unfold getSubclassName
  split
  · unfold massStorageControllerSubclassName
    split <;> simp only [Lookup.Plain] <;> decide
  · split <;> simp only [Lookup.Plain] <;> decide
  · unfold bridgeDeviceSubclassName
    split <;> simp only [Lookup.Plain] <;> decide
  · unfold serialBusControllerSubclassName
    split <;> simp only [Lookup.Plain] <;> decide
  · trivial

theorem getProgIFName_plain (classCode subclassCode progIF : Nat) :
    (getProgIFName classCode subclassCode progIF).Plain := by
  unfold getProgIFName
  split <;> simp only [Lookup.Plain] <;> decide

theorem deviceClasses_plain : ∀ text ∈ deviceClasses,
    chr '/' ∉ ascii text ∧ 0 ∉ ascii text ∧ (ascii text).length ≤ 100 := by decide

theorem hexChar_ne_slash : ∀ b : Byte,
    hexChar ((b &&& 0xF0) >>> 4) ≠ chr '/' ∧ hexChar (b &&& 0x0F) ≠ chr '/' := by
  decide +kernel

theorem slash_notMem_hexDigits (value : BitVec 64) : chr '/' ∉ hexDigits value := by
  intro h
  obtain ⟨k, -, hk⟩ := List.mem_map.mp h
  unfold hexDigit at hk
  split at hk
  · exact (hexChar_ne_slash _).1 hk
  · exact (hexChar_ne_slash _).2 hk

theorem Lookup.Clean.own {l : Lookup} (h : l.Clean) : chr '/' ∉ l.own := by
  cases l with
  | literal text => exact h
  | toHstring value => exact slash_notMem_hexDigits value

/-- The texts of the line, each with the blanks around it. -/
def padded (texts : Fin 5 → List Byte) : List (List Byte) :=
  [texts 0 ++ ascii " ", ascii " " ++ texts 1 ++ ascii " ", ascii " " ++ texts 2 ++ ascii " ",
    ascii " " ++ texts 3 ++ ascii " ", ascii " " ++ texts 4 ++ ascii "\n"]

theorem lineFormat_padded (texts : Fin 5 → List Byte) :
    lineFormat texts = [chr '/'].intercalate (padded texts) := by
  have hslash : ascii " / " = ascii " " ++ [chr '/'] ++ ascii " " := by decide
  simp only [lineFormat, padded, hslash, List.intercalate_cons_cons, List.intercalate_singleton,
    List.append_assoc]

theorem padded_clean {texts : Fin 5 → List Byte} (h : ∀ k, chr '/' ∉ texts k) :
    ∀ text ∈ padded texts, chr '/' ∉ text := by
  have hblank : chr '/' ∉ ascii " " := by decide
  have hend : chr '/' ∉ ascii "\n" := by decide
  simp only [padded, List.forall_mem_cons, List.mem_append, not_or, h, hblank, hend,
    List.not_mem_nil, not_false_eq_true, and_self, IsEmpty.forall_iff, implies_true]

/-- The line determines its texts. -/
theorem lineFormat_injective {f g : Fin 5 → List Byte} (hf : ∀ k, chr '/' ∉ f k)
    (hg : ∀ k, chr '/' ∉ g k) (h : lineFormat f = lineFormat g) : f = g := by
  have hpadded : padded f = padded g := by
    rw [← List.splitOn_intercalate (chr '/') (padded_clean hf) (List.cons_ne_nil _ _),
      ← List.splitOn_intercalate (chr '/') (padded_clean hg) (List.cons_ne_nil _ _),
      ← lineFormat_padded, ← lineFormat_padded, h]
  simp only [padded, List.cons.injEq, List.append_cancel_right_eq, List.append_cancel_left_eq,
    List.append_assoc, and_true] at hpadded
  obtain ⟨h0, h1, h2, h3, h4⟩ := hpadded
  funext k
  fin_cases k <;> assumption

theorem argument_plain {p : Found} {class_ : String} (h : deviceClasses[p.class_]? = some class_)
    (k : Fin 5) : (argument p class_ k).Plain := by
  fin_cases k
  · exact getVendorName_plain _
  · exact getDeviceName_plain _ _
  · exact deviceClasses_plain class_ (List.mem_of_getElem? h)
  · exact getSubclassName_plain _ _
  · exact getProgIFName_plain _ _ _

theorem argument_clean {p : Found} {class_ : String} (h : deviceClasses[p.class_]? = some class_)
    (k : Fin 5) : (argument p class_ k).Clean := (argument_plain h k).clean

theorem shown_clean {args : Fin 5 → Lookup} (hclean : ∀ k, (args k).Clean)
    (behind : Fin 5 → Nat → Byte) (o : HexOutput) {order : List (Fin 5)} {k : Fin 5}
    (hk : k ∈ order) : chr '/' ∉ shown args behind o order k := by
  cases hv : args k with
  | literal text =>
    have h := (hclean k).own
    rw [hv] at h
    rw [shown, evaluate_texts args behind o hk, hv]
    exact h
  | toHstring v =>
    obtain ⟨j, w, -, hholds⟩ := evaluate_output args behind o hk hv
    rw [shown_toHstring hk hv hholds]
    exact slash_notMem_hexDigits w

/-! ## When the line is right -/

/-- The value left to `to_hstring`. -/
def Lookup.value? : Lookup → Option (BitVec 64)
  | .literal _ => none
  | .toHstring value => some value

/-- The values of the fields that have no name. -/
def unnamed (p : Found) : List (BitVec 64) :=
  [getVendorName p.vendorID, getDeviceName p.vendorID p.deviceID,
    getSubclassName p.class_ p.subclass,
    getProgIFName p.class_ p.subclass p.progIF].filterMap Lookup.value?

theorem Lookup.value?_eq_some {l : Lookup} {v : BitVec 64} :
    l.value? = some v ↔ l = .toHstring v := by
  cases l <;> simp [Lookup.value?]

theorem mem_unnamed (p : Found) (class_ : String) (v : BitVec 64) :
    v ∈ unnamed p ↔ ∃ k, argument p class_ k = .toHstring v := by
  simp only [unnamed, List.mem_filterMap, Lookup.value?_eq_some, exists_eq_right, List.mem_cons,
    List.not_mem_nil, or_false]
  constructor
  · rintro (h | h | h | h)
    · exact ⟨0, h.symm⟩
    · exact ⟨1, h.symm⟩
    · exact ⟨3, h.symm⟩
    · exact ⟨4, h.symm⟩
  · rintro ⟨k, hk⟩
    fin_cases k
    · exact .inl hk.symm
    · exact .inr (.inl hk.symm)
    · cases hk
    · exact .inr (.inr (.inl hk.symm))
    · exact .inr (.inr (.inr hk.symm))

theorem sameValue_iff (p : Found) (class_ : String) :
    SameValue (argument p class_) ↔ ∀ v ∈ unnamed p, ∀ w ∈ unnamed p, v = w := by
  constructor
  · intro h v hv w hw
    obtain ⟨j, hj⟩ := (mem_unnamed p class_ v).mp hv
    obtain ⟨k, hk⟩ := (mem_unnamed p class_ w).mp hw
    exact h j k v w hj hk
  · intro h j k v w hv hw
    exact h v ((mem_unnamed p class_ v).mpr ⟨j, hv⟩) w ((mem_unnamed p class_ w).mpr ⟨k, hw⟩)

/-- The line, for arguments that there are. -/
theorem printedLine_own_iff {p : Found} {class_ : String}
    (h : deviceClasses[p.class_]? = some class_) (behind : Fin 5 → Nat → Byte) (o : HexOutput)
    {order : List (Fin 5)} (horder : ∀ k, k ∈ order) :
    printedLine p order behind o = some (lineFormat fun k => (argument p class_ k).own) ↔
      ∀ v ∈ unnamed p, ∀ w ∈ unnamed p, v = w := by
  have hline : printedLine p order behind o =
      some (lineFormat (shown (argument p class_) behind o order)) := by
    rw [printedLine, arguments, h]
    rfl
  rw [hline, Option.some_inj, ← sameValue_iff p class_, ← shown_own_iff _ behind o horder]
  constructor
  · intro heq k
    have hclean := argument_clean h
    exact congrFun (lineFormat_injective (fun k => shown_clean hclean behind o (horder k))
      (fun k => (hclean k).own) heq) k
  · intro hown
    rw [funext hown]

/-- For every function header, every order of evaluation, and whatever is in the buffer and on
    the stack: all tables are read in their bounds and the line has the text of each lookup
    called alone, if and only if the class is below 20 and the fields without a name have one
    value. -/
theorem line_shows_own_iff (p : Found) (order : Equiv.Perm (Fin 5))
    (behind alone : Fin 5 → Nat → Byte) (o : HexOutput) :
    (∃ args, arguments p = some args ∧
        printedLine p ((List.finRange 5).map order) behind o =
          some (lineFormat fun k => (args k).alone (alone k) o)) ↔
      p.class_ < 20 ∧ ∀ v ∈ unnamed p, ∀ w ∈ unnamed p, v = w := by
  have horder : ∀ k, k ∈ (List.finRange 5).map order := fun k =>
    List.mem_map.mpr ⟨order.symm k, List.mem_finRange _, order.apply_symm_apply k⟩
  have hlength : deviceClasses.length = 20 := rfl
  simp only [Lookup.alone_eq]
  constructor
  · rintro ⟨args, hargs, hline⟩
    obtain ⟨class_, hclass, rfl⟩ := Option.map_eq_some_iff.mp hargs
    obtain ⟨hlt, -⟩ := List.getElem?_eq_some_iff.mp hclass
    exact ⟨by omega, (printedLine_own_iff hclass behind o horder).mp hline⟩
  · rintro ⟨hlt, hsame⟩
    have hclass : deviceClasses[p.class_]? = some deviceClasses[p.class_] :=
      List.getElem?_eq_getElem (by omega)
    refine ⟨argument p deviceClasses[p.class_], ?_, ?_⟩
    · rw [arguments, hclass]
      rfl
    · exact (printedLine_own_iff hclass behind o horder).mpr hsame

/-- A display controller of which neither vendor nor device has a name. -/
def unnamedVga : Found where
  entry := 0
  bus := 0
  device := 1
  function := 0
  address := 0
  vendorID := 0x1234
  deviceID := 0x1111
  progIF := 0
  subclass := 0
  class_ := 3

/-- Both are printed as one of the two. -/
theorem unnamed_fields_collide :
    ¬∀ (p : Found) (order : Equiv.Perm (Fin 5)) (behind alone : Fin 5 → Nat → Byte)
      (o : HexOutput), ∃ args, arguments p = some args ∧
        printedLine p ((List.finRange 5).map order) behind o =
          some (lineFormat fun k => (args k).alone (alone k) o) := by
  intro h
  obtain ⟨args, hargs, hline⟩ := h unnamedVga (Equiv.refl _) (fun _ _ => 0) (fun _ _ => 0)
    ⟨Vector.replicate 128 0, [], []⟩
  obtain rfl : argument unnamedVga "Display Controller" = args := Option.some_inj.mp hargs
  simp only [Lookup.alone_eq] at hline
  have hsame := (printedLine_own_iff rfl _ _ (fun k => List.mem_map.mpr
    ⟨k, List.mem_finRange k, rfl⟩)).mp hline
  exact absurd (hsame 0x1234 (by decide) 0x1111 (by decide)) (by decide)

end SeshOS.Pci
