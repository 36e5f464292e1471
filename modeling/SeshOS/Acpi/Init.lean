/-
  `ACPI_Init` (acpi/acpi.c), and how far it and `EnumeratePCI` read their tables.

  Both loops count their entries in an `int` that is a 64-bit quotient cut off: a length below
  the header's wraps around, and what is left of the quotient is negative (`slots_toNat`). So
  neither loop reads a slot that ends behind the length, and none is left out
  (`tables_read_exactly`). Of `log` the calls are kept, each with its text up to the terminator.
-/
import SeshOS.Acpi.Checksum
import SeshOS.Libc.Hex
import SeshOS.Pci.Calls
import SeshOS.Video.Log

namespace SeshOS.Acpi

open Base Libc
open Boot (loglevelInfo)
open Video (loglevelFatal padRight)

/-! ## acpi.c -/

/-- `mcfg`, the calls of `log`, and the indices of `pointerToOtherSDT` read. -/
structure Tables where
  mcfg : Nat
  logged : List Logged
  slots : List Nat

def Tables.log (a : Tables) (msg : List Byte) (level : Byte) : Tables :=
  { a with logged := a.logged ++ [(msg, level)] }

@[simp] theorem Tables.log_slots (a : Tables) (msg : List Byte) (level : Byte) :
    (a.log msg level).slots = a.slots := rfl

/-- The `n` bytes of a field. -/
def field (m : Mem) (p n : Nat) : List Byte := (List.range n).map fun i => m ((p + i) % 2 ^ 64)

/-- `memcmp` of a signature with a literal says that they are equal. -/
def signed (m : Mem) (p : Nat) (signature : String) : Bool :=
  memcmp (field m p (ascii signature).length) (ascii signature) (ascii signature).length = some 0

/-- `"%-4s"` of the four bytes of a signature, in a buffer with a terminator. -/
def signatureText (m : Mem) (p : Nat) : List Byte := padRight 4 (visible (field m p 4 ++ [0]))

/-- `rsdp->firstPart.revision` and `rsdp->firstPart.RSDTAddress`. -/
def rsdpRevision (m : Mem) (rsdp : Nat) : Byte := tableByte m rsdp 15
def rsdtAddress (m : Mem) (rsdp : Nat) : Nat := m.loadLE (rsdp + 16) 4

/-- `OEMRevision` of an `ACPISDTHeader`. -/
def oemRevision (m : Mem) (header : Nat) : Nat := m.loadLE (header + 24) 4

/-- `entries`: the subtraction is on `size_t`, the quotient becomes an `int`. -/
def rsdtEntries (m : Mem) (rsdt : Nat) : Int :=
  (BitVec.ofNat 32 ((sdtLength m rsdt + (2 ^ 64 - sdtHeaderSize)) % 2 ^ 64 / 4)).toInt

/-- `rsdt->pointerToOtherSDT[i]` -/
def pointerToOtherSDT (m : Mem) (rsdt i : Nat) : Nat := m.loadLE (rsdt + sdtHeaderSize + 4 * i) 4

/-- One round of the loop of `ACPI_Init`. -/
def acpiRound (m : Mem) (rsdt : Nat) (a : Tables) (i : Nat) : Tables :=
  let h := pointerToOtherSDT m rsdt i
  let a := { a with slots := a.slots ++ [i] }
  let a := a.log (ascii "Found ACPI Entry: \"" ++ signatureText m h ++ ascii "\"") loglevelInfo
  let a := if signed m h "FACP" then a.log (ascii "Found FACP") loglevelInfo else a
  if signed m h "MCFG" then { a with mcfg := h } else a

def acpiLoop (m : Mem) (rsdt : Nat) (a : Tables) : Tables :=
  (List.range (rsdtEntries m rsdt).toNat).foldl (acpiRound m rsdt) a

/-- `ACPI_Init` from the RSDT on. -/
def acpiRsdt (m : Mem) (rsdt : Nat) (a : Tables) : Tables :=
  let a := a.log (ascii "Found ACPI RSDT.  Signature: \"" ++ signatureText m rsdt ++ ascii "\"")
    loglevelInfo
  let checksum := doChecksum m rsdt
  let a := { a with logged := a.logged ++ checksum.2 }
  let a := if checksum.1 then a.log (ascii "ACPI RSDT Checksum passed.") loglevelInfo else a
  let a := a.log (ascii "RSDT OEM ID: " ++ visible (field m (rsdt + 10) 6 ++ [0])) loglevelInfo
  let a := a.log (ascii "RSDT OEM Revision: " ++ ascii (toString (oemRevision m rsdt))) loglevelInfo
  acpiLoop m rsdt a

/-- `ACPI_Init`, for an RSDP at `p`. An error is the panic, with what has been done before it. -/
def acpiInit (m : Mem) (p : Nat) (a : Tables) : Except Tables Tables :=
  if !signed m p "RSD PTR " then .ok (a.log (ascii "Bad ACPI") loglevelFatal)
  else
    let a := a.log (ascii "Found ACPI Tables at address 0x" ++ hexDigits (BitVec.ofNat 64 p) ++
      ascii "!") loglevelInfo
    let a := a.log (if rsdpRevision m p = 0 then ascii "ACPI Revision 1.0"
      else ascii "ACPI Revision >= 2.0") loglevelInfo
    let a := a.log (ascii "OEM ID: " ++ visible (field m (p + 9) 6 ++ [0])) loglevelInfo
    let rsdt := rsdtAddress m p
    if !signed m rsdt "RSDT" then
      .error (a.log (ascii "ACPI RSDT signature not correct!  Expected: \"RSDT\", got: \"" ++
        signatureText m rsdt ++ ascii "\"") loglevelFatal)
    else .ok (acpiRsdt m rsdt a)

/-! ## How many slots there are -/

/-- A count of slots of `size` bytes behind a header, cut off to an `int`. -/
theorem slots_toNat {length header size : Nat} (hlength : length < 2 ^ 32)
    (hheader : header < 2 ^ 31) (hsize : size = 4 ∨ size = 16) :
    (BitVec.ofNat 32 ((length + (2 ^ 64 - header)) % 2 ^ 64 / size)).toInt.toNat =
      (length - header) / size := by
  rw [BitVec.toInt_eq_toNat_cond, BitVec.toNat_ofNat]
  rcases hsize with rfl | rfl
  · split <;> omega
  · split <;> omega

theorem rsdtEntries_toNat (m : Mem) (rsdt : Nat) :
    (rsdtEntries m rsdt).toNat = (sdtLength m rsdt - sdtHeaderSize) / 4 :=
  slots_toNat (Mem.loadLE_lt m (rsdt + 4) 4) (by unfold sdtHeaderSize; omega) (.inl rfl)

/-! ## What is read -/

/-- Nothing but the loop index decides what a round reads. -/
theorem acpiRound_slots (m : Mem) (rsdt : Nat) (a : Tables) (i : Nat) :
    (acpiRound m rsdt a i).slots = a.slots ++ [i] := by
  unfold acpiRound
  by_cases hf : signed m (pointerToOtherSDT m rsdt i) "FACP" <;>
    by_cases hm : signed m (pointerToOtherSDT m rsdt i) "MCFG" <;>
    simp [hf, hm]

theorem acpiLoop_slots (m : Mem) (rsdt : Nat) (a : Tables) :
    (acpiLoop m rsdt a).slots = a.slots ++ List.range (rsdtEntries m rsdt).toNat := by
  unfold acpiLoop
  induction (rsdtEntries m rsdt).toNat with
  | zero => exact (List.append_nil _).symm
  | succ n ih =>
    rw [List.range_succ, List.foldl_append, List.foldl_cons, List.foldl_nil, acpiRound_slots, ih,
      List.append_assoc]

theorem acpiRsdt_slots (m : Mem) (rsdt : Nat) (a : Tables) :
    (acpiRsdt m rsdt a).slots = a.slots ++ List.range (rsdtEntries m rsdt).toNat := by
  unfold acpiRsdt
  by_cases hpassed : (doChecksum m rsdt).1 <;> simp [hpassed, acpiLoop_slots]

/-- A run of `ACPI_Init` reads the slots in its loop, when it gets there. -/
theorem acpiInit_slots {m : Mem} {p : Nat} {a a' : Tables} (h : acpiInit m p a = .ok a') :
    a'.slots = a.slots ++
      if signed m p "RSD PTR " then List.range (rsdtEntries m (rsdtAddress m p)).toNat else [] := by
  unfold acpiInit at h
  by_cases hp : signed m p "RSD PTR "
  · by_cases hr : signed m (rsdtAddress m p) "RSDT"
    · simp only [hp, hr, Bool.not_true, Bool.false_eq_true, if_false, Except.ok.injEq] at h
      rw [← h, acpiRsdt_slots, if_pos hp]
      simp only [Tables.log_slots]
    · simp [hp, hr] at h
  · simp only [hp, Bool.not_false, if_true, Except.ok.injEq] at h
    rw [← h, if_neg hp, Tables.log_slots, List.append_nil]

/-- For every memory, and so every value of the two lengths: the slots that the loop of
    `ACPI_Init` reads of the RSDT are those that end below its length, in every run that gets to
    the loop, and the entries that the loop of `EnumeratePCI` reads are those that end below the
    length of the MCFG. -/
theorem tables_read_exactly (m : Mem) {p : Nat} {a a' : Tables} (hrun : acpiInit m p a = .ok a')
    (hp : signed m p "RSD PTR ") {mcfg : Nat} (hmcfg : mcfg ≠ 0) :
    (∃ read : List Nat, a'.slots = a.slots ++ read ∧
      ∀ i, i ∈ read ↔ 36 + 4 * i + 3 < sdtLength m (rsdtAddress m p)) ∧
    Pci.enumeratePCI m mcfg = some (Pci.enumerateLoop m mcfg).found ∧
      ∀ t, t ∈ (Pci.enumerateLoop m mcfg).read ↔ 44 + 16 * t + 15 < Pci.tableLength m mcfg := by
  refine ⟨⟨List.range (rsdtEntries m (rsdtAddress m p)).toNat, ?_, fun i => ?_⟩,
    Pci.enumeratePCI_loop m hmcfg, fun t => ?_⟩
  · have hslots := acpiInit_slots hrun
    rwa [if_pos hp] at hslots
  · rw [List.mem_range, rsdtEntries_toNat, sdtHeaderSize]
    omega
  · rw [Pci.enumerateLoop_eq]
    simp only [List.mem_range, Pci.tableEntries, Pci.mcfgHeaderSize, Pci.deviceConfigSize]
    omega

/-- An RSDP at `0x1000` for an RSDT at `0x2000`, and an MCFG at `0x3000`; `length` is the first
    byte of the length of both. -/
def twoTables (length : Byte) : Mem := fun x =>
  if x < 0x1008 then ((ascii "RSD PTR ")[x - 0x1000]?).getD 0
  else if x = 0x1011 then 0x20
  else if 0x2000 ≤ x ∧ x < 0x2004 then ((ascii "RSDT")[x - 0x2000]?).getD 0
  else if x = 0x2004 ∨ x = 0x3004 then length
  else 0

theorem acpiInit_ok {m : Mem} {p : Nat} (a : Tables) (hp : signed m p "RSD PTR ")
    (hr : signed m (rsdtAddress m p) "RSDT") : ∃ a', acpiInit m p a = .ok a' := by
  unfold acpiInit
  simp [hp, hr]

/-- Of two tables of 60 bytes the first six slots and the first entry are read. -/
theorem tables_read_exactly_sixty : ∃ a', acpiInit (twoTables 60) 0x1000 ⟨0, [], []⟩ = .ok a' ∧
    (5 ∈ a'.slots ∧ 6 ∉ a'.slots) ∧ 0 ∈ (Pci.enumerateLoop (twoTables 60) 0x3000).read ∧
      1 ∉ (Pci.enumerateLoop (twoTables 60) 0x3000).read := by
  obtain ⟨a', hrun⟩ := acpiInit_ok (m := twoTables 60) (p := 0x1000) ⟨0, [], []⟩ (by decide)
    (by decide)
  obtain ⟨⟨read, hslots, hread⟩, -, henumerate⟩ :=
    tables_read_exactly (twoTables 60) hrun (by decide) (show 0x3000 ≠ 0 by decide)
  have hrsdt : sdtLength (twoTables 60) (rsdtAddress (twoTables 60) 0x1000) = 60 := by decide
  have hmcfg : Pci.tableLength (twoTables 60) 0x3000 = 60 := by decide
  rw [List.nil_append] at hslots
  refine ⟨a', hrun, ?_, ?_⟩
  · rw [hslots, hread, hread]
    omega
  · rw [henumerate, henumerate]
    omega

end SeshOS.Acpi
