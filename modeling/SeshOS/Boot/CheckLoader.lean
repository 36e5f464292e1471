/-
  `BOOT_CheckLoader` (boot/checkLoader.c): the bootloader's name and version.

  Strings and buffers are those of `Libc.Strings`: a store outside a buffer gives `none`.
  `stack` is what `str` holds before. Of `log` only the calls are kept, with the message as
  `log` finds it. `sprintf` expands `%s` to the bytes in front of the terminator.
-/
import SeshOS.Libc.Strings

namespace SeshOS.Boot

open Base Libc

/-- A terminated string: the bytes from the pointer to the end of its object. -/
abbrev CString := { s : List Byte // 0 ∈ s }

/-- The fields of `struct limine_bootloader_info_response` that are read. -/
structure BootloaderInfo where
  name : CString
  version : CString

/-- `BOOT_LoaderID`, `BOOT_LoaderName` and `BOOT_LoaderVersion`, and the calls
    `log(MODNAME, msg, level)`. -/
structure Loader where
  loaderID : Byte
  loaderName : Vector Byte 64
  loaderVersion : Vector Byte 64
  logged : List (List Byte × Byte)

def loaderIDLimineCompatible : Byte := 1
def loglevelInfo : Byte := 2
def loglevelWarn : Byte := 3

def Loader.log (b : Loader) (msg : List Byte) (level : Byte) : Loader :=
  { b with logged := b.logged ++ [(msg, level)] }

/-- `fmt` with its arguments. -/
def formatFound (name version : List Byte) : List Byte :=
  ascii "Found Limine compatible bootloader, named \"" ++ name ++
    ascii "\", with version \"" ++ version ++ ascii "\""

/-- `sprintf(str, fmt, limineData->name, limineData->version)` -/
def sprintfFound (str : Vector Byte 128) (name version : List Byte) : Option (Vector Byte 128) :=
  (stringEnd name).bind fun n =>
    (stringEnd version).bind fun v =>
      storeBytes str 0 (formatFound (name.take n) (version.take v) ++ [0])

/-- The copies to `BOOT_LoaderName` and to `BOOT_LoaderVersion`. -/
def copyReported (buf : Vector Byte 64) (reported : List Byte) : Option (Vector Byte 64) :=
  (strlen reported).bind fun n => if n ≤ 64 then strcpy buf reported else memcpy buf reported 64

/-- `LM_Check()` returned a response. -/
def limineFound (str : Vector Byte 128) (limineData : BootloaderInfo) (b : Loader) :
    Option Loader := do
  let str ← strcat str (ascii "YES" ++ [0])
  let b := b.log str.toList loglevelInfo
  let str ← sprintfFound str limineData.name limineData.version
  let b := b.log str.toList loglevelInfo
  let name ← copyReported b.loaderName limineData.name
  let version ← copyReported b.loaderVersion limineData.version
  some { b with
    loaderID := loaderIDLimineCompatible
    loaderName := name
    loaderVersion := version }

/-- `LM_Check()` returned `NULL`. -/
def noneFound (str : Vector Byte 128) (b : Loader) : Option Loader := do
  let str ← strcat str (ascii "NO" ++ [0])
  let b := b.log str.toList loglevelInfo
  some (b.log (ascii "No known bootloader detected!  Disabling bootloader-specific features." ++ [0])
    loglevelWarn)

def checkLoader (stack : Vector Byte 128) (limineData : Option BootloaderInfo) (b : Loader) :
    Option Loader := do
  let b := b.log (ascii "=== Autodetecting Bootloader ===" ++ [0]) loglevelInfo
  let str ← strcpy stack (ascii "Limine... " ++ [0])
  match limineData with
  | some limineData => limineFound str limineData b
  | none => noneFound str b

/-- Every store was inside its buffer, and the two buffers hold what was reported, or its first
    63 bytes. -/
def Recorded (info : BootloaderInfo) (result : Option Loader) : Prop :=
  ∃ b, result = some b ∧ Holds b.loaderName ((visible info.name).take 63) ∧
    Holds b.loaderVersion ((visible info.version).take 63)

/-! ## One copy -/

theorem copyReported_fits (buf : Vector Byte 64) (s : CString)
    (hs : (visible s.val).length ≤ 63) :
    ∃ buf', copyReported buf s = some buf' ∧ Holds buf' ((visible s.val).take 63) := by
  obtain ⟨buf', hrun, hholds⟩ := strcpy_holds buf s.property (by omega)
  refine ⟨buf', ?_, ?_⟩
  · rw [copyReported, strlen_visible s.property, if_pos (by omega), Option.bind_some,
      if_pos (by omega), hrun]
  · rw [List.take_of_length_le hs]
    exact hholds

/-- From 64 characters on there is no room for the terminator. -/
theorem copyReported_long {buf buf' : Vector Byte 64} {s : CString}
    (hs : 64 ≤ (visible s.val).length) (hrun : copyReported buf s = some buf') :
    ¬ Holds buf' ((visible s.val).take 63) := by
  have hcount : (visible s.val).length < 2 ^ 32 := by
    by_contra hcount
    rw [copyReported, strlen_visible s.property, if_neg hcount] at hrun
    cases hrun
  rw [copyReported, strlen_visible s.property, if_pos hcount, Option.bind_some] at hrun
  by_cases h64 : (visible s.val).length ≤ 64
  · rw [if_pos h64, strcpy_overflow buf s.property hs] at hrun
    cases hrun
  · rintro ⟨-, rest, hlist⟩
    have hlen : 64 ≤ s.val.length := by
      have htake := congrArg List.length (take_visible s.val)
      rw [List.length_take] at htake
      omega
    rw [if_neg h64, memcpy, if_pos hlen] at hrun
    obtain ⟨buf'', hrun', hlist'⟩ := storeBytes_fits buf (s.val.take 64) (k := 0) (by simp)
    obtain rfl := Option.some.inj (hrun.symm.trans hrun')
    -- the last byte is a character of the name
    have hlast : buf'.toList[63]? = (visible s.val)[63]? := by
      rw [hlist', ← take_visible s.val]
      simp [List.getElem?_take, hlen]
      omega
    have hzero : buf'.toList[63]? = some 0 := by
      rw [hlist, List.getElem?_append_right (by simp)]
      simp [show min 63 (visible s.val).length = 63 by omega]
    rw [hzero] at hlast
    exact zero_notMem_visible s.val (List.mem_of_getElem? hlast.symm)

/-! ## The message -/

theorem formatFound_length (name version : List Byte) :
    (formatFound name version).length = 61 + name.length + version.length := by
  have hfound : (ascii "Found Limine compatible bootloader, named \"").length = 43 := by decide
  have hwith : (ascii "\", with version \"").length = 17 := by decide
  have hend : (ascii "\"").length = 1 := by decide
  simp only [formatFound, List.length_append, hfound, hwith, hend]
  omega

theorem sprintfFound_eq (str : Vector Byte 128) (info : BootloaderInfo) :
    sprintfFound str info.name info.version =
      storeBytes str 0 (formatFound (visible info.name) (visible info.version) ++ [0]) := by
  rw [sprintfFound, stringEnd_visible info.name.property, Option.bind_some,
    stringEnd_visible info.version.property, Option.bind_some, take_visible, take_visible]

theorem sprintfFound_fits {info : BootloaderInfo}
    (h : (visible info.name.val).length + (visible info.version.val).length ≤ 66)
    (str : Vector Byte 128) : ∃ str', sprintfFound str info.name info.version = some str' := by
  obtain ⟨str', hrun, -⟩ := storeBytes_fits str
    (formatFound (visible info.name) (visible info.version) ++ [0]) (k := 0) (by
      rw [List.length_append, formatFound_length, List.length_singleton]
      omega)
  exact ⟨str', (sprintfFound_eq str info).trans hrun⟩

theorem sprintfFound_overflow {info : BootloaderInfo}
    (h : 66 < (visible info.name.val).length + (visible info.version.val).length)
    (str : Vector Byte 128) : sprintfFound str info.name info.version = none := by
  rw [sprintfFound_eq]
  refine storeBytes_overflow str (by simp) ?_
  rw [List.length_append, formatFound_length, List.length_singleton]
  omega

/-! ## The whole -/

theorem limine_copied (stack : Vector Byte 128) : ∃ str,
    strcpy stack (ascii "Limine... " ++ [0]) = some str ∧ Holds str (ascii "Limine... ") := by
  obtain ⟨str, hrun, hholds⟩ := strcpy_holds stack (s := ascii "Limine... " ++ [0]) (by decide)
    (by decide)
  exact ⟨str, hrun, hholds⟩

theorem checkLoader_found (stack : Vector Byte 128) (info : BootloaderInfo) (b : Loader) :
    ∃ (str : Vector Byte 128) (logged : List (List Byte × Byte)),
      checkLoader stack (some info) b =
        (sprintfFound str info.name info.version).bind fun str =>
          (copyReported b.loaderName info.name).bind fun name =>
            (copyReported b.loaderVersion info.version).bind fun version =>
              some ⟨loaderIDLimineCompatible, name, version,
                logged ++ [(str.toList, loglevelInfo)]⟩ := by
  obtain ⟨str, hcpy, hholds⟩ := limine_copied stack
  obtain ⟨str', hyes, -⟩ := strcat_holds hholds (t := ascii "YES") (by decide) (by decide)
    (by decide)
  refine ⟨str', ((b.log (ascii "=== Autodetecting Bootloader ===" ++ [0]) loglevelInfo).log
    str'.toList loglevelInfo).logged, ?_⟩
  rw [checkLoader, hcpy]
  show limineFound str info _ = _
  rw [limineFound, hyes]
  rfl

/-- `BOOT_CheckLoader` keeps to its buffers and keeps both strings exactly when each has at most
    63 characters and the two together at most 66. -/
theorem recorded_iff (stack : Vector Byte 128) (info : BootloaderInfo) (b : Loader) :
    Recorded info (checkLoader stack (some info) b) ↔
      (visible info.name.val).length ≤ 63 ∧ (visible info.version.val).length ≤ 63 ∧
        (visible info.name.val).length + (visible info.version.val).length ≤ 66 := by
  obtain ⟨str, logged, hrun⟩ := checkLoader_found stack info b
  rw [hrun]
  constructor
  · rintro ⟨r, hr, hname, hversion⟩
    obtain ⟨str', hmsg, hr⟩ := Option.bind_eq_some_iff.mp hr
    obtain ⟨name, hcopy, hr⟩ := Option.bind_eq_some_iff.mp hr
    obtain ⟨version, hcopy', hr⟩ := Option.bind_eq_some_iff.mp hr
    obtain rfl := Option.some.inj hr
    refine ⟨?_, ?_, ?_⟩
    · by_contra hlong
      exact copyReported_long (by omega) hcopy hname
    · by_contra hlong
      exact copyReported_long (by omega) hcopy' hversion
    · by_contra hlong
      rw [sprintfFound_overflow (by omega)] at hmsg
      cases hmsg
  · rintro ⟨hn, hv, hsum⟩
    obtain ⟨str', hmsg⟩ := sprintfFound_fits hsum str
    obtain ⟨name, hcopy, hname⟩ := copyReported_fits b.loaderName info.name hn
    obtain ⟨version, hcopy', hversion⟩ := copyReported_fits b.loaderVersion info.version hv
    rw [hmsg, hcopy, hcopy']
    exact ⟨_, rfl, hname, hversion⟩

/-- A name of 64 characters: `strcpy` stores its terminator behind `BOOT_LoaderName`. -/
theorem sixtyFour_overflow : ¬ Recorded
    ⟨⟨List.replicate 64 (chr 'a') ++ [0], by simp⟩, ⟨[0], by simp⟩⟩
    (checkLoader (Vector.replicate 128 0)
      (some ⟨⟨List.replicate 64 (chr 'a') ++ [0], by simp⟩, ⟨[0], by simp⟩⟩)
      ⟨0, Vector.replicate 64 0, Vector.replicate 64 0, []⟩) := by
  rintro ⟨b, hb, -⟩
  have hnone : (checkLoader (Vector.replicate 128 0)
      (some ⟨⟨List.replicate 64 (chr 'a') ++ [0], by simp⟩, ⟨[0], by simp⟩⟩)
      ⟨0, Vector.replicate 64 0, Vector.replicate 64 0, []⟩).isSome = false := by decide
  rw [hb] at hnone
  cases hnone

/-! ## Without a response -/

/-- `BOOT_CheckLoader` changes none of its globals. -/
theorem checkLoader_none (stack : Vector Byte 128) (b : Loader) :
    ∃ logged, checkLoader stack none b = some { b with logged := logged } := by
  obtain ⟨str, hcpy, hholds⟩ := limine_copied stack
  obtain ⟨str', hno, -⟩ := strcat_holds hholds (t := ascii "NO") (by decide) (by decide)
    (by decide)
  rw [checkLoader, hcpy]
  show ∃ logged, noneFound str _ = _
  rw [noneFound, hno]
  exact ⟨_, rfl⟩

end SeshOS.Boot
