/-
  The keyboard driver: `userinput/keyboard.c`.

  A store into `input` outside of its 100 bytes changes nothing that is modelled, and the read
  behind the end of the scan code table gives the byte `pastMapping`; both leave a mark in
  `stores` and `reads`, which list the indices used. `echo` lists the characters sent to the
  console and `ports` the bytes sent to I/O ports.
-/
import SeshOS.Libc.Strings

namespace SeshOS.UserInput

open Base Libc

def usQwertyLeftShift : Byte := 0x2A
def usQwertyRightShift : Byte := 0x36
def usQwertyEnter : Byte := 0x1C
def usQwertyBackspace : Byte := 0x0E

/-- `us_qwerty_ascii_ps2_mapping`. -/
def usQwertyAsciiPs2Mapping : List Byte :=
  [0, 0, chr '1', chr '2', chr '3', chr '4', chr '5', chr '6', chr '7', chr '8',
    chr '9', chr '0', chr '-', chr '=', 0, 0, chr 'q', chr 'w', chr 'e', chr 'r',
    chr 't', chr 'y', chr 'u', chr 'i', chr 'o', chr 'p', chr '[', chr ']', 0, 0,
    chr 'a', chr 's', chr 'd', chr 'f', chr 'g', chr 'h', chr 'j', chr 'k', chr 'l', chr ';',
    0x27, chr '`', 0, 0x5C, chr 'z', chr 'x', chr 'c', chr 'v', chr 'b', chr 'n',
    chr 'm', chr ',', chr '.', chr '/', 0, chr '*', 0, chr ' ']

structure Keyboard where
  input : Vector Byte 100
  i : Int
  leftShiftPressed : Byte
  rightShiftPressed : Byte
  pastMapping : Byte
  reads : List Nat
  stores : List Int
  echo : List Byte
  ports : List (BitVec 16 × Byte)

/-- The globals as the kernel starts. -/
def bootKeyboard (pastMapping : Byte) : Keyboard where
  input := Vector.replicate 100 0
  i := 0
  leftShiftPressed := 0
  rightShiftPressed := 0
  pastMapping := pastMapping
  reads := []
  stores := []
  echo := []
  ports := []

/-- The character of a key with shift down: the three chains of
    `get_us_qwerty_char_from_scan_code`. -/
def shiftChar (c : Byte) : Byte :=
  let c := if 96 < c ∧ c < 123 then c - 32 else c
  let c :=
    if c = chr '1' then chr '!'
    else if c = chr '2' then chr '@'
    else if c = chr '3' then chr '#'
    else if c = chr '4' then chr '$'
    else if c = chr '5' then chr '%'
    else if c = chr '6' then chr '^'
    else if c = chr '7' then chr '&'
    else if c = chr '8' then chr '*'
    else if c = chr '9' then chr '('
    else if c = chr '0' then chr ')'
    else c
  if c = chr '`' then chr '~'
  else if c = chr '-' then chr '_'
  else if c = chr '=' then chr '+'
  else if c = chr '[' then chr '{'
  else if c = chr ']' then chr '}'
  else if c = 0x5C then chr '|'
  else if c = chr ';' then chr ':'
  else if c = 0x27 then 0x22
  else if c = chr ',' then chr '<'
  else if c = chr '.' then chr '>'
  else if c = chr '/' then chr '?'
  else c

def getUsQwertyCharFromScanCode (k : Keyboard) (scancode : Byte) : Byte :=
  if 58 < scancode then 0
  else
    let c := usQwertyAsciiPs2Mapping.getD scancode.toNat k.pastMapping
    if k.leftShiftPressed ≠ 0 ∨ k.rightShiftPressed ≠ 0 then shiftChar c else c

/-- The read of the table that goes with it. -/
def Keyboard.read (k : Keyboard) (scancode : Byte) : Keyboard :=
  if 58 < scancode then k else { k with reads := k.reads ++ [scancode.toNat] }

/-- `input[j] = c`. -/
def Keyboard.store (k : Keyboard) (j : Int) (c : Byte) : Keyboard :=
  { k with
    input := if h : 0 ≤ j ∧ j < 100 then k.input.set j.toNat c (by omega) else k.input
    stores := k.stores ++ [j] }

/-- The loop of Enter over `input`. -/
def Keyboard.clearInput (k : Keyboard) : Keyboard :=
  (List.range 100).foldl (fun k (j : Nat) => k.store j 0) k

/-- `printf(str)` with one character in front of the terminator: a lone `%` starts a format
    specifier and prints nothing. -/
def printfChar (c : Byte) : List Byte := if c = chr '%' then [] else [c]

/-- The first two `if` chains of `HandleKeyboard`, and what is left of the character. -/
def shiftKeys (k : Keyboard) (scancode c : Byte) : Keyboard × Byte :=
  let (k, c) :=
    if scancode = usQwertyLeftShift then ({ k with leftShiftPressed := 1 }, 0)
    else if scancode = usQwertyRightShift then ({ k with rightShiftPressed := 1 }, 0)
    else (k, c)
  if scancode = usQwertyLeftShift + 0x80 then ({ k with leftShiftPressed := 0 }, 0)
  else if scancode = usQwertyRightShift + 0x80 then ({ k with rightShiftPressed := 0 }, 0)
  else (k, c)

/-- The third one: Enter and Backspace. -/
def lineKeys (k : Keyboard) (scancode c : Byte) : Keyboard × Byte :=
  if scancode = usQwertyEnter then
    let k := { k with echo := k.echo ++ [0x0A], i := 0 }
    (k.clearInput, 0)
  else if scancode = usQwertyBackspace then
    let k := { k with echo := k.echo ++ [0x08], i := k.i - 1 }
    let k := k.store k.i 0
    (if k.i < 0 then { k with i := 0 } else k, 0)
  else (k, c)

def handleKeyboard (k : Keyboard) (scancode : Byte) : Keyboard :=
  let c := getUsQwertyCharFromScanCode k scancode
  let (k, c) := shiftKeys (k.read scancode) scancode c
  let (k, c) := lineKeys k scancode c
  let k :=
    if c ≠ 0 then
      let k := k.store k.i c
      { k with i := k.i + 1, echo := k.echo ++ printfChar c }
    else k
  { k with ports := k.ports ++ [(0x20, 0x20)] }

end SeshOS.UserInput
