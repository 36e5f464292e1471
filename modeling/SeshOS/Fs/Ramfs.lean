/-
  The initial RAM file system: `fs/ramfs.c`.

  `headers` is the memory from the array `headers[32]` on, one pointer for each index; that it
  has 32 entries is no part of the code's arithmetic, so an index past them is visible only in
  the lists `stores` and `reads`, which record the indices (in `parse` also the header
  addresses) used so far. The loops are bounded runs of their bodies.
-/
import SeshOS.Base.Loop
import SeshOS.Libc.Strings

namespace SeshOS.Fs

open Base Libc

/-- The `n` bytes from `p` on. -/
def bytesAt (mem : Mem) (p n : Nat) : List Byte := (List.range n).map fun j => mem (p + j)

/-! ## struct tar_header -/

/-- `offsetof(struct tar_header, size)`. -/
def sizeOffset : Nat := 124

/-- `sizeof(struct tar_header)`. -/
def tarHeaderBytes : Nat := 157

/-! ## parse -/

/-- The loop of `getsize` over `in[j - 1]`, …, `in[0]`. A `char` is signed, and the product
    and the sum are of 32-bit unsigned integers. -/
def getsizeLoop (mem : Mem) (p : Nat) : Nat → BitVec 32 → BitVec 32 → BitVec 32
  | 0, size, _ => size
  | j + 1, size, count =>
    getsizeLoop mem p j
      (size + ((mem (p + j)).signExtend 32 - (chr '0').signExtend 32) * count) (count * 8)

def getsize (mem : Mem) (p : Nat) : Nat := (getsizeLoop mem p 11 0 1).toNat

structure ParseState where
  address : Nat
  i : Nat
  headers : Nat → Nat
  stores : List Nat
  reads : List Nat

/-- `address` is the low half of the 64-bit address in the module's record. -/
def parseStart (initramfs : Nat) (headers : Nat → Nat) : ParseState where
  address := initramfs % 2 ^ 32
  i := 0
  headers := headers
  stores := []
  reads := []

/-- The address after a header whose contents take `size` bytes. -/
def nextAddress (address size : Nat) : Nat :=
  let address := (address + (size / 512 + 1) * 512) % 2 ^ 32
  if size % 512 ≠ 0 then (address + 512) % 2 ^ 32 else address

/-- One round of the loop of `parse`. The state it leaves with has the count in `i`. -/
def parseBody (mem : Mem) (s : ParseState) : Iter ParseState ParseState :=
  let header := s.address
  let s := { s with
    headers := Function.update s.headers s.i header
    stores := s.stores ++ [s.i]
    reads := s.reads ++ [header] }
  if mem header = 0 then .done s
  else
    let size := getsize mem (header + sizeOffset)
    .next { s with address := nextAddress s.address size, i := (s.i + 1) % 2 ^ 32 }

/-- At most `fuel` rounds of `parse`. -/
def parse (mem : Mem) (initramfs : Nat) (headers : Nat → Nat) (fuel : Nat) :
    Iter ParseState ParseState :=
  loop (parseBody mem) fuel (parseStart initramfs headers)

/-! ## readFile -/

/-- Where the linker put the literal of `readFile`'s loop test: like all of the kernel, in the
    highest two gigabytes. -/
structure KernelImage where
  emptyLiteral : Nat
  inKernel : 0xffffffff80000000 ≤ emptyLiteral

structure SearchState where
  i : Nat
  header : Nat
  reads : List Nat

/-- One round of the loop of `readFile`. The test compares the address of the file name with
    that of the literal, and a result of `strcmp` other than zero ends the search. -/
def readFileBody (image : KernelImage) (mem : Mem) (headers : Nat → Nat) (name : List Byte)
    (s : SearchState) : Iter SearchState SearchState :=
  let filename := headers s.i
  let s := { s with reads := s.reads ++ [s.i] }
  if filename = image.emptyLiteral then .done s
  else if strcmp (name ++ [0]) (bytesAt mem filename (name.length + 1)) ≠ some 0 then
    .done { s with header := headers s.i }
  else .next { s with i := s.i + 1 }

/-- At most `fuel` rounds of `readFile`; the pointer it returns is 512 bytes behind `header`. -/
def readFile (image : KernelImage) (mem : Mem) (initramfs : Nat) (headers : Nat → Nat)
    (name : List Byte) (fuel : Nat) : Iter SearchState SearchState :=
  loop (readFileBody image mem headers name) fuel ⟨0, initramfs % 2 ^ 32, []⟩

def SearchState.contents (s : SearchState) : Nat := s.header + 512

/-! ## ls -/

/-- The four globals that `ls` works in. -/
structure LsBuffers where
  fullName : TwoStrings
  nameInPath : TwoStrings
  oldFullName : TwoStrings
  oldNameInPath : TwoStrings

structure LsState where
  i : Nat
  buffers : LsBuffers
  reads : List Nat
  printed : List Byte
  fault : Bool

/-- The first 100 bytes of both strings set to zero. -/
def clear100 (t : TwoStrings) : TwoStrings where
  a := Vector.ofFn fun j => if j.val < 100 then 0 else t.a[j]
  b := Vector.ofFn fun j => if j.val < 100 then 0 else t.b[j]

def LsBuffers.clear (b : LsBuffers) : LsBuffers :=
  ⟨clear100 b.fullName, clear100 b.nameInPath, clear100 b.oldFullName, clear100 b.oldNameInPath⟩

/-- `strsplit` of a string in memory. More than 255 characters do not fit its buffers. -/
def strsplitAt (mem : Mem) (stack : TwoStrings) (p : Nat) (split : Byte) : Option TwoStrings :=
  strsplit stack (bytesAt mem p 256) split

/-- `printf("%s\n", str)`. -/
def LsState.printLine (s : LsState) (str : List Byte) : LsState :=
  { s with printed := s.printed ++ visible str ++ [0x0A] }

/-- The two assignments that split the name of `headers[i]`. -/
def lsSplit (mem : Mem) (headers : Nat → Nat) (stack : Fin 4 → TwoStrings) (s : LsState) :
    Option LsState := do
  let fullName ← strsplitAt mem (stack 0) (headers s.i) (chr '/')
  let nameInPath ← strsplit (stack 1) fullName.b.toList (chr '/')
  some { s with buffers := { s.buffers with fullName := fullName, nameInPath := nameInPath } }

/-- The rest of the round: the name in front of this one, and what is printed. -/
def lsPrint (mem : Mem) (headers : Nat → Nat) (stack : Fin 4 → TwoStrings) (s : LsState) :
    Option LsState :=
  let name := s.buffers.nameInPath.a.toList
  if 1 < s.i then do
    let oldFullName ← strsplitAt mem (stack 2) (headers (s.i - 1)) (chr '/')
    let oldNameInPath ← strsplit (stack 3) oldFullName.b.toList (chr '/')
    let s := { s with
      buffers := { s.buffers with oldFullName := oldFullName, oldNameInPath := oldNameInPath } }
    let differ ← strcmp oldNameInPath.a.toList name
    some (if differ = 0 then s.printLine name else s)
  else some (s.printLine name)

/-- One round of the loop of `ls`. `stack` is what the buffers of the calls of `strsplit` hold
    before; a call that leaves them ends the run with `fault`. -/
def lsBody (mem : Mem) (headers : Nat → Nat) (stack : Nat → Fin 4 → TwoStrings) (s : LsState) :
    Iter LsState LsState :=
  let s := { s with reads := s.reads ++ [s.i] }
  if mem (headers s.i) = 0 then .done s
  else
    let s := { s with buffers := s.buffers.clear, reads := s.reads ++ [s.i] }
    match lsSplit mem headers (stack s.i) s with
    | none => .done { s with fault := true }
    | some s =>
      let s := if 1 < s.i then { s with reads := s.reads ++ [s.i - 1] } else s
      match lsPrint mem headers (stack s.i) s with
      | none => .done { s with fault := true }
      | some s => .next { s with i := s.i + 1 }

/-- At most `fuel` rounds of `ls`. -/
def ls (mem : Mem) (headers : Nat → Nat) (stack : Nat → Fin 4 → TwoStrings) (buffers : LsBuffers)
    (fuel : Nat) : Iter LsState LsState :=
  loop (lsBody mem headers stack) fuel ⟨1, buffers, [], [], false⟩

end SeshOS.Fs
