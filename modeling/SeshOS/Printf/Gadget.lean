/-
  The output gadget of `video/printf.c`: where the characters of a formatted text go.

  A gadget hands its characters to a function, or stores them in a buffer, or drops them; it
  counts all of them in `pos`, a 32-bit number. `buffer` is the object the pointer points to:
  a store outside of it gives `none`, and so does a store through the null pointer. A function
  works on a state `σ`, which stands for whatever is behind `extra_function_arg`, and may fail.

  `emit` sends a text to a gadget. What it does to each kind of gadget is said once
  (`emit_buffer`, `emit_function`, `emit_discarding`), the first two as long as `pos` does not
  wrap.
-/
import SeshOS.Libc.Strings

namespace SeshOS.Printf

open Base Libc

abbrev PrintfSize := BitVec 32

/-- `PRINTF_MAX_POSSIBLE_BUFFER_SIZE`, which is `INT_MAX`. -/
def maxPossibleBufferSize : PrintfSize := 0x7fffffff

structure OutputGadget (σ : Type) (n : Nat) where
  function : Option (σ → Byte → Option σ)
  extraFunctionArg : σ
  buffer : Option (Vector Byte n)
  pos : PrintfSize
  maxChars : PrintfSize

variable {σ : Type} {n : Nat}

def putcharViaGadget (gadget : OutputGadget σ n) (c : Byte) : Option (OutputGadget σ n) :=
  let writePos := gadget.pos
  let gadget := { gadget with pos := gadget.pos + 1 }
  if gadget.maxChars ≤ writePos then some gadget
  else
    match gadget.function with
    | some function =>
      (function gadget.extraFunctionArg c).map fun arg => { gadget with extraFunctionArg := arg }
    | none =>
      match gadget.buffer with
      | some buffer =>
        if h : writePos.toNat < n then
          some { gadget with buffer := some (buffer.set writePos.toNat c) }
        else none
      | none => none

def appendTermWithGadget (gadget : OutputGadget σ n) : Option (OutputGadget σ n) :=
  if gadget.function.isSome ∨ gadget.maxChars = 0 then some gadget
  else
    match gadget.buffer with
    | none => some gadget
    | some buffer =>
      let nullCharPos := if gadget.pos < gadget.maxChars then gadget.pos else gadget.maxChars - 1
      if h : nullCharPos.toNat < n then
        some { gadget with buffer := some (buffer.set nullCharPos.toNat 0) }
      else none

def discardingGadget (arg : σ) : OutputGadget σ n := ⟨none, arg, none, 0, 0⟩

/-- `buffer` is `none` for the null pointer. -/
def bufferGadget (buffer : Option (Vector Byte n)) (size : BitVec 64) : OutputGadget Unit n :=
  let usableBufferSize :=
    if maxPossibleBufferSize.setWidth 64 < size then maxPossibleBufferSize else size.setWidth 32
  let result := discardingGadget ()
  if buffer.isSome then { result with buffer := buffer, maxChars := usableBufferSize } else result

def functionGadget (function : σ → Byte → Option σ) (extraArg : σ) : OutputGadget σ n :=
  { discardingGadget extraArg with function := some function, maxChars := maxPossibleBufferSize }

/-! ## Padding -/

/-- The loops that put one space in each of a number of rounds. -/
def putSpaces (output : OutputGadget σ n) : Nat → Option (OutputGadget σ n)
  | 0 => some output
  | k + 1 => (putcharViaGadget output (chr ' ')).bind fun output => putSpaces output k

/-- `while (output->pos - start_pos < width)`, at most `rounds` times. -/
def padFrom (startPos width : PrintfSize) : Nat → OutputGadget σ n → Option (OutputGadget σ n)
  | 0, output => some output
  | rounds + 1, output =>
    if output.pos - startPos < width then
      (putcharViaGadget output (chr ' ')).bind (padFrom startPos width rounds)
    else some output

/-! ## A text -/

namespace OutputGadget

/-- One character after the other. -/
def emit (output : OutputGadget σ n) (s : List Byte) : Option (OutputGadget σ n) :=
  s.foldlM putcharViaGadget output

variable (output : OutputGadget σ n)

theorem emit_cons (b : Byte) (s : List Byte) :
    output.emit (b :: s) = (putcharViaGadget output b).bind fun output => output.emit s :=
  List.foldlM_cons

theorem emit_append (s t : List Byte) :
    output.emit (s ++ t) = (output.emit s).bind fun output => output.emit t :=
  List.foldlM_append

theorem emit_singleton (b : Byte) : output.emit [b] = putcharViaGadget output b := by
  rw [emit_cons]
  cases putcharViaGadget output b <;> rfl

variable {output}

/-- `putcharViaGadget` counts, whatever becomes of the character. -/
theorem putchar_counts {output' : OutputGadget σ n} {c : Byte}
    (h : putcharViaGadget output c = some output') :
    output'.pos = output.pos + 1 ∧ output'.maxChars = output.maxChars := by
  unfold putcharViaGadget at h
  dsimp only at h
  split at h
  · cases h
    exact ⟨rfl, rfl⟩
  · split at h
    · obtain ⟨arg, -, rfl⟩ := Option.map_eq_some_iff.mp h
      exact ⟨rfl, rfl⟩
    · split at h
      · split at h
        · cases h
          exact ⟨rfl, rfl⟩
        · cases h
      · cases h

/-- A text moves `pos` by its length. -/
theorem emit_counts {output' : OutputGadget σ n} {s : List Byte} (h : output.emit s = some output') :
    output'.pos = output.pos + BitVec.ofNat 32 s.length ∧ output'.maxChars = output.maxChars := by
  induction s generalizing output with
  | nil =>
    cases h
    exact ⟨(BitVec.add_zero _).symm, rfl⟩
  | cons b s ih =>
    rw [emit_cons] at h
    obtain ⟨next, hput, h⟩ := Option.bind_eq_some_iff.mp h
    obtain ⟨hpos, hmax⟩ := putchar_counts hput
    obtain ⟨hpos', hmax'⟩ := ih h
    rw [hpos', hmax', hpos, hmax, List.length_cons, Nat.add_comm s.length, BitVec.ofNat_add,
      ← BitVec.add_assoc]
    exact ⟨rfl, rfl⟩

variable (output)

theorem putSpaces_eq (k : Nat) : putSpaces output k = output.emit (List.replicate k (chr ' ')) := by
  induction k generalizing output with
  | zero => rfl
  | succ k ih =>
    rw [putSpaces, List.replicate_succ, emit_cons]
    congr 1
    funext next
    exact ih next

/-- From `d` characters on, up to the width. -/
theorem padFrom_eq {startPos width : PrintfSize} {rounds : Nat}
    (hrounds : width.toNat - (output.pos - startPos).toNat ≤ rounds) :
    padFrom startPos width rounds output =
      output.emit (List.replicate (width.toNat - (output.pos - startPos).toNat) (chr ' ')) := by
  induction rounds generalizing output with
  | zero =>
    rw [Nat.le_zero.mp hrounds]
    rfl
  | succ rounds ih =>
    rw [padFrom]
    by_cases hlt : output.pos - startPos < width
    · have hltNat : (output.pos - startPos).toNat < width.toNat := hlt
      have hnext : (output.pos + 1 - startPos).toNat = (output.pos - startPos).toNat + 1 := by
        bv_omega
      have hsucc : width.toNat - (output.pos - startPos).toNat =
          (width.toNat - ((output.pos - startPos).toNat + 1)) + 1 := by omega
      rw [if_pos hlt, hsucc, List.replicate_succ, emit_cons]
      cases hput : putcharViaGadget output (chr ' ') with
      | none => rfl
      | some next =>
        rw [← (putchar_counts hput).1] at hnext
        rw [Option.bind_some, Option.bind_some, ih next (by omega), hnext]
    · have hge : width.toNat ≤ (output.pos - startPos).toNat := Nat.le_of_not_lt hlt
      rw [if_neg hlt, Nat.sub_eq_zero_of_le hge]
      rfl

/-! ## What becomes of a text -/

/-- `k` characters further, with nothing stored or handed on. -/
def counted (k : Nat) : OutputGadget σ n := { output with pos := output.pos + BitVec.ofNat 32 k }

theorem counted_zero : output.counted 0 = output := by
  unfold counted
  rw [BitVec.add_zero]

theorem counted_counted (j k : Nat) : (output.counted j).counted k = output.counted (j + k) := by
  unfold counted
  rw [BitVec.ofNat_add, BitVec.add_assoc]

theorem counted_pos {k : Nat} (h : output.pos.toNat + k < 2 ^ 32) :
    (output.counted k).pos.toNat = output.pos.toNat + k := by
  show (output.pos + BitVec.ofNat 32 k).toNat = _
  rw [BitVec.toNat_add, BitVec.toNat_ofNat, Nat.add_mod_mod, Nat.mod_eq_of_lt h]

/-! One character, for each kind of gadget. -/

theorem putchar_full {c : Byte} (h : output.maxChars.toNat ≤ output.pos.toNat) :
    putcharViaGadget output c = some (output.counted 1) := if_pos h

theorem putchar_buffer {buffer : Vector Byte n} {c : Byte} (hf : output.function = none)
    (hb : output.buffer = some buffer) (h : output.pos.toNat < output.maxChars.toNat) :
    putcharViaGadget output c =
      if h : output.pos.toNat < n then
        some { output.counted 1 with buffer := some (buffer.set output.pos.toNat c) }
      else none := by
  obtain ⟨function, arg, buf, pos, maxChars⟩ := output
  cases hf
  cases hb
  exact if_neg (Nat.not_le.mpr h)

theorem putchar_function {function : σ → Byte → Option σ} {c : Byte}
    (hf : output.function = some function) (h : output.pos.toNat < output.maxChars.toNat) :
    putcharViaGadget output c = (function output.extraFunctionArg c).map fun arg =>
      { output.counted 1 with extraFunctionArg := arg } := by
  obtain ⟨function, arg, buf, pos, maxChars⟩ := output
  cases hf
  exact if_neg (Nat.not_le.mpr h)

/-! A text, for each kind of gadget. -/

/-- Without room every text is only counted. -/
theorem emit_full {s : List Byte} (hfull : output.maxChars.toNat ≤ output.pos.toNat)
    (hs : output.pos.toNat + s.length < 2 ^ 32) : output.emit s = some (output.counted s.length) := by
  induction s generalizing output with
  | nil => exact congrArg some output.counted_zero.symm
  | cons b s ih =>
    rw [List.length_cons] at hs ⊢
    have hpos := output.counted_pos (k := 1) (by omega)
    have hmax : output.maxChars.toNat ≤ (output.counted 1).pos.toNat := by omega
    rw [emit_cons, putchar_full output hfull, Option.bind_some, ih _ hmax (by omega),
      counted_counted, Nat.add_comm]

/-- A gadget that takes no characters counts them. -/
theorem emit_discarding {s : List Byte} (h : output.maxChars = 0) :
    output.emit s = some (output.counted s.length) := by
  induction s generalizing output with
  | nil => exact congrArg some output.counted_zero.symm
  | cons b s ih =>
    have hfull : output.maxChars.toNat ≤ output.pos.toNat := by
      rw [h]
      exact Nat.zero_le _
    rw [emit_cons, putchar_full output hfull, Option.bind_some, ih (output.counted 1) h,
      counted_counted, List.length_cons, Nat.add_comm]

/-- A text that there is room for goes to the buffer. -/
theorem emit_fits_buffer {buffer : Vector Byte n} {s : List Byte} (hf : output.function = none)
    (hb : output.buffer = some buffer)
    (hs : output.pos.toNat + s.length ≤ output.maxChars.toNat) :
    output.emit s = (storeBytes buffer output.pos.toNat s).map fun buffer =>
      { output.counted s.length with buffer := some buffer } := by
  induction s generalizing output buffer with
  | nil =>
    obtain ⟨function, arg, buf, pos, maxChars⟩ := output
    cases hb
    exact congrArg some (counted_zero _).symm
  | cons b s ih =>
    rw [List.length_cons] at hs ⊢
    have hpos := output.counted_pos (k := 1) (by omega)
    rw [emit_cons, output.putchar_buffer hf hb (by omega), storeBytes]
    by_cases hn : output.pos.toNat < n
    · have hrest := ih { output.counted 1 with buffer := some (buffer.set output.pos.toNat b) } hf rfl
        (by show (output.counted 1).pos.toNat + s.length ≤ output.maxChars.toNat; omega)
      rw [dif_pos hn, dif_pos hn, Nat.add_comm s.length, ← counted_counted, ← hpos]
      exact hrest
    · rw [dif_neg hn, dif_neg hn]
      rfl

/-- A text that there is room for goes to the function. -/
theorem emit_fits_function {function : σ → Byte → Option σ} {s : List Byte}
    (hf : output.function = some function)
    (hs : output.pos.toNat + s.length ≤ output.maxChars.toNat) :
    output.emit s = (s.foldlM function output.extraFunctionArg).map fun arg =>
      { output.counted s.length with extraFunctionArg := arg } := by
  induction s generalizing output with
  | nil => exact congrArg some (counted_zero _).symm
  | cons b s ih =>
    rw [List.length_cons] at hs ⊢
    have hpos := output.counted_pos (k := 1) (by omega)
    rw [emit_cons, output.putchar_function hf (by omega), List.foldlM_cons]
    cases hcall : function output.extraFunctionArg b with
    | none => rfl
    | some arg =>
      have hrest := ih { output.counted 1 with extraFunctionArg := arg } hf
        (by show (output.counted 1).pos.toNat + s.length ≤ output.maxChars.toNat; omega)
      rw [Nat.add_comm s.length, ← counted_counted]
      exact hrest

/-- How many more characters the gadget takes. -/
def room (output : OutputGadget σ n) : Nat := output.maxChars.toNat - output.pos.toNat

/-- Of any text the gadget takes what it has room for, and counts the rest. -/
theorem emit_room {s : List Byte} (hs : output.pos.toNat + s.length < 2 ^ 32) :
    output.emit s = (output.emit (s.take output.room)).map fun output' =>
      output'.counted (s.length - output.room) := by
  have hsplit := output.emit_append (s.take output.room) (s.drop output.room)
  rw [List.take_append_drop] at hsplit
  rw [hsplit]
  cases hrun : output.emit (s.take output.room) with
  | none => rfl
  | some output' =>
    obtain ⟨hpos, hmax⟩ := emit_counts hrun
    have htake : output'.pos.toNat = output.pos.toNat + (s.take output.room).length := by
      rw [hpos]
      exact output.counted_pos (by rw [List.length_take]; omega)
    rw [List.length_take] at htake
    rw [Option.bind_some, Option.map_some]
    by_cases hfits : s.length ≤ output.room
    · rw [List.drop_of_length_le hfits, Nat.sub_eq_zero_of_le hfits, counted_zero]
      rfl
    · have hfull : output'.maxChars.toNat ≤ output'.pos.toNat := by
        rw [hmax, htake]
        unfold room at hfits ⊢
        omega
      rw [emit_full output' hfull (by rw [List.length_drop]; omega), List.length_drop]

theorem take_room_fits (s : List Byte) (hpos : output.pos.toNat ≤ output.maxChars.toNat) :
    output.pos.toNat + (s.take output.room).length ≤ output.maxChars.toNat := by
  rw [List.length_take]
  unfold room
  omega

theorem counted_room (s : List Byte) :
    (output.counted (s.take output.room).length).counted (s.length - output.room) =
      output.counted s.length := by
  rw [counted_counted, List.length_take]
  congr 1
  omega

/-- A buffer keeps the characters that it has room for. -/
theorem emit_buffer {buffer : Vector Byte n} {s : List Byte} (hf : output.function = none)
    (hb : output.buffer = some buffer) (hpos : output.pos.toNat ≤ output.maxChars.toNat)
    (hs : output.pos.toNat + s.length < 2 ^ 32) :
    output.emit s = (storeBytes buffer output.pos.toNat (s.take output.room)).map fun buffer =>
      { output.counted s.length with buffer := some buffer } := by
  rw [emit_room output hs, emit_fits_buffer output hf hb (take_room_fits output s hpos),
    Option.map_map, ← counted_room output s]
  rfl

/-- A function gets the characters that there is room for, in order. -/
theorem emit_function {function : σ → Byte → Option σ} {s : List Byte}
    (hf : output.function = some function) (hpos : output.pos.toNat ≤ output.maxChars.toNat)
    (hs : output.pos.toNat + s.length < 2 ^ 32) :
    output.emit s =
      ((s.take output.room).foldlM function output.extraFunctionArg).map fun arg =>
        { output.counted s.length with extraFunctionArg := arg } := by
  rw [emit_room output hs, emit_fits_function output hf (take_room_fits output s hpos),
    Option.map_map, ← counted_room output s]
  rfl

end OutputGadget

end SeshOS.Printf
