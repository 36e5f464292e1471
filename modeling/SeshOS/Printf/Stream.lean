/-
  The functions of the printf family: `vprintf`, `vsnprintf`, `vsprintf` and `vfctprintf`, and the
  variadic ones, which only pass their arguments on.

  What a format means is one text (`text`) and the places in it where `%n` stores the count
  (`stores`). A function gets that text character by character (`vfctprintf_eq`), a buffer gets
  the front of it with a terminator (`vsnprintf_eq`), and both return its length. `pos` is a
  32-bit number, so all this is for texts of less than `2 ^ 32` characters. A call stays inside of
  its buffer exactly when that has what the size lets through (`vsnprintf_inside_iff`).
-/
import SeshOS.Printf.Meaning

namespace SeshOS.Printf

open Base Libc

variable {σ : Type} {n : Nat}

/-! ## printf.c -/

/-- `putchar` works on a state of its own. -/
def externPutcharGadget (putchar : σ → Byte → Option σ) (st : σ) : OutputGadget σ 0 :=
  functionGadget putchar st

/-- The state that `putchar` leaves, what `%n` stored, and the `int` that is returned. -/
def vprintf (putchar : σ → Byte → Option σ) (st : σ) (format : List Byte) (args : List Arg) :
    Option (σ × List WriteBack × BitVec 32) :=
  (vsnprintfImpl (externPutcharGadget putchar st) format args).map
    fun (gadget, stored, ret) => (gadget.extraFunctionArg, stored, ret)

/-- The buffer that is left; `s` is `none` for the null pointer. -/
def vsnprintf (s : Option (Vector Byte n)) (size : BitVec 64) (format : List Byte)
    (args : List Arg) : Option (Option (Vector Byte n) × List WriteBack × BitVec 32) :=
  (vsnprintfImpl (bufferGadget s size) format args).map
    fun (gadget, stored, ret) => (gadget.buffer, stored, ret)

def vsprintf (s : Option (Vector Byte n)) (format : List Byte) (args : List Arg) :
    Option (Option (Vector Byte n) × List WriteBack × BitVec 32) :=
  vsnprintf s (maxPossibleBufferSize.setWidth 64) format args

def vfctprintf (out : σ → Byte → Option σ) (extraArg : σ) (format : List Byte) (args : List Arg) :
    Option (σ × List WriteBack × BitVec 32) :=
  (vsnprintfImpl (functionGadget out extraArg : OutputGadget σ 0) format args).map
    fun (gadget, stored, ret) => (gadget.extraFunctionArg, stored, ret)

/-! ## A text and its stores -/

/-- The characters among events. -/
def text (events : List Event) : List Byte :=
  events.filterMap fun
    | .char b => some b
    | .writeBack _ _ => none

/-- The stores among events, with `pos` characters in front of them. -/
def stores (pos : PrintfSize) : List Event → List WriteBack
  | [] => []
  | .char _ :: events => stores (pos + 1) events
  | .writeBack address size :: events => ⟨address, size, pos⟩ :: stores pos events

theorem text_chars (s : List Byte) : text (chars s) = s := by
  induction s with
  | nil => rfl
  | cons b s ih => exact congrArg (b :: ·) ih

/-- A text alone stores nothing. -/
theorem stores_chars (pos : PrintfSize) (s : List Byte) : stores pos (chars s) = [] := by
  induction s generalizing pos with
  | nil => rfl
  | cons b s ih => exact ih (pos + 1)

theorem play_eq (output : OutputGadget σ n) (stored : List WriteBack) (events : List Event) :
    play (output, stored) events = (output.emit (text events)).map fun output' =>
      (output', stored ++ stores output.pos events) := by
  induction events generalizing output stored with
  | nil =>
    rw [stores, List.append_nil]
    rfl
  | cons e events ih =>
    rw [play_cons]
    cases e with
    | char b =>
      show _ = (output.emit (b :: text events)).map _
      rw [OutputGadget.emit_cons, playEvent, stores]
      dsimp only
      cases hput : putcharViaGadget output b with
      | none => rfl
      | some next =>
        rw [Option.map_some, Option.bind_some, Option.bind_some, ih,
          (OutputGadget.putchar_counts hput).1]
    | writeBack address size =>
      rw [playEvent, Option.bind_some, ih, stores, List.append_assoc]
      rfl

/-! ## A buffer -/

theorem storeBytes_append (buf : Vector Byte n) (k : Nat) (s t : List Byte) :
    storeBytes buf k (s ++ t) =
      (storeBytes buf k s).bind fun buf => storeBytes buf (k + s.length) t := by
  induction s generalizing buf k with
  | nil => rfl
  | cons b s ih =>
    rw [List.cons_append, storeBytes, storeBytes, List.length_cons]
    by_cases hk : k < n
    · rw [dif_pos hk, dif_pos hk, ih, Nat.add_right_comm, Nat.add_assoc k]
    · rw [dif_neg hk, dif_neg hk]
      rfl

theorem storeBytes_singleton (buf : Vector Byte n) (k : Nat) (b : Byte) :
    storeBytes buf k [b] = if h : k < n then some (buf.set k b) else none := rfl

/-- The text in a buffer of `room` characters, with the terminator over the last of them. -/
theorem storeBytes_terminated (buf : Vector Byte n) (s : List Byte) {room : Nat} (h : 0 < room) :
    ((storeBytes buf 0 (s.take room)).bind fun buf =>
      if h : min s.length (room - 1) < n then some (buf.set (min s.length (room - 1)) 0) else none) =
    storeBytes buf 0 (s.take (room - 1) ++ [0]) := by
  rw [storeBytes_append, Nat.zero_add, List.length_take, Nat.min_comm (room - 1)]
  by_cases hlong : s.length < room
  · rw [List.take_of_length_le hlong.le, List.take_of_length_le (by omega : s.length ≤ room - 1)]
    rfl
  · have hlast : room - 1 < s.length := by omega
    have hsucc : s.take room = s.take (room - 1) ++ [s[room - 1]] := by
      conv_lhs => rw [← Nat.sub_add_cancel h]
      exact List.take_succ_eq_append_getElem hlast
    rw [hsucc, storeBytes_append, List.length_take, Nat.zero_add,
      Nat.min_eq_right (by omega : room - 1 ≤ s.length),
      Nat.min_eq_left (by omega : room - 1 ≤ s.length)]
    cases storeBytes buf 0 (s.take (room - 1)) with
    | none => rfl
    | some buf' =>
      rw [Option.bind_some, Option.bind_some, storeBytes_singleton, storeBytes_singleton]
      by_cases hn : room - 1 < n
      · rw [dif_pos hn, dif_pos hn, Option.bind_some, dif_pos hn, Vector.set_set]
      · rw [dif_neg hn, dif_neg hn]
        rfl

/-- The characters a gadget for a buffer of `size` bytes takes. -/
def usable (size : BitVec 64) : Nat := min size.toNat maxPossibleBufferSize.toNat

theorem bufferGadget_maxChars (buf : Vector Byte n) (size : BitVec 64) :
    (bufferGadget (some buf) size).maxChars.toNat = usable size := by
  have hmax : (maxPossibleBufferSize.setWidth 64).toNat = maxPossibleBufferSize.toNat := by decide
  have hint : maxPossibleBufferSize.toNat = 2 ^ 31 - 1 := by decide
  unfold bufferGadget usable
  dsimp only [Option.isSome_some, if_true]
  by_cases hbig : maxPossibleBufferSize.setWidth 64 < size
  · have hlt : maxPossibleBufferSize.toNat < size.toNat := hmax ▸ BitVec.lt_def.mp hbig
    rw [if_pos hbig, Nat.min_eq_right hlt.le]
    rfl
  · have hge : size.toNat ≤ maxPossibleBufferSize.toNat := by
      rw [← hmax]
      exact Nat.le_of_not_lt fun h => hbig (BitVec.lt_def.mpr h)
    rw [if_neg hbig, Nat.min_eq_left hge]
    show (size.setWidth 32).toNat = size.toNat
    rw [BitVec.toNat_setWidth]
    exact Nat.mod_eq_of_lt (by omega)

theorem usable_eq_zero {size : BitVec 64} : usable size = 0 ↔ size = 0 := by
  have hint : maxPossibleBufferSize.toNat = 2 ^ 31 - 1 := by decide
  rw [← BitVec.toNat_inj]
  show min size.toNat maxPossibleBufferSize.toNat = 0 ↔ size.toNat = 0
  omega

/-! ## The terminator -/

theorem appendTerm_function (gadget : OutputGadget σ n) (h : gadget.function.isSome) :
    appendTermWithGadget gadget = some gadget := if_pos (Or.inl h)

theorem appendTerm_full (gadget : OutputGadget σ n) (h : gadget.maxChars = 0) :
    appendTermWithGadget gadget = some gadget := if_pos (Or.inr h)

theorem appendTerm_buffer (gadget : OutputGadget σ n) {buf : Vector Byte n}
    (hf : gadget.function = none) (hb : gadget.buffer = some buf) (hmax : gadget.maxChars ≠ 0) :
    appendTermWithGadget gadget =
      if h : min gadget.pos.toNat (gadget.maxChars.toNat - 1) < n then
        some { gadget with buffer := some (buf.set (min gadget.pos.toNat (gadget.maxChars.toNat - 1)) 0) }
      else none := by
  have hnone : ¬(gadget.function.isSome = true ∨ gadget.maxChars = 0) := by
    rw [hf]
    rintro (h | h)
    · cases h
    · exact hmax h
  have hposition : (if gadget.pos < gadget.maxChars then gadget.pos else gadget.maxChars - 1).toNat =
      min gadget.pos.toNat (gadget.maxChars.toNat - 1) := by
    have hpos : gadget.maxChars.toNat ≠ 0 := fun h => hmax (BitVec.eq_of_toNat_eq h)
    split
    · next hlt =>
      have hltNat : gadget.pos.toNat < gadget.maxChars.toNat := hlt
      omega
    · next hge =>
      have hgeNat : ¬gadget.pos.toNat < gadget.maxChars.toNat := hge
      bv_omega
  unfold appendTermWithGadget
  rw [if_neg hnone, hb]
  dsimp only
  simp only [hposition]

/-! ## What the functions do with a text -/

section Known

variable {format : List Byte} {args : List Arg} {events : List Event}
  (hmeaning : meaning format args = some events)

include hmeaning

theorem formatStringLoop_text (output : OutputGadget σ n) :
    formatStringLoop output format args = (output.emit (text events)).map fun output' =>
      (output', stores output.pos events) := by
  rw [formatStringLoop_eq, hmeaning, Option.bind_some, play_eq]
  rfl

/-- The null pointer only counts. -/
theorem vsnprintf_null (size : BitVec 64) :
    vsnprintf (none : Option (Vector Byte n)) size format args =
      some (none, stores 0 events, BitVec.ofNat 32 (text events).length) := by
  have hemit := OutputGadget.emit_discarding (bufferGadget (none : Option (Vector Byte n)) size)
    (s := text events) rfl
  rw [vsnprintf, vsnprintfImpl, formatStringLoop_text hmeaning, hemit]
  simp only [Option.map_some, Option.bind_some]
  rw [appendTerm_full _ rfl]
  exact congrArg (fun pos => some (none, stores 0 events, pos)) (BitVec.zero_add _)

variable (hlength : (text events).length < 2 ^ 32)

include hlength

/-- A function gets the text, up to `INT_MAX` characters of it. -/
theorem vfctprintf_eq (out : σ → Byte → Option σ) (extraArg : σ) :
    vfctprintf out extraArg format args =
      (((text events).take maxPossibleBufferSize.toNat).foldlM out extraArg).map fun arg =>
        (arg, stores 0 events, BitVec.ofNat 32 (text events).length) := by
  have hemit := OutputGadget.emit_function (functionGadget out extraArg : OutputGadget σ 0) rfl
    (Nat.zero_le _) (show 0 + (text events).length < 2 ^ 32 by omega)
  rw [vfctprintf, vsnprintfImpl, formatStringLoop_text hmeaning, hemit]
  show Option.map _ (Option.bind (Option.map _ (Option.map _
    (((text events).take maxPossibleBufferSize.toNat).foldlM out extraArg))) _) = _
  cases ((text events).take maxPossibleBufferSize.toNat).foldlM out extraArg with
  | none => rfl
  | some arg =>
    simp only [Option.map_some, Option.bind_some]
    rw [appendTerm_function _ rfl]
    exact congrArg (fun pos => some (arg, stores 0 events, pos)) (BitVec.zero_add _)

/-- A buffer gets the front of the text with a terminator, if it has any room. -/
theorem vsnprintf_eq (buf : Vector Byte n) (size : BitVec 64) :
    vsnprintf (some buf) size format args =
      (if size = 0 then some buf
        else storeBytes buf 0 ((text events).take (usable size - 1) ++ [0])).map fun buf =>
          (some buf, stores 0 events, BitVec.ofNat 32 (text events).length) := by
  have hmax := bufferGadget_maxChars buf size
  have hroom : (bufferGadget (some buf) size).room = usable size := by
    rw [OutputGadget.room, hmax]
    rfl
  have hbuffer : (bufferGadget (some buf) size).buffer = some buf := rfl
  have hemit := OutputGadget.emit_buffer (bufferGadget (some buf) size) rfl hbuffer
    (Nat.zero_le _) (show 0 + (text events).length < 2 ^ 32 by omega)
  rw [hroom] at hemit
  rw [vsnprintf, vsnprintfImpl, formatStringLoop_text hmeaning, hemit]
  show Option.map _ (Option.bind (Option.map _ (Option.map _
    (storeBytes buf 0 ((text events).take (usable size))))) _) = _
  have hret : (bufferGadget (some buf) size).pos + BitVec.ofNat 32 (text events).length =
      BitVec.ofNat 32 (text events).length := BitVec.zero_add _
  by_cases hsize : size = 0
  · have hfull : (bufferGadget (some buf) size).maxChars = 0 := by
      apply BitVec.eq_of_toNat_eq
      rw [hmax]
      exact usable_eq_zero.mpr hsize
    rw [if_pos hsize, usable_eq_zero.mpr hsize, List.take_zero, storeBytes]
    have hterm := appendTerm_full
      { (bufferGadget (some buf) size).counted (text events).length with buffer := some buf } hfull
    simp only [Option.map_some, Option.bind_some, hterm]
    exact congrArg (fun pos => some (some buf, stores 0 events, pos)) hret
  · have hpos : 0 < usable size := Nat.pos_of_ne_zero fun h => hsize (usable_eq_zero.mp h)
    rw [if_neg hsize, ← storeBytes_terminated buf (text events) hpos]
    cases storeBytes buf 0 ((text events).take (usable size)) with
    | none => rfl
    | some buf' =>
      have hne : (bufferGadget (some buf) size).maxChars ≠ 0 := by
        intro h
        rw [h] at hmax
        exact absurd hmax (Nat.ne_of_lt hpos)
      have hcount := OutputGadget.counted_pos (bufferGadget (some buf) size)
        (k := (text events).length) (show 0 + (text events).length < 2 ^ 32 by omega)
      have hlen : ((bufferGadget (some buf) size).counted (text events).length).pos.toNat =
          (text events).length := hcount.trans (Nat.zero_add _)
      have hterm := appendTerm_buffer
        { (bufferGadget (some buf) size).counted (text events).length with buffer := some buf' }
        rfl rfl hne
      have hmax' : ((bufferGadget (some buf) size).counted (text events).length).maxChars.toNat =
          usable size := hmax
      dsimp only at hterm
      simp only [hlen, hmax'] at hterm
      simp only [Option.map_some, Option.bind_some, hterm]
      by_cases hn : min (text events).length (usable size - 1) < n
      · rw [dif_pos hn, dif_pos hn]
        exact congrArg (fun pos => some (some _, stores 0 events, pos)) hret
      · rw [dif_neg hn, dif_neg hn]
        rfl

end Known

/-- Without a meaning every call fails. -/
theorem vsnprintfImpl_none (gadget : OutputGadget σ n) {format : List Byte} {args : List Arg}
    (h : meaning format args = none) : vsnprintfImpl gadget format args = none := by
  rw [vsnprintfImpl, formatStringLoop_eq, h]
  rfl

/-- Whatever a format and its arguments make of it, they make the same text of it and the same
    stores for every function and every buffer. -/
theorem one_text_for_all_outputs (format : List Byte) (args : List Arg)
    (hlength : ∀ events, meaning format args = some events → (text events).length < 2 ^ 32) :
    ∃ result : Option (List Byte × List WriteBack),
      (∀ (σ : Type) (out : σ → Byte → Option σ) (st : σ),
        vfctprintf out st format args = result.bind fun (s, stored) =>
          ((s.take maxPossibleBufferSize.toNat).foldlM out st).map fun st =>
            (st, stored, BitVec.ofNat 32 s.length)) ∧
      (∀ (n : Nat) (buf : Vector Byte n) (size : BitVec 64),
        vsnprintf (some buf) size format args = result.bind fun (s, stored) =>
          (if size = 0 then some buf
            else storeBytes buf 0 (s.take (usable size - 1) ++ [0])).map fun buf =>
              (some buf, stored, BitVec.ofNat 32 s.length)) ∧
      ∀ (n : Nat) (size : BitVec 64),
        vsnprintf (none : Option (Vector Byte n)) size format args =
          result.map fun (s, stored) => (none, stored, BitVec.ofNat 32 s.length) := by
  cases hmeaning : meaning format args with
  | none =>
    refine ⟨none, fun σ out st => ?_, fun n buf size => ?_, fun n size => ?_⟩
    · rw [vfctprintf, vsnprintfImpl_none _ hmeaning]
      rfl
    · rw [vsnprintf, vsnprintfImpl_none _ hmeaning]
      rfl
    · rw [vsnprintf, vsnprintfImpl_none _ hmeaning]
      rfl
  | some events =>
    have hshort := hlength events hmeaning
    exact ⟨some (text events, stores 0 events),
      fun σ out st => vfctprintf_eq hmeaning hshort out st,
      fun n buf size => vsnprintf_eq hmeaning hshort buf size,
      fun n size => vsnprintf_null hmeaning size⟩

theorem one_text_for_all_outputs_field :
    ∃ result : Option (List Byte × List WriteBack),
      (∀ (σ : Type) (out : σ → Byte → Option σ) (st : σ),
        vfctprintf out st (ascii "[%3d]" ++ [0]) [.int 7] = result.bind fun (s, stored) =>
          ((s.take maxPossibleBufferSize.toNat).foldlM out st).map fun st =>
            (st, stored, BitVec.ofNat 32 s.length)) ∧
      (∀ (n : Nat) (buf : Vector Byte n) (size : BitVec 64),
        vsnprintf (some buf) size (ascii "[%3d]" ++ [0]) [.int 7] = result.bind fun (s, stored) =>
          (if size = 0 then some buf
            else storeBytes buf 0 (s.take (usable size - 1) ++ [0])).map fun buf =>
              (some buf, stored, BitVec.ofNat 32 s.length)) ∧
      ∀ (n : Nat) (size : BitVec 64),
        vsnprintf (none : Option (Vector Byte n)) size (ascii "[%3d]" ++ [0]) [.int 7] =
          result.map fun (s, stored) => (none, stored, BitVec.ofNat 32 s.length) := by
  have hmeaning : meaning (ascii "[%3d]" ++ [0]) [.int 7] = some (chars (ascii "[  7]")) := by decide
  refine one_text_for_all_outputs _ _ fun events hevents => ?_
  rw [hmeaning, Option.some_inj] at hevents
  rw [← hevents, text_chars]
  decide

/-- A call for the null pointer tells the size that the text needs. -/
theorem sized_call_is_complete {n : Nat} (buf : Vector Byte n) {format : List Byte}
    {args : List Arg} {events : List Event} (hmeaning : meaning format args = some events)
    (hlength : (text events).length < maxPossibleBufferSize.toNat)
    (hroom : (text events).length < n) :
    ∃ stored ret,
      vsnprintf (none : Option (Vector Byte 0)) 0 format args = some (none, stored, ret) ∧
      ∃ buf', vsnprintf (some buf) (ret.setWidth 64 + 1) format args =
          some (some buf', stored, ret) ∧
        buf'.toList = text events ++ 0 :: buf.toList.drop ((text events).length + 1) := by
  have hint : maxPossibleBufferSize.toNat = 2 ^ 31 - 1 := by decide
  have hshort : (text events).length < 2 ^ 32 := by omega
  refine ⟨_, _, vsnprintf_null hmeaning 0, ?_⟩
  have hsize : ((BitVec.ofNat 32 (text events).length).setWidth 64 + 1).toNat =
      (text events).length + 1 := by
    rw [BitVec.toNat_add, BitVec.toNat_setWidth, BitVec.toNat_ofNat]
    show ((text events).length % 2 ^ 32 % 2 ^ 64 + 1) % 2 ^ 64 = _
    omega
  have husable : usable ((BitVec.ofNat 32 (text events).length).setWidth 64 + 1) =
      (text events).length + 1 := by
    rw [usable, hsize]
    omega
  have hne : (BitVec.ofNat 32 (text events).length).setWidth 64 + 1 ≠ 0 := by
    intro h
    rw [h] at hsize
    exact absurd hsize (by simp)
  obtain ⟨buf', hstore, hlist⟩ := storeBytes_fits buf (text events ++ [0]) (k := 0)
    (by rw [List.length_append, List.length_singleton]; omega)
  refine ⟨buf', ?_, ?_⟩
  · rw [vsnprintf_eq hmeaning hshort, if_neg hne, husable, Nat.add_sub_cancel, List.take_length,
      hstore]
    rfl
  · rw [hlist, List.take_zero, List.nil_append, List.append_assoc, List.singleton_append,
      Nat.zero_add, List.length_append, List.length_singleton]

theorem sized_call_is_complete_field :
    (text (chars (ascii "[  7]"))).length < 8 ∧ ∃ stored ret,
      vsnprintf (none : Option (Vector Byte 0)) 0 (ascii "[%3d]" ++ [0]) [.int 7] =
          some (none, stored, ret) ∧
      ∃ buf', vsnprintf (some (Vector.replicate 8 (0xff : Byte))) (ret.setWidth 64 + 1)
          (ascii "[%3d]" ++ [0]) [.int 7] = some (some buf', stored, ret) ∧
        buf'.toList = text (chars (ascii "[  7]")) ++
          0 :: (Vector.replicate 8 (0xff : Byte)).toList.drop
            ((text (chars (ascii "[  7]"))).length + 1) :=
  ⟨by decide, sized_call_is_complete (Vector.replicate 8 0xff) (by decide) (by decide) (by decide)⟩

/-! ## Inside of the buffer -/

/-- A string and its terminator are stored exactly when there is room for both. -/
theorem storeBytes_isSome_iff {n : Nat} (buf : Vector Byte n) (s : List Byte) :
    (storeBytes buf 0 (s ++ [0])).isSome ↔ s.length < n := by
  have hlength : (s ++ [(0 : Byte)]).length = s.length + 1 := by
    rw [List.length_append, List.length_singleton]
  rcases Nat.lt_or_ge s.length n with h | h
  · obtain ⟨buf', hstore, -⟩ := storeBytes_fits buf (s ++ [0]) (k := 0) (by omega)
    rw [hstore]
    exact iff_of_true rfl h
  · rw [storeBytes_overflow buf (List.ne_nil_of_length_eq_add_one hlength) (by omega)]
    exact iff_of_false Bool.false_ne_true (by omega)

/-- No byte outside of the buffer is stored exactly when the buffer has the bytes of the text and
    its terminator that the size lets through. -/
theorem vsnprintf_inside_iff {n : Nat} (buf : Vector Byte n) (size : BitVec 64)
    (format : List Byte) (args : List Arg)
    (hlength : ∀ events, meaning format args = some events → (text events).length < 2 ^ 32) :
    (vsnprintf (some buf) size format args).isSome ↔ ∃ events, meaning format args = some events ∧
      (size = 0 ∨ min (usable size - 1) (text events).length < n) := by
  cases hmeaning : meaning format args with
  | none =>
    rw [vsnprintf, vsnprintfImpl_none _ hmeaning]
    exact iff_of_false Bool.false_ne_true fun ⟨_, h, _⟩ => nomatch h
  | some events =>
    have hstored : (vsnprintf (some buf) size format args).isSome ↔
        size = 0 ∨ min (usable size - 1) (text events).length < n := by
      rw [vsnprintf_eq hmeaning (hlength events hmeaning), Option.isSome_map]
      by_cases hsize : size = 0
      · rw [if_pos hsize]
        exact iff_of_true rfl (Or.inl hsize)
      · rw [if_neg hsize, storeBytes_isSome_iff, List.length_take]
        exact (or_iff_right hsize).symm
    rw [hstored]
    constructor
    · exact fun h => ⟨events, rfl, h⟩
    · rintro ⟨_, hsame, h⟩
      cases hsame
      exact h

theorem vsnprintf_inside_iff_field :
    (vsnprintf (some (Vector.replicate 4 (0xff : Byte))) 8 (ascii "[%3d]" ++ [0]) [.int 7]).isSome ↔
      ∃ events, meaning (ascii "[%3d]" ++ [0]) [.int 7] = some events ∧
        ((8 : BitVec 64) = 0 ∨ min (usable 8 - 1) (text events).length < 4) := by
  have hmeaning : meaning (ascii "[%3d]" ++ [0]) [.int 7] = some (chars (ascii "[  7]")) := by decide
  refine vsnprintf_inside_iff _ 8 _ _ fun events hevents => ?_
  rw [hmeaning, Option.some_inj] at hevents
  rw [← hevents, text_chars]
  decide

end SeshOS.Printf
