/-
  `printf` on the console, and the calls that the keyboard driver makes of it.

  `printf` sends its text to `putchar`, one character after the other, so it leaves the console
  as `sprintf` into a buffer and `puts` of that buffer do (`printf_is_sprintf_then_puts`).
  `HandleKeyboard` echoes a key by `printf` of a string made of its character, which makes a
  format of that character. `handleKeyboard` only records what is echoed; with the calls of
  `printf` in their places the console is the one that the record makes (`keyboard_prints_echo`).
  The stores outside of `input` are taken to hit nothing of either.
-/
import SeshOS.Printf.Stream
import SeshOS.UserInput.Echo
import SeshOS.Video.Log

namespace SeshOS.Printf

open Base Libc Video UserInput

variable {font : Font}

/-- `printf`: the console it leaves, what `%n` stored, and the `int` it returns. -/
def printf (font : Font) (c : Console) (format : List Byte) (args : List Arg) :
    Option (Console × List WriteBack × BitVec 32) :=
  vprintf (putchar font) c format args

/-- `sprintf`: the buffer it leaves, what `%n` stored, and the `int` it returns. -/
def sprintf {n : Nat} (s : Vector Byte n) (format : List Byte) (args : List Arg) :
    Option (Vector Byte n × List WriteBack × BitVec 32) :=
  (vsprintf (some s) format args).bind fun (s, stored, ret) => s.map fun s => (s, stored, ret)

/-! ## The console -/

theorem printf_text {c : Console} {format : List Byte} {args : List Arg} {events : List Event}
    (hmeaning : meaning format args = some events)
    (hlength : (text events).length < maxPossibleBufferSize.toNat) :
    printf font c format args = ((text events).foldlM (putchar font) c).map fun c =>
      (c, stores 0 events, BitVec.ofNat 32 (text events).length) := by
  have hint : maxPossibleBufferSize.toNat = 2 ^ 31 - 1 := by decide
  have hrun := vfctprintf_eq hmeaning (by omega) (putchar font) c
  rw [List.take_of_length_le hlength.le] at hrun
  exact hrun

theorem sprintf_text {n : Nat} (buf : Vector Byte n) {format : List Byte} {args : List Arg}
    {events : List Event} (hmeaning : meaning format args = some events)
    (hlength : (text events).length < maxPossibleBufferSize.toNat) :
    sprintf buf format args = (storeBytes buf 0 (text events ++ [0])).map fun buf =>
      (buf, stores 0 events, BitVec.ofNat 32 (text events).length) := by
  have hint : maxPossibleBufferSize.toNat = 2 ^ 31 - 1 := by decide
  have husable : usable (maxPossibleBufferSize.setWidth 64) - 1 = 2 ^ 31 - 2 := by decide
  rw [sprintf, vsprintf, vsnprintf_eq hmeaning (by omega), if_neg (by decide), husable,
    List.take_of_length_le (by omega)]
  cases storeBytes buf 0 (text events ++ [0]) with
  | none => rfl
  | some buf' => rfl

/-- What `printf` does to the console, and what it returns and stores, is what `sprintf` into a
    buffer that holds the text does, followed by `puts` of the buffer. -/
theorem printf_is_sprintf_then_puts (font : Font) (c : Console) {format : List Byte} {args : List Arg}
    {events : List Event} (hmeaning : meaning format args = some events) (hnul : 0 ∉ text events)
    (hlength : (text events).length < maxPossibleBufferSize.toNat) {n : Nat} (buf : Vector Byte n)
    (hroom : (text events).length < n) :
    printf font c format args = (sprintf buf format args).bind fun (buf, stored, ret) =>
      (puts font c buf.toList).map fun c => (c, stored, ret) := by
  obtain ⟨buf', hstore, hlist⟩ := storeBytes_fits buf (text events ++ [0]) (k := 0)
    (by rw [List.length_append, List.length_singleton]; omega)
  have hputs : puts font c buf'.toList = (text events).foldlM (putchar font) c := by
    rw [hlist, List.take_zero, List.nil_append, List.append_assoc, List.singleton_append]
    exact puts_eq font c hnul _
  rw [printf_text hmeaning hlength, sprintf_text buf hmeaning hlength, hstore, Option.map_some,
    Option.bind_some]
  dsimp only
  rw [hputs]

theorem printf_is_sprintf_then_puts_field :
    printf (Vector.replicate 256 (Vector.replicate 16 0)) bootConsole (ascii "[%3d]" ++ [0]) [.int 7] =
      (sprintf (Vector.replicate 8 (0xff : Byte)) (ascii "[%3d]" ++ [0]) [.int 7]).bind
        fun (buf, stored, ret) =>
          (puts (Vector.replicate 256 (Vector.replicate 16 0)) bootConsole buf.toList).map
            fun c => (c, stored, ret) :=
  have hmeaning : meaning (ascii "[%3d]" ++ [0]) [.int 7] = some (chars (ascii "[  7]")) := by decide
  printf_is_sprintf_then_puts _ _ hmeaning (by decide) (by decide) _ (by decide)

/-! ## The keyboard driver -/

/-- The calls of `printf` and `putchar` in `HandleKeyboard`, on the console. -/
def handleKeyboardPrints (font : Font) (k : Keyboard) (scancode : Byte) (console : Console) :
    Option Console :=
  let c := getUsQwertyCharFromScanCode k scancode
  let (k, c) := shiftKeys (k.read scancode) scancode c
  (if scancode = usQwertyEnter then
      (printf font console (ascii "\n" ++ [0]) []).map fun (console, _) => console
    else if scancode = usQwertyBackspace then putchar font console 0x08
    else some console).bind fun console =>
      let (_, c) := lineKeys k scancode c
      if c ≠ 0 then (printf font console [c, 0] []).map fun (console, _) => console
      else some console

/-- `HandleKeyboard` with its output. -/
def handleKeyboardStep (font : Font) (s : Keyboard × Console) (scancode : Byte) :
    Option (Keyboard × Console) :=
  (handleKeyboardPrints font s.1 scancode s.2).map fun console =>
    (handleKeyboard s.1 scancode, console)

/-- A format of one character. -/
theorem meaning_char {c : Byte} (hc : c ≠ 0) : meaning [c, 0] [] = some (chars (printfChar c)) := by
  by_cases hpercent : c = chr '%'
  · subst hpercent
    decide
  · have hparse : parse 3 [c, 0] = some ([.literal c], 0) := by
      have hhead : ([c, 0] : List Byte).head? ≠ some 0 := fun h => hc (Option.some_inj.mp h)
      rw [parse, if_neg hhead, parsePiece, if_pos hpercent]
      rfl
    rw [printfChar, if_neg hpercent]
    show (parse 3 [c, 0]).bind _ = _
    rw [hparse]
    rfl

theorem printf_char (console : Console) {c : Byte} (hc : c ≠ 0) :
    ((printf font console [c, 0] []).map fun (console, _) => console) =
      (printfChar c).foldlM (putchar font) console := by
  have hmeaning := meaning_char hc
  have hlength : (text (chars (printfChar c))).length < maxPossibleBufferSize.toNat := by
    rw [text_chars]
    have hshort : (printfChar c).length ≤ 1 := by
      unfold printfChar
      split <;> simp
    have hint : maxPossibleBufferSize.toNat = 2 ^ 31 - 1 := by decide
    omega
  rw [printf_text hmeaning hlength, text_chars]
  cases (printfChar c).foldlM (putchar font) console <;> rfl

/-- What is printed for a key is what the driver records for it. -/
theorem prints_sent (k : Keyboard) (scancode : Byte) (console : Console) :
    handleKeyboardPrints font k scancode console =
      (sent k scancode).foldlM (putchar font) console := by
  cases scancode using scancodeCases with
  | shift scancode hshift =>
    have hrec := shift_records k hshift
    rw [← List.append_nil k.echo] at hrec
    rw [sent_eq hrec]
    rcases hshift with rfl | rfl | rfl | rfl <;> rfl
  | enter =>
    have hprint := @printf_char font console 0x0A (by decide)
    rw [sent_eq (enter_records k)]
    unfold handleKeyboardPrints
    dsimp only
    rw [shiftKeys_other _ _ (by decide)]
    dsimp only
    rw [if_pos rfl]
    show Option.bind (Option.map _ (printf font console [0x0A, 0] [])) _ = _
    rw [hprint]
    exact Option.bind_fun_some _
  | backspace =>
    rw [sent_eq (backspace_records k)]
    unfold handleKeyboardPrints
    dsimp only
    rw [shiftKeys_other _ _ (by decide)]
    dsimp only
    rw [if_neg (by decide), if_pos rfl]
    show (putchar font console 0x08).bind some = (putchar font console 0x08).bind some
    rfl
  | char scancode hshift hkeys =>
    have hrec := char_records k hshift hkeys
    unfold handleKeyboardPrints lineKeys
    dsimp only
    rw [shiftKeys_other _ _ hshift]
    dsimp only
    rw [if_neg hkeys.1, if_neg hkeys.2, if_neg hkeys.1, if_neg hkeys.2, Option.bind_some]
    by_cases hc : getUsQwertyCharFromScanCode k scancode = 0
    · rw [if_pos hc, ← List.append_nil k.echo] at hrec
      rw [sent_eq hrec, if_neg (not_not.mpr hc)]
      rfl
    · rw [if_neg hc] at hrec
      rw [sent_eq hrec, if_pos hc, printf_char console hc]

/-- With its calls of `printf` the driver leaves the console that the recorded echo makes, for
    any scan codes from any state. -/
theorem keyboard_prints_echo (font : Font) (k : Keyboard) (console : Console)
    (scancodes : List Byte) :
    ∃ echoed, (scancodes.foldl handleKeyboard k).echo = k.echo ++ echoed ∧
      scancodes.foldlM (handleKeyboardStep font) (k, console) =
        (echoed.foldlM (putchar font) console).map fun console =>
          (scancodes.foldl handleKeyboard k, console) := by
  induction scancodes generalizing k console with
  | nil => exact ⟨[], (List.append_nil _).symm, rfl⟩
  | cons sc scancodes ih =>
    obtain ⟨js, es, hrec⟩ := exists_records k sc
    have hecho := (records_eq.mp hrec).2.1
    have hsent := sent_eq hrec
    have hstep : handleKeyboardStep font (k, console) sc =
        (es.foldlM (putchar font) console).map fun console => (handleKeyboard k sc, console) := by
      rw [handleKeyboardStep, prints_sent, hsent]
    obtain ⟨rest, hrest, -⟩ := ih (handleKeyboard k sc) console
    refine ⟨es ++ rest, ?_, ?_⟩
    · rw [List.foldl_cons, hrest, hecho, List.append_assoc]
    · rw [List.foldlM_cons, hstep, List.foldlM_append, List.foldl_cons]
      cases es.foldlM (putchar font) console with
      | none => rfl
      | some console' =>
        obtain ⟨rest', hrest', hrun⟩ := ih (handleKeyboard k sc) console'
        have hsame : rest' = rest := List.append_cancel_left (hrest'.symm.trans hrest)
        rw [← hsame]
        exact hrun

end SeshOS.Printf
