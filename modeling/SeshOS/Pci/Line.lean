/-
  The line of the enumeration, as it is printed.

  `Describe` has the line of a function as a text. The code calls `printf` with five strings, some
  of them in one static buffer: on the console that call leaves what the characters of the text
  leave, in whatever order the arguments have been evaluated (`function_line_printed`).
-/
import SeshOS.Pci.Describe
import SeshOS.Printf.Callers

namespace SeshOS.Pci

open Base Libc Video
open Printf (WriteBack printf meaning chars text stringDirective literals)

/-! ## The call -/

/-- The format of `EnumerateFunction`. -/
def functionFormat : List Byte := ascii "%s / %s / %s / %s / %s\n" ++ [0]

/-- The object that an argument points to. -/
def Text.object (o : HexOutput) : Text → List Byte
  | .literal text => ascii text ++ [0]
  | .hexToStringOutput => o.buffer.toList

/-- The call of `printf`, the arguments evaluated in this order; `addresses` are those of the
    strings. -/
def printFunction (font : Font) (c : Console) (p : Found) (order : List (Fin 5))
    (addresses : Fin 5 → BitVec 64) (behind : Fin 5 → Nat → Byte) (o : HexOutput) :
    Option (Console × List WriteBack × BitVec 32) :=
  (arguments p).bind fun args =>
    let s := evaluate args behind o order
    printf font c functionFormat
      ((List.finRange 5).map fun k => .ptr (addresses k) ((s.texts k).object s.output))

/-! ## The strings -/

/-- What an argument points to when all are evaluated: its text and a terminator. -/
theorem object_shown {args : Fin 5 → Lookup} (hplain : ∀ k, (args k).Plain)
    (behind : Fin 5 → Nat → Byte) (o : HexOutput) {order : List (Fin 5)} {k : Fin 5}
    (hk : k ∈ order) :
    0 ∉ shown args behind o order k ∧ (shown args behind o order k).length ≤ 100 ∧
      ∃ rest, ((evaluate args behind o order).texts k).object (evaluate args behind o order).output =
        shown args behind o order k ++ 0 :: rest := by
  cases hv : args k with
  | literal text =>
    have h := hplain k
    rw [hv] at h
    rw [shown, evaluate_texts args behind o hk, hv]
    exact ⟨h.2.1, h.2.2, [], rfl⟩
  | toHstring v =>
    obtain ⟨j, w, -, hholds⟩ := evaluate_output args behind o hk hv
    rw [shown_toHstring hk hv hholds, evaluate_texts args behind o hk, hv]
    obtain ⟨hnul, rest, hlist⟩ := hholds
    have hlength : (hexDigits w).length = 16 := by
      rw [hexDigits, List.length_map, List.length_range]
    exact ⟨hnul, by omega, rest, hlist⟩

/-! ## The line -/

def functionPieces : List Printf.Piece :=
  .directive (stringDirective {} .absent) :: (literals (ascii " / ") ++
    .directive (stringDirective {} .absent) :: (literals (ascii " / ") ++
      .directive (stringDirective {} .absent) :: (literals (ascii " / ") ++
        .directive (stringDirective {} .absent) :: (literals (ascii " / ") ++
          .directive (stringDirective {} .absent) :: (literals (ascii "\n") ++ [])))))

theorem functionFormat_pieces :
    Printf.parse (functionFormat.length + 1) functionFormat = some (functionPieces, 0) := by
  decide +kernel

/-- Five strings, whatever is behind their terminators. -/
theorem meaning_functionFormat {addresses : Fin 5 → BitVec 64} (haddresses : ∀ k, addresses k ≠ 0)
    {texts : Fin 5 → List Byte} (hnul : ∀ k, 0 ∉ texts k) (rest : Fin 5 → List Byte) :
    meaning functionFormat
        ((List.finRange 5).map fun k => .ptr (addresses k) (texts k ++ 0 :: rest k)) =
      some (chars (lineFormat texts)) := by
  have hargs : ∀ f : Fin 5 → Printf.Arg, (List.finRange 5).map f = [f 0, f 1, f 2, f 3, f 4] :=
    fun f => rfl
  have hend : ∀ k, stringEnd (texts k ++ 0 :: rest k) = some (texts k).length :=
    fun k => stringEnd_terminated (hnul k) (rest k)
  have hzero : (0 : Printf.PrintfSize).toNat = 0 := rfl
  rw [hargs, Printf.meaning_of_pieces functionFormat_pieces, functionPieces,
    Printf.render_string (haddresses 0) rfl (by decide) rfl, Printf.render_literals,
    Printf.render_string (haddresses 1) rfl (by decide) rfl, Printf.render_literals,
    Printf.render_string (haddresses 2) rfl (by decide) rfl, Printf.render_literals,
    Printf.render_string (haddresses 3) rfl (by decide) rfl, Printf.render_literals,
    Printf.render_string (haddresses 4) rfl (by decide) rfl, Printf.render_literals]
  simp only [hend, Printf.render, Option.map_some, Option.bind_some, hzero, Printf.padded_none,
    List.take_left, lineFormat, Printf.chars_append, List.append_assoc, List.append_nil]

theorem lineFormat_length {texts : Fin 5 → List Byte} (h : ∀ k, (texts k).length ≤ 100) :
    (lineFormat texts).length ≤ 513 := by
  have hslash : (ascii " / ").length = 3 := rfl
  have hend : (ascii "\n").length = 1 := rfl
  have h0 := h 0
  have h1 := h 1
  have h2 := h 2
  have h3 := h 3
  have h4 := h 4
  simp only [lineFormat, List.length_append, hslash, hend]
  omega

/-- For every function header, every order of evaluation, and whatever is in the buffer and on the
    console: the line that is printed is that of `Describe`, and nothing is printed exactly where
    that model has no line. -/
theorem function_line_printed (font : Font) (c : Console) (p : Found) (order : Equiv.Perm (Fin 5))
    {addresses : Fin 5 → BitVec 64} (haddresses : ∀ k, addresses k ≠ 0)
    (behind : Fin 5 → Nat → Byte) (o : HexOutput) :
    printFunction font c p ((List.finRange 5).map order) addresses behind o =
      (printedLine p ((List.finRange 5).map order) behind o).bind fun line =>
        (line.foldlM (putchar font) c).map fun c => (c, [], BitVec.ofNat 32 line.length) := by
  have horder : ∀ k, k ∈ (List.finRange 5).map order := fun k =>
    List.mem_map.mpr ⟨order.symm k, List.mem_finRange _, order.apply_symm_apply k⟩
  generalize (List.finRange 5).map order = order at horder ⊢
  cases hclass : deviceClasses[p.class_]? with
  | none =>
    rw [printFunction, printedLine, arguments, hclass]
    rfl
  | some class_ =>
    have hobject := fun k => object_shown (argument_plain hclass) behind o (horder k)
    choose rest hrest using fun k => (hobject k).2.2
    have hmeaning := meaning_functionFormat haddresses (fun k => (hobject k).1) rest
    have hlength := lineFormat_length fun k => (hobject k).2.1
    have hint : Printf.maxPossibleBufferSize.toNat = 2 ^ 31 - 1 := by decide
    have hline : printedLine p order behind o =
        some (lineFormat (shown (argument p class_) behind o order)) := by
      rw [printedLine, arguments, hclass]
      rfl
    rw [hline, printFunction, arguments, hclass, Option.map_some, Option.bind_some, Option.bind_some]
    simp only [hrest]
    rw [Printf.printf_text hmeaning (by rw [Printf.text_chars]; omega), Printf.text_chars,
      Printf.stores_chars]

theorem function_line_printed_vga : (∀ _ : Fin 5, (0x1000 : BitVec 64) ≠ 0) ∧
    printFunction (Vector.replicate 256 (Vector.replicate 16 0)) bootConsole unnamedVga
        ((List.finRange 5).map (Equiv.refl (Fin 5))) (fun _ => 0x1000) (fun _ _ => 0)
        ⟨Vector.replicate 128 0, [], []⟩ =
      (printedLine unnamedVga ((List.finRange 5).map (Equiv.refl (Fin 5))) (fun _ _ => 0)
        ⟨Vector.replicate 128 0, [], []⟩).bind fun line =>
          (line.foldlM (putchar (Vector.replicate 256 (Vector.replicate 16 0))) bootConsole).map
            fun c => (c, [], BitVec.ofNat 32 line.length) :=
  ⟨fun _ => by decide,
    function_line_printed _ _ _ (Equiv.refl (Fin 5)) (fun _ => by decide) _ _⟩

end SeshOS.Pci
