/-
  The line editor that the keyboard driver implements.

  A history is the list of scan codes so far. `editLine` is the line it leaves: printable keys
  append, Backspace drops, Enter empties. A shift key is held when its last press has not been
  followed by its release. The driver keeps the line in `input`, its length in `i`, and the two
  shift keys in two flags (`Edits`); `edits_step` is one scan code, `keyboard_edits` a run.
-/
import SeshOS.UserInput.Keyboard

namespace SeshOS.UserInput

open Base Libc

/-! ## The reference -/

/-- The key was pressed and not released since. -/
def Held (key : Byte) (history : List Byte) : Prop :=
  ∃ before after, history = before ++ key :: after ∧ key + 0x80 ∉ after

/-- The rows of a US keyboard: scan code of the first key, characters without and with shift. -/
def keyRows : List (Nat × List Char × List Char) :=
  [(0x02, ['1', '2', '3', '4', '5', '6', '7', '8', '9', '0', '-', '='],
      ['!', '@', '#', '$', '%', '^', '&', '*', '(', ')', '_', '+']),
    (0x10, ['q', 'w', 'e', 'r', 't', 'y', 'u', 'i', 'o', 'p', '[', ']'],
      ['Q', 'W', 'E', 'R', 'T', 'Y', 'U', 'I', 'O', 'P', '{', '}']),
    (0x1E, ['a', 's', 'd', 'f', 'g', 'h', 'j', 'k', 'l', ';', Char.ofNat 0x27, '`'],
      ['A', 'S', 'D', 'F', 'G', 'H', 'J', 'K', 'L', ':', Char.ofNat 0x22, '~']),
    (0x2B, [Char.ofNat 0x5C, 'z', 'x', 'c', 'v', 'b', 'n', 'm', ',', '.', '/'],
      ['|', 'Z', 'X', 'C', 'V', 'B', 'N', 'M', '<', '>', '?']),
    (0x37, ['*'], ['*']),
    (0x39, [' '], [' '])]

/-- The character of a printable key. -/
def usQwerty (shift : Bool) (scancode : Byte) : Option Byte :=
  keyRows.findSome? fun (first, plain, shifted) =>
    if first ≤ scancode.toNat then
      ((if shift then shifted else plain)[scancode.toNat - first]?).map chr
    else none

/-- Whether a history leaves the key held, by its last press or release. -/
def lastIsPress (key : Byte) (history : List Byte) : Bool :=
  history.foldl (fun down sc => if sc = key then true else if sc = key + 0x80 then false else down)
    false

theorem held_nil (key : Byte) : ¬Held key [] := by
  rintro ⟨before, after, h, -⟩
  simp at h

/-- One more scan code: a press holds the key, its release frees it, others change nothing. -/
theorem held_concat (key sc : Byte) (history : List Byte) :
    Held key (history ++ [sc]) ↔ sc = key ∨ (Held key history ∧ sc ≠ key + 0x80) := by
  constructor
  · rintro ⟨before, after, h, hrel⟩
    rcases List.eq_nil_or_concat' after with rfl | ⟨rest, last, rfl⟩
    · left
      exact (List.append_inj_right' h rfl |> List.cons.inj).1
    · right
      have hassoc : history ++ [sc] = (before ++ key :: rest) ++ [last] := by
        rw [h]
        simp
      obtain ⟨rfl, hlast⟩ := List.append_inj' hassoc rfl
      obtain rfl := (List.cons.inj hlast).1
      refine ⟨⟨before, rest, rfl, fun hr => hrel (List.mem_append_left _ hr)⟩, ?_⟩
      rintro rfl
      exact hrel (List.mem_append_right _ (List.mem_singleton_self _))
  · rintro (rfl | ⟨⟨before, after, rfl, hrel⟩, hsc⟩)
    · exact ⟨history, [], rfl, List.not_mem_nil⟩
    · refine ⟨before, after ++ [sc], by simp, fun h => ?_⟩
      rcases List.mem_append.mp h with h | h
      · exact hrel h
      · exact hsc (List.mem_singleton.mp h).symm

theorem held_iff (key : Byte) (history : List Byte) :
    Held key history ↔ lastIsPress key history = true := by
  induction history using List.reverseRecOn with
  | nil => simp [held_nil, lastIsPress]
  | append_singleton history sc ih =>
    have hlast : lastIsPress key (history ++ [sc]) =
        if sc = key then true
        else if sc = key + 0x80 then false else lastIsPress key history := by
      rw [lastIsPress, List.foldl_append]
      rfl
    rw [held_concat, ih, hlast]
    by_cases hk : sc = key
    · simp only [hk, true_or, if_true]
    · by_cases hr : sc = key + 0x80
      · rw [if_neg hk, if_pos hr]
        simp only [hk, false_or]
        exact ⟨fun h => absurd hr h.2, fun h => by cases h⟩
      · rw [if_neg hk, if_neg hr]
        simp only [hk, hr, false_or, ne_eq, not_false_eq_true, and_true]

instance (key : Byte) (history : List Byte) : Decidable (Held key history) :=
  decidable_of_iff _ (held_iff key history).symm

/-- One scan code on the line, behind a history. -/
def edit (history line : List Byte) (sc : Byte) : List Byte :=
  if sc = usQwertyEnter then []
  else if sc = usQwertyBackspace then line.dropLast
  else
    line ++ (usQwerty (Held usQwertyLeftShift history ∨ Held usQwertyRightShift history) sc).toList

def editFrom (history line : List Byte) : List Byte → List Byte
  | [] => line
  | sc :: scs => editFrom (history ++ [sc]) (edit history line sc) scs

/-- The line that a history leaves. -/
def editLine (history : List Byte) : List Byte := editFrom [] [] history

theorem editFrom_append (history line xs ys : List Byte) :
    editFrom history line (xs ++ ys) = editFrom (history ++ xs) (editFrom history line xs) ys := by
  induction xs generalizing history line with
  | nil => simp [editFrom]
  | cons x xs ih => simp [editFrom, ih]

theorem editLine_concat (history : List Byte) (sc : Byte) :
    editLine (history ++ [sc]) = edit history (editLine history) sc := by
  rw [editLine, editFrom_append]
  rfl

/-! ## The driver's character is the key's -/

/-- A shift key, pressed or released. -/
def IsShiftKey (sc : Byte) : Prop :=
  sc = usQwertyLeftShift ∨ sc = usQwertyRightShift ∨ sc = usQwertyLeftShift + 0x80 ∨
    sc = usQwertyRightShift + 0x80

instance : DecidablePred IsShiftKey := fun _ => inferInstanceAs (Decidable (_ ∨ _ ∨ _ ∨ _))

/-- The shift keys are not printable. -/
theorem usQwerty_shiftKey : ∀ sc : Byte, IsShiftKey sc → ∀ shift, usQwerty shift sc = none := by
  decide +kernel

theorem usQwerty_ne_zero : ∀ shift sc, usQwerty shift sc ≠ some 0 := by
  decide +kernel

/-- The table with its shift chains is the layout, for scan codes inside of the table. -/
theorem shiftChar_mapping : ∀ sc : Byte, sc ≤ 57 →
    usQwertyAsciiPs2Mapping.getD sc.toNat 0 = (usQwerty false sc).getD 0 ∧
      shiftChar (usQwertyAsciiPs2Mapping.getD sc.toNat 0) = (usQwerty true sc).getD 0 := by
  decide +kernel

theorem usQwerty_past : ∀ sc : Byte, 58 < sc → ∀ shift, usQwerty shift sc = none := by
  decide +kernel

/-- Inside of the table, `get_us_qwerty_char_from_scan_code` is the layout. -/
theorem getUsQwertyChar_eq (k : Keyboard) {sc : Byte} (h : sc ≠ 58) :
    getUsQwertyCharFromScanCode k sc =
      (usQwerty (k.leftShiftPressed ≠ 0 ∨ k.rightShiftPressed ≠ 0) sc).getD 0 := by
  unfold getUsQwertyCharFromScanCode
  by_cases hpast : 58 < sc
  · rw [if_pos hpast, usQwerty_past sc hpast]
    rfl
  · have hle : sc ≤ 57 := by bv_omega
    have hlen : sc.toNat < usQwertyAsciiPs2Mapping.length := by
      show sc.toNat < 58
      bv_omega
    have hget : usQwertyAsciiPs2Mapping.getD sc.toNat k.pastMapping =
        usQwertyAsciiPs2Mapping.getD sc.toNat 0 := by
      rw [List.getD_eq_getElem _ _ hlen, List.getD_eq_getElem _ _ hlen]
    obtain ⟨hplain, hshift⟩ := shiftChar_mapping sc hle
    rw [if_neg hpast]
    dsimp only
    rw [hget]
    by_cases hs : k.leftShiftPressed ≠ 0 ∨ k.rightShiftPressed ≠ 0
    · rw [if_pos hs, hshift, decide_eq_true hs]
    · rw [if_neg hs, hplain, decide_eq_false hs]

/-! ## What one scan code does to the driver -/

/-- The part of the state that the line editor is about. -/
def Keyboard.view (k : Keyboard) : Vector Byte 100 × Int × Byte × Byte :=
  (k.input, k.i, k.leftShiftPressed, k.rightShiftPressed)

/-- A store inside of `input`. -/
theorem store_inside (k : Keyboard) {j : Nat} (hj : j < 100) (c : Byte) :
    (k.store j c).input.toList = k.input.toList.set j c := by
  have hrange : 0 ≤ (j : Int) ∧ (j : Int) < 100 := by omega
  rw [Keyboard.store]
  dsimp only
  rw [dif_pos hrange, Vector.toList_set, Int.toNat_natCast]

/-- Zeros stored into the first `n` bytes. -/
theorem store_zeros (k : Keyboard) {n : Nat} (hn : n ≤ 100) :
    let k' := (List.range n).foldl (fun k (j : Nat) => k.store j 0) k
    k'.input.toList = List.replicate n 0 ++ k.input.toList.drop n ∧ k'.i = k.i ∧
      k'.leftShiftPressed = k.leftShiftPressed ∧ k'.rightShiftPressed = k.rightShiftPressed := by
  induction n with
  | zero => exact ⟨rfl, rfl, rfl, rfl⟩
  | succ n ih =>
    obtain ⟨hinput, hi, hl, hr⟩ := ih (by omega)
    rw [List.range_succ, List.foldl_append]
    refine ⟨?_, hi, hl, hr⟩
    have hlen : (List.replicate n (0 : Byte)).length = n := List.length_replicate
    have hlt : n < k.input.toList.length := by
      rw [Vector.length_toList]
      omega
    have hdrop : k.input.toList.drop n = k.input.toList[n] :: k.input.toList.drop (n + 1) :=
      List.drop_eq_getElem_cons hlt
    rw [List.foldl_cons, List.foldl_nil, store_inside _ (by omega), hinput, hdrop,
      List.set_append_right _ _ (by omega), hlen, Nat.sub_self, List.set_cons_zero,
      List.replicate_succ', List.append_assoc]
    rfl

/-- The whole handler, from what its `if` chains leave. -/
theorem handleKeyboard_of_keys {k k₁ k₂ : Keyboard} {sc c₁ c₂ : Byte}
    (hshift : shiftKeys (k.read sc) sc (getUsQwertyCharFromScanCode k sc) = (k₁, c₁))
    (hline : lineKeys k₁ sc c₁ = (k₂, c₂)) :
    (handleKeyboard k sc).view =
      if c₂ = 0 then k₂.view
      else ((k₂.store k₂.i c₂).input, k₂.i + 1, k₂.leftShiftPressed, k₂.rightShiftPressed) := by
  unfold handleKeyboard
  dsimp only
  rw [hshift]
  dsimp only
  rw [hline]
  dsimp only
  by_cases hc : c₂ = 0
  · rw [if_pos hc, if_neg (not_not.mpr hc)]
    rfl
  · rw [if_neg hc, if_pos hc]
    rfl

theorem read_view (k : Keyboard) (sc : Byte) : (k.read sc).view = k.view := by
  unfold Keyboard.read
  split <;> rfl

/-- The four scan codes of the shift keys. -/
theorem handleKeyboard_leftShift (k : Keyboard) :
    (handleKeyboard k usQwertyLeftShift).view = (k.input, k.i, 1, k.rightShiftPressed) := rfl

theorem handleKeyboard_rightShift (k : Keyboard) :
    (handleKeyboard k usQwertyRightShift).view = (k.input, k.i, k.leftShiftPressed, 1) := rfl

theorem handleKeyboard_leftRelease (k : Keyboard) :
    (handleKeyboard k (usQwertyLeftShift + 0x80)).view = (k.input, k.i, 0, k.rightShiftPressed) :=
  rfl

theorem handleKeyboard_rightRelease (k : Keyboard) :
    (handleKeyboard k (usQwertyRightShift + 0x80)).view = (k.input, k.i, k.leftShiftPressed, 0) :=
  rfl

/-- Any other key leaves the shift flags alone. -/
theorem shiftKeys_other (k : Keyboard) {sc : Byte} (c : Byte) (h : ¬IsShiftKey sc) :
    shiftKeys k sc c = (k, c) := by
  rw [IsShiftKey, not_or, not_or, not_or] at h
  obtain ⟨hl, hr, hlr, hrr⟩ := h
  unfold shiftKeys
  rw [if_neg hl, if_neg hr]
  dsimp only
  rw [if_neg hlr, if_neg hrr]

theorem handleKeyboard_enter (k : Keyboard) :
    (handleKeyboard k usQwertyEnter).view =
      (Vector.replicate 100 0, 0, k.leftShiftPressed, k.rightShiftPressed) := by
  have hline : lineKeys (k.read usQwertyEnter) usQwertyEnter
      (getUsQwertyCharFromScanCode k usQwertyEnter) =
        (Keyboard.clearInput
          { k.read usQwertyEnter with echo := (k.read usQwertyEnter).echo ++ [0x0A], i := 0 }, 0) :=
    if_pos rfl
  rw [handleKeyboard_of_keys (shiftKeys_other _ _ (by decide)) hline, if_pos rfl,
    Keyboard.clearInput]
  obtain ⟨hinput, hi, hl, hr⟩ := store_zeros
    { k.read usQwertyEnter with echo := (k.read usQwertyEnter).echo ++ [0x0A], i := 0 }
    (Nat.le_refl 100)
  rw [Keyboard.view, hi, hl, hr]
  refine Prod.ext ?_ rfl
  rw [← Vector.toList_inj]
  dsimp only
  rw [hinput, Vector.toList_replicate, List.drop_of_length_le (by simp), List.append_nil]

/-- Backspace on an empty line stores in front of `input`, otherwise over its last character. -/
theorem handleKeyboard_backspace (k : Keyboard) :
    (handleKeyboard k usQwertyBackspace).view =
      ((k.store (k.i - 1) 0).input, if k.i - 1 < 0 then 0 else k.i - 1, k.leftShiftPressed,
        k.rightShiftPressed) := by
  rw [handleKeyboard_of_keys (shiftKeys_other _ _ (by decide)) rfl, if_pos rfl]
  show (if k.i - 1 < 0 then _ else _ : Keyboard).view = _
  by_cases hneg : k.i - 1 < 0
  · rw [if_pos hneg, if_pos hneg]
    rfl
  · rw [if_neg hneg, if_neg hneg]
    rfl

/-- Any other key appends its character, if it has one. -/
theorem handleKeyboard_char (k : Keyboard) {sc : Byte} (hshift : ¬IsShiftKey sc)
    (hline : sc ≠ usQwertyEnter ∧ sc ≠ usQwertyBackspace) :
    (handleKeyboard k sc).view =
      if getUsQwertyCharFromScanCode k sc = 0 then k.view
      else ((k.store k.i (getUsQwertyCharFromScanCode k sc)).input, k.i + 1, k.leftShiftPressed,
        k.rightShiftPressed) := by
  have hkeys : lineKeys (k.read sc) sc (getUsQwertyCharFromScanCode k sc) =
      (k.read sc, getUsQwertyCharFromScanCode k sc) := by
    rw [lineKeys, if_neg hline.1, if_neg hline.2]
  rw [handleKeyboard_of_keys (shiftKeys_other _ _ hshift) hkeys, read_view]
  by_cases hc : getUsQwertyCharFromScanCode k sc = 0
  · rw [if_pos hc, if_pos hc]
  · rw [if_neg hc, if_neg hc]
    unfold Keyboard.read
    split <;> rfl

/-! ## The driver keeps the line -/

/-- `input` is a line and zeros behind it, `i` its length. -/
structure HoldsLine (k : Keyboard) (line : List Byte) : Prop where
  input : k.input.toList = line ++ List.replicate (100 - line.length) 0
  i : k.i = line.length

/-- The driver is where the line editor is after a history. -/
structure Edits (k : Keyboard) (history : List Byte) : Prop where
  line : HoldsLine k (editLine history)
  left : k.leftShiftPressed ≠ 0 ↔ Held usQwertyLeftShift history
  right : k.rightShiftPressed ≠ 0 ↔ Held usQwertyRightShift history

theorem edits_boot (pastMapping : Byte) : Edits (bootKeyboard pastMapping) [] where
  line := ⟨rfl, rfl⟩
  left := ⟨fun h => absurd rfl h, fun h => absurd h (held_nil _)⟩
  right := ⟨fun h => absurd rfl h, fun h => absurd h (held_nil _)⟩

theorem HoldsLine.length_le {k : Keyboard} {line : List Byte} (h : HoldsLine k line) :
    line.length ≤ 100 := by
  have hlen := congrArg List.length h.input
  rw [Vector.length_toList, List.length_append, List.length_replicate] at hlen
  omega

/-- What `view` does not change of the line. -/
theorem holdsLine_of_view {k k' : Keyboard} {line : List Byte} (h : HoldsLine k line)
    (hinput : k'.input = k.input) (hi : k'.i = k.i) : HoldsLine k' line :=
  ⟨by rw [hinput, h.input], by rw [hi, h.i]⟩

/-- One more character, as long as it fits. -/
theorem HoldsLine.append {k k' : Keyboard} {line : List Byte} (h : HoldsLine k line) (c : Byte)
    (hfit : line.length < 100) (hinput : k'.input = (k.store k.i c).input)
    (hi : k'.i = k.i + 1) : HoldsLine k' (line ++ [c]) := by
  refine ⟨?_, ?_⟩
  · have hzeros : List.replicate (100 - line.length) (0 : Byte) =
        0 :: List.replicate (100 - (line.length + 1)) 0 := by
      rw [← List.replicate_succ]
      congr 1
      omega
    rw [hinput, h.i, store_inside k hfit, h.input, List.set_append_right _ _ (Nat.le_refl _),
      Nat.sub_self, hzeros, List.set_cons_zero, List.length_append, List.append_assoc]
    rfl
  · rw [hi, h.i, List.length_append]
    rfl

/-- The last character gone, or nothing on an empty line. -/
theorem HoldsLine.dropLast {k k' : Keyboard} {line : List Byte} (h : HoldsLine k line)
    (hinput : k'.input = (k.store (k.i - 1) 0).input)
    (hi : k'.i = if k.i - 1 < 0 then 0 else k.i - 1) : HoldsLine k' line.dropLast := by
  have hlen := h.length_le
  rcases List.eq_nil_or_concat' line with rfl | ⟨rest, last, rfl⟩
  · -- the store in front of `input` is lost
    have hneg : k.i - 1 < 0 := by
      rw [h.i]
      decide
    have hstore : (k.store (k.i - 1) 0).input = k.input := by
      rw [Keyboard.store]
      exact dif_neg (by omega)
    rw [if_pos hneg] at hi
    exact ⟨by rw [hinput, hstore, h.input]; rfl, by rw [hi]; rfl⟩
  · rw [List.length_append, List.length_singleton] at hlen
    have hk : k.i = (rest.length : Int) + 1 := by
      rw [h.i, List.length_append]
      rfl
    have hpos : k.i - 1 = rest.length := by omega
    have hzeros : (0 : Byte) :: List.replicate (100 - (rest.length + 1)) 0 =
        List.replicate (100 - rest.length) 0 := by
      rw [← List.replicate_succ]
      congr 1
      omega
    rw [List.dropLast_concat]
    refine ⟨?_, ?_⟩
    · rw [hinput, hpos, store_inside k (by omega), h.input, List.append_assoc,
        List.set_append_right _ _ (Nat.le_refl _), Nat.sub_self, List.singleton_append,
        List.set_cons_zero, List.length_append, List.length_singleton, hzeros]
    · rw [hi, hpos, if_neg (by omega)]

/-- A scan code that is no shift key. -/
theorem held_other {key sc : Byte} (h : sc ≠ key) (hrel : sc ≠ key + 0x80) (history : List Byte) :
    Held key (history ++ [sc]) ↔ Held key history := by
  rw [held_concat]
  simp only [h, hrel, false_or, ne_eq, not_false_eq_true, and_true]

theorem view_eq {k : Keyboard} {buf : Vector Byte 100} {i : Int} {l r : Byte} :
    k.view = (buf, i, l, r) ↔
      k.input = buf ∧ k.i = i ∧ k.leftShiftPressed = l ∧ k.rightShiftPressed = r := by
  simp only [Keyboard.view, Prod.mk.injEq]

/-- A shift key, pressed or released. -/
theorem edits_shift {k : Keyboard} {history : List Byte} (h : Edits k history) {sc : Byte}
    (hsc : IsShiftKey sc) : Edits (handleKeyboard k sc) (history ++ [sc]) := by
  have hline : editLine (history ++ [sc]) = editLine history := by
    have hnot : sc ≠ usQwertyEnter ∧ sc ≠ usQwertyBackspace := by
      rcases hsc with rfl | rfl | rfl | rfl <;> decide
    rw [editLine_concat, edit, if_neg hnot.1, if_neg hnot.2, usQwerty_shiftKey sc hsc]
    exact List.append_nil _
  have hkeeps : ∀ {l r : Byte}, (handleKeyboard k sc).view = (k.input, k.i, l, r) →
      HoldsLine (handleKeyboard k sc) (editLine (history ++ [sc])) ∧
        (handleKeyboard k sc).leftShiftPressed = l ∧
        (handleKeyboard k sc).rightShiftPressed = r := by
    intro l r hv
    obtain ⟨hinput, hi, hl, hr⟩ := view_eq.mp hv
    rw [hline]
    exact ⟨holdsLine_of_view h.line hinput hi, hl, hr⟩
  rcases hsc with rfl | rfl | rfl | rfl
  · obtain ⟨hl, hleft, hright⟩ := hkeeps (handleKeyboard_leftShift k)
    refine ⟨hl, ?_, ?_⟩
    · rw [hleft, held_concat]
      simp
    · rw [hright, held_other (by decide) (by decide), h.right]
  · obtain ⟨hl, hleft, hright⟩ := hkeeps (handleKeyboard_rightShift k)
    refine ⟨hl, ?_, ?_⟩
    · rw [hleft, held_other (by decide) (by decide), h.left]
    · rw [hright, held_concat]
      simp
  · obtain ⟨hl, hleft, hright⟩ := hkeeps (handleKeyboard_leftRelease k)
    refine ⟨hl, ?_, ?_⟩
    · rw [hleft, held_concat]
      simp [usQwertyLeftShift]
    · rw [hright, held_other (by decide) (by decide), h.right]
  · obtain ⟨hl, hleft, hright⟩ := hkeeps (handleKeyboard_rightRelease k)
    refine ⟨hl, ?_, ?_⟩
    · rw [hleft, held_other (by decide) (by decide), h.left]
    · rw [hright, held_concat]
      simp [usQwertyRightShift]

/-- A key that is no shift key leaves the flags and what is held alone. -/
theorem edits_of_line {k k' : Keyboard} {history : List Byte} (h : Edits k history) {sc : Byte}
    (hsc : ¬IsShiftKey sc) (hline : HoldsLine k' (editLine (history ++ [sc])))
    (hl : k'.leftShiftPressed = k.leftShiftPressed)
    (hr : k'.rightShiftPressed = k.rightShiftPressed) : Edits k' (history ++ [sc]) := by
  rw [IsShiftKey, not_or, not_or, not_or] at hsc
  obtain ⟨h1, h2, h3, h4⟩ := hsc
  refine ⟨hline, ?_, ?_⟩
  · rw [hl, held_other h1 h3, h.left]
  · rw [hr, held_other h2 h4, h.right]

/-- The character the layout gives for a scan code behind a history. -/
def keyChar (history : List Byte) (sc : Byte) : Option Byte :=
  usQwerty (Held usQwertyLeftShift history ∨ Held usQwertyRightShift history) sc

/-- The driver finds it: its flags say what the history holds. -/
theorem Edits.char_eq {k : Keyboard} {history : List Byte} (h : Edits k history) {sc : Byte}
    (hsc : sc ≠ 58) : getUsQwertyCharFromScanCode k sc = (keyChar history sc).getD 0 := by
  have hshiftDown : (decide (k.leftShiftPressed ≠ 0 ∨ k.rightShiftPressed ≠ 0)) =
      decide (Held usQwertyLeftShift history ∨ Held usQwertyRightShift history) := by
    simp only [h.left, h.right]
  rw [getUsQwertyChar_eq k hsc, hshiftDown, keyChar]

theorem editLine_char (history : List Byte) {sc : Byte}
    (hkeys : sc ≠ usQwertyEnter ∧ sc ≠ usQwertyBackspace) :
    editLine (history ++ [sc]) = editLine history ++ (keyChar history sc).toList := by
  rw [editLine_concat, edit, if_neg hkeys.1, if_neg hkeys.2, keyChar]

/-- Any other key: its character. -/
theorem edits_char {k : Keyboard} {history : List Byte} (h : Edits k history) {sc : Byte}
    (hshift : ¬IsShiftKey sc) (hkeys : sc ≠ usQwertyEnter ∧ sc ≠ usQwertyBackspace)
    (hsc : sc ≠ 58) (hfit : (editLine (history ++ [sc])).length ≤ 100) :
    Edits (handleKeyboard k sc) (history ++ [sc]) := by
  have hview := handleKeyboard_char k hshift hkeys
  have hedit := editLine_char history hkeys
  rw [h.char_eq hsc] at hview
  rw [hedit] at hfit
  cases hkey : keyChar history sc with
  | none =>
    rw [hkey, Option.getD_none, if_pos rfl] at hview
    obtain ⟨hinput, hi, hl, hr⟩ := view_eq.mp hview
    refine edits_of_line h hshift ?_ hl hr
    rw [hedit, hkey, Option.toList_none, List.append_nil]
    exact holdsLine_of_view h.line hinput hi
  | some c =>
    have hne : c ≠ 0 := by
      rintro rfl
      exact usQwerty_ne_zero _ _ hkey
    rw [hkey, Option.getD_some, if_neg hne] at hview
    rw [hkey, Option.toList_some, List.length_append] at hfit
    obtain ⟨hinput, hi, hl, hr⟩ := view_eq.mp hview
    refine edits_of_line h hshift ?_ hl hr
    rw [hedit, hkey, Option.toList_some]
    exact h.line.append c (Nat.lt_of_succ_le hfit) hinput hi

/-- The kinds of scan code that the driver tells apart. -/
@[elab_as_elim]
theorem scancodeCases {motive : Byte → Prop} (shift : ∀ sc, IsShiftKey sc → motive sc)
    (enter : motive usQwertyEnter) (backspace : motive usQwertyBackspace)
    (char : ∀ sc, ¬IsShiftKey sc → sc ≠ usQwertyEnter ∧ sc ≠ usQwertyBackspace → motive sc)
    (sc : Byte) : motive sc := by
  by_cases hshift : IsShiftKey sc
  · exact shift sc hshift
  · by_cases he : sc = usQwertyEnter
    · exact he ▸ enter
    · by_cases hb : sc = usQwertyBackspace
      · exact hb ▸ backspace
      · exact char sc hshift ⟨he, hb⟩

/-- One scan code. -/
theorem edits_step {k : Keyboard} {history : List Byte} (h : Edits k history) {sc : Byte}
    (hsc : sc ≠ 58) (hfit : (editLine (history ++ [sc])).length ≤ 100) :
    Edits (handleKeyboard k sc) (history ++ [sc]) := by
  cases sc using scancodeCases with
  | shift sc hshift => exact edits_shift h hshift
  | enter =>
    obtain ⟨hinput, hi, hl, hr⟩ := view_eq.mp (handleKeyboard_enter k)
    refine edits_of_line h (by decide) ?_ hl hr
    rw [editLine_concat, edit, if_pos rfl]
    exact ⟨by rw [hinput]; rfl, by rw [hi]; rfl⟩
  | backspace =>
    obtain ⟨hinput, hi, hl, hr⟩ := view_eq.mp (handleKeyboard_backspace k)
    refine edits_of_line h (by decide) ?_ hl hr
    rw [editLine_concat, edit, if_neg (by decide), if_pos rfl]
    exact h.line.dropLast hinput hi
  | char sc hshift hkeys => exact edits_char h hshift hkeys hsc hfit

/-- A run: at every point of it the driver is where the line editor is. -/
theorem keyboard_edits (pastMapping : Byte) {scancodes : List Byte} (h58 : 58 ∉ scancodes)
    (hfit : ∀ p, p <+: scancodes → (editLine p).length ≤ 100) {p : List Byte}
    (hp : p <+: scancodes) : Edits (p.foldl handleKeyboard (bootKeyboard pastMapping)) p := by
  induction p using List.reverseRecOn with
  | nil => exact edits_boot pastMapping
  | append_singleton p sc ih =>
    have hp' : p <+: scancodes := (List.prefix_append p [sc]).trans hp
    have hsc : sc ≠ 58 := by
      rintro rfl
      exact h58 (hp.subset (List.mem_append_right p (List.mem_singleton_self _)))
    rw [List.foldl_append]
    exact edits_step (ih hp') hsc (hfit _ hp)

/-- The driver refines the line editor. For every sequence of scan codes other than 58 along
    which the line stays within 100 characters, and at every point of it, `input` holds the
    line with zeros behind it and `i` is its length. -/
theorem keyboard_refines_line_editor (pastMapping : Byte) (scancodes : List Byte)
    (h58 : 58 ∉ scancodes) (hfit : ∀ p, p <+: scancodes → (editLine p).length ≤ 100)
    {p : List Byte} (hp : p <+: scancodes) :
    let k := p.foldl handleKeyboard (bootKeyboard pastMapping)
    k.i = (editLine p).length ∧
      k.input.toList = editLine p ++ List.replicate (100 - (editLine p).length) 0 := by
  have hedits := keyboard_edits pastMapping h58 hfit hp
  exact ⟨hedits.line.i, hedits.line.input⟩

/-- Shift down, `a`, shift up, `b`, Backspace: the line is `A`. -/
theorem keyboard_refines_line_editor_shift :
    let k := [0x2A, 0x1E, 0xAA, 0x30, 0x0E].foldl handleKeyboard (bootKeyboard 0)
    k.i = 1 ∧ k.input.toList = [chr 'A'] ++ List.replicate 99 0 :=
  keyboard_refines_line_editor 0 [0x2A, 0x1E, 0xAA, 0x30, 0x0E] (by decide)
    (fun p hp =>
      have hall : ∀ p ∈ [0x2A, 0x1E, 0xAA, 0x30, 0x0E].inits, (editLine p).length ≤ 100 := by decide
      hall p ((List.mem_inits _ _).mpr hp))
    (List.prefix_refl _)

end SeshOS.UserInput
