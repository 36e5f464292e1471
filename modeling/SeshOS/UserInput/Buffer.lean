/-
  The bounds of the keyboard driver's two arrays.

  `input` has 100 bytes and the scan code table 58. `HandleKeyboard` guards neither the
  increment of `i` nor the decrement it stores through, and its test of the scan code lets 58
  pass. A history keeps the driver inside of both arrays exactly when it `FitsBuffer`: the
  proof reads off what each scan code records, and takes `i` from the line editor.
-/
import SeshOS.Base.Run
import SeshOS.UserInput.LineEditor

namespace SeshOS.UserInput

open Base Libc

/-! ## What one scan code records -/

/-- The records of a run: indices stored to, characters echoed, indices read. -/
def Keyboard.records (k : Keyboard) : List Int × List Byte × List Nat := (k.stores, k.echo, k.reads)

/-- The index a scan code reads the table at. -/
def tableReads (sc : Byte) : List Nat := if 58 < sc then [] else [sc.toNat]

theorem read_records (k : Keyboard) (sc : Byte) :
    (k.read sc).records = (k.stores, k.echo, k.reads ++ tableReads sc) := by
  unfold Keyboard.read tableReads
  split
  · rw [List.append_nil]
    rfl
  · rfl

theorem records_eq {k : Keyboard} {stores : List Int} {echo : List Byte} {reads : List Nat} :
    k.records = (stores, echo, reads) ↔ k.stores = stores ∧ k.echo = echo ∧ k.reads = reads := by
  simp only [Keyboard.records, Prod.mk.injEq]

/-- The records of the whole handler, from what its `if` chains leave. -/
theorem records_of_keys {k k₁ k₂ : Keyboard} {sc c₁ c₂ : Byte}
    (hshift : shiftKeys (k.read sc) sc (getUsQwertyCharFromScanCode k sc) = (k₁, c₁))
    (hline : lineKeys k₁ sc c₁ = (k₂, c₂)) :
    (handleKeyboard k sc).records =
      if c₂ = 0 then k₂.records
      else (k₂.stores ++ [k₂.i], k₂.echo ++ printfChar c₂, k₂.reads) := by
  unfold handleKeyboard
  dsimp only
  rw [hshift]
  dsimp only
  rw [hline]
  dsimp only
  by_cases hc : c₂ = 0
  · rw [if_pos hc, if_neg (not_not.mpr hc)]
    rfl
  · rw [if_neg hc, if_pos hc]
    rfl

theorem shift_records (k : Keyboard) {sc : Byte} (hsc : IsShiftKey sc) :
    (handleKeyboard k sc).records = (k.stores, k.echo, k.reads ++ tableReads sc) := by
  rcases hsc with rfl | rfl | rfl | rfl
  · rfl
  · rfl
  · rw [show tableReads (usQwertyLeftShift + 0x80) = [] from rfl, List.append_nil]
    rfl
  · rw [show tableReads (usQwertyRightShift + 0x80) = [] from rfl, List.append_nil]
    rfl

/-- What the clearing loop of Enter records. -/
theorem clear_records (k : Keyboard) (n : Nat) :
    ((List.range n).foldl (fun k (j : Nat) => k.store j 0) k).records =
      (k.stores ++ (List.range n).map Int.ofNat, k.echo, k.reads) := by
  induction n with
  | zero => rw [List.range_zero, List.map_nil, List.append_nil]; rfl
  | succ n ih =>
    obtain ⟨hstores, hecho, hreads⟩ := records_eq.mp ih
    rw [List.range_succ, List.foldl_append, List.map_append, ← List.append_assoc, ← hstores]
    exact records_eq.mpr ⟨rfl, hecho, hreads⟩

theorem enter_records (k : Keyboard) :
    (handleKeyboard k usQwertyEnter).records =
      (k.stores ++ (List.range 100).map Int.ofNat, k.echo ++ [0x0A],
        k.reads ++ tableReads usQwertyEnter) := by
  have hline : lineKeys (k.read usQwertyEnter) usQwertyEnter
      (getUsQwertyCharFromScanCode k usQwertyEnter) =
        (Keyboard.clearInput
          { k.read usQwertyEnter with echo := (k.read usQwertyEnter).echo ++ [0x0A], i := 0 }, 0) :=
    if_pos rfl
  rw [records_of_keys (shiftKeys_other _ _ (by decide)) hline, if_pos rfl, Keyboard.clearInput,
    clear_records]
  rfl

theorem backspace_records (k : Keyboard) :
    (handleKeyboard k usQwertyBackspace).records =
      (k.stores ++ [k.i - 1], k.echo ++ [0x08], k.reads ++ tableReads usQwertyBackspace) := by
  rw [records_of_keys (shiftKeys_other _ _ (by decide)) rfl, if_pos rfl]
  show (if k.i - 1 < 0 then _ else _ : Keyboard).records = _
  split <;> rfl

/-- Any other key stores and echoes its character, if it has one. -/
theorem char_records (k : Keyboard) {sc : Byte} (hshift : ¬IsShiftKey sc)
    (hkeys : sc ≠ usQwertyEnter ∧ sc ≠ usQwertyBackspace) :
    (handleKeyboard k sc).records =
      if getUsQwertyCharFromScanCode k sc = 0 then (k.stores, k.echo, k.reads ++ tableReads sc)
      else (k.stores ++ [k.i], k.echo ++ printfChar (getUsQwertyCharFromScanCode k sc),
        k.reads ++ tableReads sc) := by
  have hline : lineKeys (k.read sc) sc (getUsQwertyCharFromScanCode k sc) =
      (k.read sc, getUsQwertyCharFromScanCode k sc) := by
    rw [lineKeys, if_neg hkeys.1, if_neg hkeys.2]
  obtain ⟨hstores, hecho, hreads⟩ := records_eq.mp (read_records k sc)
  have hi : (k.read sc).i = k.i := congrArg (fun v => v.2.1) (read_view k sc)
  rw [records_of_keys (shiftKeys_other _ _ hshift) hline, hstores, hecho, hreads, hi, read_records]

/-- Records only grow. -/
theorem exists_records (k : Keyboard) (sc : Byte) : ∃ js es,
    (handleKeyboard k sc).records = (k.stores ++ js, k.echo ++ es, k.reads ++ tableReads sc) := by
  cases sc using scancodeCases with
  | shift sc hshift =>
    refine ⟨[], [], ?_⟩
    rw [List.append_nil, List.append_nil, shift_records k hshift]
  | enter => exact ⟨_, _, enter_records k⟩
  | backspace => exact ⟨_, _, backspace_records k⟩
  | char sc hshift hkeys =>
    have hrec := char_records k hshift hkeys
    by_cases hc : getUsQwertyCharFromScanCode k sc = 0
    · refine ⟨[], [], ?_⟩
      rw [hrec, if_pos hc, List.append_nil, List.append_nil]
    · exact ⟨_, _, hrec.trans (if_neg hc)⟩

/-! ## Inside of both arrays -/

/-- Every index recorded is inside: of `input` for the stores, of the table for the reads. -/
def InsideArrays (k : Keyboard) : Prop :=
  (∀ j ∈ k.stores, 0 ≤ j ∧ j < 100) ∧ ∀ j ∈ k.reads, j < usQwertyAsciiPs2Mapping.length

instance : DecidablePred InsideArrays := fun _ => inferInstanceAs (Decidable (_ ∧ _))

/-- What a history must not do next: press the key with scan code 58, press Backspace on an
    empty line, or type a character behind 100 others. -/
def FitsBuffer (history : List Byte) (sc : Byte) : Prop :=
  sc ≠ 58 ∧ (sc = usQwertyBackspace → editLine history ≠ []) ∧
    (editLine (history ++ [sc])).length ≤ 100

/-- 58 is the one scan code that passes the test and is not in the table. -/
theorem tableReads_inside : ∀ sc : Byte,
    (∀ j ∈ tableReads sc, j < usQwertyAsciiPs2Mapping.length) ↔ sc ≠ 58 := by
  decide +kernel

/-- One scan code, from the stores it records. -/
theorem inside_of_records {k : Keyboard} {sc : Byte} {js : List Int} {echo : List Byte}
    (h : (handleKeyboard k sc).records = (k.stores ++ js, echo, k.reads ++ tableReads sc)) :
    InsideArrays (handleKeyboard k sc) ↔
      InsideArrays k ∧ (∀ j ∈ js, 0 ≤ j ∧ j < 100) ∧ sc ≠ 58 := by
  obtain ⟨hstores, -, hreads⟩ := records_eq.mp h
  rw [InsideArrays, hstores, hreads, List.forall_mem_append, List.forall_mem_append,
    tableReads_inside, InsideArrays]
  tauto

/-! What fitting means for each kind of key. -/

theorem fits_shift {history : List Byte} (hlen : (editLine history).length ≤ 100) {sc : Byte}
    (hsc : IsShiftKey sc) : FitsBuffer history sc := by
  have hnot : sc ≠ 58 ∧ sc ≠ usQwertyEnter ∧ sc ≠ usQwertyBackspace := by
    rcases hsc with rfl | rfl | rfl | rfl <;> decide
  refine ⟨hnot.1, fun hb => absurd hb hnot.2.2, ?_⟩
  rw [editLine_char history hnot.2, keyChar, usQwerty_shiftKey sc hsc, Option.toList_none,
    List.append_nil]
  exact hlen

theorem fits_enter (history : List Byte) : FitsBuffer history usQwertyEnter := by
  refine ⟨by decide, fun hb => absurd hb (by decide), ?_⟩
  rw [editLine_concat, edit, if_pos rfl]
  exact Nat.zero_le _

theorem fits_backspace {history : List Byte} (hlen : (editLine history).length ≤ 100) :
    FitsBuffer history usQwertyBackspace ↔ editLine history ≠ [] := by
  have hdrop : (editLine (history ++ [usQwertyBackspace])).length ≤ 100 := by
    rw [editLine_concat, edit, if_neg (by decide), if_pos rfl, List.length_dropLast]
    omega
  exact ⟨fun h => h.2.1 rfl, fun h => ⟨by decide, fun _ => h, hdrop⟩⟩

theorem fits_char (history : List Byte) {sc : Byte}
    (hkeys : sc ≠ usQwertyEnter ∧ sc ≠ usQwertyBackspace) :
    FitsBuffer history sc ↔
      sc ≠ 58 ∧ (editLine history).length + (keyChar history sc).toList.length ≤ 100 := by
  rw [FitsBuffer, editLine_char history hkeys, List.length_append]
  exact ⟨fun h => ⟨h.1, h.2.2⟩, fun h => ⟨h.1, fun hb => absurd hb hkeys.2, h.2⟩⟩

/-- A key with a character, or without one. The read of the table decides for scan code 58,
    whose character the layout does not know. -/
theorem inside_char {k : Keyboard} {history : List Byte} (h : Edits k history) {sc : Byte}
    (hshift : ¬IsShiftKey sc) (hkeys : sc ≠ usQwertyEnter ∧ sc ≠ usQwertyBackspace) :
    InsideArrays (handleKeyboard k sc) ↔ InsideArrays k ∧ FitsBuffer history sc := by
  have hlen := h.line.length_le
  have hi := h.line.i
  have hrec := char_records k hshift hkeys
  rw [fits_char history hkeys]
  by_cases hc : getUsQwertyCharFromScanCode k sc = 0
  · rw [if_pos hc, ← List.append_nil k.stores] at hrec
    rw [inside_of_records hrec, and_comm (a := ∀ j ∈ [], _)]
    refine and_congr_right' (and_congr_right fun hsc => ?_)
    have hnone : keyChar history sc = none := by
      cases hkey : keyChar history sc with
      | none => rfl
      | some c =>
        rw [h.char_eq hsc, hkey] at hc
        exact absurd (hkey.trans (congrArg some hc)) (usQwerty_ne_zero _ _)
    rw [hnone]
    exact ⟨fun _ => hlen, fun _ => List.forall_mem_nil _⟩
  · rw [if_neg hc] at hrec
    rw [inside_of_records hrec, List.forall_mem_singleton, and_comm (b := sc ≠ 58)]
    refine and_congr_right' (and_congr_right fun hsc => ?_)
    obtain ⟨c, hkey⟩ : ∃ c, keyChar history sc = some c := by
      refine Option.ne_none_iff_exists'.mp fun hnone => hc ?_
      rw [h.char_eq hsc, hnone]
      rfl
    rw [hkey, Option.toList_some, List.length_singleton, hi]
    omega

/-- While the driver keeps the line, one scan code stays inside exactly when it fits. -/
theorem inside_step {k : Keyboard} {history : List Byte} (h : Edits k history) (sc : Byte) :
    InsideArrays (handleKeyboard k sc) ↔ InsideArrays k ∧ FitsBuffer history sc := by
  have hlen := h.line.length_le
  have hi := h.line.i
  cases sc using scancodeCases with
  | shift sc hshift =>
    have hrec := shift_records k hshift
    have hfits := fits_shift hlen hshift
    rw [← List.append_nil k.stores] at hrec
    rw [inside_of_records hrec]
    exact and_congr_right' ⟨fun _ => hfits, fun _ => ⟨List.forall_mem_nil _, hfits.1⟩⟩
  | enter =>
    have hall : ∀ j ∈ (List.range 100).map Int.ofNat, 0 ≤ j ∧ j < 100 := by decide
    rw [inside_of_records (enter_records k)]
    exact and_congr_right' ⟨fun _ => fits_enter history, fun _ => ⟨hall, by decide⟩⟩
  | backspace =>
    have hempty : editLine history ≠ [] ↔ k.i ≠ 0 := by
      rw [hi, Nat.cast_ne_zero, ← List.length_pos_iff, Nat.pos_iff_ne_zero]
    rw [inside_of_records (backspace_records k), fits_backspace hlen, hempty,
      List.forall_mem_singleton]
    refine and_congr_right' ⟨fun hj => ?_, fun hne => ⟨?_, by decide⟩⟩
    · omega
    · omega
  | char sc hshift hkeys => exact inside_char h hshift hkeys

/-- A history that fits keeps the driver at the line. -/
theorem edits_of_fits (pastMapping : Byte) {history : List Byte}
    (h : Throughout FitsBuffer history) :
    Edits (history.foldl handleKeyboard (bootKeyboard pastMapping)) history := by
  induction history using List.reverseRecOn with
  | nil => exact edits_boot pastMapping
  | append_singleton history sc ih =>
    obtain ⟨hhistory, hsc, -, hlen⟩ := throughout_concat.mp h
    rw [List.foldl_append]
    exact edits_step (ih hhistory) hsc hlen

/-- Keyboard buffer safety. For every sequence of scan codes from the initial state, all stores
    are to `input[0..99]` and all reads are inside of the table exactly when nothing in it is
    58, a Backspace on an empty line, or a character behind 100 others. -/
theorem keyboard_inside_iff (pastMapping : Byte) (scancodes : List Byte) :
    InsideArrays (scancodes.foldl handleKeyboard (bootKeyboard pastMapping)) ↔
      Throughout FitsBuffer scancodes := by
  -- from the end: up to the last scan code the driver keeps the line, if all before it fits
  induction scancodes using List.reverseRecOn with
  | nil =>
    refine ⟨fun _ => throughout_nil _, fun _ => ?_⟩
    exact ⟨List.forall_mem_nil _, List.forall_mem_nil _⟩
  | append_singleton history sc ih =>
    rw [throughout_concat, ← ih, List.foldl_append, List.foldl_cons, List.foldl_nil]
    by_cases hhistory : Throughout FitsBuffer history
    · exact inside_step (edits_of_fits pastMapping hhistory) sc
    · obtain ⟨js, es, hrec⟩ := exists_records (history.foldl handleKeyboard _) sc
      have hout : ¬InsideArrays (history.foldl handleKeyboard (bootKeyboard pastMapping)) :=
        fun h => hhistory (ih.mp h)
      exact iff_of_false (fun h => hout ((inside_of_records hrec).mp h).1) fun h => hout h.1

/-- Backspace as the first key stores a zero in front of `input`. -/
theorem backspace_stores_outside :
    ¬∀ scancodes : List Byte, InsideArrays (scancodes.foldl handleKeyboard (bootKeyboard 0)) := by
  intro h
  exact absurd (h [usQwertyBackspace]) (by decide)

end SeshOS.UserInput
