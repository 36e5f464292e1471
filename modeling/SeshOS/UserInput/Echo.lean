/-
  What the keyboard driver echoes.

  A console that replays the echo (a character appends, `\b` removes the last one, Enter starts
  over) should show the line in `input`. The stored character and its echo part at `%`, which
  `printf` takes for a format specifier, and at Backspace, whose `\b` is sent before `i` is
  looked at. `echo_follows_iff` says that nothing else keeps them apart.
-/
import SeshOS.UserInput.Buffer

namespace SeshOS.UserInput

open Base Libc

/-! ## The replay -/

/-- One character on a line of the console. -/
def replayChar (line : List Byte) (c : Byte) : List Byte :=
  if c = 0x0A then [] else if c = 0x08 then line.dropLast else line ++ [c]

/-- The line that the echo leaves since the last Enter. -/
def replay (echo : List Byte) : List Byte := echo.foldl replayChar []

theorem replay_append (echo es : List Byte) :
    replay (echo ++ es) = es.foldl replayChar (replay echo) := by
  rw [replay, List.foldl_append, replay]

/-- The console shows `input[0..i)`. -/
def EchoMatches (k : Keyboard) : Prop := replay k.echo = k.input.toList.take k.i.toNat

instance : DecidablePred EchoMatches := fun _ => inferInstanceAs (Decidable (_ = _))

/-- What one scan code sends to the console. -/
def sent (k : Keyboard) (sc : Byte) : List Byte :=
  (handleKeyboard k sc).echo.drop k.echo.length

/-- No `\b` on an empty line. -/
def ErasesTyped (k : Keyboard) (sc : Byte) : Prop := k.i = 0 → 0x08 ∉ sent k sc

/-- The echo follows the line: it matches at every point of a run, and erases typed characters
    only. -/
def EchoFollows (pastMapping : Byte) (scancodes : List Byte) : Prop :=
  (∀ p, p <+: scancodes → EchoMatches (p.foldl handleKeyboard (bootKeyboard pastMapping))) ∧
    Throughout
      (fun p sc => ErasesTyped (p.foldl handleKeyboard (bootKeyboard pastMapping)) sc) scancodes

/-- The scan codes whose echo the console can follow: no Backspace on an empty line, and no
    key whose character is `%`. -/
def Echoed (history : List Byte) (sc : Byte) : Prop :=
  (sc = usQwertyBackspace → editLine history ≠ []) ∧ keyChar history sc ≠ some (chr '%')

instance (history : List Byte) (sc : Byte) : Decidable (Echoed history sc) :=
  inferInstanceAs (Decidable (_ ∧ _))

/-! ## One scan code -/

theorem sent_eq {k : Keyboard} {sc : Byte} {stores : List Int} {es : List Byte} {reads : List Nat}
    (h : (handleKeyboard k sc).records = (stores, k.echo ++ es, reads)) : sent k sc = es := by
  rw [sent, (records_eq.mp h).2.1, List.drop_left]

/-- While the driver keeps the line, `input[0..i)` is it. -/
theorem Edits.take_input {k : Keyboard} {history : List Byte} (h : Edits k history) :
    k.input.toList.take k.i.toNat = editLine history := by
  rw [h.line.i, Int.toNat_natCast, h.line.input, List.take_left]

/-- The layout has no control characters. -/
theorem usQwerty_control : ∀ shift sc, usQwerty shift sc ≠ some 0x0A ∧
    usQwerty shift sc ≠ some 0x08 := by
  decide +kernel

/-- Neither Enter nor Backspace has a character. -/
theorem keyChar_lineKeys (history : List Byte) : keyChar history usQwertyEnter = none ∧
    keyChar history usQwertyBackspace = none := by
  have hall : ∀ shift, usQwerty shift usQwertyEnter = none ∧
      usQwerty shift usQwertyBackspace = none := by decide
  exact hall _

/-- A matching echo stays so when what is sent does to the line what the key does. -/
theorem matches_iff {k : Keyboard} {history : List Byte} (h : Edits k history) {sc : Byte}
    (h' : Edits (handleKeyboard k sc) (history ++ [sc])) (hk : EchoMatches k) {stores : List Int}
    {es : List Byte} {reads : List Nat}
    (hrec : (handleKeyboard k sc).records = (stores, k.echo ++ es, reads)) :
    EchoMatches (handleKeyboard k sc) ↔
      es.foldl replayChar (editLine history) = editLine (history ++ [sc]) := by
  rw [EchoMatches, h.take_input] at hk
  rw [EchoMatches, h'.take_input, (records_eq.mp hrec).2.1, replay_append, hk]

/-- One scan code: the echo goes on following the line exactly when the key is echoed. -/
theorem follows_step {k : Keyboard} {history : List Byte} (h : Edits k history) {sc : Byte}
    (hsc : sc ≠ 58) (hfit : (editLine (history ++ [sc])).length ≤ 100) (hk : EchoMatches k) :
    EchoMatches (handleKeyboard k sc) ∧ ErasesTyped k sc ↔ Echoed history sc := by
  have h' := edits_step h hsc hfit
  cases sc using scancodeCases with
  | shift sc hshift =>
    have hnot : sc ≠ usQwertyEnter ∧ sc ≠ usQwertyBackspace := by
      rcases hshift with rfl | rfl | rfl | rfl <;> decide
    have hnone : keyChar history sc = none := usQwerty_shiftKey sc hshift _
    have hrec := shift_records k hshift
    rw [← List.append_nil k.echo] at hrec
    rw [matches_iff h h' hk hrec, editLine_char history hnot, ErasesTyped, sent_eq hrec, Echoed,
      hnone, Option.toList_none, List.append_nil]
    exact iff_of_true ⟨rfl, fun _ => List.not_mem_nil⟩ ⟨fun hb => absurd hb hnot.2, nofun⟩
  | enter =>
    have hrec := enter_records k
    rw [matches_iff h h' hk hrec, editLine_concat, edit, if_pos rfl, ErasesTyped, sent_eq hrec,
      Echoed, (keyChar_lineKeys history).1]
    exact iff_of_true ⟨rfl, fun _ => by decide⟩ ⟨fun hb => absurd hb (by decide), nofun⟩
  | backspace =>
    have hrec := backspace_records k
    have hdrop : [(0x08 : Byte)].foldl replayChar (editLine history) =
        editLine (history ++ [usQwertyBackspace]) := by
      rw [editLine_concat, edit, if_neg (by decide), if_pos rfl]
      rfl
    have hempty : k.i = 0 ↔ editLine history = [] := by
      rw [h.line.i, Nat.cast_eq_zero, List.length_eq_zero_iff]
    rw [matches_iff h h' hk hrec, ErasesTyped, sent_eq hrec, hempty, Echoed,
      (keyChar_lineKeys history).2]
    constructor
    · intro herase
      exact ⟨fun _ hnil => herase.2 hnil (List.mem_singleton_self _), nofun⟩
    · intro hechoed
      exact ⟨hdrop, fun hnil => absurd hnil (hechoed.1 rfl)⟩
  | char sc hshift hkeys =>
    have hrec := char_records k hshift hkeys
    rw [h.char_eq hsc] at hrec
    cases hkey : keyChar history sc with
    | none =>
      rw [hkey, Option.getD_none, if_pos rfl, ← List.append_nil k.echo] at hrec
      rw [matches_iff h h' hk hrec, editLine_char history hkeys, ErasesTyped, sent_eq hrec, Echoed,
        hkey, Option.toList_none, List.append_nil]
      exact iff_of_true ⟨rfl, fun _ => List.not_mem_nil⟩ ⟨fun hb => absurd hb hkeys.2, nofun⟩
    | some c =>
      have hne : c ≠ 0 := by
        rintro rfl
        exact usQwerty_ne_zero _ _ hkey
      obtain ⟨hnewline, hback⟩ := usQwerty_control _ sc
      rw [keyChar] at hkey
      rw [hkey, ne_eq, Option.some_inj] at hnewline hback
      rw [← keyChar] at hkey
      rw [hkey, Option.getD_some, if_neg hne] at hrec
      rw [matches_iff h h' hk hrec, editLine_char history hkeys, ErasesTyped, sent_eq hrec, Echoed,
        hkey, Option.toList_some, printfChar]
      by_cases hpercent : c = chr '%'
      · -- stored, but `printf` prints nothing
        rw [if_pos hpercent]
        refine iff_of_false (fun hm => ?_) fun he => he.2 (congrArg some hpercent)
        have hlen := congrArg List.length hm.1
        rw [List.foldl_nil, List.length_append, List.length_singleton] at hlen
        omega
      · rw [if_neg hpercent]
        refine iff_of_true ⟨?_, fun _ hmem => ?_⟩ ⟨fun hb => absurd hb hkeys.2, fun heq => ?_⟩
        · rw [List.foldl_cons, List.foldl_nil, replayChar, if_neg hnewline, if_neg hback]
        · exact hback (List.mem_singleton.mp hmem).symm
        · exact hpercent (Option.some_inj.mp heq)

/-! ## The run -/

theorem echoFollows_concat (pastMapping : Byte) (scancodes : List Byte) (sc : Byte) :
    EchoFollows pastMapping (scancodes ++ [sc]) ↔
      EchoFollows pastMapping scancodes ∧
        EchoMatches (handleKeyboard (scancodes.foldl handleKeyboard (bootKeyboard pastMapping)) sc) ∧
        ErasesTyped (scancodes.foldl handleKeyboard (bootKeyboard pastMapping)) sc := by
  have hsplit : ∀ P : List Byte → Prop,
      (∀ p, p <+: scancodes ++ [sc] → P p) ↔ (∀ p, p <+: scancodes → P p) ∧ P (scancodes ++ [sc]) := by
    intro P
    constructor
    · intro h
      exact ⟨fun p hp => h p (hp.trans (List.prefix_append _ _)), h _ (List.prefix_refl _)⟩
    · intro h p hp
      rcases List.prefix_concat_iff.mp hp with rfl | hp
      · exact h.2
      · exact h.1 p hp
  rw [EchoFollows, hsplit, throughout_concat, EchoFollows, List.foldl_append]
  exact and_and_and_comm

/-- For every sequence of scan codes other than 58 along which the line stays within 100
    characters, the echo follows the line exactly when the sequence has no Backspace on an
    empty line and no key whose character is `%`. -/
theorem echo_follows_iff (pastMapping : Byte) (scancodes : List Byte) (h58 : 58 ∉ scancodes)
    (hfit : ∀ p, p <+: scancodes → (editLine p).length ≤ 100) :
    EchoFollows pastMapping scancodes ↔ Throughout Echoed scancodes := by
  induction scancodes using List.reverseRecOn with
  | nil =>
    refine iff_of_true ⟨fun p hp => ?_, throughout_nil _⟩ (throughout_nil _)
    rw [List.prefix_nil.mp hp]
    rfl
  | append_singleton history sc ih =>
    have hhistory := List.prefix_append history [sc]
    have hsc : sc ≠ 58 := fun h => h58 (h ▸ List.mem_append_right _ (List.mem_singleton_self _))
    have hedits := keyboard_edits pastMapping h58 hfit hhistory
    rw [echoFollows_concat, throughout_concat, ← ih (fun h => h58 (List.mem_append_left _ h))
      fun p hp => hfit p (hp.trans hhistory)]
    exact and_congr_right fun hfollows =>
      follows_step hedits hsc (hfit _ (List.prefix_refl _)) (hfollows.1 _ (List.prefix_refl _))

/-- Shift down, `a`, shift up, `b`, Backspace: the console shows `A`, as `input` does. -/
theorem echo_follows_iff_shift : EchoFollows 0 [0x2A, 0x1E, 0xAA, 0x30, 0x0E] :=
  (echo_follows_iff 0 [0x2A, 0x1E, 0xAA, 0x30, 0x0E] (by decide)
    (fun p hp =>
      have hall : ∀ p ∈ [0x2A, 0x1E, 0xAA, 0x30, 0x0E].inits, (editLine p).length ≤ 100 := by decide
      hall p ((List.mem_inits _ _).mpr hp))).mpr (by decide)

/-- Shift and `5`: `input` holds `%`, the console nothing. -/
theorem percent_not_echoed :
    ¬∀ scancodes : List Byte, 58 ∉ scancodes →
      (∀ p, p <+: scancodes → (editLine p).length ≤ 100) → EchoFollows 0 scancodes := by
  intro h
  have hall : ∀ p ∈ [usQwertyLeftShift, 0x06].inits, (editLine p).length ≤ 100 := by decide
  have hfollows := h [usQwertyLeftShift, 0x06] (by decide)
    fun p hp => hall p ((List.mem_inits _ _).mpr hp)
  exact absurd (hfollows.1 _ (List.prefix_refl _)) (by decide)

end SeshOS.UserInput
