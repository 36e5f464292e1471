/-
  What one character does to the framebuffer console.

  ESC and the bytes of a sequence go to the parser and leave the screen alone. Each of the
  other branches of `FBCON_Write` has its equation, and `putchar_cases` puts them together.
-/
import SeshOS.Video.Console

namespace SeshOS.Video

open Base Libc

/-! ## Sequences leave the screen alone -/

/-- What text moves or draws. -/
def Console.screen (c : Console) : BitVec 16 × BitVec 16 × Framebuffer × List Ev :=
  (c.cursorX, c.cursorY, c.fbCon, c.trace)

/-- What no output changes. -/
def Console.frame (c : Console) : BitVec 16 × BitVec 16 × WriteFunc :=
  (c.width, c.height, c.writeFunc)

/-- The globals of the escape parser and what it sets. -/
def Console.parser (c : Console) : Bool × Bool × Vector Byte 256 × Nat × Attrs :=
  (c.esc, c.escapeCompleted, c.escapeSequence, c.escapeSequenceLength, c.attrs)

theorem parser_eq {c c' : Console} (h : c'.parser = c.parser) :
    c'.esc = c.esc ∧ c'.attrs = c.attrs := by
  simp only [Console.parser, Prod.mk.injEq] at h
  exact ⟨h.1, h.2.2.2.2⟩

theorem frame_eq {c c' : Console} (h : c'.frame = c.frame) :
    c'.width = c.width ∧ c'.height = c.height ∧ c'.writeFunc = c.writeFunc := by
  simpa only [Console.frame, Prod.mk.injEq] using h

theorem switchIfComplete_screen {c c' : Console} (h : switchIfComplete c = some c') :
    c'.screen = c.screen ∧ c'.frame = c.frame := by
  unfold switchIfComplete at h
  obtain ⟨start, -, h⟩ := Option.bind_eq_some_iff.mp h
  cases start with
  | none =>
    cases h
    exact ⟨rfl, rfl⟩
  | some start =>
    obtain ⟨stop, -, h⟩ := Option.bind_eq_some_iff.mp h
    cases stop with
    | none =>
      cases h
      exact ⟨rfl, rfl⟩
    | some stop =>
      obtain ⟨code, -, h⟩ := Option.bind_eq_some_iff.mp h
      cases h
      exact ⟨rfl, rfl⟩

theorem ttyHandleEsc_screen {c c' : Console} {ch : Byte} {done : Bool}
    (h : ttyHandleEsc c ch = some (c', done)) : c'.screen = c.screen ∧ c'.frame = c.frame := by
  unfold ttyHandleEsc at h
  obtain ⟨buf, -, h⟩ := Option.bind_eq_some_iff.mp h
  obtain ⟨c₁, hswitch, h⟩ := Option.bind_eq_some_iff.mp h
  have hsame : c₁.screen = c.screen ∧ c₁.frame = c.frame := by
    split at hswitch
    · have hkept := switchIfComplete_screen hswitch
      exact hkept
    · cases hswitch
      exact ⟨rfl, rfl⟩
  split at h
  · cases h
    exact hsame
  · cases h
    exact hsame

/-! ## What one character does -/

/-- A character drawn, and the cursor behind it. -/
def drawn (font : Font) (nested : Bool) (c : Console) (w : Write) : Console :=
  let c := c.log (.glyph nested w.ch w.x w.y w.fgColor w.bgColor)
  let c := { c with fbCon := drawGlyph font c.attrs.bold c.fbCon w, cursorX := c.cursorX + 1 }
  if c.width ≤ c.cursorX then { c with cursorX := 0, cursorY := c.cursorY + 1 } else c

/-- Only the screen changes, by one event. -/
theorem drawn_kept (font : Font) (nested : Bool) (c : Console) (w : Write) :
    let c' := drawn font nested c w
    c'.frame = c.frame ∧ c'.parser = c.parser ∧
      c'.trace = c.trace ++ [.glyph nested w.ch w.x w.y w.fgColor w.bgColor] := by
  unfold drawn
  dsimp only [Console.log]
  by_cases hend : c.width ≤ c.cursorX + 1
  · simp only [hend, if_true, Console.frame, Console.parser, and_self]
  · simp only [hend, if_false, Console.frame, Console.parser, and_self]

/-- A character that has a glyph to draw. -/
def Drawable (ch : Byte) : Prop := ch ≠ escByte ∧ ch ≠ 0x0d ∧ ch ≠ 0x08 ∧ ch ≠ 0x0a

instance : DecidablePred Drawable := fun _ => inferInstanceAs (Decidable (_ ∧ _ ∧ _ ∧ _))

theorem fbconWriteWith_drawn (font : Font) (put : Console → Byte → Option Console) (nested : Bool)
    {c : Console} {w : Write} (he : c.esc = false) (hch : Drawable w.ch) :
    fbconWriteWith font put nested c w = some (drawn font nested c w) := by
  obtain ⟨h1, h2, h3, h4⟩ := hch
  have hesc : ¬c.esc = true := by rw [he]; decide
  unfold fbconWriteWith drawn
  rw [if_neg h1, if_neg hesc, if_neg h2, if_neg h3, if_neg h4]
  dsimp only
  split <;> rfl

/-- The write that `putchar` hands on. -/
def Console.write (c : Console) (ch : Byte) : Write :=
  ⟨ch, c.cursorX, c.cursorY, c.attrs.color, c.attrs.bgColor⟩

/-- The state in which `'\b'` calls `putchar(' ')`. -/
def Console.erasing (c : Console) : Console :=
  { c.log (.control 0x08) with cursorX := c.cursorX - 1 }

/-- The state behind `'\b'`, away from the first column. -/
def erased (font : Font) (c : Console) : Console :=
  let c := drawn font true c.erasing (c.erasing.write (chr ' '))
  { c with cursorX := c.cursorX - 1 }

/-! The branches of `FBCON_Write`. -/

theorem fbconWrite_esc (font : Font) {c : Console} {w : Write} (hch : w.ch = escByte) :
    fbconWrite font c w = some { c with esc := true } := if_pos hch

theorem fbconWrite_sequence (font : Font) {c : Console} {w : Write} (hch : w.ch ≠ escByte)
    (he : c.esc = true) : fbconWrite font c w =
      (ttyHandleEsc c w.ch).map fun (c, completed) => { c with esc := !completed } := by
  unfold fbconWrite fbconWriteWith
  rw [if_neg hch, if_pos he]

section Text

variable (font : Font) {c : Console} {w : Write} (he : c.esc = false)

include he

/-- Behind the tests for ESC and for a sequence. -/
theorem fbconWrite_ground (hch : w.ch ≠ escByte) :
    fbconWrite font c w =
      if w.ch = 0x0d then some { c.log (.control w.ch) with cursorX := 0 }
      else if w.ch = 0x08 then
        if c.cursorX = 0 then some (c.log (.control w.ch))
        else
          (putcharWith (ttyWriteWith (fbconWriteNested font))
            { c.log (.control w.ch) with cursorX := c.cursorX - 1 } (chr ' ')).map fun c =>
              { c with cursorX := c.cursorX - 1 }
      else if w.ch = 0x0a then
        some { c.log (.control w.ch) with cursorX := 0, cursorY := c.cursorY + 1 }
      else some (drawn font false c w) := by
  have hesc : ¬c.esc = true := by rw [he]; decide
  by_cases hdraw : w.ch ≠ 0x0d ∧ w.ch ≠ 0x08 ∧ w.ch ≠ 0x0a
  · obtain ⟨hcr, hbs, hlf⟩ := hdraw
    rw [if_neg hcr, if_neg hbs, if_neg hlf]
    exact fbconWriteWith_drawn font _ false he ⟨hch, hcr, hbs, hlf⟩
  · unfold fbconWrite fbconWriteWith
    rw [if_neg hch, if_neg hesc]
    by_cases hcr : w.ch = 0x0d
    · rw [if_pos hcr, if_pos hcr]
    · rw [if_neg hcr, if_neg hcr]
      by_cases hbs : w.ch = 0x08
      · rw [if_pos hbs, if_pos hbs]
        rfl
      · have hlf : w.ch = 0x0a := by
          by_contra hlf
          exact hdraw ⟨hcr, hbs, hlf⟩
        rw [if_neg hbs, if_neg hbs, if_pos hlf, if_pos hlf]

theorem fbconWrite_cr (hch : w.ch = 0x0d) :
    fbconWrite font c w = some { c.log (.control 0x0d) with cursorX := 0 } := by
  rw [fbconWrite_ground font he (by rw [hch]; decide), hch]
  rfl

theorem fbconWrite_lf (hch : w.ch = 0x0a) : fbconWrite font c w =
    some { c.log (.control 0x0a) with cursorX := 0, cursorY := c.cursorY + 1 } := by
  rw [fbconWrite_ground font he (by rw [hch]; decide), hch]
  rfl

theorem fbconWrite_backspace_first (hch : w.ch = 0x08) (hx : c.cursorX = 0) :
    fbconWrite font c w = some (c.log (.control 0x08)) := by
  rw [fbconWrite_ground font he (by rw [hch]; decide), hch]
  exact if_pos hx

theorem fbconWrite_backspace (hch : w.ch = 0x08) (hx : c.cursorX ≠ 0) :
    fbconWrite font c w =
      (putcharWith (ttyWriteWith (fbconWriteNested font)) c.erasing (chr ' ')).map fun c =>
        { c with cursorX := c.cursorX - 1 } := by
  rw [fbconWrite_ground font he (by rw [hch]; decide), hch]
  exact if_neg hx

theorem fbconWrite_drawn (hch : Drawable w.ch) :
    fbconWrite font c w = some (drawn font false c w) :=
  fbconWriteWith_drawn font _ false he hch

end Text

/-! The same through `putchar`. -/

theorem putchar_fbcon (font : Font) {c : Console} (hf : c.writeFunc = .fbconWrite) (ch : Byte) :
    putchar font c ch = fbconWrite font c (c.write ch) := by
  unfold putchar putcharWith ttyWrite ttyWriteWith
  rw [hf]
  rfl

/-- The space of `'\b'`. -/
theorem putchar_nested (font : Font) {c : Console} (hf : c.writeFunc = .fbconWrite)
    (he : c.esc = false) :
    putcharWith (ttyWriteWith (fbconWriteNested font)) c (chr ' ') =
      some (drawn font true c (c.write (chr ' '))) := by
  unfold putcharWith ttyWriteWith
  rw [hf]
  exact fbconWriteWith_drawn font _ true (w := c.write (chr ' ')) he (by decide : Drawable (chr ' '))

/-- ESC, and everything inside of a sequence. -/
theorem putchar_sequence {font : Font} {c c' : Console} (hf : c.writeFunc = .fbconWrite)
    {ch : Byte} (hseq : ch = escByte ∨ c.esc = true) (h : putchar font c ch = some c') :
    c'.screen = c.screen ∧ c'.frame = c.frame := by
  rw [putchar_fbcon font hf] at h
  by_cases hch : ch = escByte
  · rw [fbconWrite_esc font (by exact hch)] at h
    cases h
    exact ⟨rfl, rfl⟩
  · rw [fbconWrite_sequence font (by exact hch) (hseq.resolve_left hch)] at h
    obtain ⟨⟨c₁, done⟩, hesc, h⟩ := Option.map_eq_some_iff.mp h
    have hkept := ttyHandleEsc_screen hesc
    cases h
    exact hkept

section Putchar

variable (font : Font) {c : Console} (hf : c.writeFunc = .fbconWrite) (he : c.esc = false)

include hf he

theorem putchar_cr : putchar font c 0x0d = some { c.log (.control 0x0d) with cursorX := 0 } := by
  rw [putchar_fbcon font hf]
  exact fbconWrite_cr font he rfl

theorem putchar_lf : putchar font c 0x0a =
    some { c.log (.control 0x0a) with cursorX := 0, cursorY := c.cursorY + 1 } := by
  rw [putchar_fbcon font hf]
  exact fbconWrite_lf font he rfl

theorem putchar_backspace_first (hx : c.cursorX = 0) :
    putchar font c 0x08 = some (c.log (.control 0x08)) := by
  rw [putchar_fbcon font hf]
  exact fbconWrite_backspace_first font he rfl hx

theorem putchar_backspace (hx : c.cursorX ≠ 0) : putchar font c 0x08 = some (erased font c) := by
  rw [putchar_fbcon font hf, fbconWrite_backspace font he rfl hx,
    putchar_nested font (c := c.erasing) hf he]
  rfl

theorem putchar_drawn {ch : Byte} (hch : Drawable ch) :
    putchar font c ch = some (drawn font false c (c.write ch)) := by
  rw [putchar_fbcon font hf]
  exact fbconWrite_drawn font he hch

end Putchar

/-- What one character does, in the order of the branches of `FBCON_Write`. -/
theorem putchar_cases {font : Font} {c c' : Console} (hf : c.writeFunc = .fbconWrite) {ch : Byte}
    (h : putchar font c ch = some c') :
    ((ch = escByte ∨ c.esc = true) ∧ c'.screen = c.screen ∧ c'.frame = c.frame) ∨
      c.esc = false ∧
        ((ch = 0x0d ∧ c' = { c.log (.control 0x0d) with cursorX := 0 }) ∨
          (ch = 0x08 ∧ c.cursorX = 0 ∧ c' = c.log (.control 0x08)) ∨
          (ch = 0x08 ∧ c.cursorX ≠ 0 ∧ c' = erased font c) ∨
          (ch = 0x0a ∧
            c' = { c.log (.control 0x0a) with cursorX := 0, cursorY := c.cursorY + 1 }) ∨
          (Drawable ch ∧ c' = drawn font false c (c.write ch))) := by
  by_cases hseq : ch = escByte ∨ c.esc = true
  · exact .inl ⟨hseq, putchar_sequence hf hseq h⟩
  · rw [not_or, Bool.not_eq_true] at hseq
    obtain ⟨hesc, he⟩ := hseq
    refine .inr ⟨he, ?_⟩
    by_cases hcr : ch = 0x0d
    · subst hcr
      exact .inl ⟨rfl, Option.some_inj.mp (h.symm.trans (putchar_cr font hf he))⟩
    · by_cases hbs : ch = 0x08
      · subst hbs
        by_cases hx : c.cursorX = 0
        · exact .inr (.inl ⟨rfl, hx, Option.some_inj.mp
            (h.symm.trans (putchar_backspace_first font hf he hx))⟩)
        · exact .inr (.inr (.inl ⟨rfl, hx, Option.some_inj.mp
            (h.symm.trans (putchar_backspace font hf he hx))⟩))
      · by_cases hlf : ch = 0x0a
        · subst hlf
          exact .inr (.inr (.inr (.inl ⟨rfl, Option.some_inj.mp
            (h.symm.trans (putchar_lf font hf he))⟩)))
        · have hch : Drawable ch := ⟨hesc, hcr, hbs, hlf⟩
          exact .inr (.inr (.inr (.inr ⟨hch, Option.some_inj.mp
            (h.symm.trans (putchar_drawn font hf he hch))⟩)))

/-- No character changes the size of the console or the write function. -/
theorem putchar_frame {font : Font} {c c' : Console} (hf : c.writeFunc = .fbconWrite) {ch : Byte}
    (h : putchar font c ch = some c') : c'.frame = c.frame := by
  rcases putchar_cases hf h with ⟨-, -, hframe⟩ | ⟨-, ⟨-, rfl⟩ | ⟨-, -, rfl⟩ | ⟨-, -, rfl⟩ |
    ⟨-, rfl⟩ | ⟨-, rfl⟩⟩
  · exact hframe
  · rfl
  · rfl
  · exact (drawn_kept font true c.erasing (c.erasing.write (chr ' '))).1
  · rfl
  · exact (drawn_kept font false c (c.write ch)).1

end SeshOS.Video
