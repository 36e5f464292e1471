/-
  Keyboard interrupts between the characters of a text.

  `Keyboard_Handler` runs between two writes of the interrupted code and echoes through the
  same `putchar`, so the two share the escape parser. An event is a character that the kernel
  writes, marked as text or as part of a sequence, or an interrupt. What the kernel means to
  write is a list of items; a schedule keeps them whole when no interrupt falls inside of a
  sequence (`KeepsItems`), and only then do all characters get to the screen.

  The handler's stores outside of `input[0]` to `input[99]` are taken to hit nothing that is
  modelled.
-/
import SeshOS.UserInput.Echo
import SeshOS.Video.Sequence

namespace SeshOS.UserInput

open Base Libc Video

/-! ## The machine -/

/-- `Keyboard_Handler`, for the scan code read from port `0x60`. -/
def keyboardHandler (k : Keyboard) (scancode : Byte) : Keyboard :=
  let k := handleKeyboard k scancode
  { k with ports := k.ports ++ [(0x20, 0x20)] }

inductive Event where
  | ordinary (ch : Byte)
  | sequence (ch : Byte)
  | key (scancode : Byte)

structure Machine where
  keyboard : Keyboard
  console : Console

/-- A write of the kernel, or an interrupt that runs to its end. -/
def Machine.step (font : Font) (m : Machine) : Event → Option Machine
  | .ordinary ch => (putchar font m.console ch).map fun c => { m with console := c }
  | .sequence ch => (putchar font m.console ch).map fun c => { m with console := c }
  | .key scancode =>
    ((sent m.keyboard scancode).foldlM (putchar font) m.console).map fun c =>
      ⟨keyboardHandler m.keyboard scancode, c⟩

/-! ## Texts and schedules -/

/-- A character with a glyph, or a complete SGR sequence. -/
inductive Item where
  | char (ch : Byte) (drawable : Drawable ch)
  | sgr (params : List Byte) (plain : Params params)

namespace Item

def bytes : Item → List Byte
  | .char ch _ => [ch]
  | .sgr params _ => sgrBytes params

def events : Item → List Event
  | .char ch _ => [.ordinary ch]
  | .sgr params _ => (sgrBytes params).map .sequence

def apply (a : Attrs) : Item → Attrs
  | .char _ _ => a
  | .sgr params _ => sgrEffect params a

end Item

/-- The events of a schedule that are writes of the kernel. -/
def Event.IsWrite : Event → Bool
  | .key _ => false
  | _ => true

/-- A schedule of the text: its writes in order, with interrupts at any points between. -/
def Schedules (items : List Item) (events : List Event) : Prop :=
  events.filter Event.IsWrite = items.flatMap Item.events

/-- A schedule of the text in which no interrupt falls inside of a sequence. -/
inductive KeepsItems : List Item → List Event → Prop
  | nil : KeepsItems [] []
  | key (scancode : Byte) {items : List Item} {events : List Event} : KeepsItems items events →
      KeepsItems items (.key scancode :: events)
  | item (it : Item) {items : List Item} {events : List Event} : KeepsItems items events →
      KeepsItems (it :: items) (it.events ++ events)

/-- The character of a key, with shift as the driver has it. -/
def keyGlyph (k : Keyboard) (scancode : Byte) : Option Byte :=
  usQwerty (k.leftShiftPressed ≠ 0 ∨ k.rightShiftPressed ≠ 0) scancode

/-- A key with a character other than `%`. -/
def Printable (k : Keyboard) (scancode : Byte) : Prop :=
  ∃ ch, keyGlyph k scancode = some ch ∧ ch ≠ chr '%'

/-- The event draws its character: one glyph, and nothing else. -/
def Draws (m m' : Machine) (ch : Byte) : Prop :=
  ∃ x y fg bg, m'.console.trace = m.console.trace ++ [Ev.glyph false ch x y fg bg]

/-- What is asked of one event: it returns, and draws what it is to draw. -/
def Event.Shown (m m' : Machine) : Event → Prop
  | .ordinary ch => Draws m m' ch
  | .sequence _ => True
  | .key scancode => ∃ ch, keyGlyph m.keyboard scancode = some ch ∧ Draws m m' ch

/-- The console tolerates a schedule of a text: every ordinary character and every echoed one
    is drawn, and the attributes end as they do without interrupts. -/
def Tolerates (font : Font) (items : List Item) (m : Machine) (events : List Event) : Prop :=
  Allowed (Machine.step font) (fun m e => ∃ m', m.step font e = some m' ∧ e.Shown m m') m events ∧
    ∀ m', events.foldlM (Machine.step font) m = some m' →
      ∃ c, (items.flatMap Item.bytes).foldlM (putchar font) m.console = some c ∧
        m'.console.attrs = c.attrs

/-! ## One interrupt -/

theorem usQwerty_esc_cr : ∀ shift sc, usQwerty shift sc ≠ some escByte ∧
    usQwerty shift sc ≠ some 0x0d := by
  decide +kernel

/-- Every character of the layout has a glyph. -/
theorem usQwerty_drawable {shift : Bool} {sc ch : Byte} (h : usQwerty shift sc = some ch) :
    Drawable ch := by
  obtain ⟨hesc, hcr⟩ := usQwerty_esc_cr shift sc
  obtain ⟨hlf, hbs⟩ := usQwerty_control shift sc
  rw [h, ne_eq, Option.some_inj] at hesc hcr hlf hbs
  exact ⟨hesc, hcr, hbs, hlf⟩

theorem usQwerty_58 : ∀ shift, usQwerty shift 58 = none := by
  decide

/-- A printable key is none of the keys that the driver treats on their own. -/
theorem Printable.other {k : Keyboard} {sc : Byte} (h : Printable k sc) :
    sc ≠ 58 ∧ ¬IsShiftKey sc ∧ sc ≠ usQwertyEnter ∧ sc ≠ usQwertyBackspace := by
  obtain ⟨ch, hch, -⟩ := h
  rw [keyGlyph] at hch
  have hline : ∀ shift, usQwerty shift usQwertyEnter = none ∧
      usQwerty shift usQwertyBackspace = none := by decide
  refine ⟨?_, fun hsc => ?_, ?_, ?_⟩
  · rintro rfl
    rw [usQwerty_58] at hch
    cases hch
  · rw [usQwerty_shiftKey sc hsc] at hch
    cases hch
  · rintro rfl
    rw [(hline _).1] at hch
    cases hch
  · rintro rfl
    rw [(hline _).2] at hch
    cases hch

/-- It is echoed, and leaves the shift flags alone. -/
theorem Printable.handled {k : Keyboard} {sc : Byte} (h : Printable k sc) :
    ∃ ch, keyGlyph k sc = some ch ∧ Drawable ch ∧ sent k sc = [ch] ∧
      (keyboardHandler k sc).leftShiftPressed = k.leftShiftPressed ∧
      (keyboardHandler k sc).rightShiftPressed = k.rightShiftPressed := by
  obtain ⟨h58, hshift, hkeys⟩ := h.other
  obtain ⟨ch, hch, hpercent⟩ := h
  have hget : getUsQwertyCharFromScanCode k sc = ch := by
    rw [getUsQwertyChar_eq k h58, ← keyGlyph, hch]
    rfl
  have hne : ch ≠ 0 := by
    rintro rfl
    exact usQwerty_ne_zero _ _ hch
  have hrec := char_records k hshift hkeys
  have hview := handleKeyboard_char k hshift hkeys
  rw [hget, if_neg hne] at hrec hview
  obtain ⟨-, -, hl, hr⟩ := view_eq.mp hview
  refine ⟨ch, hch, usQwerty_drawable hch, ?_, hl, hr⟩
  rw [sent_eq hrec, printfChar, if_neg hpercent]

/-- The two shift flags as they are at the start. -/
def SameShift (k k' : Keyboard) : Prop :=
  k'.leftShiftPressed = k.leftShiftPressed ∧ k'.rightShiftPressed = k.rightShiftPressed

theorem keyGlyph_same {k k' : Keyboard} (h : SameShift k k') (sc : Byte) :
    keyGlyph k' sc = keyGlyph k sc := by
  rw [keyGlyph, keyGlyph, h.1, h.2]

/-- The machine between two items. -/
structure Ready (k : Keyboard) (m : Machine) : Prop where
  shift : SameShift k m.keyboard
  writeFunc : m.console.writeFunc = .fbconWrite
  ground : m.console.Ground

theorem Ready.printable {k : Keyboard} {m : Machine} (h : SameShift k m.keyboard) {sc : Byte}
    (hsc : Printable k sc) : Printable m.keyboard sc := by
  obtain ⟨ch, hch, hpercent⟩ := hsc
  exact ⟨ch, (keyGlyph_same h sc).trans hch, hpercent⟩

/-- A drawn character, from the ground state. -/
theorem draw_ready (font : Font) {k k' : Keyboard} {m : Machine} (h : Ready k m)
    (hk : SameShift k k') {ch : Byte} (hch : Drawable ch) :
    ∃ c, putchar font m.console ch = some c ∧ Ready k ⟨k', c⟩ ∧ c.attrs = m.console.attrs ∧
      Draws m ⟨k', c⟩ ch := by
  obtain ⟨hframe, hp, ht⟩ := drawn_kept font false m.console (m.console.write ch)
  have hattrs := hp
  simp only [Console.parser, Prod.mk.injEq] at hattrs
  refine ⟨_, putchar_drawn font h.writeFunc h.ground.1 hch, ⟨hk, ?_, ground_of_sameParser hp h.ground⟩,
    hattrs.2.2.2.2, _, _, _, _, ht⟩
  exact (congrArg (fun f => f.2.2) hframe).trans h.writeFunc

/-- An interrupt between two items. -/
theorem key_ready (font : Font) {k : Keyboard} {m : Machine} (h : Ready k m) {sc : Byte}
    (hsc : Printable k sc) : ∃ m', m.step font (.key sc) = some m' ∧ Ready k m' ∧
      m'.console.attrs = m.console.attrs ∧ (Event.key sc).Shown m m' := by
  obtain ⟨ch, hglyph, hch, hsent, hl, hr⟩ := (Ready.printable h.shift hsc).handled
  have hshift : SameShift k (keyboardHandler m.keyboard sc) :=
    ⟨hl.trans h.shift.1, hr.trans h.shift.2⟩
  obtain ⟨c, hput, hready, hattrs, hdraws⟩ := draw_ready font h hshift hch
  refine ⟨_, ?_, hready, hattrs, ch, hglyph, hdraws⟩
  rw [Machine.step, hsent, foldlM_cons_of hput]
  rfl

/-- An interrupt inside of a sequence: the parser swallows the character. -/
theorem key_swallowed {font : Font} {k : Keyboard} {m m' : Machine}
    (hshift : SameShift k m.keyboard) (hf : m.console.writeFunc = .fbconWrite)
    (he : m.console.esc = true) {sc : Byte} (hsc : Printable k sc)
    (hstep : m.step font (.key sc) = some m') : ¬(Event.key sc).Shown m m' := by
  obtain ⟨ch, -, -, hsent, -, -⟩ := (Ready.printable hshift hsc).handled
  rintro ⟨ch', -, x, y, fg, bg, htrace⟩
  rw [Machine.step, hsent] at hstep
  obtain ⟨c, hrun, rfl⟩ := Option.map_eq_some_iff.mp hstep
  rw [List.foldlM_cons] at hrun
  obtain ⟨c₁, hput, hnil⟩ := Option.bind_eq_some_iff.mp hrun
  obtain rfl : c₁ = c := Option.some_inj.mp hnil
  have hscreen := (putchar_sequence hf (.inr he) hput).1
  simp only [Console.screen, Prod.mk.injEq] at hscreen
  have hlen := congrArg List.length (hscreen.2.2.2.symm.trans htrace)
  rw [List.length_append, List.length_singleton] at hlen
  omega

/-! ## Whole items are shown -/

/-- The run of a sequence, once `putchar` gets through it. -/
theorem sequence_run {font : Font} {m : Machine} {bs : List Byte} {c : Console}
    (h : bs.foldlM (putchar font) m.console = some c) :
    (bs.map Event.sequence).foldlM (Machine.step font) m = some { m with console := c } ∧
      Allowed (Machine.step font) (fun m e => ∃ m', m.step font e = some m' ∧ e.Shown m m') m
        (bs.map Event.sequence) := by
  induction bs generalizing m with
  | nil =>
    cases h
    exact ⟨rfl, trivial⟩
  | cons b bs ih =>
    rw [List.foldlM_cons] at h
    obtain ⟨c₁, hput, h⟩ := Option.bind_eq_some_iff.mp h
    have hstep : m.step font (.sequence b) = some { m with console := c₁ } := by
      rw [Machine.step, hput]
      rfl
    obtain ⟨hrun, hall⟩ := ih (m := { m with console := c₁ }) h
    refine ⟨(foldlM_cons_of hstep _).trans hrun, ⟨_, hstep, trivial⟩, fun m' hm' => ?_⟩
    obtain rfl := Option.some_inj.mp (hstep.symm.trans hm')
    exact hall

/-- An item, from the machine between two of them. -/
theorem item_ready (font : Font) {k : Keyboard} {m : Machine} (h : Ready k m) (it : Item) :
    ∃ m', it.events.foldlM (Machine.step font) m = some m' ∧ Ready k m' ∧
      m'.console.attrs = it.apply m.console.attrs ∧
      Allowed (Machine.step font) (fun m e => ∃ m', m.step font e = some m' ∧ e.Shown m m') m
        it.events := by
  cases it with
  | char ch hch =>
    obtain ⟨c, hput, hready, hattrs, hdraws⟩ := draw_ready font h h.shift hch
    have hstep : m.step font (.ordinary ch) = some ⟨m.keyboard, c⟩ := by
      rw [Machine.step, hput]
      rfl
    exact ⟨_, foldlM_cons_of hstep [], hready, hattrs, ⟨_, hstep, hdraws⟩, fun _ _ => trivial⟩
  | sgr params hp =>
    obtain ⟨c, hput, hf, hc, hattrs, -⟩ := sgr_run font h.writeFunc h.ground hp
    obtain ⟨hrun, hall⟩ := sequence_run hput
    exact ⟨_, hrun, ⟨h.shift, hf, hc⟩, hattrs, hall⟩

/-- A schedule that keeps the items whole. -/
theorem keepsItems_run (font : Font) {k : Keyboard} {items : List Item} {events : List Event}
    (hkeeps : KeepsItems items events) (hkeys : ∀ sc, .key sc ∈ events → Printable k sc)
    {m : Machine} (h : Ready k m) :
    ∃ m', events.foldlM (Machine.step font) m = some m' ∧
      m'.console.attrs = items.foldl Item.apply m.console.attrs ∧
      Allowed (Machine.step font) (fun m e => ∃ m', m.step font e = some m' ∧ e.Shown m m') m
        events := by
  induction hkeeps generalizing m with
  | nil => exact ⟨m, rfl, rfl, trivial⟩
  | key sc _ ih =>
    obtain ⟨m₁, hstep, h₁, hattrs₁, hshown⟩ := key_ready font h (hkeys sc List.mem_cons_self)
    obtain ⟨m', hrun, hattrs, hall⟩ := ih (fun sc hsc => hkeys sc (List.mem_cons_of_mem _ hsc)) h₁
    refine ⟨m', (foldlM_cons_of hstep _).trans hrun, by rw [hattrs, hattrs₁], ⟨m₁, hstep, hshown⟩,
      fun m₂ hm₂ => ?_⟩
    obtain rfl := Option.some_inj.mp (hstep.symm.trans hm₂)
    exact hall
  | item it _ ih =>
    obtain ⟨m₁, hrun₁, h₁, hattrs₁, hall₁⟩ := item_ready font h it
    obtain ⟨m', hrun, hattrs, hall⟩ := ih (fun sc hsc => hkeys sc (List.mem_append_right _ hsc)) h₁
    refine ⟨m', (foldlM_append_of hrun₁ _).trans hrun, ?_, allowed_append.mpr ⟨hall₁, ?_⟩⟩
    · rw [hattrs, hattrs₁, List.foldl_cons]
    · intro m₂ hm₂
      obtain rfl := Option.some_inj.mp (hrun₁.symm.trans hm₂)
      exact hall

/-- The text without interrupts. -/
theorem complete_items (items : List Item) :
    Complete (items.flatMap Item.bytes) fun a => items.foldl Item.apply a := by
  induction items with
  | nil => exact complete_text List.not_mem_nil
  | cons it items ih =>
    rw [List.flatMap_cons]
    cases it with
    | char ch hch =>
      have hesc : escByte ∉ [ch] := fun h => hch.1 (List.mem_singleton.mp h).symm
      exact (complete_text hesc).append ih
    | sgr params hp => exact (complete_sgr hp).append ih

/-! ## Shown schedules keep the items whole -/

/-- The first write of a schedule comes first, or an interrupt does. -/
theorem filter_write_cons {events rest : List Event} {e : Event}
    (h : events.filter Event.IsWrite = e :: rest) :
    (∃ sc es, events = .key sc :: es ∧ es.filter Event.IsWrite = e :: rest) ∨
      ∃ es, events = e :: es ∧ es.filter Event.IsWrite = rest := by
  cases events with
  | nil => cases h
  | cons e' es =>
    cases hw : e'.IsWrite with
    | false =>
      rw [List.filter_cons_of_neg (by rw [hw]; decide)] at h
      cases e' with
      | ordinary ch => cases hw
      | sequence ch => cases hw
      | key sc => exact .inl ⟨sc, es, rfl, h⟩
    | true =>
      rw [List.filter_cons_of_pos hw] at h
      cases h
      exact .inr ⟨es, rfl, rfl⟩

/-- What is asked of every event of a run. -/
abbrev AllShown (font : Font) (m : Machine) (events : List Event) : Prop :=
  Allowed (Machine.step font) (fun m e => ∃ m', m.step font e = some m' ∧ e.Shown m m') m events

/-- Inside of a sequence the next event is no interrupt. -/
theorem no_key_inside {font : Font} {k : Keyboard} {m : Machine} (hshift : SameShift k m.keyboard)
    {old : List Ev} {r : Reader} (h : Live old m.console r) {l : List Byte}
    (hl : r.pending = some l) {events : List Event}
    (hkeys : ∀ sc, .key sc ∈ events → Printable k sc) (hall : AllShown font m events) (sc : Byte)
    (es : List Event) : events ≠ .key sc :: es := by
  rintro rfl
  have he : m.console.esc = true := by
    rw [h.shows.esc, hl]
    rfl
  obtain ⟨m', hstep, hshown⟩ := hall.1
  exact key_swallowed hshift h.writeFunc he (hkeys sc List.mem_cons_self) hstep hshown

/-- The rest of a sequence that has begun: no interrupt comes before its end. -/
theorem sequence_kept {font : Font} {k : Keyboard} {m : Machine} (hshift : SameShift k m.keyboard)
    {old : List Ev} {r : Reader} (h : Live old m.console r) {l : List Byte}
    (hl : r.pending = some l) {params chs : List Byte} (hp : Params params)
    (hsplit : l ++ chs = bracket :: params) {events rest : List Event}
    (hwrites : events.filter Event.IsWrite = (chs ++ [letterM]).map Event.sequence ++ rest)
    (hkeys : ∀ sc, .key sc ∈ events → Printable k sc) (hall : AllShown font m events) :
    ∃ es m', events = (chs ++ [letterM]).map Event.sequence ++ es ∧
      es.filter Event.IsWrite = rest ∧ Ready k m' ∧ AllShown font m' es := by
  induction chs generalizing m r l events with
  | nil =>
    rcases filter_write_cons hwrites with ⟨sc, es, hes, -⟩ | ⟨es, rfl, hrest⟩
    · exact absurd hes (no_key_inside hshift h hl hkeys hall sc es)
    · rw [List.append_nil] at hsplit
      rw [hsplit] at hl
      obtain ⟨c, hput, hlive, -⟩ := putchar_of_step font h (Reader.step_sgr hp hl)
      have hstep : m.step font (.sequence letterM) = some ⟨m.keyboard, c⟩ := by
        rw [Machine.step, hput]
        rfl
      exact ⟨es, ⟨m.keyboard, c⟩, rfl, hrest,
        ⟨hshift, hlive.writeFunc, ground_of_shows hlive.shows rfl⟩, hall.2 _ hstep⟩
  | cons ch chs ih =>
    rcases filter_write_cons hwrites with ⟨sc, es, hes, -⟩ | ⟨es, rfl, hrest⟩
    · exact absurd hes (no_key_inside hshift h hl hkeys hall sc es)
    · have hch : ch ∈ bracket :: params := by
        rw [← hsplit]
        exact List.mem_append_right l List.mem_cons_self
      have hroom : l.length < 255 := by
        have hlen := congrArg List.length hsplit
        have hmax := hp.room
        rw [List.length_append, List.length_cons, List.length_cons] at hlen
        omega
      obtain ⟨c, hput, hlive, -⟩ := putchar_of_step font h
        (Reader.step_collect hl (hp.collected.1 ch hch) hroom)
      have hstep : m.step font (.sequence ch) = some ⟨m.keyboard, c⟩ := by
        rw [Machine.step, hput]
        rfl
      rw [List.append_cons] at hsplit
      obtain ⟨es', m', rfl, hes', hready, hall'⟩ := ih (m := ⟨m.keyboard, c⟩) hshift hlive rfl
        hsplit hrest (fun sc hsc => hkeys sc (List.mem_cons_of_mem _ hsc)) (hall.2 _ hstep)
      exact ⟨es', m', rfl, hes', hready, hall'⟩

/-- A schedule all of whose events are shown keeps the items whole. -/
theorem keepsItems_of_shown {font : Font} {k : Keyboard} {items : List Item} {events : List Event}
    (hsched : Schedules items events) (hkeys : ∀ sc, .key sc ∈ events → Printable k sc)
    {m : Machine} (h : Ready k m) (hall : AllShown font m events) : KeepsItems items events := by
  -- on the number of events: an interrupt between two items, or a whole item
  induction hn : events.length using Nat.strong_induction_on generalizing items events m with
  | _ n ih =>
    subst hn
    rw [Schedules] at hsched
    cases events with
    | nil =>
      cases items with
      | nil => exact .nil
      | cons it items => cases it <;> cases hsched
    | cons e es =>
      have hkeys' : ∀ sc, .key sc ∈ es → Printable k sc :=
        fun sc hsc => hkeys sc (List.mem_cons_of_mem _ hsc)
      cases hw : e.IsWrite with
      | false =>
        cases e with
        | ordinary ch => cases hw
        | sequence ch => cases hw
        | key sc =>
          obtain ⟨m', hstep, h', -, -⟩ := key_ready font h (hkeys sc List.mem_cons_self)
          exact .key sc (ih es.length (by simp) hsched hkeys' h' (hall.2 m' hstep) rfl)
      | true =>
        rw [List.filter_cons_of_pos hw] at hsched
        cases items with
        | nil => cases hsched
        | cons it items =>
          cases it with
          | char ch hch =>
            obtain ⟨rfl, hrest⟩ := List.cons.inj hsched
            obtain ⟨c, hput, hready, -, -⟩ := draw_ready font h h.shift hch
            have hstep : m.step font (.ordinary ch) = some ⟨m.keyboard, c⟩ := by
              rw [Machine.step, hput]
              rfl
            exact .item (.char ch hch)
              (ih es.length (by simp) hrest hkeys' hready (hall.2 _ hstep) rfl)
          | sgr params hp =>
            obtain ⟨rfl, hrest⟩ := List.cons.inj hsched
            obtain ⟨c, hput, hlive, -⟩ := putchar_of_step font
              (live_of_ground h.writeFunc h.ground) (Reader.step_esc m.console.attrs)
            have hstep : m.step font (.sequence escByte) = some ⟨m.keyboard, c⟩ := by
              rw [Machine.step, hput]
              rfl
            obtain ⟨es', m', rfl, hes', hready, hall'⟩ := sequence_kept (m := ⟨m.keyboard, c⟩)
              h.shift hlive rfl hp (List.nil_append _) hrest hkeys' (hall.2 _ hstep)
            exact .item (.sgr params hp) (ih es'.length (by simp; omega) hes'
              (fun sc hsc => hkeys' sc (List.mem_append_right _ hsc)) hready hall' rfl)

/-! ## The console under interrupts -/

/-- For every text of ordinary characters and complete SGR sequences, from any console in its
    ground state that `FBCON_Write` is installed for, and every schedule of it with interrupts
    by printable keys: the attributes end as without interrupts and every ordinary and every
    echoed character is drawn exactly when no interrupt falls inside of a sequence. -/
theorem interrupts_tolerated_iff (font : Font) {m : Machine}
    (hf : m.console.writeFunc = .fbconWrite) (hc : m.console.Ground) {items : List Item}
    {events : List Event} (hsched : Schedules items events)
    (hkeys : ∀ sc, .key sc ∈ events → Printable m.keyboard sc) :
    Tolerates font items m events ↔ KeepsItems items events := by
  have hready : Ready m.keyboard m := ⟨⟨rfl, rfl⟩, hf, hc⟩
  constructor
  · intro h
    exact keepsItems_of_shown hsched hkeys hready h.1
  · intro hkeeps
    obtain ⟨m', hrun, hattrs, hall⟩ := keepsItems_run font hkeeps hkeys hready
    obtain ⟨c, htext, -, -, hattrs', -⟩ := complete_run font hf hc (complete_items items)
    refine ⟨hall, fun m₁ hm₁ => ⟨c, htext, ?_⟩⟩
    obtain rfl := Option.some_inj.mp (hrun.symm.trans hm₁)
    rw [hattrs, hattrs']

/-- `A` in red, and the key `a` pressed in front of it. -/
theorem interrupts_tolerated_iff_red :
    Tolerates (Vector.replicate 256 (Vector.replicate 16 0))
      [.sgr (ascii "31") ⟨by decide, by decide, by decide⟩, .char (chr 'A') (by decide)]
      ⟨bootKeyboard 0, { bootConsole with writeFunc := .fbconWrite }⟩
      ((sgrBytes (ascii "31")).map .sequence ++ [.key 0x1E, .ordinary (chr 'A')]) := by
  refine (interrupts_tolerated_iff _ (m := ⟨bootKeyboard 0, { bootConsole with
    writeFunc := .fbconWrite }⟩) rfl ⟨rfl, rfl, rfl⟩ (by rfl) ?_).mpr
    (.item (.sgr _ _) (.key _ (.item (.char _ _) .nil)))
  intro sc hsc
  have hkey : sc = 0x1E := by simpa using hsc
  exact ⟨chr 'a', by rw [hkey]; decide, by decide⟩

/-- The key `a` between ESC `[` and the rest of a sequence: its character is swallowed. -/
theorem interrupt_swallowed :
    ¬∀ (font : Font) (m : Machine), m.console.writeFunc = .fbconWrite → m.console.Ground →
      ∀ (items : List Item) (events : List Event), Schedules items events →
        (∀ sc, .key sc ∈ events → Printable m.keyboard sc) → Tolerates font items m events := by
  intro h
  have hprintable : Printable (bootKeyboard 0) 0x1E := ⟨chr 'a', by decide, by decide⟩
  have hall := (h (Vector.replicate 256 (Vector.replicate 16 0))
    ⟨bootKeyboard 0, { bootConsole with writeFunc := .fbconWrite }⟩ rfl ⟨rfl, rfl, rfl⟩
    [.sgr (ascii "31") ⟨by decide, by decide, by decide⟩]
    ([.sequence escByte, .sequence bracket, .key 0x1E] ++ (ascii "31m").map .sequence) (by rfl)
    (fun sc hsc => by
      have hkey : sc = 0x1E := by simpa [ascii] using hsc
      exact hkey ▸ hprintable)).1
  obtain ⟨c₁, hput₁, h₁, -⟩ := putchar_of_step (Vector.replicate 256 (Vector.replicate 16 0))
    (live_of_ground (c := { bootConsole with writeFunc := .fbconWrite }) rfl ⟨rfl, rfl, rfl⟩)
    (Reader.step_esc bootConsole.attrs)
  obtain ⟨c₂, hput₂, h₂, -⟩ := putchar_of_step (Vector.replicate 256 (Vector.replicate 16 0)) h₁
    (Reader.step_collect rfl (by decide : bracket ≠ escByte ∧ bracket ≠ letterM) (by decide))
  have hall₂ := (hall.2 ⟨bootKeyboard 0, c₁⟩ (by rw [Machine.step, hput₁]; rfl)).2
    ⟨bootKeyboard 0, c₂⟩ (by rw [Machine.step, hput₂]; rfl)
  refine no_key_inside (k := bootKeyboard 0) ⟨rfl, rfl⟩ h₂ rfl (fun sc hsc => ?_) hall₂ _ _ rfl
  have hkey : sc = 0x1E := by simpa [ascii] using hsc
  exact hkey ▸ hprintable

end SeshOS.UserInput
