/-
  The console keeps what the reader keeps.

  `TTY_HandleEsc` searches its whole buffer for `[` and `m` at every byte from `0x40` to
  `0x7E`, with bytes of earlier sequences still behind the terminator. That it never finds the
  end of a sequence late, or a stale one, is the invariant `Unfinished` of the bytes collected
  so far. `fbconWrite_refines` is the simulation of one write, `feed_refines` of a run.
-/
import SeshOS.Base.Run
import SeshOS.Video.Putchar
import SeshOS.Video.Reader

namespace SeshOS.Video

open Base Libc

/-! ## The switch -/

/-- The switch of `TTY_HandleEsc` has the listed effects. -/
theorem switchColor_eq (code : BitVec 32) (a : Attrs) :
    switchColor code a = effect code.toNat a := by
  by_cases h : code.toNat < 48
  · obtain ⟨n, hn, rfl⟩ : ∃ n, n < 48 ∧ code = BitVec.ofNat 32 n :=
      ⟨code.toNat, h, by rw [BitVec.ofNat_toNat, BitVec.setWidth_eq]⟩
    interval_cases n <;> rfl
  · -- past the last label neither side does anything
    rw [effect, if_neg (by omega), if_neg (by omega), if_neg (by omega), if_neg (by omega),
      if_neg (by omega)]
    unfold switchColor
    split
    case h_20 => rfl
    all_goals exact absurd (by decide) h

/-! ## TTY_HandleEsc -/

/-- The first search stops at the first `[`, with the rest of the buffer behind it. -/
theorem strstr_bracket {s : List Byte} (h0 : 0 ∈ s) (hb : bracket ∈ visible s) :
    ∃ u t, s = u ++ bracket :: t ∧ strstr s [bracket, 0] = some (some u.length) ∧ 0 ∈ t ∧
      afterBracket (visible s) = visible t := by
  obtain ⟨u, t, rfl, hbu, h0u, hrun⟩ := strstr_found (by decide) hb
  have h0t : 0 ∈ t := by
    have h := (List.mem_append.mp h0).resolve_left h0u
    exact (List.mem_cons.mp h).resolve_left (by decide)
  refine ⟨u, t, rfl, hrun, h0t, ?_⟩
  rw [visible_append_of_notMem h0u, afterBracket_of_notMem hbu, visible, if_neg (by decide),
    afterBracket, if_pos rfl]

theorem visible_bracket (t : List Byte) : visible (bracket :: t) = bracket :: visible t := by
  rw [visible, if_neg (by decide)]

/-- The second search starts at the `[` and stops at the first `m`, with the parameter in
    between. -/
theorem strstr_param {t : List Byte} (hm : letterM ∈ visible t) :
    ∃ v w, t = v ++ letterM :: w ∧ 0 ∉ v ∧
      strstr (bracket :: t) [letterM, 0] = some (some (v.length + 1)) ∧
      (visible t).takeWhile (· ≠ letterM) = v := by
  have hfound : letterM ∈ visible (bracket :: t) := by
    rw [visible_bracket]
    exact List.mem_cons_of_mem _ hm
  obtain ⟨v, w, hvw, hmv, h0v, hrun⟩ := strstr_found (by decide : letterM ≠ 0) hfound
  cases v with
  | nil => exact absurd (List.head_eq_of_cons_eq hvw) (by decide)
  | cons b v =>
    have ht : t = v ++ letterM :: w := List.tail_eq_of_cons_eq hvw
    have h0 : 0 ∉ v := List.not_mem_of_not_mem_cons h0v
    have hne : ∀ b ∈ v, decide (b ≠ letterM) = true := by
      intro b hb
      exact decide_eq_true fun h => hmv (List.mem_cons_of_mem _ (h ▸ hb))
    refine ⟨v, w, ht, h0, hrun, ?_⟩
    rw [ht, visible_append_of_notMem h0, visible, if_neg (by decide),
      List.takeWhile_append_of_pos hne, List.takeWhile_cons_of_neg (by simp), List.append_nil]

theorem strstr_param_missing {t : List Byte} (h0 : 0 ∈ t) (hm : letterM ∉ visible t) :
    strstr (bracket :: t) [letterM, 0] = some none := by
  refine strstr_missing (by decide) (List.mem_cons_of_mem _ h0) ?_
  rw [visible_bracket]
  intro h
  rcases List.mem_cons.mp h with h | h
  · exact absurd h (by decide)
  · exact hm h

/-- The part of `TTY_HandleEsc` behind its test switches by the bytes from the first `[` to
    the first `m` behind it, and does nothing without them. -/
theorem switchIfComplete_eq {c : Console} {s : List Byte} (hs : c.escapeSequence.toList = s)
    (h0 : 0 ∈ s) :
    switchIfComplete c =
      some (if letterM ∈ afterBracket (visible s) then
        { c with
          escapeCompleted := true
          attrs := switchColor (decimal ((afterBracket (visible s)).takeWhile (· ≠ letterM)))
            c.attrs }
        else c) := by
  unfold switchIfComplete
  rw [hs, show chr '[' = bracket from rfl, show chr 'm' = letterM from rfl]
  by_cases hb : bracket ∈ visible s
  · obtain ⟨u, t, hst, hrun, h0t, hafter⟩ := strstr_bracket h0 hb
    rw [hrun, Option.bind_some, hafter]
    dsimp only
    rw [hst, List.drop_left]
    by_cases hm : letterM ∈ visible t
    · obtain ⟨v, w, ht, h0v, hrun, hparam⟩ := strstr_param hm
      have hcode : ((bracket :: t).drop 1).take (v.length + 1 - 1) = v := by
        rw [ht, List.drop_one, List.tail_cons, Nat.add_sub_cancel, List.take_left]
      rw [hrun, Option.bind_some]
      dsimp only
      rw [hcode, atoi_terminated h0v, Option.bind_some, hparam, if_pos hm]
    · rw [strstr_param_missing h0t hm, Option.bind_some, if_neg hm]
  · have hafter : afterBracket (visible s) = [] := by
      have h := afterBracket_of_notMem hb []
      rwa [List.append_nil] at h
    rw [strstr_missing (by decide) h0 hb, Option.bind_some, hafter, if_neg List.not_mem_nil]

/-! ## Characters taken as text -/

/-- The character of a text event; the space that `'\b'` writes is none of the stream's. -/
def Ev.typed : Ev → Option Byte
  | .control ch => some ch
  | .glyph false ch _ _ _ _ => some ch
  | .glyph true _ _ _ _ _ => none

/-- The characters of the stream that were taken as text. -/
def typed (evs : List Ev) : List Byte := evs.filterMap Ev.typed

theorem typed_append (xs ys : List Ev) : typed (xs ++ ys) = typed xs ++ typed ys :=
  List.filterMap_append

/-- What `'\b'` draws is a space. -/
def Ev.NestedSpace : Ev → Prop
  | .glyph true ch _ _ _ _ => ch = chr ' '
  | _ => True

/-- From `c` to `c'` the characters `chs` of the stream were taken as text, and the parser
    did not move. -/
structure TakesText (c c' : Console) (chs : List Byte) : Prop where
  parser : c'.parser = c.parser
  trace : ∃ evs, c'.trace = c.trace ++ evs ∧ typed evs = chs ∧ ∀ e ∈ evs, e.NestedSpace

theorem TakesText.trans {c c' c'' : Console} {xs ys : List Byte} (h : TakesText c c' xs)
    (h' : TakesText c' c'' ys) : TakesText c c'' (xs ++ ys) := by
  obtain ⟨evs, ht, hx, hn⟩ := h.trace
  obtain ⟨evs', ht', hx', hn'⟩ := h'.trace
  refine ⟨h'.parser.trans h.parser, evs ++ evs', ?_, ?_, ?_⟩
  · rw [ht', ht, List.append_assoc]
  · rw [typed_append, hx, hx']
  · intro e he
    rcases List.mem_append.mp he with he | he
    · exact hn e he
    · exact hn' e he

theorem takesText_quiet {c c' : Console} (hp : c'.parser = c.parser) (ht : c'.trace = c.trace) :
    TakesText c c' [] :=
  ⟨hp, [], by rw [ht, List.append_nil], rfl, fun e he => by cases he⟩

theorem takesText_log {c c' : Console} (e : Ev) (hp : c'.parser = c.parser)
    (ht : c'.trace = c.trace ++ [e]) (hn : e.NestedSpace) :
    TakesText c c' e.typed.toList := by
  refine ⟨hp, [e], ht, ?_, ?_⟩
  · cases he : e.typed <;> simp [typed, he]
  · intro e' he'
    rw [List.mem_singleton.mp he']
    exact hn

/-- A drawn character. -/
theorem drawn_takesText (font : Font) (nested : Bool) (c : Console) (w : Write)
    (hn : (Ev.glyph nested w.ch w.x w.y w.fgColor w.bgColor).NestedSpace) :
    TakesText c (drawn font nested c w)
      (Ev.glyph nested w.ch w.x w.y w.fgColor w.bgColor).typed.toList := by
  obtain ⟨-, hp, ht⟩ := drawn_kept font nested c w
  exact takesText_log _ hp ht hn

/-- The space of `'\b'`, through either write function. -/
theorem putchar_space (font : Font) {c : Console} (he : c.esc = false) :
    ∃ c', putcharWith (ttyWriteWith (fbconWriteNested font)) c (chr ' ') = some c' ∧
      TakesText c c' [] := by
  cases hf : c.writeFunc with
  | comLogWrapper =>
    unfold putcharWith ttyWriteWith
    rw [hf]
    exact ⟨_, rfl, takesText_quiet rfl rfl⟩
  | fbconWrite =>
    exact ⟨_, putchar_nested font hf he, drawn_takesText font true c (c.write (chr ' ')) rfl⟩

/-- Outside of a sequence every character but ESC is taken as text. -/
theorem fbconWrite_text (font : Font) {c : Console} {w : Write} (he : c.esc = false)
    (hch : w.ch ≠ escByte) : ∃ c', fbconWrite font c w = some c' ∧ TakesText c c' [w.ch] := by
  by_cases hcr : w.ch = 0x0d
  · rw [hcr, fbconWrite_cr font he hcr]
    exact ⟨_, rfl, takesText_log (.control 0x0d) rfl rfl trivial⟩
  · by_cases hbs : w.ch = 0x08
    · have hlog : TakesText c (c.log (.control 0x08)) [0x08] :=
        takesText_log (.control 0x08) rfl rfl trivial
      rw [hbs]
      by_cases hx : c.cursorX = 0
      · rw [fbconWrite_backspace_first font he hbs hx]
        exact ⟨_, rfl, hlog⟩
      · obtain ⟨c', hrun, hput⟩ := putchar_space font (c := c.erasing) he
        have hput' : TakesText (c.log (.control 0x08)) { c' with cursorX := c'.cursorX - 1 } [] :=
          ⟨hput.parser, hput.trace⟩
        rw [fbconWrite_backspace font he hbs hx, hrun]
        exact ⟨_, rfl, hlog.trans hput'⟩
    · by_cases hlf : w.ch = 0x0a
      · rw [hlf, fbconWrite_lf font he hlf]
        exact ⟨_, rfl, takesText_log (.control 0x0a) rfl rfl trivial⟩
      · rw [fbconWrite_drawn font he ⟨hch, hcr, hbs, hlf⟩]
        exact ⟨_, rfl, drawn_takesText font false c w trivial⟩

/-! ## The simulation -/

/-- The console is where the reader is; `old` is the trace when the reader started. -/
structure Shows (old : List Ev) (c : Console) (r : Reader) : Prop where
  esc : c.esc = r.pending.isSome
  completed : c.escapeCompleted = false
  length : c.escapeSequenceLength = (r.pending.getD []).length
  bytes : c.escapeSequence.toList.take c.escapeSequenceLength = r.pending.getD []
  unfinished : Unfinished (r.pending.getD [])
  attrs : c.attrs = r.attrs
  trace : ∃ evs, c.trace = old ++ evs ∧ typed evs = r.text ∧ ∀ e ∈ evs, e.NestedSpace

/-- A byte of a sequence: overflow, its end, or one more byte collected. -/
theorem ttyHandleEsc_refines {old : List Ev} {c : Console} {r : Reader} (h : Shows old c r)
    {l : List Byte} (hl : r.pending = some l) {ch : Byte} (hch : ch ≠ escByte) :
    Option.Rel (Shows old)
      ((ttyHandleEsc c ch).map fun (c, completed) => { c with esc := !completed })
      (r.step ch) := by
  have hlen : c.escapeSequenceLength = l.length := by rw [h.length, hl]; rfl
  have hbytes : c.escapeSequence.toList.take l.length = l := by
    rw [← hlen, h.bytes, hl]
    rfl
  have hun : Unfinished l := by
    have := h.unfinished
    rwa [hl] at this
  unfold Reader.step
  rw [if_neg hch, hl]
  dsimp only
  unfold ttyHandleEsc
  rw [hlen]
  by_cases hroom : 255 ≤ l.length
  · rw [if_pos hroom, storeBytes_overflow _ (by simp) (by simp; omega)]
    exact Option.Rel.none
  · rw [if_neg hroom]
    obtain ⟨buf, hbuf, hlist⟩ := storeBytes_fits c.escapeSequence [ch, 0]
      (k := l.length) (by simp; omega)
    rw [hbytes] at hlist
    have hsplit : buf.toList = (l ++ [ch]) ++ 0 :: c.escapeSequence.toList.drop (l.length + 2) := by
      simpa using hlist
    have hvis : visible buf.toList = visible (l ++ [ch]) := by
      rw [hsplit, visible_terminated]
    have h0 : 0 ∈ buf.toList := by
      rw [hsplit]
      exact List.mem_append_right _ List.mem_cons_self
    rw [hbuf, Option.bind_some]
    dsimp only
    by_cases hend : ch = letterM ∧ bracket ∈ l ∧ 0 ∉ l
    · -- the `m` behind a `[`
      rw [if_pos hend]
      obtain ⟨rfl, hb, hz⟩ := hend
      obtain ⟨hv, hm⟩ := finished_append hun hb hz
      rw [if_pos (by decide), switchIfComplete_eq (s := buf.toList) rfl h0, hvis, if_pos hv, hm,
        Option.bind_some, if_pos rfl, Option.map_some]
      refine Option.Rel.some ⟨rfl, rfl, rfl, rfl, unfinished_nil, ?_, h.trace⟩
      rw [← h.attrs]
      exact switchColor_eq _ _
    · rw [if_neg hend]
      have hun' : Unfinished (l ++ [ch]) := unfinished_append hun hend
      have hsame : ∀ c' : Console, c'.escapeSequence = buf →
          (if 0x40 ≤ ch ∧ ch ≤ 0x7E then switchIfComplete c' else some c') = some c' := by
        intro c' hc'
        split
        · rw [switchIfComplete_eq (s := buf.toList) (by rw [hc']) h0, hvis, if_neg hun']
        · rfl
      rw [hsame _ rfl, Option.bind_some, if_neg (by rw [h.completed]; decide), Option.map_some]
      refine Option.Rel.some ⟨rfl, h.completed, ?_, ?_, hun', h.attrs, h.trace⟩
      · simp
      · show buf.toList.take (l.length + 1) = l ++ [ch]
        rw [hsplit, List.take_left' (by simp)]

/-- Every write does what the reader does with its character. -/
theorem fbconWrite_refines (font : Font) {old : List Ev} {c : Console} {r : Reader}
    (h : Shows old c r) (w : Write) :
    Option.Rel (Shows old) (fbconWrite font c w) (r.step w.ch) := by
  by_cases hch : w.ch = escByte
  · rw [fbconWrite_esc font hch, Reader.step, if_pos hch]
    exact Option.Rel.some ⟨rfl, h.completed, h.length, h.bytes, h.unfinished, h.attrs, h.trace⟩
  · cases hl : r.pending with
    | none =>
      have he : c.esc = false := by rw [h.esc, hl]; rfl
      obtain ⟨c', hrun, htext⟩ := fbconWrite_text font he hch
      have hp := htext.parser
      simp only [Console.parser, Prod.mk.injEq] at hp
      obtain ⟨h1, h2, h3, h4, h5⟩ := hp
      obtain ⟨evs, ht, htyped, hnested⟩ := htext.trace
      rw [hrun, Reader.step, if_neg hch, hl]
      refine Option.Rel.some ⟨?_, ?_, ?_, ?_, ?_, ?_, ?_⟩
      · rw [h1, he]
        rfl
      · rw [h2, h.completed]
      · rw [h4, h.length, hl]
      · rw [h3, h4, h.bytes, hl]
      · exact unfinished_nil
      · rw [h5, h.attrs]
      · obtain ⟨evs', ht', htyped', hnested'⟩ := h.trace
        refine ⟨evs' ++ evs, ?_, ?_, ?_⟩
        · rw [ht, ht', List.append_assoc]
        · rw [typed_append, htyped', htyped]
        · intro e he
          rcases List.mem_append.mp he with he | he
          · exact hnested' e he
          · exact hnested e he
    | some l =>
      have he : c.esc = true := by rw [h.esc, hl]; rfl
      rw [fbconWrite_sequence font hch he]
      exact ttyHandleEsc_refines h hl hch

/-- Every run does what the reader does with its characters. -/
theorem feed_refines (font : Font) {old : List Ev} {c : Console} {r : Reader}
    (h : Shows old c r) (ws : List Write) :
    Option.Rel (Shows old) (feed font c ws) (r.run (ws.map Write.ch)) :=
  foldlM_rel (Shows old) Write.ch (fun _ _ w h => fbconWrite_refines font h w) ws h

/-- Where the reader gets, the console gets. -/
theorem feed_of_reader (font : Font) {old : List Ev} {c : Console} {r r' : Reader}
    (h : Shows old c r) {ws : List Write} (hr : r.run (ws.map Write.ch) = some r') :
    ∃ c', feed font c ws = some c' ∧ Shows old c' r' := by
  have hrel := feed_refines font h ws
  rw [hr] at hrel
  exact rel_some_right hrel

/-- Where the console gets, the reader gets. -/
theorem reader_of_feed {font : Font} {old : List Ev} {c c' : Console} {r : Reader}
    (h : Shows old c r) {ws : List Write} (hf : feed font c ws = some c') :
    ∃ r', r.run (ws.map Write.ch) = some r' ∧ Shows old c' r' := by
  have hrel := feed_refines font h ws
  rw [hf] at hrel
  exact rel_some_left hrel

/-! ## The ground state -/

/-- The parser outside of sequences. -/
def Console.Ground (c : Console) : Prop :=
  c.esc = false ∧ c.escapeCompleted = false ∧ c.escapeSequenceLength = 0

theorem shows_of_ground {c : Console} (hc : c.Ground) : Shows c.trace c ⟨none, c.attrs, []⟩ := by
  obtain ⟨h1, h2, h3⟩ := hc
  refine ⟨h1, h2, h3, ?_, unfinished_nil, rfl, [], ?_, rfl, ?_⟩
  · rw [h3]
    rfl
  · rw [List.append_nil]
  · exact fun e he => by cases he

theorem ground_of_sameParser {c c' : Console} (h : c'.parser = c.parser) (hc : c.Ground) :
    c'.Ground := by
  simp only [Console.parser, Prod.mk.injEq] at h
  obtain ⟨h1, h2, -, h4, -⟩ := h
  exact ⟨h1.trans hc.1, h2.trans hc.2.1, h4.trans hc.2.2⟩

theorem ground_of_shows {old : List Ev} {c : Console} {r : Reader} (h : Shows old c r)
    (hr : r.pending = none) : c.Ground := by
  refine ⟨?_, h.completed, ?_⟩
  · rw [h.esc, hr]
    rfl
  · rw [h.length, hr]
    rfl

end SeshOS.Video
