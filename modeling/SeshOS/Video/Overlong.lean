/-
  How long an escape sequence may get.

  `TTY_HandleEsc` collects the characters behind an ESC in 256 bytes and resets their number at
  the `m` that ends a sequence, and nowhere else. A stream falls into pieces, text and whole
  sequences; `escape_inside_iff` says that the stores stay inside of the 256 bytes exactly when
  no sequence collects 255 characters without an end and then gets one more.
-/
import SeshOS.Video.Refinement

namespace SeshOS.Video

open Base Libc

/-! ## Stores and streams -/

/-- Where `TTY_HandleEsc` stores the character and the terminator, when the write gets there. -/
def storeIndices (c : Console) (w : Write) : List Nat :=
  if w.ch ≠ escByte ∧ c.esc = true then [c.escapeSequenceLength, c.escapeSequenceLength + 1]
  else []

/-- Every store of the run is inside of `escapeSequence`. -/
def EscapeInside (font : Font) (c : Console) (ws : List Write) : Prop :=
  Throughout (fun before w => ∀ c', feed font c before = some c' →
    ∀ k ∈ storeIndices c' w, k < 256) ws

/-- What `TTY_HandleEsc` gets of the characters behind an ESC: all but further ESCs. -/
def collected (p : List Byte) : List Byte := p.filter (· ≠ escByte)

/-- Text, or a sequence up to the `m` that ends it. -/
inductive Piece : List Byte → Prop
  | text {ch : Byte} (h : ch ≠ escByte) : Piece [ch]
  | sequence {p : List Byte} (h : Unfinished (collected p)) (hb : bracket ∈ p) (h0 : 0 ∉ p) :
      Piece (escByte :: (p ++ [letterM]))

/-- Somewhere outside of sequences there is an ESC, and behind it are 255 characters other than
    ESC that do not end the sequence, and one more. -/
def Overlong (s : List Byte) : Prop :=
  ∃ (pieces : List (List Byte)) (p : List Byte) (ch : Byte) (rest : List Byte),
    (∀ q ∈ pieces, Piece q) ∧ s = pieces.flatten ++ escByte :: (p ++ ch :: rest) ∧
      Unfinished (collected p) ∧ 255 ≤ (collected p).length ∧ ch ≠ escByte

theorem collected_esc (p : List Byte) : collected (p ++ [escByte]) = collected p := by
  rw [collected, List.filter_append, collected]
  simp

theorem collected_concat (p : List Byte) {ch : Byte} (h : ch ≠ escByte) :
    collected (p ++ [ch]) = collected p ++ [ch] := by
  rw [collected, List.filter_append, collected]
  simp [h]

theorem mem_collected {p : List Byte} {b : Byte} (h : b ≠ escByte) :
    b ∈ collected p ↔ b ∈ p := by
  simp [collected, h]

theorem afterBracket_nil {l : List Byte} (h : bracket ∉ l) : afterBracket l = [] := by
  have hnil := afterBracket_of_notMem h []
  rwa [List.append_nil] at hnil

/-- A sequence that is unfinished was unfinished before. -/
theorem unfinished_prefix {l t : List Byte} (h : Unfinished (l ++ t)) : Unfinished l := by
  by_cases h0 : 0 ∈ l
  · rwa [Unfinished, visible_append_of_mem h0] at h
  · rw [Unfinished, visible_append_of_notMem h0] at h
    rw [Unfinished, visible_eq_self h0]
    by_cases hb : bracket ∈ l
    · rw [afterBracket_of_mem hb] at h
      exact fun hm => h (List.mem_append_left _ hm)
    · rw [afterBracket_nil hb]
      exact List.not_mem_nil

/-! ## The reader over a stream -/

namespace Reader

theorem run_concat (r : Reader) (s : List Byte) (ch : Byte) :
    r.run (s ++ [ch]) = (r.run s).bind fun r => r.step ch := by
  rw [run_append]
  refine congrArg _ (funext fun r => ?_)
  show (r.step ch).bind some = r.step ch
  exact Option.bind_fun_some _

/-- Inside of a sequence the reader runs out of room or keeps what it gets. -/
theorem run_collected (a : Attrs) (t : List Byte) {p : List Byte} (h : Unfinished (collected p)) :
    run ⟨some [], a, t⟩ p = none ∨
      run ⟨some [], a, t⟩ p = some ⟨some (collected p), a, t⟩ := by
  induction p using List.reverseRecOn with
  | nil => exact Or.inr rfl
  | append_singleton p ch ih =>
    rw [run_concat]
    by_cases hch : ch = escByte
    · rw [hch, collected_esc] at h ⊢
      rcases ih h with hrun | hrun
      · exact Or.inl (by rw [hrun]; rfl)
      · exact Or.inr (by rw [hrun, Option.bind_some, step, if_pos rfl]; rfl)
    · rw [collected_concat p hch] at h ⊢
      have hp := unfinished_prefix h
      rcases ih hp with hrun | hrun
      · exact Or.inl (by rw [hrun]; rfl)
      · rw [hrun, Option.bind_some, step, if_neg hch]
        dsimp only
        by_cases hroom : 255 ≤ (collected p).length
        · exact Or.inl (if_pos hroom)
        · have hopen : ¬(ch = letterM ∧ bracket ∈ collected p ∧ 0 ∉ collected p) := by
            rintro ⟨rfl, hb, h0⟩
            exact h (finished_append hp hb h0).1
          exact Or.inr (by rw [if_neg hroom, if_neg hopen])

theorem run_piece {r : Reader} (hr : r.pending = none) {q : List Byte} (hq : Piece q) :
    r.run q = none ∨ ∃ r', r.run q = some r' ∧ r'.pending = none := by
  cases hq with
  | @text ch h =>
    refine Or.inr ⟨{ r with text := r.text ++ [ch] }, ?_, hr⟩
    rw [run_cons, step, if_neg h, hr]
    rfl
  | @sequence p h hb h0 =>
    rw [run_esc, hr, Option.getD_none, run_concat]
    rcases run_collected r.attrs r.text h with hrun | hrun
    · exact Or.inl (by rw [hrun]; rfl)
    · rw [hrun, Option.bind_some, step, if_neg (by decide)]
      dsimp only
      by_cases hroom : 255 ≤ (collected p).length
      · exact Or.inl (if_pos hroom)
      · have hend : letterM = letterM ∧ bracket ∈ collected p ∧ 0 ∉ collected p :=
          ⟨rfl, (mem_collected (by decide)).mpr hb, fun h => h0 ((mem_collected (by decide)).mp h)⟩
        exact Or.inr ⟨_, by rw [if_neg hroom, if_pos hend], rfl⟩

theorem run_pieces {r : Reader} (hr : r.pending = none) {pieces : List (List Byte)}
    (h : ∀ q ∈ pieces, Piece q) :
    r.run pieces.flatten = none ∨ ∃ r', r.run pieces.flatten = some r' ∧ r'.pending = none := by
  induction pieces generalizing r with
  | nil => exact Or.inr ⟨r, rfl, hr⟩
  | cons q pieces ih =>
    rw [List.flatten_cons, run_append]
    rcases run_piece hr (h q List.mem_cons_self) with hrun | ⟨r', hrun, hr'⟩
    · exact Or.inl (by rw [hrun]; rfl)
    · rw [hrun, Option.bind_some]
      exact ih hr' fun q' hq' => h q' (List.mem_cons_of_mem q hq')

/-- An overlong stream runs out of room. -/
theorem run_overlong {r : Reader} (hr : r.pending = none) {s : List Byte} (h : Overlong s) :
    r.run s = none := by
  obtain ⟨pieces, p, ch, rest, hpieces, rfl, hun, hlen, hch⟩ := h
  rw [run_append]
  rcases run_pieces hr hpieces with hrun | ⟨r', hrun, hr'⟩
  · rw [hrun]
    rfl
  rw [hrun, Option.bind_some, run_esc, hr', Option.getD_none, run_append]
  rcases run_collected r'.attrs r'.text hun with hrun' | hrun'
  · rw [hrun']
    rfl
  · rw [hrun', Option.bind_some, run_cons, step, if_neg hch]
    dsimp only
    rw [if_pos hlen]
    rfl

/-- Where a run gets: the stream so far is a list of pieces, or ends in an unfinished sequence. -/
theorem pieces_of_run {r r' : Reader} (hr : r.pending = none) {s : List Byte}
    (h : r.run s = some r') : ∃ pieces : List (List Byte), (∀ q ∈ pieces, Piece q) ∧
      (r'.pending = none ∧ s = pieces.flatten ∨
        ∃ p, s = pieces.flatten ++ escByte :: p ∧ r'.pending = some (collected p) ∧
          Unfinished (collected p)) := by
  induction s using List.reverseRecOn generalizing r' with
  | nil =>
    cases h
    exact ⟨[], nofun, Or.inl ⟨hr, rfl⟩⟩
  | append_singleton s ch ih =>
    rw [run_concat] at h
    obtain ⟨v, hv, hstep⟩ := Option.bind_eq_some_iff.mp h
    obtain ⟨pieces, hpieces, hsofar⟩ := ih hv
    have hadd : ∀ q, Piece q → ∀ q' ∈ pieces ++ [q], Piece q' := by
      intro q hq q' hq'
      rcases List.mem_append.mp hq' with hq' | hq'
      · exact hpieces q' hq'
      · rwa [List.mem_singleton.mp hq']
    rw [step] at hstep
    rcases hsofar with ⟨hpending, rfl⟩ | ⟨p, rfl, hpending, hun⟩
    · rw [hpending] at hstep
      by_cases hch : ch = escByte
      · rw [if_pos hch] at hstep
        cases hstep
        exact ⟨pieces, hpieces, Or.inr ⟨[], by rw [hch], rfl, unfinished_nil⟩⟩
      · rw [if_neg hch] at hstep
        cases hstep
        exact ⟨pieces ++ [[ch]], hadd _ (.text hch), Or.inl ⟨rfl, by simp⟩⟩
    · rw [hpending] at hstep
      by_cases hch : ch = escByte
      · rw [if_pos hch] at hstep
        cases hstep
        refine ⟨pieces, hpieces, Or.inr ⟨p ++ [ch], by simp, ?_, ?_⟩⟩
        · rw [hch, collected_esc]
          rfl
        · rwa [hch, collected_esc]
      · rw [if_neg hch] at hstep
        dsimp only at hstep
        split_ifs at hstep with hroom hend
        · cases hstep
          have hb := (mem_collected (by decide)).mp hend.2.1
          have h0 : 0 ∉ p := fun h => hend.2.2 ((mem_collected (by decide)).mpr h)
          refine ⟨pieces ++ [escByte :: (p ++ [letterM])], hadd _ (.sequence hun hb h0),
            Or.inl ⟨rfl, ?_⟩⟩
          rw [hend.1]
          simp
        · cases hstep
          refine ⟨pieces, hpieces, Or.inr ⟨p ++ [ch], by simp, ?_, ?_⟩⟩
          · rw [collected_concat p hch]
          · rw [collected_concat p hch]
            exact unfinished_append hun hend

/-- The reader runs out of room on overlong streams only. -/
theorem run_eq_none_iff {r : Reader} (hr : r.pending = none) (s : List Byte) :
    r.run s = none ↔ Overlong s := by
  refine ⟨fun h => ?_, run_overlong hr⟩
  obtain ⟨before, ch, v, ⟨rest, rfl⟩, hrun, hstep⟩ := foldlM_eq_none_iff.mp h
  obtain ⟨pieces, hpieces, hsofar⟩ := pieces_of_run hr hrun
  have hch : ch ≠ escByte := by
    rintro rfl
    rw [step, if_pos rfl] at hstep
    cases hstep
  rw [step, if_neg hch] at hstep
  rcases hsofar with ⟨hpending, -⟩ | ⟨p, rfl, hpending, hun⟩
  · rw [hpending] at hstep
    cases hstep
  · rw [hpending] at hstep
    dsimp only at hstep
    split_ifs at hstep with hroom hend
    exact ⟨pieces, p, ch, rest, hpieces, by simp, hun, hroom, hch⟩

end Reader

/-! ## The console -/

/-- A write fails exactly when it stores outside. -/
theorem fbconWrite_eq_none_iff (font : Font) {old : List Ev} {c : Console} {r : Reader}
    (h : Shows old c r) (w : Write) :
    fbconWrite font c w = none ↔ ¬ ∀ k ∈ storeIndices c w, k < 256 := by
  rw [rel_none_iff (fbconWrite_refines font h w), storeIndices, h.esc, h.length, Reader.step]
  by_cases hch : w.ch = escByte
  · rw [if_pos hch, if_neg fun h => h.1 hch]
    simp
  · rw [if_neg hch]
    cases hp : r.pending with
    | none => simp
    | some l =>
      rw [if_pos ⟨hch, rfl⟩]
      dsimp only
      split_ifs with hroom <;> simp <;> omega

theorem escape_inside_iff_feed (font : Font) {c : Console} (hc : c.Ground) (ws : List Write) :
    EscapeInside font c ws ↔ feed font c ws ≠ none := by
  rw [feed, Ne, foldlM_eq_none_iff, EscapeInside, Throughout]
  constructor
  · rintro hin ⟨before, w, c', hprefix, hrun, hw⟩
    obtain ⟨r, -, hshows⟩ := reader_of_feed (shows_of_ground hc) hrun
    exact (fbconWrite_eq_none_iff font hshows w).mp hw (hin before w hprefix c' hrun)
  · intro hnone before w hprefix c' hrun
    by_contra hout
    obtain ⟨r, -, hshows⟩ := reader_of_feed (shows_of_ground hc) hrun
    exact hnone ⟨before, w, c', hprefix, hrun, (fbconWrite_eq_none_iff font hshows w).mpr hout⟩

theorem feed_eq_none_iff (font : Font) {c : Console} (hc : c.Ground) (ws : List Write) :
    feed font c ws = none ↔ Overlong (ws.map Write.ch) := by
  rw [← Reader.run_eq_none_iff (r := ⟨none, c.attrs, []⟩) rfl]
  exact rel_none_iff (feed_refines font (shows_of_ground hc) ws)

/-- From a console outside of sequences, every store into `escapeSequence` is inside of it
    exactly when the stream is not overlong. -/
theorem escape_inside_iff (font : Font) {c : Console} (hc : c.Ground) (ws : List Write) :
    EscapeInside font c ws ↔ ¬ Overlong (ws.map Write.ch) := by
  rw [escape_inside_iff_feed font hc, Ne, feed_eq_none_iff font hc]

/-- The law for ESC `[` 3 1 `m`, as the kernel starts. -/
theorem escape_inside_iff_red :
    EscapeInside (Vector.replicate 256 (Vector.replicate 16 0)) bootConsole
        ([0x1b, 0x5b, 0x33, 0x31, 0x6d].map fun ch => ⟨ch, 0, 0, 0, 0⟩) ↔
      ¬ Overlong [0x1b, 0x5b, 0x33, 0x31, 0x6d] :=
  escape_inside_iff _ (c := bootConsole) ⟨rfl, rfl, rfl⟩ _

/-- An ESC and 256 letters. -/
theorem letters_overrun :
    ¬ EscapeInside (Vector.replicate 256 (Vector.replicate 16 0)) bootConsole
      ((escByte :: List.replicate 256 (chr 'a')).map fun ch => ⟨ch, 0, 0, 0, 0⟩) := by
  have hcollected : collected (List.replicate 255 (chr 'a')) = List.replicate 255 (chr 'a') :=
    List.filter_replicate_of_pos (by decide)
  have hopen : Unfinished (List.replicate 255 (chr 'a')) := by
    have hbracket : bracket ∉ List.replicate 255 (chr 'a') :=
      fun h => absurd (List.eq_of_mem_replicate h) (by decide)
    have h0 : 0 ∉ List.replicate 255 (chr 'a') :=
      fun h => absurd (List.eq_of_mem_replicate h) (by decide)
    rw [Unfinished, visible_eq_self h0, afterBracket_nil hbracket]
    exact List.not_mem_nil
  rw [escape_inside_iff_feed _ (c := bootConsole) ⟨rfl, rfl, rfl⟩, Ne, not_not,
    feed_eq_none_iff _ ⟨rfl, rfl, rfl⟩, List.map_map]
  refine ⟨[], List.replicate 255 (chr 'a'), chr 'a', [], fun q hq => absurd hq List.not_mem_nil,
    ?_, ?_, ?_, by decide⟩
  · show List.map id (escByte :: List.replicate 256 (chr 'a')) = _
    have hlast : List.replicate 256 (chr 'a') = List.replicate 255 (chr 'a') ++ [chr 'a'] :=
      List.replicate_succ'
    rw [List.map_id, hlast]
    rfl
  · rwa [hcollected]
  · rw [hcollected, List.length_replicate]

end SeshOS.Video
