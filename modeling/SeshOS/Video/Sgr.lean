/-
  Streams of text and single-parameter SGR sequences.

  Such a stream is a list of tokens; what it means is a fold over them. `reader_tokens` is the
  run of the reader over any prefix of the stream, by recursion on the tokens: inside a
  sequence nothing has happened yet, and behind it exactly its effect. The console does what
  the reader does.
-/
import SeshOS.Video.Refinement

namespace SeshOS.Video

open Base Libc

/-- A character that is not ESC, or ESC `[` digits `m` with at most nine digits. -/
inductive Token where
  | text (ch : Byte) (notEsc : ch ≠ escByte)
  | sgr (digits : List (Fin 10)) (short : digits.length ≤ 9)

def digit (d : Fin 10) : Byte := chr '0' + BitVec.ofNat 8 d.val

/-- The decimal value of the digits, zero without any. -/
def value (digits : List (Fin 10)) : Nat := Nat.ofDigits 10 (digits.reverse.map Fin.val)

namespace Token

def bytes : Token → List Byte
  | .text ch _ => [ch]
  | .sgr digits _ => escByte :: bracket :: (digits.map digit ++ [letterM])

/-- The characters outside of sequences. -/
def chars : Token → List Byte
  | .text ch _ => [ch]
  | .sgr _ _ => []

/-- The attributes behind the token. -/
def apply (a : Attrs) : Token → Attrs
  | .text _ _ => a
  | .sgr digits _ => effect (value digits) a

end Token

/-- The tokens that lie wholly in the first `n` characters. -/
def completed : List Token → Nat → List Token
  | [], _ => []
  | t :: ts, n => if t.bytes.length ≤ n then t :: completed ts (n - t.bytes.length) else []

/-! ## The parameter -/

theorem value_lt (ds : List (Fin 10)) : value ds < 10 ^ ds.length := by
  have h := Nat.ofDigits_lt_base_pow_length (b := 10) (l := ds.reverse.map Fin.val) (by decide)
    (by simp)
  simpa [value] using h

/-- The character with a value: the digits, `:` and `;`. -/
def valueChar (d : Nat) : Byte := chr '0' + BitVec.ofNat 8 d

/-- `atoi` adds up the values of the characters. -/
theorem decimal_valueChar {ds : List Nat} (h : ∀ d ∈ ds, d < 12) :
    decimal (ds.map valueChar) = BitVec.ofNat 32 (Nat.ofDigits 10 ds.reverse) := by
  induction ds using List.reverseRecOn with
  | nil => rfl
  | append_singleton ds d ih =>
    have hd : ∀ d : Fin 12, (valueChar d).signExtend 32 - (chr '0').signExtend 32 =
        BitVec.ofNat 32 d := by decide
    have hlt : d < 12 := h d (List.mem_append_right _ (List.mem_singleton_self d))
    have hlast : decimal ((ds ++ [d]).map valueChar) = decimal (ds.map valueChar) * 10 +
        (valueChar d).signExtend 32 - (chr '0').signExtend 32 := by
      rw [List.map_append, decimal, List.foldl_append]
      rfl
    rw [hlast, add_sub_assoc, hd ⟨d, hlt⟩, ih fun d hd => h d (List.mem_append_left _ hd),
      List.reverse_append, List.reverse_singleton, List.singleton_append, Nat.ofDigits_cons,
      BitVec.ofNat_add, BitVec.ofNat_mul, BitVec.mul_comm, BitVec.add_comm]
    rfl

/-- It reads the digits as their value. -/
theorem decimal_digits (ds : List (Fin 10)) :
    decimal (ds.map digit) = BitVec.ofNat 32 (value ds) := by
  have hdigit : ds.map digit = (ds.map Fin.val).map valueChar := by
    rw [List.map_map]
    rfl
  have hsmall : ∀ d ∈ ds.map Fin.val, d < 12 := by
    intro d hd
    obtain ⟨d, _, rfl⟩ := List.mem_map.mp hd
    omega
  rw [hdigit, decimal_valueChar hsmall, value, List.map_reverse]

/-! ## The reader over tokens -/

theorem params_digits {ds : List (Fin 10)} (short : ds.length ≤ 9) : Params (ds.map digit) := by
  have hd : ∀ d : Fin 10, digit d ≠ escByte ∧ digit d ≠ letterM ∧ digit d ≠ 0 := by decide
  refine ⟨fun ch hch => ?_, fun h0 => ?_, by rw [List.length_map]; omega⟩
  · obtain ⟨d, _, rfl⟩ := List.mem_map.mp hch
    exact ⟨(hd d).1, (hd d).2.1⟩
  · obtain ⟨d, _, hz⟩ := List.mem_map.mp h0
    exact (hd d).2.2 hz

/-- The value fits an `int`, so `atoi` gives it. -/
theorem sgrEffect_digits {ds : List (Fin 10)} (short : ds.length ≤ 9) (a : Attrs) :
    sgrEffect (ds.map digit) a = effect (value ds) a := by
  have hlt := value_lt ds
  have hpow : 10 ^ ds.length ≤ 10 ^ 9 := Nat.pow_le_pow_right (by decide) short
  rw [sgrEffect, decimal_digits, BitVec.toNat_ofNat, Nat.mod_eq_of_lt (by omega)]

/-- A whole token from the ground state: its characters, its effect, and the ground state. -/
theorem reader_token {r : Reader} (hr : r.pending = none) (t : Token) :
    r.run t.bytes = some ⟨none, t.apply r.attrs, r.text ++ t.chars⟩ := by
  cases t with
  | text ch notEsc =>
    rw [Token.bytes, Reader.run_cons, Reader.step, if_neg notEsc, hr]
    rfl
  | sgr ds short =>
    have hbytes : (Token.sgr ds short).bytes = sgrBytes (ds.map digit) := rfl
    rw [hbytes, Reader.run_sgr hr (params_digits short), sgrEffect_digits short]
    simp [Token.apply, Token.chars]

/-- Inside a token nothing has happened yet. -/
theorem reader_inside {r : Reader} (hr : r.pending = none) (t : Token) {n : Nat}
    (hn : n < t.bytes.length) :
    ∃ p, r.run (t.bytes.take n) = some { r with pending := p } ∧ (n = 0 → p = none) := by
  cases n with
  | zero =>
    refine ⟨none, ?_, fun _ => rfl⟩
    rw [List.take_zero, ← hr]
    rfl
  | succ n =>
    cases t with
    | text ch notEsc => exact absurd hn (by simp [Token.bytes])
    | sgr ds short =>
      have hbody : (Token.sgr ds short).bytes.take (n + 1) =
          escByte :: (bracket :: ds.map digit).take n := by
        have hn' : n ≤ (bracket :: ds.map digit).length := by
          simpa [Token.bytes] using hn
        show escByte :: ((bracket :: ds.map digit) ++ [letterM]).take n = _
        rw [List.take_append_of_le_length hn']
      refine ⟨some ((bracket :: ds.map digit).take n), ?_, fun h => absurd h (by omega)⟩
      rw [hbody, Reader.run_esc, hr,
        Reader.run_collect rfl (fun ch hch =>
          (params_digits short).collected.1 ch (List.mem_of_mem_take hch))
          (by simp; omega)]
      rfl

/-- Any prefix of a stream of tokens: the completed ones have been read and applied, and the
    parser is outside of sequences when the prefix ends with a token. -/
theorem reader_tokens {r : Reader} (hr : r.pending = none) (toks : List Token) (n : Nat) :
    ∃ p, r.run ((toks.flatMap Token.bytes).take n) =
        some ⟨p, (completed toks n).foldl Token.apply r.attrs,
          r.text ++ (completed toks n).flatMap Token.chars⟩ ∧
      ((completed toks n).flatMap Token.bytes = (toks.flatMap Token.bytes).take n → p = none) := by
  induction toks generalizing r n with
  | nil =>
    refine ⟨none, ?_, fun _ => rfl⟩
    rw [← hr]
    simp [completed, Reader.run]
  | cons t ts ih =>
    rw [List.flatMap_cons, completed]
    by_cases hn : t.bytes.length ≤ n
    · obtain ⟨p, hrun, hp⟩ := ih (r := ⟨none, t.apply r.attrs, r.text ++ t.chars⟩) rfl
        (n - t.bytes.length)
      have htake : (t.bytes ++ ts.flatMap Token.bytes).take n =
          t.bytes ++ (ts.flatMap Token.bytes).take (n - t.bytes.length) := by
        rw [List.take_append, List.take_of_length_le hn]
      rw [if_pos hn, htake, Reader.run_append, reader_token hr t, Option.bind_some, hrun]
      refine ⟨p, by simp, fun h => hp ?_⟩
      rw [List.flatMap_cons] at h
      exact List.append_cancel_left h
    · obtain ⟨p, hrun, hp⟩ := reader_inside hr t (Nat.lt_of_not_le hn)
      have htake : (t.bytes ++ ts.flatMap Token.bytes).take n = t.bytes.take n :=
        List.take_append_of_le_length (by omega)
      rw [if_neg hn, htake, hrun]
      refine ⟨p, by simp, fun h => hp ?_⟩
      have hlen := congrArg List.length h
      rw [List.flatMap_nil, List.length_nil, List.length_take] at hlen
      omega

/-! ## The console -/

/-- A stream of text and SGR sequences, written to a console in its ground state, after any
    number `n` of characters: no store has left the buffer, the characters taken as text are
    those outside of the sequences, everything else drawn is the space of a `'\b'`, the
    attributes are the effects of the sequences completed so far, and behind a whole sequence
    the parser is back in its ground state. -/
theorem sgr_stream_refines (font : Font) {c : Console} (hc : c.Ground) (toks : List Token)
    (ws : List Write) (hws : ws.map Write.ch = toks.flatMap Token.bytes) (n : Nat) :
    ∃ c' evs, feed font c (ws.take n) = some c' ∧ c'.trace = c.trace ++ evs ∧
      typed evs = (completed toks n).flatMap Token.chars ∧ (∀ e ∈ evs, e.NestedSpace) ∧
      c'.attrs = (completed toks n).foldl Token.apply c.attrs ∧
      ((completed toks n).flatMap Token.bytes = (ws.take n).map Write.ch → c'.Ground) := by
  have hchs : (ws.take n).map Write.ch = (toks.flatMap Token.bytes).take n := by
    rw [List.map_take, hws]
  obtain ⟨p, hrun, hp⟩ := reader_tokens (r := ⟨none, c.attrs, []⟩) rfl toks n
  rw [← hchs] at hrun hp
  obtain ⟨c', hfeed, h⟩ := feed_of_reader font (shows_of_ground hc) hrun
  obtain ⟨evs, ht, htyped, hnested⟩ := h.trace
  exact ⟨c', evs, hfeed, ht, htyped, hnested, h.attrs, fun hb => ground_of_shows h (hp hb)⟩

/-- ESC `[` 3 1 `m` `A`: the letter is text, in red. -/
theorem sgr_stream_refines_red :
    ∃ c', feed (Vector.replicate 256 (Vector.replicate 16 0)) bootConsole
        ([0x1b, 0x5b, 0x33, 0x31, 0x6d, 0x41].map fun ch => ⟨ch, 0, 0, 0, 0⟩) = some c' ∧
      typed c'.trace = [chr 'A'] ∧ c'.attrs = ⟨colorRed, 0, false⟩ ∧ c'.Ground := by
  obtain ⟨c', evs, hrun, ht, htext, -, hattrs, hground⟩ := sgr_stream_refines
    (Vector.replicate 256 (Vector.replicate 16 0)) (c := bootConsole) ⟨rfl, rfl, rfl⟩
    [.sgr [3, 1] (by decide), .text (chr 'A') (by decide)]
    ([0x1b, 0x5b, 0x33, 0x31, 0x6d, 0x41].map fun ch => ⟨ch, 0, 0, 0, 0⟩) (by decide) 6
  rw [show bootConsole.trace = [] from rfl, List.nil_append] at ht
  exact ⟨c', hrun, by rw [ht]; exact htext, hattrs, hground (by decide)⟩

end SeshOS.Video
