/-
  The client's books: every block the allocator has handed out, whether it is still live, and
  the bytes its client expects to find in it.

  This is what a heap is for, with no header, no free flag and no memory in it. `Session` runs
  the allocator of `Malloc` next to the books: each call of the client is one `step`, and
  `Permits` are the rules a client keeps (free and resize live blocks only, write inside
  them). A fresh byte is entered with whatever the block held when it was handed out.
-/
import SeshOS.Base.Layout
import SeshOS.Memory.Malloc

namespace SeshOS.Memory

open Base

/-- A block as its client knows it: the pointer, the size asked for, and the bytes. -/
structure Block where
  payload : Nat
  n : Nat
  live : Bool
  content : Nat → Byte

/-- Where the block's control block is. -/
def Block.header (b : Block) : Nat := headerOf b.payload

/-- The bytes the block occupies, control block included. -/
def Block.size (b : Block) : Nat := b.n + mcbBytes

/-- The ranges `[header, header + 16 + n)` of two blocks have no address in common. -/
def Block.Apart (b c : Block) : Prop :=
  b.header + b.size ≤ c.header ∨ c.header + c.size ≤ b.header

abbrev Ledger := List Block

namespace Ledger

/-- A new live block. -/
def issue (l : Ledger) (p n : Nat) (bytes : Nat → Byte) : Ledger := l ++ [⟨p, n, true, bytes⟩]

/-- The block at `p` is given back. -/
def retire (l : Ledger) (p : Nat) : Ledger :=
  l.map fun b => if b.payload = p then { b with live := false } else b

/-- The client of the live block at `p` writes `v` at offset `off`. -/
def put (l : Ledger) (p off : Nat) (v : Byte) : Ledger :=
  l.map fun b =>
    if b.live ∧ b.payload = p then { b with content := Function.update b.content off v } else b

/-- The live block at `p`. -/
def at? (l : Ledger) (p : Nat) : Option Block := l.find? fun b => b.live && b.payload == p

/-- The bytes of a block of `n` bytes that takes over from the live block at `p`: the first
    `min` of the two sizes are the old block's. -/
def carried (l : Ledger) (p n : Nat) (fresh : Nat → Byte) : Nat → Byte :=
  match l.at? p with
  | some b => fun i => if i < min b.n n then b.content i else fresh i
  | none => fresh

theorem at?_some {l : Ledger} {p : Nat} {b : Block} (h : l.at? p = some b) :
    b ∈ l ∧ b.live = true ∧ b.payload = p := by
  have hp := List.find?_some h
  simp only [Bool.and_eq_true, beq_iff_eq] at hp
  exact ⟨List.mem_of_find?_eq_some h, hp.1, hp.2⟩

theorem at?_of_mem {l : Ledger} {b : Block} (hb : b ∈ l) (hl : b.live = true) :
    ∃ c, l.at? b.payload = some c := by
  rw [← Option.isSome_iff_exists, at?, List.find?_isSome]
  exact ⟨b, hb, by simp [hl]⟩

theorem extent_issue (l : Ledger) (p n : Nat) (bytes : Nat → Byte) :
    extent Block.size (l.issue p n bytes) = extent Block.size l + (n + mcbBytes) := by
  simp [issue, Block.size]

theorem extent_retire (l : Ledger) (p : Nat) :
    extent Block.size (l.retire p) = extent Block.size l := by
  refine extent_map _ (fun b => ?_) l
  split <;> rfl

theorem extent_put (l : Ledger) (p off : Nat) (v : Byte) :
    extent Block.size (l.put p off v) = extent Block.size l := by
  refine extent_map _ (fun b => ?_) l
  split <;> rfl

theorem retire_issue {l : Ledger} {p q n : Nat} {bytes : Nat → Byte} (h : q ≠ p) :
    (l.issue q n bytes).retire p = (l.retire p).issue q n bytes := by
  simp [issue, retire, h]

end Ledger

/-- A call of the client: the three functions of `malloc.h`, or a byte written through a
    pointer it holds. -/
inductive Call where
  | malloc (n : Nat)
  | free (p : Nat)
  | realloc (p n : Nat)
  | write (p off : Nat) (v : Byte)

/-- The bytes a call makes the allocator hand out, control block included. -/
def Call.bytes : Call → Nat
  | .malloc n => n + mcbBytes
  | .realloc p n => if p ≠ 0 ∧ n = 0 then 0 else n + mcbBytes
  | .free _ => 0
  | .write _ _ _ => 0

/-- The sum of `n + 16` over the requests of a run. -/
def requested (calls : List Call) : Nat := (calls.map Call.bytes).sum

/-- The heap and the client's books. -/
structure Session where
  heap : Heap
  ledger : Ledger

namespace Session

/-- A session before the first call: the boot globals, `MEM_Init(base)`, empty books. -/
def start (mem : Mem) (base : Nat) : Session := ⟨memInit (bootHeap mem) base, []⟩

/-- The rules of the client: a pointer passed back is NULL or live, and writes stay inside a
    live block. -/
def Permits (t : Session) : Call → Prop
  | .malloc _ => True
  | .free p => p = 0 ∨ ∃ b ∈ t.ledger, b.live = true ∧ b.payload = p
  | .realloc p _ => p = 0 ∨ ∃ b ∈ t.ledger, b.live = true ∧ b.payload = p
  | .write p off _ => ∃ b ∈ t.ledger, b.live = true ∧ b.payload = p ∧ off < b.n

/-- One call: the allocator runs, the books follow. -/
def step (fuel : Nat) (t : Session) : Call → Option Session
  | .malloc n =>
    match Memory.malloc fuel t.heap n with
    | none => none
    | some (h, q) => some ⟨h, t.ledger.issue q n fun i => h.mem (q + i)⟩
  | .free p => some ⟨Memory.free t.heap p, t.ledger.retire p⟩
  | .realloc p n =>
    match Memory.realloc fuel t.heap p n with
    | none => none
    | some (h, q) =>
      if p = 0 then some ⟨h, t.ledger.issue q n fun i => h.mem (q + i)⟩
      else if n = 0 then some ⟨h, t.ledger.retire p⟩
      else
        let bytes := t.ledger.carried p n fun i => h.mem (q + i)
        some ⟨h, (t.ledger.retire p).issue q n bytes⟩
  | .write p off v =>
    some ⟨{ t.heap with mem := t.heap.mem.set (p + off) v }, t.ledger.put p off v⟩

end Session

end SeshOS.Memory
