/-!
# Positions

A position is a block and a slot in it. Slots alternate between reads and writes, so that what an instruction reads
and what it writes never share a position: in a block of `n` instructions slot `0` is where phis write, instruction
`i` reads at slot `2 i + 1` and writes at slot `2 i + 2`, and slot `2 n + 1` is the end of the block, where the phis
of its successors read. Positions are ordered by block and then by slot, which is the order of the linearization.

An instruction number or count that comes as a 64-bit word is taken for the number `wordIndex` of it: slots have 32
bits, so that only the lowest 32 bits of the word count.
-/

namespace RegAlloc

/-- The number of a block in the linearization of a function. -/
abbrev BlockId := Nat

/-- A block as it is written in messages. -/
def blockText (b : BlockId) : String := "B" ++ toString b

/-- A program point: a slot of a block. -/
structure Position where
  block : BlockId
  slot : Nat
  deriving DecidableEq, Repr

namespace Position

instance : LT Position := ⟨fun p q => p.block < q.block ∨ p.block = q.block ∧ p.slot < q.slot⟩

instance : LE Position := ⟨fun p q => p.block < q.block ∨ p.block = q.block ∧ p.slot ≤ q.slot⟩

instance : DecidableLT Position := fun p q =>
  inferInstanceAs (Decidable (p.block < q.block ∨ p.block = q.block ∧ p.slot < q.slot))

instance : DecidableLE Position := fun p q =>
  inferInstanceAs (Decidable (p.block < q.block ∨ p.block = q.block ∧ p.slot ≤ q.slot))

/-- The very first position, which stands in where a live range is empty. -/
def zero : Position := ⟨0, 0⟩

/-- The first position of a block, where its phis write. -/
def entry (b : BlockId) : Position := ⟨b, 0⟩

/-- The instruction number, or the number of instructions, that a 64-bit word stands for: its lowest 32 bits. -/
def wordIndex (n : UInt64) : Nat := n.toUInt32.toNat

/-- Where instruction `i` of a block reads. -/
def readAt (b : BlockId) (i : Nat) : Position := ⟨b, 2 * i + 1⟩

/-- Where instruction `i` of a block writes. -/
def writeAt (b : BlockId) (i : Nat) : Position := ⟨b, 2 * i + 2⟩

/-- The last position of a block of `n` instructions, where the phis of its successors read. -/
def exit (b : BlockId) (n : Nat) : Position := readAt b n

/-- Whether the position is one where values are written. -/
def isWrite (p : Position) : Bool := p.slot % 2 = 0

/-- Whether the position is one where values are read. -/
def isRead (p : Position) : Bool := !p.isWrite

/-- The next slot of the block. -/
def next (p : Position) : Position := ⟨p.block, p.slot + 1⟩

/-- The later of two positions. -/
def later (p q : Position) : Position := if p < q then q else p

/-- The position as it is written in messages. -/
def text (p : Position) : String := blockText p.block ++ ":" ++ toString p.slot

end Position

end RegAlloc
