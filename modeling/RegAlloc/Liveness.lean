import RegAlloc.Function

/-!
# Which registers are live between blocks

A register is live where its value may still be read. Live sets are computed in one pass over the blocks from the last
to the first: a block's set at its end is what its successors need at their start, with the inputs that their phis
take from it, and its set at the start follows by walking its instructions backwards. A successor that does not come
later in the layout has not been seen yet and counts as needing nothing, so what is live around a loop is not found
here; the lifetimes make up for it by extending everything live at the header of a loop over the whole loop.

One number may occur with several widths. All its occurrences are taken for the register of the first one in the order
of `Function.mentions`, its `canonical` register.
-/

namespace RegAlloc

/-- The virtual registers of a list of accesses, in order. -/
def virtRegs (accesses : List Access) : List VirtReg := accesses.filterMap (fun a => a.register.virt?)

/-- The virtual registers of a phi: those of the output and the inputs, then those read to access the inputs. -/
def Phi.mentions (φ : Phi) : List VirtReg :=
  φ.hints.filterMap Register.virt? ++ φ.inputs.flatMap (fun e => virtRegs (e.2.reads false true))

/-- The virtual registers of a block, those of its phis first. -/
def Block.mentions (blk : Block) : List VirtReg :=
  blk.phis.flatMap Phi.mentions ++ blk.code.flatMap (fun i => virtRegs (i.uses ++ i.defs))

/-- The virtual registers of a function, in the order in which they are met. -/
def Function.mentions (f : Function) : List VirtReg := f.blocks.flatMap Block.mentions

/-- The register that stands for all occurrences of a number: the first of the given ones that has it. -/
def canonical (names : List VirtReg) (v : VirtReg) : VirtReg := (names.find? (fun w => w.id = v.id)).getD v

/-- A register with a virtual one replaced by its canonical register. -/
def canonicalRegister (names : List VirtReg) : Register → Register
  | .virt v => .virt (canonical names v)
  | .phys p => .phys p

namespace Liveness

/-- A set of canonical registers. -/
abbrev Live := List VirtReg

/-- Add registers to a live set. -/
def add (names : List VirtReg) (vs : List VirtReg) (live : Live) : Live :=
  vs.foldl (fun l v => l.insert (canonical names v)) live

/-- Take registers out of a live set. -/
def remove (names : List VirtReg) (vs : List VirtReg) (live : Live) : Live :=
  vs.foldl (fun l v => l.filter (fun w => w ≠ canonical names v)) live

/-- The registers live before an instruction, from those live after it. -/
def through (names : List VirtReg) (i : Instruction) (live : Live) : Live :=
  add names (virtRegs i.uses) (remove names (virtRegs i.defs) live)

/-- The registers that the phis of a block read from one of its predecessors. -/
def phiReads (blk : Block) (pred : BlockId) : List VirtReg :=
  blk.phis.flatMap (fun φ => virtRegs (((φ.input? pred).map (fun o => o.reads false true)).getD []))

/-- The live set at the start of block `s`, as block `b` sees it: `later` holds the sets of the blocks after `b`. -/
def seenFrom (b : BlockId) (later : List Live) (s : BlockId) : Live :=
  if b < s then (later[s - (b + 1)]?).getD [] else []

/-- The registers live at the end of block `b`, where `later` holds the live sets at the start of the blocks after
it. -/
def atExit (f : Function) (names : List VirtReg) (b : BlockId) (later : List Live) : Live :=
  (f.successors b).foldl
    (fun live s =>
      add names (((f.block? s).map (fun blk => phiReads blk b)).getD []) (add names (seenFrom b later s) live)) []

/-- The registers live before the instructions of a block, from those live at its end. -/
def throughCode (names : List VirtReg) (blk : Block) (live : Live) : Live := blk.code.foldr (through names) live

/-- The registers live at the start of a block, before its phis write. -/
def atEntry (f : Function) (names : List VirtReg) (b : BlockId) (blk : Block) (later : List Live) : Live :=
  remove names (blk.phis.filterMap Phi.virt?) (throughCode names blk (atExit f names b later))

/-- The live sets at the start of all blocks, in order. -/
def entries (f : Function) (names : List VirtReg) : List Live :=
  f.blocks.zipIdx.foldr (fun e later => atEntry f names e.2 e.1 later :: later) []

end Liveness

end RegAlloc
