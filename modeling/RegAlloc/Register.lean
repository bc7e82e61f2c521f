import RegAlloc.Sorted

/-!
# Registers

The sixteen general purpose registers of AMD64, the virtual registers that stand for values before a physical register
has been chosen, and `Register`, which is either. A virtual register is a number and the width it is accessed at; two
virtual registers are the same only when both agree. The order of registers is the order in which sets and tables of
them are kept: virtual before physical, virtual ones by number and then width, physical ones in the order of
`PhysReg.all`.
-/

namespace RegAlloc

/-- How many bytes of a register or memory cell an operand stands for. -/
inductive Width where
  | byte | word | long | quad
  deriving DecidableEq, Repr

namespace Width

/-- The number of bytes. -/
def bytes : Width → Nat
  | .byte => 1
  | .word => 2
  | .long => 4
  | .quad => 8

/-- The letter a mnemonic carries for the width. -/
def suffix : Width → String
  | .byte => "b"
  | .word => "w"
  | .long => "l"
  | .quad => "q"

/-- The place of the width in increasing order. -/
def rank : Width → Nat
  | .byte => 0
  | .word => 1
  | .long => 2
  | .quad => 3

/-- All widths, the narrowest first. -/
def all : List Width := [.byte, .word, .long, .quad]

end Width

/-- The general purpose registers. -/
inductive PhysReg where
  | a | b | c | d | sp | bp | si | di | r8 | r9 | r10 | r11 | r12 | r13 | r14 | r15
  deriving DecidableEq, Repr

namespace PhysReg

/-- All registers, in their order. -/
def all : List PhysReg := [.a, .b, .c, .d, .sp, .bp, .si, .di, .r8, .r9, .r10, .r11, .r12, .r13, .r14, .r15]

/-- The place of the register in `all`. -/
def index : PhysReg → Nat
  | .a => 0 | .b => 1 | .c => 2 | .d => 3 | .sp => 4 | .bp => 5 | .si => 6 | .di => 7
  | .r8 => 8 | .r9 => 9 | .r10 => 10 | .r11 => 11 | .r12 => 12 | .r13 => 13 | .r14 => 14 | .r15 => 15

/-- The name of the 64-bit register in assembly. -/
def name : PhysReg → String
  | .a => "rax" | .b => "rbx" | .c => "rcx" | .d => "rdx" | .sp => "rsp" | .bp => "rbp" | .si => "rsi" | .di => "rdi"
  | .r8 => "r8" | .r9 => "r9" | .r10 => "r10" | .r11 => "r11" | .r12 => "r12" | .r13 => "r13" | .r14 => "r14"
  | .r15 => "r15"

/-- The register as it is written in assembly. -/
def text (r : PhysReg) : String := "%" ++ r.name

/-- The stack pointer and the frame pointer hold no values of the program. -/
def isReserved (r : PhysReg) : Bool := r = .sp || r = .bp

/-- The registers that can hold values of the program, in the order in which they are preferred. -/
def general : List PhysReg := all.filter (fun r => !r.isReserved)

instance : LT PhysReg := ⟨fun r s => r.index < s.index⟩

instance : DecidableLT PhysReg := fun r s => inferInstanceAs (Decidable (r.index < s.index))

end PhysReg

/-- A value waiting for a physical register: its number and the width it is accessed at. -/
structure VirtReg where
  id : Nat
  width : Width
  deriving DecidableEq, Repr

namespace VirtReg

/-- The register as it is written in messages and in code that still holds it. -/
def text (v : VirtReg) : String := "%v" ++ toString v.id

/-- A number that orders virtual registers by their own number and then by width. -/
def code (v : VirtReg) : Nat := 4 * v.id + v.width.rank

instance : LT VirtReg := ⟨fun v w => v.code < w.code⟩

instance : DecidableLT VirtReg := fun v w => inferInstanceAs (Decidable (v.code < w.code))

/-- Fresh virtual registers of the given widths, numbered from `next` on. -/
def supply (next : Nat) : List Width → List VirtReg
  | [] => []
  | w :: ws => ⟨next, w⟩ :: supply (next + 1) ws

end VirtReg

/-- A register operand of an instruction: still virtual, or physical. -/
inductive Register where
  | virt (v : VirtReg)
  | phys (p : PhysReg)
  deriving DecidableEq, Repr

namespace Register

/-- The virtual register, if it is one. -/
def virt? : Register → Option VirtReg
  | .virt v => some v
  | .phys _ => none

/-- The physical register, if it is one. -/
def phys? : Register → Option PhysReg
  | .virt _ => none
  | .phys p => some p

/-- The register as it is written in code. -/
def text : Register → String
  | .virt v => v.text
  | .phys p => p.text

/-- Virtual registers come before physical ones; within a kind its own order holds. -/
def before : Register → Register → Bool
  | .virt v, .virt w => decide (v < w)
  | .virt _, .phys _ => true
  | .phys _, .virt _ => false
  | .phys p, .phys q => decide (p < q)

instance : LT Register := ⟨fun r s => r.before s = true⟩

instance : DecidableLT Register := fun r s => inferInstanceAs (Decidable (r.before s = true))

end Register

end RegAlloc
