import RegAlloc.Register

/-!
# Operands

An operand is a width and what is accessed at that width: a constant, a register, or a memory cell given by an
address. `reads` and `writes` say which registers an operand touches as an input or an output of an instruction, and
for each whether the instruction could access the value in memory instead.
-/

namespace RegAlloc

/-- A memory address: a constant, plus a base register, plus an index register times a scale. -/
structure Address where
  displacement : Int
  base : Option Register
  index : Option Register
  scale : Nat
  deriving DecidableEq, Repr

namespace Address

/-- The address at a distance from a base register. -/
def offset (base : Register) (displacement : Int) : Address := ⟨displacement, some base, none, 1⟩

/-- The registers an address is computed from, base first. -/
def registers (a : Address) : List Register := a.base.toList ++ a.index.toList

/-- The address in assembly. A zero displacement is written only where there is no register. -/
def text (a : Address) : String :=
  if a.base.isNone && a.index.isNone then toString a.displacement
  else
    (if a.displacement = 0 then "" else toString a.displacement) ++ "(" ++ (a.base.map Register.text).getD "" ++
      (match a.index with
      | some i => "," ++ i.text ++ "," ++ toString a.scale
      | none => "") ++ ")"

end Address

/-- What an operand stands for, apart from its width. -/
inductive Content where
  | imm (value : Int)
  | reg (r : Register)
  | mem (a : Address)
  deriving DecidableEq, Repr

/-- A register touched by an instruction, and whether the instruction can take its value from memory instead. -/
structure Access where
  register : Register
  memoryOk : Bool
  deriving DecidableEq, Repr

/-- A constant, a register or a memory cell, accessed at a width. -/
structure Operand where
  width : Width
  content : Content
  deriving DecidableEq, Repr

namespace Operand

/-- A constant. -/
def imm (width : Width) (value : Int) : Operand := ⟨width, .imm value⟩

/-- A register. -/
def reg (width : Width) (r : Register) : Operand := ⟨width, .reg r⟩

/-- A physical register. -/
def phys (width : Width) (p : PhysReg) : Operand := ⟨width, .reg (.phys p)⟩

/-- A memory cell. -/
def mem (width : Width) (a : Address) : Operand := ⟨width, .mem a⟩

/-- The same place or constant at another width. -/
def withWidth (o : Operand) (width : Width) : Operand := { o with width := width }

/-- The register, of a register operand. -/
def register? (o : Operand) : Option Register :=
  match o.content with
  | .reg r => some r
  | _ => none

/-- The physical register, of a register operand that is physical. -/
def phys? (o : Operand) : Option PhysReg := o.register?.bind Register.phys?

/-- Whether the operand is a memory cell. -/
def isMemory (o : Operand) : Bool :=
  match o.content with
  | .mem _ => true
  | _ => false

/-- Whether the operand is a constant. -/
def isImmediate (o : Operand) : Bool :=
  match o.content with
  | .imm _ => true
  | _ => false

/-- Whether two operands stand for the same register, cell or constant, at whatever widths. -/
def sameLocation (a b : Operand) : Bool := a.content = b.content

/-- The registers read to access the operand. An output register is not read; the registers of an address always are,
and have to be registers. -/
def reads (o : Operand) (output memoryOk : Bool) : List Access :=
  match o.content with
  | .imm _ => []
  | .reg r => if output then [] else [⟨r, memoryOk⟩]
  | .mem a => a.registers.map (fun r => ⟨r, false⟩)

/-- The register written when the operand is an output. -/
def writes (o : Operand) (memoryOk : Bool) : Option Access :=
  match o.content with
  | .reg r => some ⟨r, memoryOk⟩
  | _ => none

/-- The operand in assembly. -/
def text (o : Operand) : String :=
  match o.content with
  | .imm value => "$" ++ toString value
  | .reg r => r.text
  | .mem a => a.text

end Operand

end RegAlloc
