import RegAlloc.Operand

/-!
# Instructions

The instructions that code consists of, before and after registers are chosen. Operands are in source, destination
order: an arithmetic instruction computes `right := right op left`, and a conditional jump after `cmp left, right` is
taken when `right` stands in the relation to `left`.

`uses` and `defs` are the registers an instruction reads and writes, in a fixed order; `hints` are the registers that
would like to share a physical register, because the instruction copies one of them into the other. Lifetimes depend
on an instruction through these three alone. What a call overwrites depends on the target and is not part of `defs`.
-/

namespace RegAlloc

/-- A signed comparison. -/
inductive Relation where
  | equal | notEqual | less | lessEqual | greater | greaterEqual
  deriving DecidableEq, Repr

namespace Relation

/-- All relations. -/
def all : List Relation := [.equal, .notEqual, .less, .lessEqual, .greater, .greaterEqual]

/-- The relation that holds exactly when this one does not. -/
def negated : Relation → Relation
  | .equal => .notEqual
  | .notEqual => .equal
  | .less => .greaterEqual
  | .lessEqual => .greater
  | .greater => .lessEqual
  | .greaterEqual => .less

/-- The condition code of mnemonics. -/
def code : Relation → String
  | .equal => "e"
  | .notEqual => "ne"
  | .less => "l"
  | .lessEqual => "le"
  | .greater => "g"
  | .greaterEqual => "ge"

end Relation

/-- Two-address arithmetic. -/
inductive ArithOp where
  | add | sub | and | imul
  deriving DecidableEq, Repr

/-- The mnemonic without its width. -/
def ArithOp.mnemonic : ArithOp → String
  | .add => "add"
  | .sub => "sub"
  | .and => "and"
  | .imul => "imul"

/-- Instructions that only set the flags. -/
inductive CompareOp where
  | cmp | test
  deriving DecidableEq, Repr

/-- The mnemonic without its width. -/
def CompareOp.mnemonic : CompareOp → String
  | .cmp => "cmp"
  | .test => "test"

/-- One instruction. `enter` and `leave` stand for setting up and taking down the frame, whose size is not known before
registers are chosen. -/
inductive Instruction where
  | arith (op : ArithOp) (left right : Operand)
  | compare (op : CompareOp) (left right : Operand)
  | mov (src dest : Operand)
  | neg (operand : Operand)
  | setcc (relation : Relation) (output : Operand)
  | cqto (width : Width)
  | idiv (divisor : Operand)
  | call (callee : String) (arguments : List Operand)
  | enter
  | leave
  | push (operand : Operand)
  | pop (operand : Operand)
  | xchg (left right : Operand)
  | jmp (target : String)
  | jcc (relation : Relation) (target : String)
  | label (name : String)
  | ret
  deriving DecidableEq, Repr

namespace Instruction

/-- A physical register that has to be where it is. -/
def pinned (p : PhysReg) : Access := ⟨.phys p, false⟩

/-- The registers an instruction reads. Of two operands that are compared or combined, the first may be in memory
unless the second is. -/
def uses : Instruction → List Access
  | .arith _ left right => left.reads false (!right.isMemory) ++ right.reads false false
  | .compare _ left right => left.reads false (!right.isMemory) ++ right.reads false false
  | .mov src dest => src.reads false (!dest.isMemory) ++ dest.reads true false
  | .neg operand => operand.reads false false
  | .setcc _ output => output.reads true false
  | .cqto _ => [pinned .a]
  | .idiv divisor => divisor.reads false true ++ [pinned .a, pinned .d]
  | .call _ arguments => arguments.flatMap (fun o => o.reads false false)
  | .push operand => operand.reads false true
  | .pop operand => operand.reads true false
  | .xchg left right => left.reads false false ++ right.reads false false
  | .enter | .leave | .jmp _ | .jcc _ _ | .label _ | .ret => []

/-- The registers an instruction writes. -/
def defs : Instruction → List Access
  | .arith _ _ right => (right.writes false).toList
  | .mov _ dest => (dest.writes false).toList
  | .neg operand => (operand.writes false).toList
  | .setcc _ output => (output.writes false).toList
  | .cqto _ => [pinned .d]
  | .idiv _ => [pinned .a, pinned .d]
  | .pop operand => (operand.writes false).toList
  | .xchg left right => (left.writes false).toList ++ (right.writes false).toList
  | .compare _ _ _ | .call _ _ | .enter | .leave | .push _ | .jmp _ | .jcc _ _ | .label _ | .ret => []

/-- The registers that would like to share a physical register. -/
def hints : Instruction → List Register
  | .arith _ left right => left.register?.toList ++ right.register?.toList
  | .mov src dest => src.register?.toList ++ dest.register?.toList
  | _ => []

/-- Whether the instruction is a call. -/
def isCall : Instruction → Bool
  | .call _ _ => true
  | _ => false

/-- A mnemonic with two operands, of the width of the second. -/
def binaryText (mnemonic : String) (left right : Operand) : String :=
  mnemonic ++ right.width.suffix ++ " " ++ left.text ++ ", " ++ right.text

/-- A mnemonic with one operand. -/
def unaryText (mnemonic : String) (operand : Operand) : String :=
  mnemonic ++ operand.width.suffix ++ " " ++ operand.text

/-- The instruction in assembly. -/
def text : Instruction → String
  | .arith op left right => binaryText op.mnemonic left right
  | .compare op left right => binaryText op.mnemonic left right
  | .mov src dest => binaryText "mov" src dest
  | .neg operand => unaryText "neg" operand
  | .setcc relation output => "set" ++ relation.code ++ " " ++ output.text
  | .cqto _ => "cqto"
  | .idiv divisor => unaryText "idiv" divisor
  | .call callee _ => "call " ++ callee
  | .enter => "enter"
  | .leave => "leave"
  | .push operand => unaryText "push" operand
  | .pop operand => unaryText "pop" operand
  | .xchg left right => binaryText "xchg" left right
  | .jmp target => "jmp " ++ target
  | .jcc relation target => "j" ++ relation.code ++ " " ++ target
  | .label name => name ++ ":"
  | .ret => "ret"

end Instruction

end RegAlloc
