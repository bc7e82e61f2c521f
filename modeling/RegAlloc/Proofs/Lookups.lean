import RegAlloc.Proofs.Totality

/-!
# What code in place asks of an allocation

Code is put in place by asking an allocation where virtual registers are. An operand asks for its registers at one
position (`Operand.lookups`), and what is asked for an instruction follows from what it reads and writes
(`Instruction.lookups`): the registers that it reads are looked up where it reads, those that it writes where it
writes (`exists_lookup_iff`). The registers of an address are read, also if the instruction writes to the address.

`Looks` says of a computation that it makes certain lookups and no others. It is kept by running one computation after
another, so that it holds of code from its holding of operands. `Allocation.lower` is the code of an instruction with
exactly the lookups that follow from its effects (`looks_lower`).
-/

namespace RegAlloc

/-- A question to an allocation: where a virtual register is at a position. In an address only a physical register
will do. -/
structure Lookup where
  register : VirtReg
  position : Position
  inAddress : Bool
  deriving DecidableEq, Repr

/-- The place of the register, as an operand of any width has it. -/
def Allocation.answer? (a : Allocation) (l : Lookup) : Option Content :=
  match a.registerAt? (.virt l.register) l.position with
  | some q => some (.reg (.phys q))
  | none => if l.inAddress then none else (a.slotOf? l.register .quad).map Operand.content

namespace Operand

/-- The virtual registers of an operand. -/
def virtuals (o : Operand) : List VirtReg := virtRegs (o.reads false false)

/-- The lookups that put an operand in its place at a position. -/
def lookups (p : Position) (o : Operand) : List Lookup := o.virtuals.map (fun v => ⟨v, p, o.isMemory⟩)

/-- Where the registers of an output are looked up: those of an address are read, a register itself is written. -/
def outputAt (read write : Position) (o : Operand) : Position := if o.isMemory then read else write

/-- To read an operand, its virtual registers are read. -/
theorem virtRegs_reads (o : Operand) (memoryOk : Bool) : virtRegs (o.reads false memoryOk) = o.virtuals := by
  obtain ⟨w, c⟩ := o
  cases c <;> rfl

/-- To write an operand in memory, the registers of its address are read. -/
theorem virtRegs_reads_output (o : Operand) (memoryOk : Bool) :
    virtRegs (o.reads true memoryOk) = if o.isMemory then o.virtuals else [] := by
  obtain ⟨w, c⟩ := o
  cases c <;> rfl

/-- An operand that is no memory is written in its register. -/
theorem virtRegs_writes (o : Operand) (memoryOk : Bool) :
    virtRegs (o.writes memoryOk).toList = if o.isMemory then [] else o.virtuals := by
  obtain ⟨w, c⟩ := o
  cases c <;> rfl

/-- The virtual registers of an operand in memory are those of its address. -/
theorem virtuals_mem (w : Width) (m : Address) : (mem w m).virtuals = m.registers.filterMap Register.virt? := by
  rw [virtuals, virtRegs, reads, mem, List.filterMap_map]
  rfl

end Operand

namespace Instruction

/-- The operands that an instruction takes a value from. -/
def inputs : Instruction → List Operand
  | .arith _ left right | .compare _ left right | .xchg left right => [left, right]
  | .mov src _ => [src]
  | .neg operand | .idiv operand | .push operand => [operand]
  | .call _ arguments => arguments
  | .setcc _ _ | .cqto _ | .enter | .leave | .pop _ | .jmp _ | .jcc _ _ | .label _ | .ret => []

/-- The operands that an instruction leaves a value in. -/
def outputs : Instruction → List Operand
  | .xchg left right => [left, right]
  | .arith _ _ output | .mov _ output | .neg output | .setcc _ output | .pop output => [output]
  | .compare _ _ _ | .cqto _ | .idiv _ | .call _ _ | .enter | .leave | .push _ | .jmp _ | .jcc _ _ | .label _ | .ret =>
    []

/-- The lookups for the registers that an instruction reads and writes. -/
def lookups (read write : Position) (i : Instruction) : List Lookup :=
  i.inputs.flatMap (Operand.lookups read) ++ i.outputs.flatMap (fun o => o.lookups (o.outputAt read write))

/-- The virtual registers of an instruction. -/
def virtuals (i : Instruction) : List VirtReg := i.operands.flatMap Operand.virtuals

theorem virtRegs_pinned (q : PhysReg) (l : List Access) : virtRegs (pinned q :: l) = virtRegs l := rfl

/-- An instruction reads the registers of its inputs, and of the addresses of its outputs. -/
theorem mem_virtRegs_uses {i : Instruction} {v : VirtReg} :
    v ∈ virtRegs i.uses ↔ (∃ o ∈ i.inputs, v ∈ o.virtuals) ∨ ∃ o ∈ i.outputs, o.isMemory ∧ v ∈ o.virtuals := by
  have hnil : virtRegs [] = [] := rfl
  have hcall : ∀ os : List Operand,
      v ∈ virtRegs (os.flatMap (fun o => o.reads false false)) ↔ ∃ o ∈ os, v ∈ o.virtuals := by
    intro os
    simp only [virtRegs, List.filterMap_flatMap, List.mem_flatMap]
    rfl
  cases i <;> simp [uses, inputs, outputs, Function.mem_virtRegs_append, Operand.virtRegs_reads,
    Operand.virtRegs_reads_output, virtRegs_pinned, hnil, hcall]
  -- Outputs that are inputs as well add nothing.
  case arith => exact fun _ => .inr
  case xchg =>
    rintro (⟨-, h⟩ | ⟨-, h⟩)
    · exact .inl h
    · exact .inr h

/-- It writes the registers that are its outputs. -/
theorem mem_virtRegs_defs {i : Instruction} {v : VirtReg} :
    v ∈ virtRegs i.defs ↔ ∃ o ∈ i.outputs, ¬o.isMemory ∧ v ∈ o.virtuals := by
  have hnil : virtRegs [] = [] := rfl
  cases i <;> simp [defs, outputs, Function.mem_virtRegs_append, Operand.virtRegs_writes, virtRegs_pinned, hnil]

/-- An instruction looks up its inputs where it reads, and its outputs where they are found. -/
theorem mem_lookups {i : Instruction} {read write : Position} {l : Lookup} :
    l ∈ i.lookups read write ↔ (∃ o ∈ i.inputs, l ∈ o.lookups read) ∨
      ∃ o ∈ i.outputs, l ∈ o.lookups (o.outputAt read write) := by
  rw [lookups, List.mem_append, List.mem_flatMap, List.mem_flatMap]

/-- The registers that are looked up are those that the instruction reads, where it reads, and those that it writes,
where it writes. -/
theorem exists_lookup_iff {i : Instruction} {read write p : Position} {v : VirtReg} :
    (∃ l ∈ i.lookups read write, l.register = v ∧ l.position = p) ↔
      v ∈ virtRegs i.uses ∧ p = read ∨ v ∈ virtRegs i.defs ∧ p = write := by
  rw [mem_virtRegs_uses, mem_virtRegs_defs]
  constructor
  · rintro ⟨l, hl, rfl, rfl⟩
    rcases mem_lookups.1 hl with ⟨o, ho, hl⟩ | ⟨o, ho, hl⟩
    · obtain ⟨v, hv, rfl⟩ := List.mem_map.1 hl
      exact .inl ⟨.inl ⟨o, ho, hv⟩, rfl⟩
    · obtain ⟨v, hv, rfl⟩ := List.mem_map.1 hl
      by_cases hm : o.isMemory
      · exact .inl ⟨.inr ⟨o, ho, hm, hv⟩, if_pos hm⟩
      · exact .inr ⟨⟨o, ho, hm, hv⟩, if_neg hm⟩
  · rintro (⟨⟨o, ho, hv⟩ | ⟨o, ho, hm, hv⟩, rfl⟩ | ⟨⟨o, ho, hm, hv⟩, rfl⟩)
    · exact ⟨_, mem_lookups.2 (.inl ⟨o, ho, List.mem_map_of_mem hv⟩), rfl, rfl⟩
    · exact ⟨_, mem_lookups.2 (.inr ⟨o, ho, List.mem_map_of_mem hv⟩), rfl, if_pos hm⟩
    · exact ⟨_, mem_lookups.2 (.inr ⟨o, ho, List.mem_map_of_mem hv⟩), rfl, if_neg hm⟩

end Instruction

/-! ## Computations that make lookups -/

/-- A computation on an allocation makes the given lookups and no others: it succeeds if they are all answered and
only then, it depends on nothing but the answers and the shape of the frame, and it misses an address register only if
the lookup of one is not answered. -/
structure Looks (ls : List Lookup) {α : Type} (X : Allocation → Except Error α) : Prop where
  answered : ∀ a x, X a = .ok x → ∀ l ∈ ls, (a.answer? l).isSome
  succeeds : ∀ a, a.target.slotSize ≠ 0 → (∀ l ∈ ls, (a.answer? l).isSome) → ∃ x, X a = .ok x
  depends : ∀ a a', a.target = a'.target → a.slotCount = a'.slotCount →
    (∀ l ∈ ls, a.answer? l = a'.answer? l) → X a = X a'
  address : ∀ a, (∀ l ∈ ls, l.inAddress → (a.answer? l).isSome) → ∀ v p, X a ≠ .error (.spilledAddressRegister v p)

namespace Looks

variable {α β : Type} {ls ls' : List Lookup} {X : Allocation → Except Error α} {F : α → Allocation → Except Error β}

/-- A computation that returns at once makes no lookups. -/
theorem pure (x : α) : Looks [] (fun _ => .ok x) where
  answered _ _ _ := List.forall_mem_nil _
  succeeds _ _ _ := ⟨x, rfl⟩
  depends _ _ _ _ _ := rfl
  address _ _ _ _ h := by cases h

/-- A single lookup, whose answer is used in some way. -/
theorem ask {l : Lookup} (g : Content → α) {e : Error} (he : ∀ v p, e = .spilledAddressRegister v p → l.inAddress)
    (hsome : ∀ a c, a.answer? l = some c → X a = .ok (g c)) (hnone : ∀ a, a.answer? l = none → X a = .error e) :
    Looks [l] X where
  answered a x hx := by
    rw [List.forall_mem_singleton]
    cases h : a.answer? l with
    | some c => rfl
    | none =>
      rw [hnone a h] at hx
      cases hx
  succeeds a _ h := by
    obtain ⟨c, hc⟩ := Option.isSome_iff_exists.1 (h l List.mem_cons_self)
    exact ⟨g c, hsome a c hc⟩
  depends a a' _ _ h := by
    have hl := h l List.mem_cons_self
    cases h : a.answer? l with
    | some c => rw [hsome a c h, hsome a' c (hl ▸ h)]
    | none => rw [hnone a h, hnone a' (hl ▸ h)]
  address a h v p hX := by
    cases hl : a.answer? l with
    | some c =>
      rw [hsome a c hl] at hX
      cases hX
    | none =>
      rw [hnone a hl] at hX
      have hanswer := h l List.mem_cons_self (he v p (Except.error.inj hX))
      rw [hl] at hanswer
      cases hanswer

/-- Two computations make the lookups of both. -/
theorem bind (hX : Looks ls X) (hF : ∀ x, Looks ls' (F x)) : Looks (ls ++ ls') (fun a => X a >>= fun x => F x a) where
  answered a y hy := by
    obtain ⟨x, hx, hy⟩ := bind_eq_ok hy
    exact List.forall_mem_append.2 ⟨hX.answered a x hx, (hF x).answered a y hy⟩
  succeeds a ha h := by
    obtain ⟨hl, hl'⟩ := List.forall_mem_append.1 h
    exact exists_bind (hX.succeeds a ha hl) fun x _ => (hF x).succeeds a ha hl'
  depends a a' ht hc h := by
    obtain ⟨hl, hl'⟩ := List.forall_mem_append.1 h
    simp only [hX.depends a a' ht hc hl, fun x => (hF x).depends a a' ht hc hl']
  address a h v p hy := by
    obtain ⟨hl, hl'⟩ := List.forall_mem_append.1 h
    cases hx : X a with
    | error e =>
      rw [hx] at hy
      exact hX.address a hl v p (hx.trans (congrArg _ (Except.error.inj hy)))
    | ok x => exact (hF x).address a hl' v p ((bind_of_eq_ok hx).symm.trans hy)

/-- Which lookups are made does not depend on their order or number. -/
theorem congr (hX : Looks ls X) (h : ∀ l, l ∈ ls ↔ l ∈ ls') : Looks ls' X where
  answered a x hx l hl := hX.answered a x hx l ((h l).2 hl)
  succeeds a ha hl := hX.succeeds a ha fun l hm => hl l ((h l).1 hm)
  depends a a' ht hc hl := hX.depends a a' ht hc fun l hm => hl l ((h l).1 hm)
  address a hl := hX.address a fun l hm => hl l ((h l).1 hm)

/-- Computations for each element of a list make the lookups of all. -/
theorem mapM {γ : Type} {g : γ → List Lookup} {G : Allocation → γ → Except Error α}
    (hG : ∀ x, Looks (g x) (fun a => G a x)) (xs : List γ) : Looks (xs.flatMap g) (fun a => xs.mapM (G a)) := by
  induction xs with
  | nil => exact pure []
  | cons x xs ih =>
    simp only [List.mapM_cons, List.flatMap_cons]
    refine (hG x).bind fun y => ?_
    exact (ih.bind fun ys => pure (y :: ys)).congr fun l => by rw [List.append_nil]

end Looks

namespace Allocation

/-- A register of an address is looked up if it is virtual. -/
theorem looks_addressRegister (p : Position) (r : Register) :
    Looks (r.virt?.toList.map (fun v => ⟨v, p, true⟩)) (fun a => a.addressRegister p r) := by
  cases r with
  | phys q => exact .pure _
  | virt v =>
    refine .ask (fun c => ((Operand.mk .quad c).register?).getD (.virt v))
      (e := .spilledAddressRegister v p) (fun _ _ _ => rfl) ?_ ?_
    · intro a c h
      rw [answer?] at h
      rw [addressRegister]
      split at h
      · rename_i q hq
        rw [hq, ← Option.some.inj h]
        rfl
      · cases h
    · intro a h
      rw [answer?] at h
      rw [addressRegister]
      split at h
      · cases h
      · rename_i hq
        rw [hq]

theorem looks_addressPart (p : Position) (part : Option Register) :
    Looks ((part.toList.filterMap Register.virt?).map (fun v => ⟨v, p, true⟩)) (fun a => a.addressPart p part) := by
  cases part with
  | none => exact .pure _
  | some r =>
    refine ((looks_addressRegister p r).bind fun r' => .pure (some r')).congr fun l => ?_
    cases r <;> simp [Register.virt?]

/-- The place of a register operand is the answer to its lookup. -/
theorem looks_storage (w : Width) (p : Position) (v : VirtReg) :
    Looks [⟨v, p, false⟩] (fun a => a.storage w (.virt v) p) := by
  refine .ask (e := .missingLocation v p) (Operand.mk w) (fun _ _ h => by cases h) ?_ ?_
  · intro a c h
    rw [answer?] at h
    rw [storage]
    split at h
    · rename_i q hq
      rw [hq, ← Option.some.inj h]
      rfl
    · rename_i hq
      rw [hq]
      obtain ⟨cell, hcell, rfl⟩ := Option.map_eq_some_iff.1 h
      obtain ⟨slot, hslot, rfl⟩ := Option.map_eq_some_iff.1 hcell
      rw [slotOf?, hslot]
      rfl
  · intro a h
    rw [answer?] at h
    rw [storage]
    split at h
    · cases h
    · rename_i hq
      have hslot : a.slot? v = none := by simpa [slotOf?] using h
      rw [hq, slotOf?, hslot]
      rfl

/-- Putting an operand in place makes the lookups of its registers. -/
theorem looks_place (p : Position) (o : Operand) : Looks (o.lookups p) (fun a => a.place p o) := by
  obtain ⟨w, c⟩ := o
  cases c with
  | imm n => exact .pure _
  | reg r =>
    cases r with
    | phys q => exact .pure _
    | virt v => exact looks_storage w p v
  | mem m =>
    refine ((looks_addressPart p m.base).bind fun base => (looks_addressPart p m.index).bind fun index =>
      .pure (Operand.mem w { m with base := base, index := index })).congr fun l => ?_
    change _ ↔ l ∈ (Operand.mem w m).lookups p
    rw [Operand.lookups, Operand.virtuals_mem, Address.registers, List.filterMap_append, List.map_append,
      List.append_nil]
    rfl

/-! ## Code by its effects -/

/-- An instruction in place by its effects: its inputs are where they are at `read`, and what it writes is where it is
at `write`. An exchange is followed by moves of both values, which happen at once. -/
def lower (a : Allocation) (read write : Position) : Instruction → Except Error (List Instruction)
  | .arith op left right => do
    let left ← a.place read left
    let input ← a.place read right
    let output ← a.place (right.outputAt read write) right
    return .arith op left input :: fixup input output
  | .neg operand => do
    let input ← a.place read operand
    let output ← a.place (operand.outputAt read write) operand
    return .neg input :: fixup input output
  | .mov src dest => do
    let src ← a.place read src
    let dest ← a.place (dest.outputAt read write) dest
    return moveCode src dest
  | .compare op left right => do
    let left ← a.place read left
    let right ← a.place read right
    return [.compare op left right]
  | .setcc relation output => do return [.setcc relation (← a.place (output.outputAt read write) output)]
  | .idiv divisor => do return [.idiv (← a.place read divisor)]
  | .push operand => do return [.push (← a.place read operand)]
  | .pop operand => do return [.pop (← a.place (operand.outputAt read write) operand)]
  | .xchg left right => do
    let first ← a.place read left
    let second ← a.place read right
    let first' ← a.place (left.outputAt read write) left
    let second' ← a.place (right.outputAt read write) right
    return .xchg first second :: Sequencer.run 2 (.initial [⟨first, first'⟩, ⟨second, second'⟩])
  | .call callee arguments => do return [.call callee (← arguments.mapM (a.place read))]
  | .enter => a.enterCode
  | .leave => .ok a.leaveCode
  | .cqto width => .ok [.cqto width]
  | .jmp target => .ok [.jmp target]
  | .jcc relation target => .ok [.jcc relation target]
  | .label name => .ok [.label name]
  | .ret => .ok [.ret]

/-- To set up a frame nothing is looked up. -/
theorem looks_enterCode : Looks [] enterCode where
  answered _ _ _ := List.forall_mem_nil _
  succeeds a ha _ := exists_bind (exists_frameSize ha) fun _ _ => ⟨_, rfl⟩
  depends a a' ht hc _ := by simp only [enterCode, frameSize, ht, hc]
  address a _ v p h := by
    cases hsize : a.frameSize with
    | ok size =>
      rw [enterCode, bind_of_eq_ok hsize] at h
      cases h
    | error e =>
      rw [enterCode, hsize] at h
      rw [frameSize] at hsize
      split_ifs at hsize
      obtain rfl := Except.error.inj hsize
      cases h

/-- To take it down nothing is looked up. -/
theorem looks_leaveCode : Looks [] (fun a => .ok a.leaveCode) where
  answered _ _ _ := List.forall_mem_nil _
  succeeds _ _ _ := ⟨_, rfl⟩
  depends a a' ht _ _ := by simp only [leaveCode, ht]
  address _ _ _ _ h := by cases h

/-- The lookups of code by its effects are those of the registers that the instruction reads and writes. -/
theorem looks_lower (read write : Position) (i : Instruction) :
    Looks (i.lookups read write) (fun a => a.lower read write i) := by
  have hin := looks_place read
  have hout : ∀ o : Operand, Looks (o.lookups (o.outputAt read write)) (fun a => a.place (o.outputAt read write) o) :=
    fun o => looks_place _ o
  cases i with
  | arith op left right =>
    refine .congr ((hin left).bind fun left => (hin right).bind fun input =>
      (hout right).bind fun output => .pure _) fun l => ?_
    simp [Instruction.lookups, Instruction.inputs, Instruction.outputs]
  | neg operand =>
    refine .congr ((hin operand).bind fun input => (hout operand).bind fun output => .pure _) fun l => ?_
    simp [Instruction.lookups, Instruction.inputs, Instruction.outputs]
  | mov src dest =>
    refine .congr ((hin src).bind fun src => (hout dest).bind fun dest => .pure _) fun l => ?_
    simp [Instruction.lookups, Instruction.inputs, Instruction.outputs]
  | compare op left right =>
    refine .congr ((hin left).bind fun left => (hin right).bind fun right => .pure _) fun l => ?_
    simp [Instruction.lookups, Instruction.inputs, Instruction.outputs]
  | setcc relation output | pop output =>
    refine .congr ((hout output).bind fun output => .pure _) fun l => ?_
    simp [Instruction.lookups, Instruction.inputs, Instruction.outputs]
  | idiv operand | push operand =>
    refine .congr ((hin operand).bind fun operand => .pure _) fun l => ?_
    simp [Instruction.lookups, Instruction.inputs, Instruction.outputs]
  | xchg left right =>
    refine .congr ((hin left).bind fun first => (hin right).bind fun second =>
      (hout left).bind fun first' => (hout right).bind fun second' => .pure _) fun l => ?_
    simp [Instruction.lookups, Instruction.inputs, Instruction.outputs]
  | call callee arguments =>
    refine .congr ((Looks.mapM hin arguments).bind fun arguments => .pure _) fun l => ?_
    simp [Instruction.lookups, Instruction.inputs, Instruction.outputs]
  | enter => exact looks_enterCode
  | leave => exact looks_leaveCode
  | cqto | jmp | jcc | label | ret => exact .pure _

end Allocation

end RegAlloc
