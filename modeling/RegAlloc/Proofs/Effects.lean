import RegAlloc.Proofs.Lookups

/-!
# Instructions that are put in place by their effects

Lifetimes are found from what an instruction reads and writes, and its code is put in place operand by operand.
`Allocation.Faithful` says that the two belong together: the code of an instruction is made with the lookups that
follow from its effects.

It does not hold of three kinds of instructions. An operand that is written is looked up where the instruction writes,
the registers of its address included, though these are read and may be gone by then. The arguments of a call are not
looked up at all, and the operands of an exchange only where it reads. All other instructions (`Instruction.Steady`)
are put in place by their effects in every allocation (`placeInstruction_eq_lower`), and the others are told apart
from them by the allocation that keeps registers only where an instruction reads (`steady_of_faithful`). A store
through a virtual register is put in place by its effects in those allocations that keep the register where it is
(`faithful_of_kept`).
-/

namespace RegAlloc

/-! ## No virtual register is left -/

namespace Operand

/-- An operand in memory is made of a width and an address. -/
theorem exists_mem_of_isMemory {o : Operand} (h : o.isMemory) : ∃ w m, o = .mem w m := by
  obtain ⟨w, c⟩ := o
  cases c with
  | mem m => exact ⟨w, m, rfl⟩
  | imm n => cases h
  | reg r => cases h

end Operand

namespace Allocation

variable {a : Allocation} {p read write : Position} {o o' : Operand} {i : Instruction} {code : List Instruction}

/-- A register of an address that is placed is physical. -/
theorem virt?_addressRegister {r r' : Register} (h : a.addressRegister p r = .ok r') : r'.virt? = none := by
  cases r with
  | phys q =>
    obtain rfl := Except.ok.inj h
    rfl
  | virt v =>
    rw [addressRegister] at h
    split at h
    · rw [← Except.ok.inj h]
      rfl
    · cases h

theorem virt?_addressPart {part part' : Option Register} (h : a.addressPart p part = .ok part') :
    part'.toList.filterMap Register.virt? = [] := by
  cases part with
  | none =>
    obtain rfl := Except.ok.inj h
    rfl
  | some r =>
    obtain ⟨r', hr, h⟩ := bind_eq_ok h
    obtain rfl := Except.ok.inj h
    exact List.filterMap_eq_nil_iff.2 (List.forall_mem_singleton.2 (virt?_addressRegister hr))

/-- No virtual register is left in an operand that is placed. -/
theorem virtuals_place (h : a.place p o = .ok o') : o'.virtuals = [] := by
  obtain ⟨w, c⟩ := o
  cases c with
  | imm n =>
    obtain rfl := Except.ok.inj h
    rfl
  | reg r =>
    cases r with
    | phys q =>
      obtain rfl := Except.ok.inj h
      rfl
    | virt v =>
      change a.storage w (.virt v) p = .ok o' at h
      rw [storage] at h
      split at h
      · rw [← Except.ok.inj h]
        rfl
      · split at h
        · rename_i cell hcell
          obtain ⟨slot, -, rfl⟩ := Option.map_eq_some_iff.1 hcell
          rw [← Except.ok.inj h]
          rfl
        · cases h
  | mem m =>
    obtain ⟨base, hbase, h⟩ := bind_eq_ok h
    obtain ⟨index, hindex, h⟩ := bind_eq_ok h
    obtain rfl := Except.ok.inj h
    rw [Operand.virtuals_mem, Address.registers, List.filterMap_append, virt?_addressPart hbase,
      virt?_addressPart hindex]
    rfl

/-- An operand without virtual registers already is in its place. -/
theorem place_of_virtuals (h : o.virtuals = []) : a.place p o = .ok o := by
  obtain ⟨w, c⟩ := o
  cases c with
  | imm n => rfl
  | reg r =>
    cases r with
    | phys q => rfl
    | virt v => cases h
  | mem m =>
    obtain ⟨d, base, index, scale⟩ := m
    have hpart : ∀ part : Option Register, part.toList.filterMap Register.virt? = [] →
        a.addressPart p part = .ok part := by
      intro part hpart
      cases part with
      | none => rfl
      | some r =>
        cases r with
        | phys q => rfl
        | virt v => cases hpart
    rw [← Operand.mem, Operand.virtuals_mem, Address.registers, List.filterMap_append, List.append_eq_nil_iff] at h
    change (a.addressPart p base >>= fun base' => a.addressPart p index >>= fun index' =>
      .ok (Operand.mem w ⟨d, base', index', scale⟩)) = _
    rw [bind_of_eq_ok (hpart base h.1), bind_of_eq_ok (hpart index h.2)]
    rfl

end Allocation

namespace Instruction

/-- An instruction has virtual registers in its operands only. -/
theorem virtuals_eq_nil {i : Instruction} : i.virtuals = [] ↔ ∀ o ∈ i.operands, o.virtuals = [] :=
  List.flatMap_eq_nil_iff

/-- What an instruction reads is among its operands. -/
theorem mem_operands_of_mem_inputs {i : Instruction} {o : Operand} (h : o ∈ i.inputs) : o ∈ i.operands := by
  cases i <;> simp_all [inputs, operands]

/-- What an instruction writes is among its operands. -/
theorem mem_operands_of_mem_outputs {i : Instruction} {o : Operand} (h : o ∈ i.outputs) : o ∈ i.operands := by
  cases i <;> simp_all [outputs, operands]

/-- The registers of the instruction are all looked up: a call takes no arguments in virtual registers, and an
exchange is not one of virtual registers. -/
def Complete : Instruction → Prop
  | .call _ arguments => ∀ o ∈ arguments, o.virtuals = []
  | .xchg left right => ∀ o ∈ [left, right], ¬o.isMemory → o.virtuals = []
  | _ => True

/-- The operands that are looked up where the instruction writes. -/
def written : Instruction → List Operand
  | .xchg _ _ => []
  | i => i.outputs

/-- The instruction is complete, and it writes to no address that holds a virtual register. -/
def Steady (i : Instruction) : Prop := i.Complete ∧ ∀ o ∈ i.written, o.isMemory → o.virtuals = []

end Instruction

/-- A move of operands without virtual registers has none. -/
theorem virtuals_moveCode {x y : Operand} (hx : x.virtuals = []) (hy : y.virtuals = []) :
    ∀ j ∈ moveCode x y, j.virtuals = [] := by
  intro j hj
  rw [moveCode] at hj
  refine Instruction.virtuals_eq_nil.2 ?_
  split at hj
  · rcases List.mem_cons.1 hj with rfl | hj
    · exact List.forall_mem_singleton.2 hx
    · obtain rfl := List.mem_singleton.1 hj
      exact List.forall_mem_singleton.2 hy
  · obtain rfl := List.mem_singleton.1 hj
    exact List.forall_mem_cons.2 ⟨hx, List.forall_mem_singleton.2 hy⟩

theorem virtuals_fixup {x y : Operand} (hx : x.virtuals = []) (hy : y.virtuals = []) :
    ∀ j ∈ fixup x y, j.virtuals = [] := by
  rw [fixup]
  split
  · exact List.forall_mem_nil _
  · exact virtuals_moveCode hx hy

namespace Allocation

variable {a : Allocation} {p read write : Position} {o o' : Operand} {i : Instruction} {code : List Instruction}

/-- No virtual register is left in an instruction that is placed, if all its registers are looked up. -/
theorem virtuals_placeInstruction (hc : i.Complete) (h : a.placeInstruction read write i = .ok code) :
    ∀ j ∈ code, j.virtuals = [] := by
  have hone : ∀ {j : Instruction}, (∀ o ∈ j.operands, o.virtuals = []) → ∀ k ∈ [j], k.virtuals = [] := fun hj =>
    List.forall_mem_singleton.2 (Instruction.virtuals_eq_nil.2 hj)
  cases i with
  | arith op left right =>
    obtain ⟨left', hleft, h⟩ := bind_eq_ok h
    obtain ⟨input, hinput, h⟩ := bind_eq_ok h
    obtain ⟨output, houtput, h⟩ := bind_eq_ok h
    obtain rfl := Except.ok.inj h
    have hinput := virtuals_place hinput
    refine List.forall_mem_cons.2 ⟨?_, virtuals_fixup hinput (virtuals_place houtput)⟩
    exact Instruction.virtuals_eq_nil.2 (by simp [Instruction.operands, hinput, virtuals_place hleft])
  | neg operand =>
    obtain ⟨input, hinput, h⟩ := bind_eq_ok h
    obtain ⟨output, houtput, h⟩ := bind_eq_ok h
    obtain rfl := Except.ok.inj h
    have hinput := virtuals_place hinput
    refine List.forall_mem_cons.2 ⟨?_, virtuals_fixup hinput (virtuals_place houtput)⟩
    exact Instruction.virtuals_eq_nil.2 (List.forall_mem_singleton.2 hinput)
  | mov src dest =>
    obtain ⟨src', hsrc, h⟩ := bind_eq_ok h
    obtain ⟨dest', hdest, h⟩ := bind_eq_ok h
    obtain rfl := Except.ok.inj h
    exact virtuals_moveCode (virtuals_place hsrc) (virtuals_place hdest)
  | compare op left right | xchg left right =>
    obtain ⟨left', hleft, h⟩ := bind_eq_ok h
    obtain ⟨right', hright, h⟩ := bind_eq_ok h
    obtain rfl := Except.ok.inj h
    exact hone (List.forall_mem_cons.2 ⟨virtuals_place hleft, List.forall_mem_singleton.2 (virtuals_place hright)⟩)
  | setcc relation operand | idiv operand | push operand | pop operand =>
    obtain ⟨operand', hoperand, h⟩ := bind_eq_ok h
    obtain rfl := Except.ok.inj h
    exact hone (List.forall_mem_singleton.2 (virtuals_place hoperand))
  | call callee arguments =>
    obtain rfl := Except.ok.inj h
    exact hone hc
  | enter =>
    obtain ⟨size, -, h⟩ := bind_eq_ok h
    obtain rfl := Except.ok.inj h
    simp [Instruction.virtuals_eq_nil, Instruction.operands, Operand.virtuals, virtRegs, Operand.reads, Operand.phys,
      Operand.imm, Register.virt?]
  | leave =>
    obtain rfl := Except.ok.inj h
    simp [leaveCode, Instruction.virtuals_eq_nil, Instruction.operands, Operand.virtuals, virtRegs, Operand.reads,
      Operand.phys, Register.virt?]
  | cqto | jmp | jcc | label | ret =>
    obtain rfl := Except.ok.inj h
    exact hone (List.forall_mem_nil _)

end Allocation

/-! ## Instructions that are put in place by their effects -/

/-- The outcomes are the same, or they are errors that go together. -/
def AgreeUpTo (E : Error → Error → Prop) {α : Type} (x y : Except Error α) : Prop :=
  x = y ∨ ∃ e e', E e e' ∧ x = .error e ∧ y = .error e'

namespace AgreeUpTo

variable {E : Error → Error → Prop} {α β : Type} {x y : Except Error α}

theorem refl (x : Except Error α) : AgreeUpTo E x x := .inl rfl

/-- Computations that agree can be followed by such computations. -/
theorem bind {f g : α → Except Error β} (hxy : AgreeUpTo E x y) (hfg : ∀ a, AgreeUpTo E (f a) (g a)) :
    AgreeUpTo E (x >>= f) (y >>= g) := by
  rcases hxy with rfl | ⟨e, e', he, rfl, rfl⟩
  · cases x with
    | error e => exact .inl rfl
    | ok a => exact hfg a
  · exact .inr ⟨e, e', he, rfl, rfl⟩

/-- Computations that agree succeed with the same result. -/
theorem eq_ok_iff (h : AgreeUpTo E x y) {r : α} : x = .ok r ↔ y = .ok r := by
  rcases h with rfl | ⟨e, e', -, rfl, rfl⟩
  · exact Iff.rfl
  · constructor <;> intro h <;> cases h

/-- If no errors go together, the outcomes are the same. -/
theorem eq (h : AgreeUpTo (fun _ _ => False) x y) : x = y := by
  rcases h with h | ⟨-, -, h, -⟩
  · exact h
  · exact h.elim

end AgreeUpTo

/-- The errors say that the same address register is in memory, at whatever positions. -/
inductive Error.SameAddress : Error → Error → Prop where
  | intro (v : VirtReg) (p q : Position) : SameAddress (.spilledAddressRegister v p) (.spilledAddressRegister v q)

namespace Allocation

variable {a : Allocation} {read write : Position} {o : Operand} {i : Instruction} {E : Error → Error → Prop}

/-- An instruction is put in place by its effects. -/
structure Faithful (a : Allocation) (read write : Position) (i : Instruction) : Prop where
  /-- The code is that of the instruction over the places of what it reads and writes. -/
  code : ∀ code, a.placeInstruction read write i = .ok code ↔ a.lower read write i = .ok code
  /-- There is code only if everything that is read and written has a place. -/
  answered : ∀ code, a.placeInstruction read write i = .ok code → ∀ l ∈ i.lookups read write, (a.answer? l).isSome
  /-- There is code if everything that is read and written has a place. -/
  succeeds : a.target.slotSize ≠ 0 → (∀ l ∈ i.lookups read write, (a.answer? l).isSome) →
    ∃ code, a.placeInstruction read write i = .ok code
  /-- No virtual register is left in the code. -/
  grounded : ∀ code, a.placeInstruction read write i = .ok code → ∀ j ∈ code, j.virtuals = []
  /-- An address register is missed only if it is in memory where the instruction reads. -/
  address : (∀ l ∈ i.lookups read write, l.inAddress → (a.answer? l).isSome) →
    ∀ v p, a.placeInstruction read write i ≠ .error (.spilledAddressRegister v p)

/-- Operands without virtual registers are placed as they are. -/
theorem mapM_place_of_virtuals {os : List Operand} (h : ∀ o ∈ os, o.virtuals = []) :
    os.mapM (a.place read) = .ok os := by
  induction os with
  | nil => rfl
  | cons o os ih =>
    have htail := ih fun x hx => h x (List.mem_cons_of_mem _ hx)
    rw [List.mapM_cons, bind_of_eq_ok (place_of_virtuals (h o List.mem_cons_self)), bind_of_eq_ok htail]
    rfl

/-- An output that is in memory, or that has no virtual registers, is placed as where the instruction reads. -/
theorem place_outputAt (h : ¬o.isMemory → o.virtuals = []) : a.place (o.outputAt read write) o = a.place read o := by
  by_cases hm : o.isMemory
  · rw [Operand.outputAt, if_pos hm]
  · rw [place_of_virtuals (h hm), place_of_virtuals (h hm)]

/-- Putting an instruction in place agrees with its effects as far as its written operands do. -/
theorem agree_lower (hc : i.Complete)
    (h : ∀ o ∈ i.written, AgreeUpTo E (a.place write o) (a.place (o.outputAt read write) o)) :
    AgreeUpTo E (a.placeInstruction read write i) (a.lower read write i) := by
  cases i with
  | arith op left right =>
    exact (AgreeUpTo.refl _).bind fun _ => (AgreeUpTo.refl _).bind fun _ =>
      (h right (List.mem_singleton.2 rfl)).bind fun _ => .refl _
  | neg operand => exact (AgreeUpTo.refl _).bind fun _ => (h operand (List.mem_singleton.2 rfl)).bind fun _ => .refl _
  | mov src dest => exact (AgreeUpTo.refl _).bind fun _ => (h dest (List.mem_singleton.2 rfl)).bind fun _ => .refl _
  | setcc relation output | pop output => exact (h output (List.mem_singleton.2 rfl)).bind fun _ => .refl _
  | call callee arguments =>
    rw [lower, bind_of_eq_ok (mapM_place_of_virtuals hc)]
    exact .refl _
  | xchg left right =>
    have hleft : a.place (left.outputAt read write) left = a.place read left :=
      place_outputAt (hc left List.mem_cons_self)
    have hright : a.place (right.outputAt read write) right = a.place read right :=
      place_outputAt (hc right (List.mem_cons_of_mem _ List.mem_cons_self))
    rw [lower, placeInstruction, hleft, hright]
    cases hl : a.place read left with
    | error e => exact .refl _
    | ok first =>
      cases hr : a.place read right with
      | error e => exact .refl _
      | ok second =>
        -- Both values are in their places, so that no move is left.
        have hmoves : Sequencer.run 2 (.initial [⟨first, first⟩, ⟨second, second⟩]) = [] := by
          simp [Sequencer.run, Sequencer.initial, Move.next?, Move.isNoop, Operand.sameLocation]
        change AgreeUpTo E (.ok _) (.ok (Instruction.xchg first second :: Sequencer.run 2 _))
        rw [hmoves]
        exact .refl _
  | compare | idiv | push | enter | leave | cqto | jmp | jcc | label | ret => exact .refl _

/-- A placement that agrees with the effects of the instruction is faithful. -/
theorem faithful_of_agree (hc : i.Complete)
    (h : AgreeUpTo Error.SameAddress (a.placeInstruction read write i) (a.lower read write i)) :
    a.Faithful read write i where
  code _ := h.eq_ok_iff
  answered code hcode := (looks_lower read write i).answered a code (h.eq_ok_iff.1 hcode)
  succeeds ha hl := ((looks_lower read write i).succeeds a ha hl).imp fun _ => h.eq_ok_iff.2
  grounded _ hcode := virtuals_placeInstruction hc hcode
  address hl v p hp := by
    have hlower := (looks_lower read write i).address a hl
    rcases h with h | ⟨e, e', he, hx, hy⟩
    · exact hlower v p (h ▸ hp)
    · cases he with
      | intro w q r => exact hlower w r hy

/-- Parts of an address are placed the same at both positions if its registers stay. -/
theorem agree_addressPart {part : Option Register}
    (h : ∀ v, part = some (.virt v) → a.registerAt? (.virt v) write = a.registerAt? (.virt v) read) :
    AgreeUpTo Error.SameAddress (a.addressPart write part) (a.addressPart read part) := by
  cases part with
  | none => exact .refl _
  | some r =>
    cases r with
    | phys q => exact .refl _
    | virt v =>
      refine AgreeUpTo.bind ?_ fun _ => .refl _
      rw [addressRegister, addressRegister, h v rfl]
      cases a.registerAt? (.virt v) read with
      | some q => exact .refl _
      | none => exact .inr ⟨_, _, .intro v write read, rfl, rfl⟩

/-- A written operand is in its place if the registers of its address are still where they were. -/
theorem agree_place_outputAt
    (h : o.isMemory → ∀ v ∈ o.virtuals, a.registerAt? (.virt v) write = a.registerAt? (.virt v) read) :
    AgreeUpTo Error.SameAddress (a.place write o) (a.place (o.outputAt read write) o) := by
  by_cases hm : o.isMemory
  · have hkeep := h hm
    rw [Operand.outputAt, if_pos hm]
    obtain ⟨w, m, rfl⟩ := Operand.exists_mem_of_isMemory hm
    rw [Operand.virtuals_mem, Address.registers, List.filterMap_append] at hkeep
    refine AgreeUpTo.bind (agree_addressPart fun v hv => hkeep v ?_) fun _ =>
      AgreeUpTo.bind (agree_addressPart fun v hv => hkeep v ?_) fun _ => .refl _
    · rw [hv]
      exact List.mem_append_left _ List.mem_cons_self
    · rw [hv]
      exact List.mem_append_right _ List.mem_cons_self
  · rw [Operand.outputAt, if_neg hm]
    exact .refl _

/-- If the registers of addresses stay from the read to the write, the placement is faithful. -/
theorem faithful_of_kept (hc : i.Complete)
    (h : ∀ o ∈ i.written, o.isMemory → ∀ v ∈ o.virtuals, a.registerAt? (.virt v) write = a.registerAt? (.virt v) read) :
    a.Faithful read write i :=
  faithful_of_agree hc (agree_lower hc fun o ho => agree_place_outputAt (h o ho))

/-- A steady instruction is put in place by its effects, whether or not that succeeds. -/
theorem placeInstruction_eq_lower (h : i.Steady) : a.placeInstruction read write i = a.lower read write i := by
  refine (agree_lower h.1 fun o ho => .inl ?_).eq
  by_cases hm : o.isMemory
  · rw [place_of_virtuals (h.2 o ho hm), place_of_virtuals (h.2 o ho hm)]
  · rw [Operand.outputAt, if_neg hm]

/-! ## Instructions that are not -/

/-- The allocation that keeps some registers in a physical register during a segment, and nowhere before and after
it. -/
def during (vs : List VirtReg) (s : Segment) : Allocation :=
  ⟨.standard, vs.map (fun v => (v, [⟨0, { Interval.new v with range := ⟨[s]⟩ }, some .a⟩])), [], []⟩

variable {vs : List VirtReg} {s : Segment} {v : VirtReg} {p : Position}

/-- In the allocation for one segment, a register has one split. -/
theorem splitsFor_during : (during vs s).splitsFor v =
    if v ∈ vs then [⟨0, { Interval.new v with range := ⟨[s]⟩ }, some .a⟩] else [] := by
  rw [splitsFor]
  cases h : lookupBy v (during vs s).splits with
  | some xs =>
    obtain ⟨w, hw, heq⟩ := List.mem_map.1 (mem_of_lookupBy h)
    obtain ⟨rfl, rfl⟩ := Prod.mk.inj heq
    rw [if_pos hw]
    rfl
  | none =>
    have hv : v ∉ vs := by
      intro hv
      have hsome : (lookupBy v (during vs s).splits).isSome := lookupBy_isSome.2 (by simpa [during] using hv)
      rw [h] at hsome
      cases hsome
    rw [if_neg hv]
    rfl

/-- It is in its physical register during the segment, and only then. -/
theorem registerAt?_during :
    (during vs s).registerAt? (.virt v) p = if v ∈ vs ∧ s.contains p then some .a else none := by
  rw [registerAt?, splitAt?, splitsFor_during]
  by_cases hv : v ∈ vs
  · rw [if_pos hv, List.find?_singleton]
    have hcovers : ({ Interval.new v with range := ⟨[s]⟩ } : Interval).covers p = s.contains p := by
      simp [Interval.covers, LiveRange.covers]
    by_cases hp : s.contains p
    · simp [hcovers, hp, hv]
    · simp [hcovers, hp]
  · simp [hv]

/-- So a lookup has an answer during the segment, and only then. -/
theorem answer?_during (b : Bool) :
    (during vs s).answer? ⟨v, p, b⟩ = if v ∈ vs ∧ s.contains p then some (.reg (.phys .a)) else none := by
  rw [answer?, registerAt?_during]
  by_cases h : v ∈ vs ∧ s.contains p
  · rw [if_pos h, if_pos h]
  · rw [if_neg h, if_neg h]
    exact ite_self none

/-- The outcome is the error of a written operand, if all operands have places where the instruction reads. -/
theorem placeInstruction_eq_error {e : Error} (hin : ∀ o ∈ i.inputs, ∃ o', a.place read o = .ok o') (ho : o ∈ i.written)
    (he : a.place write o = .error e) : a.placeInstruction read write i = .error e := by
  cases i with
  | arith op left right =>
    obtain ⟨left', hleft⟩ := hin left List.mem_cons_self
    obtain ⟨right', hright⟩ := hin right (List.mem_cons_of_mem _ List.mem_cons_self)
    obtain rfl := List.mem_singleton.1 ho
    rw [placeInstruction, bind_of_eq_ok hleft, bind_of_eq_ok hright, he]
    rfl
  | neg operand =>
    obtain ⟨input, hinput⟩ := hin operand List.mem_cons_self
    obtain rfl := List.mem_singleton.1 ho
    rw [placeInstruction, bind_of_eq_ok hinput, he]
    rfl
  | mov src dest =>
    obtain ⟨src', hsrc⟩ := hin src List.mem_cons_self
    obtain rfl := List.mem_singleton.1 ho
    rw [placeInstruction, bind_of_eq_ok hsrc, he]
    rfl
  | setcc relation output | pop output =>
    obtain rfl := List.mem_singleton.1 ho
    rw [placeInstruction, he]
    rfl
  | compare | idiv | push | xchg | call | enter | leave | cqto | jmp | jcc | label | ret => cases ho

/-- A memory cell has no place only because a register of its address has none. -/
theorem place_mem_eq_error {e : Error} (hm : o.isMemory) (h : a.place p o = .error e) :
    ∃ v, e = .spilledAddressRegister v p := by
  obtain ⟨w, m, rfl⟩ := Operand.exists_mem_of_isMemory hm
  have hpart : ∀ {part : Option Register} {e : Error}, a.addressPart p part = .error e →
      ∃ v, e = .spilledAddressRegister v p := by
    intro part e h
    cases part with
    | none => cases h
    | some r =>
      cases r with
      | phys q => cases h
      | virt v =>
        rw [addressPart, addressRegister] at h
        cases hq : a.registerAt? (.virt v) p with
        | some q =>
          rw [hq] at h
          cases h
        | none =>
          rw [hq] at h
          exact ⟨v, (Except.error.inj h).symm⟩
  change (a.addressPart p m.base >>= fun base => a.addressPart p m.index >>= fun index => _) = _ at h
  cases hbase : a.addressPart p m.base with
  | error e' =>
    rw [hbase] at h
    exact hpart (hbase.trans (congrArg _ (Except.error.inj h)))
  | ok base =>
    rw [bind_of_eq_ok hbase] at h
    cases hindex : a.addressPart p m.index with
    | error e' =>
      rw [hindex] at h
      exact hpart (hindex.trans (congrArg _ (Except.error.inj h)))
    | ok index =>
      rw [bind_of_eq_ok hindex] at h
      cases h

/-- The allocation that keeps the registers of an instruction only where the instruction reads. -/
def momentary (b : BlockId) (n : Nat) (i : Instruction) : Allocation := during i.virtuals ⟨b, 2 * n + 1, 2 * n + 1⟩

variable {b : BlockId} {n : Nat}

/-- The allocation for one moment has slots. -/
theorem slotSize_momentary : (momentary b n i).target.slotSize ≠ 0 := show Target.standard.slotSize ≠ 0 by decide

/-- All lookups of an operand where it is read have an answer. -/
theorem answer?_readAt (ho : o ∈ i.operands) : ∀ l ∈ o.lookups (.readAt b n), ((momentary b n i).answer? l).isSome := by
  intro l hl
  obtain ⟨v, hv, rfl⟩ := List.mem_map.1 hl
  have hread : Segment.contains ⟨b, 2 * n + 1, 2 * n + 1⟩ (.readAt b n) := by simp [Segment.contains, Position.readAt]
  rw [momentary, answer?_during, if_pos ⟨List.mem_flatMap.2 ⟨o, ho, hv⟩, hread⟩]
  rfl

/-- No lookup has an answer where the instruction writes. -/
theorem answer?_writeAt (inAddress : Bool) : (momentary b n i).answer? ⟨v, .writeAt b n, inAddress⟩ = none := by
  have hwrite : ¬Segment.contains ⟨b, 2 * n + 1, 2 * n + 1⟩ (.writeAt b n) := by
    simp [Segment.contains, Position.writeAt]
  rw [momentary, answer?_during, if_neg fun h => hwrite h.2]

/-- So every operand can be placed where it is read. -/
theorem exists_place_readAt (ho : o ∈ i.operands) : ∃ o', (momentary b n i).place (.readAt b n) o = .ok o' :=
  (looks_place _ o).succeeds _ slotSize_momentary (answer?_readAt ho)

/-- An operand in memory cannot be placed where the instruction writes, if its address has a virtual register. -/
theorem place_writeAt_eq_error (hm : o.isMemory) (ho : o.virtuals ≠ []) :
    ∃ v, (momentary b n i).place (.writeAt b n) o = .error (.spilledAddressRegister v (.writeAt b n)) := by
  cases hp : (momentary b n i).place (.writeAt b n) o with
  | error e =>
    obtain ⟨v, rfl⟩ := place_mem_eq_error hm hp
    exact ⟨v, rfl⟩
  | ok o' =>
    obtain ⟨v, hv⟩ := List.exists_mem_of_ne_nil _ ho
    have hl := (looks_place _ o).answered _ o' hp _ (List.mem_map_of_mem hv)
    rw [answer?_writeAt] at hl
    cases hl

/-- If the placement is faithful for the allocation of one moment, all registers of the instruction are looked up. -/
theorem complete_of_faithful (h : (momentary b n i).Faithful (.readAt b n) (.writeAt b n) i) : i.Complete := by
  cases i with
  | call callee arguments => exact Instruction.virtuals_eq_nil.1 (h.grounded _ rfl _ List.mem_cons_self)
  | xchg left right =>
    obtain ⟨first, hfirst⟩ := exists_place_readAt (b := b) (n := n) (i := .xchg left right)
      (o := left) List.mem_cons_self
    obtain ⟨second, hsecond⟩ :=
      exists_place_readAt (b := b) (n := n) (i := .xchg left right)
        (o := right) (List.mem_cons_of_mem _ List.mem_cons_self)
    have hcode : (momentary b n (.xchg left right)).placeInstruction (.readAt b n) (.writeAt b n) (.xchg left right) =
        .ok [.xchg first second] := by
      rw [placeInstruction, bind_of_eq_ok hfirst, bind_of_eq_ok hsecond]
      rfl
    intro o ho hm
    by_contra hne
    obtain ⟨v, hv⟩ := List.exists_mem_of_ne_nil _ hne
    have hl := h.answered _ hcode _ (Instruction.mem_lookups.2 (.inr ⟨o, ho, List.mem_map_of_mem hv⟩))
    rw [Operand.outputAt, if_neg hm, answer?_writeAt] at hl
    cases hl
  | _ => trivial

/-- An instruction is steady if it is put in place by its effects where its registers are kept only while it reads. -/
theorem steady_of_faithful (h : (momentary b n i).Faithful (.readAt b n) (.writeAt b n) i) : i.Steady := by
  refine ⟨complete_of_faithful h, fun o ho hm => ?_⟩
  by_contra hne
  obtain ⟨v, hv⟩ := place_writeAt_eq_error (b := b) (n := n) (i := i) hm hne
  refine h.address ?_ v _
    (placeInstruction_eq_error (fun x hx => exists_place_readAt (Instruction.mem_operands_of_mem_inputs hx)) ho hv)
  intro l hl hin
  rcases Instruction.mem_lookups.1 hl with ⟨x, hx, hl⟩ | ⟨x, hx, hl⟩
  · exact answer?_readAt (Instruction.mem_operands_of_mem_inputs hx) l hl
  · -- The registers of an address are looked up where the instruction reads.
    have hx' : x.isMemory := by
      obtain ⟨w, -, rfl⟩ := List.mem_map.1 hl
      exact hin
    rw [Operand.outputAt, if_pos hx'] at hl
    exact answer?_readAt (Instruction.mem_operands_of_mem_outputs hx) l hl

/-- If an instruction is placed, what it writes can be placed. -/
theorem exists_place_of_mem_written {code : List Instruction} (h : a.placeInstruction read write i = .ok code)
    (ho : o ∈ i.written) :
    ∃ o', a.place write o = .ok o' := by
  cases i with
  | arith op left right =>
    obtain ⟨_, -, h⟩ := bind_eq_ok h
    obtain ⟨_, -, h⟩ := bind_eq_ok h
    obtain ⟨output, houtput, -⟩ := bind_eq_ok h
    exact ⟨output, List.mem_singleton.1 ho ▸ houtput⟩
  | neg operand | mov src operand =>
    obtain ⟨_, -, h⟩ := bind_eq_ok h
    obtain ⟨output, houtput, -⟩ := bind_eq_ok h
    exact ⟨output, List.mem_singleton.1 ho ▸ houtput⟩
  | setcc relation output | pop output =>
    obtain ⟨output, houtput, -⟩ := bind_eq_ok h
    exact ⟨output, List.mem_singleton.1 ho ▸ houtput⟩
  | compare | idiv | push | xchg | call | enter | leave | cqto | jmp | jcc | label | ret => cases ho

/-- In the allocation of a function an instruction has no code that writes to an address whose register is over by
then. -/
theorem Serves.covers_of_written {f : Function} {t : Target} {code : List Instruction} (h : a.Serves f t)
    (hcode : a.placeInstruction read write i = .ok code) (ho : o ∈ i.written) (hm : o.isMemory) (hv : v ∈ o.virtuals) :
    (f.life v).covers write := by
  obtain ⟨o', hplace⟩ := exists_place_of_mem_written hcode ho
  have hanswer := (looks_place write o).answered a o' hplace _ (List.mem_map_of_mem hv)
  rw [answer?] at hanswer
  refine h.splitAt?_isSome.1 ?_
  cases hs : a.splitAt? v write with
  | some x => rfl
  | none =>
    simp [registerAt?, hs, hm] at hanswer

/-- **Effects**. By its effects, an instruction looks up the registers that it reads where it reads, and those that it
writes where it writes. Every allocation puts it in place with exactly these lookups if and only if it is steady; the
outcome then depends on the answers alone. Otherwise, if it is complete, those allocations do that keep the registers
of the addresses it writes to in their places. The allocation of a function refuses the instruction if it does not
keep them at all. -/
theorem placed_by_effects (i : Instruction) (b : BlockId) (n : Nat) :
    (∀ v p, (∃ l ∈ i.lookups (.readAt b n) (.writeAt b n), l.register = v ∧ l.position = p) ↔
      v ∈ virtRegs i.uses ∧ p = .readAt b n ∨ v ∈ virtRegs i.defs ∧ p = .writeAt b n) ∧
    ((∀ a : Allocation, a.Faithful (.readAt b n) (.writeAt b n) i) ↔ i.Steady) ∧
    (i.Steady → ∀ a a' : Allocation, a.target = a'.target → a.slotCount = a'.slotCount →
      (∀ l ∈ i.lookups (.readAt b n) (.writeAt b n), a.answer? l = a'.answer? l) →
        a.placeInstruction (.readAt b n) (.writeAt b n) i = a'.placeInstruction (.readAt b n) (.writeAt b n) i) ∧
    (i.Complete → ∀ a : Allocation,
      (∀ o ∈ i.written, o.isMemory → ∀ v ∈ o.virtuals,
        a.registerAt? (.virt v) (.writeAt b n) = a.registerAt? (.virt v) (.readAt b n)) →
      a.Faithful (.readAt b n) (.writeAt b n) i) ∧
    ∀ (f : Function) (t : Target) (a : Allocation), a.Serves f t → ∀ o ∈ i.written, o.isMemory → ∀ v ∈ o.virtuals,
      ¬(f.life v).covers (.writeAt b n) → ∀ code, a.placeInstruction (.readAt b n) (.writeAt b n) i ≠ .ok code := by
  refine ⟨fun v p => Instruction.exists_lookup_iff, ⟨fun h => steady_of_faithful (h _), fun h a => ?_⟩,
    fun h a a' ht hc hl => ?_, fun hc a hkeep => faithful_of_kept hc hkeep,
    fun f t a h o ho hm v hv hover code hcode => ?_⟩
  · exact faithful_of_agree h.1 (.inl (placeInstruction_eq_lower h))
  · rw [placeInstruction_eq_lower h, placeInstruction_eq_lower h]
    exact (looks_lower _ _ i).depends a a' ht hc hl
  · exact hover (h.covers_of_written hcode ho hm hv)

/-- A store through a virtual register. -/
def storing : Instruction := .mov (.imm .quad 1) (.mem .quad (.offset (.virt ⟨0, .quad⟩) 0))

/-- A store through a virtual register is not steady, and is put in place by its effects if the register stays where
it is. -/
theorem placed_by_effects_storing :
    ¬storing.Steady ∧ (∃ a : Allocation, ¬a.Faithful (.readAt 0 1) (.writeAt 0 1) storing) ∧
      (during [⟨0, .quad⟩] ⟨0, 3, 4⟩).Faithful (.readAt 0 1) (.writeAt 0 1) storing := by
  have hnot : ¬storing.Steady := fun h => absurd (h.2 _ (List.mem_singleton.2 rfl) rfl) (by decide)
  have hall := placed_by_effects storing 0 1
  refine ⟨hnot, not_forall.1 fun h => hnot (hall.2.1.1 h), hall.2.2.2.1 trivial _ fun o ho _ v hv => ?_⟩
  obtain rfl := List.mem_singleton.1 ho
  obtain rfl := List.mem_singleton.1 hv
  rfl

end Allocation

/-- A function that stores a constant at the address it is given. -/
def store : Function :=
  ⟨"store", [⟨"start", [], [.mov (.phys .quad .di) (.reg .quad (.virt ⟨0, .quad⟩)), Allocation.storing], .ret, []⟩]⟩

/-- A function that passes a virtual register to a call. -/
def forward : Function :=
  ⟨"forward",
    [⟨"start", [],
    [.mov (.imm .quad 1) (.reg .quad (.virt ⟨0, .quad⟩)), .call "show" [.reg .quad (.virt ⟨0, .quad⟩)]], .ret, []⟩]⟩

/-- The store is refused although its address is in a register where it is read, and the call is left with a virtual
register. -/
theorem compile_untrue_to_effects :
    ((∃ a, Allocation.ofLifetimes (Lifetimes.compute store .standard) .standard = .ok a ∧
        a.registerAt? (.virt ⟨0, .quad⟩) (.readAt 0 1) = some .di) ∧
      compile store .standard = .error (.spilledAddressRegister ⟨0, .quad⟩ (.writeAt 0 1))) ∧
    ∃ c, compile forward .standard = .ok c ∧ ∃ j ∈ c.code, j.virtuals ≠ [] := by
  have hstore : (Allocation.ofLifetimes (Lifetimes.compute store .standard) .standard).toOption.map
      (fun a => a.registerAt? (.virt ⟨0, .quad⟩) (.readAt 0 1)) = some (some .di) := rfl
  have hforward : (compile forward .standard).toOption.map (·.code[2]?) =
      some (some (.call "show" [.reg .quad (.virt ⟨0, .quad⟩)])) := rfl
  obtain ⟨a, ha, hread⟩ := Option.map_eq_some_iff.1 hstore
  obtain ⟨c, hc, hcode⟩ := Option.map_eq_some_iff.1 hforward
  exact ⟨⟨⟨a, Allocation.ok_of_toOption ha, hread⟩, rfl⟩, c, Allocation.ok_of_toOption hc, _,
    List.mem_of_getElem? hcode, by decide⟩

end RegAlloc
