import RegAlloc.Proofs.Machine

/-!
# Registers and stack slots as places

Code that was given registers keeps values in places: physical registers other than the two that hold the frame, and
stack slots, which are memory cells at a constant distance from the frame base. `Frame` says that the slots in use are
cells of their own and that the next two words to be pushed do not land on them. Under it a place holds what was last
written to it, and writing a place changes no other.
-/

namespace RegAlloc

/-- The memory cell at a distance from a base register. -/
def slotAt (base : PhysReg) (d : Int) : Content := .mem (.offset (.phys base) d)

/-- What values are kept in: a physical register that does not hold the frame, or one of the slots. -/
inductive Place (base top : PhysReg) (slots : Set Int) : Content → Prop where
  | reg (p : PhysReg) (hbase : p ≠ base) (htop : p ≠ top) : Place base top slots (.reg (.phys p))
  | slot (d : Int) (hd : d ∈ slots) : Place base top slots (slotAt base d)

/-- What a move reads: a place or a constant. -/
def Source (base top : PhysReg) (slots : Set Int) (c : Content) : Prop := Place base top slots c ∨ ∃ v, c = .imm v

/-- The cell of a slot, from the word in the base register. -/
def slotCell (b : Word) (d : Int) : Word := BitVec.ofInt 64 d + b

/-- The slots are cells of their own, and the two words below the top of the stack are none of them. -/
structure Frame (slots : Set Int) (b t : Word) : Prop where
  apart : ∀ d ∈ slots, ∀ e ∈ slots, slotCell b d = slotCell b e → d = e
  clear : ∀ d ∈ slots, slotCell b d ≠ t - 8 ∧ slotCell b d ≠ t - 8 - 8

namespace Machine

variable {base top : PhysReg} {slots : Set Int} {m m' : Machine} {c c' : Content} {x y : Word}

/-- The two registers that hold the frame hold the same words in both machines. -/
def SameFrame (base top : PhysReg) (m m' : Machine) : Prop :=
  m'.regs (.phys base) = m.regs (.phys base) ∧ m'.regs (.phys top) = m.regs (.phys top)

theorem SameFrame.refl (base top : PhysReg) (m : Machine) : SameFrame base top m m := ⟨rfl, rfl⟩

/-- Machines with the frame of a machine have the same frame. -/
theorem SameFrame.trans {m'' : Machine} (h : SameFrame base top m m') (h' : SameFrame base top m' m'') :
    SameFrame base top m m'' := ⟨h'.1.trans h.1, h'.2.trans h.2⟩

/-- The machine's slots are in order. -/
def Framed (base top : PhysReg) (slots : Set Int) (m : Machine) : Prop :=
  Frame slots (m.regs (.phys base)) (m.regs (.phys top))

/-- A frame has room for its slots wherever its registers are the same. -/
theorem Framed.of_same (h : Framed base top slots m) (hs : SameFrame base top m m') : Framed base top slots m' := by
  unfold Framed
  rw [hs.1, hs.2]
  exact h

/-- What a slot holds is found in memory, relative to the frame base. -/
@[simp] theorem get_slotAt (m : Machine) (base : PhysReg) (d : Int) :
    m.get (slotAt base d) = m.memory (slotCell (m.regs (.phys base)) d) := by
  simp [get, slotAt, slotCell]

/-- Writing a slot writes the cell that is found so. -/
@[simp] theorem set_slotAt (m : Machine) (base : PhysReg) (d : Int) (x : Word) :
    m.set (slotAt base d) x = m.setCell (slotCell (m.regs (.phys base)) d) x := by
  simp [set, slotAt, slotCell]

/-- Reading a register as a place reads the register. -/
@[simp] theorem get_reg (m : Machine) (r : Register) : m.get (.reg r) = m.regs r := rfl

/-- Writing a register as a place writes the register. -/
@[simp] theorem set_reg (m : Machine) (r : Register) (x : Word) : m.set (.reg r) x = m.setReg r x := rfl

/-- Writing a place leaves the registers of the frame alone. -/
theorem sameFrame_set (hc : Place base top slots c) (m : Machine) (x : Word) : SameFrame base top m (m.set c x) := by
  cases hc with
  | reg p hbase htop =>
    simp only [SameFrame, set_reg, setReg_regs, Register.phys.injEq]
    exact ⟨if_neg (Ne.symm hbase), if_neg (Ne.symm htop)⟩
  | slot d hd =>
    rw [set_slotAt]
    exact ⟨rfl, rfl⟩

/-- A place holds what was written to it. -/
theorem get_set_self (hc : Place base top slots c) (m : Machine) (x : Word) : (m.set c x).get c = x := by
  cases hc with
  | reg p => simp
  | slot d => simp

/-- Writing a place changes no other place, and no constant. -/
theorem get_set_ne (hf : Framed base top slots m) (hc : Place base top slots c) (hc' : Source base top slots c')
    (hne : c' ≠ c) : (m.set c x).get c' = m.get c' := by
  rcases hc' with hc' | ⟨v, rfl⟩
  · cases hc with
    | reg p hbase htop =>
      cases hc' with
      | reg q =>
        rw [set_reg, get_reg, get_reg, setReg_regs, if_neg]
        intro heq
        exact hne (by rw [heq])
      | slot d hd =>
        rw [set_reg, get_slotAt, get_slotAt, setReg_memory, setReg_regs, if_neg]
        intro heq
        exact hbase (by cases heq; rfl)
    | slot d hd =>
      cases hc' with
      | reg q => simp
      | slot e he =>
        rw [set_slotAt, get_slotAt, get_slotAt, setCell_regs, setCell_memory, if_neg]
        intro heq
        exact hne (by rw [hf.apart e he d hd heq])
  · cases hc <;> rfl

/-- Writing a place leaves the flags alone. -/
@[simp] theorem set_flags (m : Machine) (c : Content) (x : Word) : (m.set c x).flags = m.flags := by cases c <;> rfl

@[simp] theorem set_calls (m : Machine) (c : Content) (x : Word) : (m.set c x).calls = m.calls := by cases c <;> rfl

/-- The second machine has the frame of the first, and the same words in all places outside a set. -/
structure ChangesOnly (m : Machine) (base top : PhysReg) (slots : Set Int) (S : Set Content) (m' : Machine) : Prop where
  frame : SameFrame base top m m'
  places : ∀ c, Place base top slots c → c ∉ S → m'.get c = m.get c

namespace ChangesOnly

variable {S T : Set Content} {m'' : Machine}

/-- Nothing has changed in a machine itself. -/
theorem refl (m : Machine) (S : Set Content) : m.ChangesOnly base top slots S m := ⟨.refl _ _ _, fun _ _ _ => rfl⟩

/-- What changes in two steps are the places of both. -/
theorem trans (h : m.ChangesOnly base top slots S m') (h' : m'.ChangesOnly base top slots S m'') :
    m.ChangesOnly base top slots S m'' :=
  ⟨h.frame.trans h'.frame, fun c hc hnot => (h'.places c hc hnot).trans (h.places c hc hnot)⟩

/-- What changes only some places changes only places of a larger set. -/
theorem mono (h : m.ChangesOnly base top slots S m') (hST : S ⊆ T) : m.ChangesOnly base top slots T m' :=
  ⟨h.frame, fun c hc hnot => h.places c hc fun hS => hnot (hST hS)⟩

end ChangesOnly

/-- Writing a place changes only that place. -/
theorem changesOnly_set (hf : Framed base top slots m) (hc : Place base top slots c) (x : Word) :
    m.ChangesOnly base top slots {c} (m.set c x) :=
  ⟨sameFrame_set hc m x, fun _ hc' hne => get_set_ne hf hc (.inl hc') hne⟩

end Machine

/-- The register that a content stands for, if it is one. -/
def regsOf (c : Content) : Set PhysReg := {p | c = .reg (.phys p)}

/-- The cell that a content stands for, if it is a slot; `b` is the word in the base register. -/
def cellsOf (base : PhysReg) (b : Word) (c : Content) : Set Word := {a | ∃ d, c = slotAt base d ∧ a = slotCell b d}

/-- The two cells below the top of the stack. -/
def stackCells (t : Word) : Set Word := {a | a = t - 8 ∨ a = t - 8 - 8}

namespace Machine

variable {base top : PhysReg} {slots : Set Int} {m m' : Machine} {c c' : Content} {x y : Word}

/-- Writing a place changes nothing else. -/
theorem agreeOff_set (hc : Place base top slots c) (m : Machine) (x : Word) :
    AgreeOff (regsOf c) (cellsOf base (m.regs (.phys base)) c) m (m.set c x) := by
  cases hc with
  | reg p =>
    refine (agreeOff_setReg m p x).mono ?_ (Set.empty_subset _)
    intro q hq
    rw [Set.mem_singleton_iff] at hq
    rw [hq]
    rfl
  | slot d =>
    rw [set_slotAt]
    refine (agreeOff_setCell m _ x).mono (Set.empty_subset _) ?_
    intro a ha
    exact ⟨d, rfl, ha⟩

/-- Machines that agree off places have the same frame. -/
theorem AgreeOff.sameFrame {R : Set PhysReg} {C : Set Word} (h : AgreeOff R C m m') (hb : base ∉ R) (ht : top ∉ R) :
    SameFrame base top m m' := ⟨h.phys hb, h.phys ht⟩

end Machine

end RegAlloc
