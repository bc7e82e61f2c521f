import RegAlloc.ParallelMove
import RegAlloc.Proofs.Frame

/-!
# What the code of one move does

The instructions that carry out a pending move, run on a machine whose slots are in order: a plain move, a copy
through a register or through the stack, an exchange. Each statement gives the machine afterwards as writes of places,
next to the words that were pushed and are not needed any more.
-/

namespace RegAlloc

namespace Machine

variable {base : PhysReg} {slots : Set Int} {w : World} {m : Machine} {c : Content} {o src dest : Operand}

/-- The machine is its four parts. -/
theorem ext_parts {m m' : Machine} (hr : ∀ r, m.regs r = m'.regs r) (hm : ∀ a, m.memory a = m'.memory a)
    (hf : m.flags = m'.flags) (hc : m.calls = m'.calls) : m = m' := by
  cases m
  cases m'
  simp only [Machine.mk.injEq]
  exact ⟨funext hr, funext hm, hf, hc⟩

theorem isImmediate_of_place {top : PhysReg} (h : Place base top slots o.content) : o.isImmediate = false := by
  unfold Operand.isImmediate
  cases hc : o.content with
  | imm v =>
    rw [hc] at h
    cases h
  | reg r => rfl
  | mem a => rfl

/-- A place that is memory is a slot. -/
theorem slot_of_place {top : PhysReg} (h : Place base top slots o.content) (hm : o.isMemory = true) :
    ∃ d ∈ slots, o.content = slotAt base d := by
  unfold Operand.isMemory at hm
  generalize hc : o.content = c at h hm
  cases h with
  | reg p => cases hm
  | slot d hd => exact ⟨d, hd, rfl⟩

/-- Writing an operand that is a place writes the place. -/
theorem put_place {top : PhysReg} (h : Place base top slots o.content) (m : Machine) (x : Word) :
    m.put o x = some (m.set o.content x) := put_eq (isImmediate_of_place h) m x

/-- A move writes the destination, unless both sides are memory. -/
theorem exec_mov {top : PhysReg} (hd : Place base top slots dest.content) (h : (src.isMemory && dest.isMemory) = false)
    (w : World) (m : Machine) : m.exec w (.mov src dest) = some (m.set dest.content (m.get src.content)) := by
  simp [exec, h, put_place hd, value]

/-- An exchange writes both sides. -/
theorem exec_xchg {top : PhysReg} (hs : Place base top slots src.content) (hd : Place base top slots dest.content)
    (w : World) (m : Machine) :
    m.exec w (.xchg src dest) =
      some ((m.set src.content (m.get dest.content)).set dest.content (m.get src.content)) := by
  simp [exec, put_place hs, put_place hd, value]

/-- The words below the top of the stack are no places. -/
theorem get_setCell_stack {top : PhysReg} (hf : Framed base top slots m)
    (hc : Source base top slots c) {cell : Word} (hcell : cell ∈ stackCells (m.regs (.phys top))) (x : Word) :
    (m.setCell cell x).get c = m.get c := by
  rcases hc with hc | ⟨v, rfl⟩
  · cases hc with
    | reg p => rfl
    | slot d hd =>
      obtain ⟨h1, h2⟩ := hf.clear d hd
      rw [get_slotAt, get_slotAt, setCell_regs, setCell_memory, if_neg]
      rcases hcell with rfl | rfl
      · exact h1
      · exact h2
  · rfl

/-- A slot is no constant. -/
theorem isImmediate_of_slot {d : Int} (h : o.content = slotAt base d) : o.isImmediate = false := by
  simp [Operand.isImmediate, h, slotAt]

/-- Popping into a slot, where the word on the stack and the stack pointer are known. -/
theorem exec_pop_slot (hbase : base ≠ w.stackPointer) {d : Int} (hd : o.content = slotAt base d) {t x : Word}
    (ht : m.regs (.phys w.stackPointer) = t) (hx : m.memory t = x) :
    m.exec w (.pop o) =
      some ((m.setReg (.phys w.stackPointer) (t + 8)).setCell (slotCell (m.regs (.phys base)) d) x) := by
  have hr : (m.popped w).regs (.phys base) = m.regs (.phys base) := by simp [popped, hbase]
  simp only [exec, put, isImmediate_of_slot hd, Bool.false_eq_true, if_false, hd, set_slotAt, hr, ht, hx]
  rw [popped, ht]

/-- Pushing a word and popping it into a slot writes the slot, and leaves the word below the top of the stack. -/
theorem execAll_push_pop (hbase : base ≠ w.stackPointer) {d : Int} (hd : dest.content = slotAt base d) :
    m.execAll w [.push src, .pop dest] =
      some ((m.setCell (m.regs (.phys w.stackPointer) - 8) (m.get src.content)).set dest.content
        (m.get src.content)) := by
  generalize ht : m.regs (.phys w.stackPointer) = t
  have hpush : m.exec w (.push src) =
      some ((m.setReg (.phys w.stackPointer) (t - 8)).setCell (t - 8) (m.get src.content)) := by
    rw [← ht]
    rfl
  have hpop := exec_pop_slot (m := (m.setReg (.phys w.stackPointer) (t - 8)).setCell (t - 8) (m.get src.content)) hbase
    hd (t := t - 8) (x := m.get src.content) (by simp) (by simp)
  simp only [execAll, hpush, Option.bind_some, hpop, hd, set_slotAt, Option.some.injEq]
  apply ext_parts
  · intro r
    by_cases hr : r = .phys w.stackPointer
    · simp only [hr, setCell_regs, setReg_regs, if_true, ht]
      exact BitVec.sub_add_cancel t 8
    · simp [hr]
  · intro a
    simp [hbase]
  · rfl
  · rfl

/-- Two steps down the stack are two different cells. -/
theorem stack_cells_ne (t : Word) : t - 8 ≠ t - 8 - 8 := by bv_omega

/-- Pushing two slots and popping them the other way round exchanges them, and leaves two words below the top of the
stack. -/
theorem execAll_exchangeCells (hbase : base ≠ w.stackPointer) (hf : Framed base w.stackPointer slots m) {s d : Int}
    (hs : s ∈ slots) (hd : d ∈ slots) (hsc : src.content = slotAt base s) (hdc : dest.content = slotAt base d) :
    m.execAll w (Move.exchangeCells ⟨src, dest⟩) =
      some ((((m.setCell (m.regs (.phys w.stackPointer) - 8) (m.get src.content)).setCell
        (m.regs (.phys w.stackPointer) - 8 - 8) (m.get dest.content)).set src.content (m.get dest.content)).set
          dest.content (m.get src.content)) := by
  obtain ⟨hs1, hs2⟩ := hf.clear s hs
  obtain ⟨hd1, hd2⟩ := hf.clear d hd
  generalize hb : m.regs (.phys base) = b at hs1 hs2 hd1 hd2
  generalize ht : m.regs (.phys w.stackPointer) = t at hs1 hs2 hd1 hd2
  have hne := stack_cells_ne t
  generalize hx : m.get src.content = x
  generalize hy : m.get dest.content = y
  -- The machine after each of the four instructions.
  have h1 : m.exec w (.push (src.withWidth .quad)) =
      some ((m.setReg (.phys w.stackPointer) (t - 8)).setCell (t - 8) x) := by
    rw [← ht, ← hx]
    rfl
  generalize hm1 : (m.setReg (.phys w.stackPointer) (t - 8)).setCell (t - 8) x = m1 at h1
  have hb1 : m1.regs (.phys base) = b := by simp [← hm1, hbase, hb]
  have hy1 : m1.get dest.content = y := by
    rw [← hy, hdc, get_slotAt, get_slotAt, hb1, hb, ← hm1, setCell_memory, if_neg hd1, setReg_memory]
  have h2 : m1.exec w (.push (dest.withWidth .quad)) =
      some ((m1.setReg (.phys w.stackPointer) (t - 8 - 8)).setCell (t - 8 - 8) y) := by
    have ht1 : m1.regs (.phys w.stackPointer) = t - 8 := by simp [← hm1]
    rw [← ht1, ← hy1]
    rfl
  generalize hm2 : (m1.setReg (.phys w.stackPointer) (t - 8 - 8)).setCell (t - 8 - 8) y = m2 at h2
  have hb2 : m2.regs (.phys base) = b := by simp [← hm2, hbase, hb1]
  have h3 := exec_pop_slot (m := m2) (o := src.withWidth .quad) hbase hsc (t := t - 8 - 8) (x := y) (by simp [← hm2])
    (by simp [← hm2])
  rw [hb2] at h3
  generalize hm3 : (m2.setReg (.phys w.stackPointer) (t - 8 - 8 + 8)).setCell (slotCell b s) y = m3 at h3
  have hb3 : m3.regs (.phys base) = b := by simp [← hm3, hbase, hb2]
  have h4 := exec_pop_slot (m := m3) (o := dest.withWidth .quad) hbase hdc (t := t - 8) (x := x)
    (by simp only [← hm3, setCell_regs, setReg_regs, if_true]; exact BitVec.sub_add_cancel (t - 8) 8)
    (by simp only [← hm3, ← hm2, ← hm1, setCell_memory, setReg_memory, if_neg (Ne.symm hs1), if_neg hne, if_true])
  rw [hb3] at h4
  simp only [Move.exchangeCells, execAll, h1, h2, h3, h4, Option.bind_some, hsc, hdc, set_slotAt, setCell_regs, hb,
    Option.some.injEq]
  apply ext_parts
  · intro r
    by_cases hr : r = .phys w.stackPointer
    · simp only [hr, setCell_regs, setReg_regs, if_true, ht]
      exact BitVec.sub_add_cancel t 8
    · simp [hr, ← hm3, ← hm2, ← hm1]
  · intro a
    simp [← hm3, ← hm2, ← hm1]
  · simp [← hm3, ← hm2, ← hm1]
  · simp [← hm3, ← hm2, ← hm1]

/-- What a copy does: the destination holds the word of the source. Next to it only the registers of `junk` and the
words below the top of the stack change. -/
structure Copied (base top : PhysReg) (slots : Set Int) (junk : Set PhysReg) (src dest : Content) (m m' : Machine) :
    Prop where
  target : m'.get dest = m.get src
  others : ∀ c, Source base top slots c → c ≠ dest → (∀ p ∈ junk, c ≠ .reg (.phys p)) → m'.get c = m.get c
  agree : AgreeOff (regsOf dest ∪ junk)
    (cellsOf base (m.regs (.phys base)) dest ∪ stackCells (m.regs (.phys top))) m m'

/-- What an exchange does: each of two places holds the word of the other. -/
structure Swapped (base top : PhysReg) (slots : Set Int) (src dest : Content) (m m' : Machine) : Prop where
  target : m'.get dest = m.get src
  back : m'.get src = m.get dest
  others : ∀ c, Source base top slots c → c ≠ src → c ≠ dest → m'.get c = m.get c
  agree : AgreeOff (regsOf src ∪ regsOf dest)
    (cellsOf base (m.regs (.phys base)) src ∪ cellsOf base (m.regs (.phys base)) dest ∪
      stackCells (m.regs (.phys top))) m m'

variable {top : PhysReg}

/-- Writing a place with the word of a source is a copy. -/
theorem copied_set (hf : Framed base top slots m) (hd : Place base top slots c) (src : Content) :
    Copied base top slots ∅ src c m (m.set c (m.get src)) where
  target := get_set_self hd m _
  others := fun _ hc' hne _ => get_set_ne hf hd hc' hne
  agree := (agreeOff_set hd m _).mono Set.subset_union_left Set.subset_union_left

/-- Writing two places with each other's words is an exchange. -/
theorem swapped_set {src dest : Content} (hf : Framed base top slots m) (hs : Place base top slots src)
    (hd : Place base top slots dest) (hne : src ≠ dest) :
    Swapped base top slots src dest m ((m.set src (m.get dest)).set dest (m.get src)) := by
  have hsame := sameFrame_set hs m (m.get dest)
  have hf' := hf.of_same hsame
  refine ⟨get_set_self hd _ _, ?_, ?_, ?_⟩
  · rw [get_set_ne hf' hd (.inl hs) hne, get_set_self hs]
  · intro c hc hcs hcd
    rw [get_set_ne hf' hd hc hcd, get_set_ne hf hs hc hcs]
  · refine ((agreeOff_set hs m _).mono Set.subset_union_left ?_).trans
      ((agreeOff_set hd _ _).mono Set.subset_union_right ?_)
    · exact fun a ha => .inl (.inl ha)
    · rw [hsame.1]
      exact fun a ha => .inl (.inr ha)

/-- A word below the top of the stack does not matter to a frame. -/
theorem agreeOff_stackCell {cell : Word} {t : Word} (hcell : cell ∈ stackCells t) (m : Machine) (x : Word) :
    AgreeOff ∅ (stackCells t) m (m.setCell cell x) := by
  refine (agreeOff_setCell m cell x).mono (Set.empty_subset _) ?_
  intro a ha
  rw [Set.mem_singleton_iff] at ha
  exact ha ▸ hcell

/-- A move is carried out by one instruction unless both sides are memory. -/
theorem copied_mov (hf : Framed base w.stackPointer slots m) (hd : Place base w.stackPointer slots dest.content)
    (h : (src.isMemory && dest.isMemory) = false) :
    ∃ m', m.execAll w [.mov src dest] = some m' ∧ Copied base w.stackPointer slots ∅ src.content dest.content m m' := by
  refine ⟨_, ?_, copied_set hf hd src.content⟩
  simp only [execAll, exec_mov hd h, Option.bind_some]

/-- Memory is copied to memory through a scratch register or through the stack. -/
theorem copied_throughScratch (hbase : base ≠ w.stackPointer) (hf : Framed base w.stackPointer slots m) {x : Move}
    (hd : Place base w.stackPointer slots x.dest.content) (hdm : x.dest.isMemory = true) {scratch : List PhysReg}
    (hscratch : ∀ p ∈ scratch, p ≠ base ∧ p ≠ w.stackPointer) :
    ∃ m', m.execAll w (Move.throughScratch scratch x) = some m' ∧
      Copied base w.stackPointer slots {p | p ∈ scratch} x.src.content x.dest.content m m' := by
  obtain ⟨d, hdd, hdc⟩ := slot_of_place hd hdm
  cases scratch with
  | nil =>
    have hcell : m.regs (.phys w.stackPointer) - 8 ∈ stackCells (m.regs (.phys w.stackPointer)) := .inl rfl
    generalize hp : m.setCell (m.regs (.phys w.stackPointer) - 8) (m.get x.src.content) = m1
    have hf1 : Framed base w.stackPointer slots m1 := by rw [← hp]; exact hf
    have hb1 : m1.regs (.phys base) = m.regs (.phys base) := by rw [← hp]; rfl
    refine ⟨m1.set x.dest.content (m.get x.src.content), ?_, ?_, ?_, ?_⟩
    · have hdc' : (x.dest.withWidth .quad).content = slotAt base d := hdc
      rw [← hp]
      exact execAll_push_pop hbase hdc'
    · exact get_set_self hd _ _
    · intro c hc hne _
      rw [get_set_ne hf1 hd hc hne, ← hp, get_setCell_stack hf hc hcell]
    · have h1 := agreeOff_stackCell hcell m (m.get x.src.content)
      rw [hp] at h1
      have h2 := agreeOff_set hd m1 (m.get x.src.content)
      rw [hb1] at h2
      exact (h1.mono (Set.empty_subset _) Set.subset_union_right).trans
        (h2.mono Set.subset_union_left Set.subset_union_left)
  | cons r rest =>
    obtain ⟨hrb, hrt⟩ := hscratch r List.mem_cons_self
    have hr : Place base w.stackPointer slots (Operand.phys x.dest.width r).content := .reg r hrb hrt
    generalize hp : m.set (Operand.phys x.dest.width r).content (m.get x.src.content) = m1
    have hsame : SameFrame base w.stackPointer m m1 := hp ▸ sameFrame_set hr m _
    have hf1 := hf.of_same hsame
    have hv : m1.get (Operand.phys x.dest.width r).content = m.get x.src.content := by rw [← hp, get_set_self hr]
    refine ⟨m1.set x.dest.content (m.get x.src.content), ?_, ?_, ?_, ?_⟩
    · have h1 : (x.src.isMemory && (Operand.phys x.dest.width r).isMemory) = false := by
        simp [Operand.isMemory, Operand.phys]
      have h2 : ((Operand.phys x.dest.width r).isMemory && x.dest.isMemory) = false := by
        simp [Operand.isMemory, Operand.phys]
      have e1 := exec_mov hr h1 w m
      have e2 := exec_mov hd h2 w m1
      rw [hp] at e1
      rw [hv] at e2
      simp only [Move.throughScratch, execAll, e1, e2, Option.bind_some]
    · exact get_set_self hd _ _
    · intro c hc hne hj
      rw [get_set_ne hf1 hd hc hne, ← hp, get_set_ne hf hr hc (hj r List.mem_cons_self)]
    · have h1 := agreeOff_set hr m (m.get x.src.content)
      rw [hp] at h1
      have h2 := agreeOff_set hd m1 (m.get x.src.content)
      rw [hsame.1] at h2
      refine (h1.mono ?_ ?_).trans (h2.mono Set.subset_union_left Set.subset_union_left)
      · intro p hpr
        simp only [regsOf, Operand.phys, Set.mem_ofPred_eq, Content.reg.injEq, Register.phys.injEq] at hpr
        exact .inr (hpr ▸ List.mem_cons_self)
      · rintro a ⟨e, he, -⟩
        simp [Operand.phys, slotAt] at he

/-- Two places are exchanged by one instruction unless both are memory. -/
theorem swapped_xchg (hf : Framed base w.stackPointer slots m) {x : Move}
    (hs : Place base w.stackPointer slots x.src.content) (hd : Place base w.stackPointer slots x.dest.content)
    (hne : x.src.content ≠ x.dest.content) :
    ∃ m', m.execAll w [.xchg x.src x.dest] = some m' ∧
      Swapped base w.stackPointer slots x.src.content x.dest.content m m' := by
  refine ⟨_, ?_, swapped_set hf hs hd hne⟩
  simp only [execAll, exec_xchg hs hd, Option.bind_some]

/-- Two memory cells are exchanged through the stack. -/
theorem swapped_exchangeCells (hbase : base ≠ w.stackPointer) (hf : Framed base w.stackPointer slots m) {x : Move}
    (hs : Place base w.stackPointer slots x.src.content) (hd : Place base w.stackPointer slots x.dest.content)
    (hsm : x.src.isMemory = true) (hdm : x.dest.isMemory = true) (hne : x.src.content ≠ x.dest.content) :
    ∃ m', m.execAll w (Move.exchangeCells x) = some m' ∧
      Swapped base w.stackPointer slots x.src.content x.dest.content m m' := by
  obtain ⟨s, hss, hsc⟩ := slot_of_place hs hsm
  obtain ⟨d, hdd, hdc⟩ := slot_of_place hd hdm
  have hrun := execAll_exchangeCells hbase hf hss hdd hsc hdc
  have hcell1 : m.regs (.phys w.stackPointer) - 8 ∈ stackCells (m.regs (.phys w.stackPointer)) := .inl rfl
  have hcell2 : m.regs (.phys w.stackPointer) - 8 - 8 ∈ stackCells (m.regs (.phys w.stackPointer)) := .inr rfl
  generalize hp : (m.setCell (m.regs (.phys w.stackPointer) - 8) (m.get x.src.content)).setCell
    (m.regs (.phys w.stackPointer) - 8 - 8) (m.get x.dest.content) = m1 at hrun
  have hget : ∀ c, Source base w.stackPointer slots c → m1.get c = m.get c := by
    intro c hc
    rw [← hp, get_setCell_stack (m := m.setCell _ _) hf hc hcell2, get_setCell_stack hf hc hcell1]
  have hf1 : Framed base w.stackPointer slots m1 := by rw [← hp]; exact hf
  have hsw := swapped_set hf1 hs hd hne
  rw [hget _ (.inl hs), hget _ (.inl hd)] at hsw
  refine ⟨_, hrun, ?_, ?_, ?_, ?_⟩
  · rw [hsw.target, hget _ (.inl hs)]
  · rw [hsw.back, hget _ (.inl hd)]
  · intro c hc hcs hcd
    rw [hsw.others c hc hcs hcd, hget c hc]
  · have h12 := (agreeOff_stackCell hcell1 m (m.get x.src.content)).trans
      (agreeOff_stackCell hcell2 _ (m.get x.dest.content))
    rw [hp] at h12
    have h3 := hsw.agree
    have hb1 : m1.regs (.phys base) = m.regs (.phys base) := by rw [← hp]; rfl
    have ht1 : m1.regs (.phys w.stackPointer) = m.regs (.phys w.stackPointer) := by rw [← hp]; rfl
    rw [hb1, ht1] at h3
    exact (h12.mono (Set.empty_subset _) Set.subset_union_right).trans h3

end Machine

end RegAlloc
