import RegAlloc.Proofs.Paths
import RegAlloc.Proofs.Pinned

/-!
# Where physical registers are occupied, exactly

`Occupies` says at which positions of a block its instructions occupy a physical register: where one overwrites it,
and before one that reads it, back to the last one that overwrites it or to the start of the block. The pinned range
of a register covers these positions and no others (`Lifetimes.pinned_exact`).

The range is made by a walk backwards, so the walk is followed for a list of instructions that grows at its front
(`occupies_cons`): a write adds its own position and cuts off everything before it, a read adds everything before it
(`covers_pinInstruction`).
-/

namespace RegAlloc

namespace Instruction

/-- The instruction writes a physical register, or is a call and the register is one that calls overwrite. -/
def Clobbers (i : Instruction) (t : Target) (r : PhysReg) : Prop :=
  (∃ a ∈ i.defs, a.register = .phys r) ∨ (∃ callee arguments, i = .call callee arguments) ∧ r ∈ t.callerSaved

/-- The instruction reads a physical register. -/
def Consults (i : Instruction) (r : PhysReg) : Prop := ∃ a ∈ i.uses, a.register = .phys r

variable {i : Instruction} {t : Target} {r : PhysReg}

/-- A call is an instruction with a callee and arguments. -/
theorem isCall_iff : i.isCall = true ↔ ∃ callee arguments, i = .call callee arguments := by
  cases i <;> simp [isCall]

/-- What the pins count as overwritten is what the instruction clobbers. -/
theorem overwrites_iff_clobbers : i.overwrites t r = true ↔ i.Clobbers t r := by
  simp [overwrites, Clobbers, isCall_iff]

/-- What the pins count as inspected is what the instruction consults. -/
theorem inspects_iff_consults : i.inspects r = true ↔ i.Consults r := by
  simp [inspects, Consults]

end Instruction

/-- Instructions of block `b`, given with their numbers, occupy a register at a position of the block: one of them
overwrites it there, or one of them reads it there or later and none overwrites it in between. -/
def Occupies (t : Target) (r : PhysReg) (b : BlockId) (code : List (Instruction × Nat)) (p : Position) : Prop :=
  ∃ e ∈ code, e.1.Clobbers t r ∧ p = .writeAt b e.2 ∨
    e.1.Consults r ∧ .entry b ≤ p ∧ p ≤ .readAt b e.2 ∧
      ∀ d ∈ code, d.1.Clobbers t r → ¬(p < .writeAt b d.2 ∧ Position.writeAt b d.2 < .readAt b e.2)

section Walk

variable {t : Target} {r : PhysReg} {b : BlockId} {blk : Block} {code : List (Instruction × Nat)} {i : Instruction}
  {k n : Nat} {range : LiveRange} {p q : Position}

/-- Instructions of a block occupy registers in that block. -/
theorem Occupies.block_eq (h : Occupies t r b code p) : p.block = b := by
  obtain ⟨e, _, ⟨_, rfl⟩ | ⟨_, hle, hge, _⟩⟩ := h
  · rfl
  · rw [Position.le_def] at hle hge
    simp only [Position.entry, Position.readAt] at hle hge
    exact show @Eq Nat p.block b by omega

/-- Where a register is occupied, in slots of the block. -/
theorem occupies_mk : Occupies t r b code ⟨b, n⟩ ↔ ∃ e ∈ code, e.1.Clobbers t r ∧ n = 2 * e.2 + 2 ∨
    e.1.Consults r ∧ n ≤ 2 * e.2 + 1 ∧ ∀ d ∈ code, d.1.Clobbers t r → n < 2 * d.2 + 2 → e.2 ≤ d.2 := by
  have hgap : ∀ j d : Nat, (Position.mk b n < .writeAt b d ∧ Position.writeAt b d < .readAt b j ↔
      n < 2 * d + 2 ∧ d < j) := by
    intro j d
    simp only [Position.lt_def, Position.writeAt, Position.readAt, Nat.lt_irrefl, false_or, true_and]
    omega
  simp only [Occupies, hgap]
  simp [Position.eq_def, Position.le_def, Position.writeAt, Position.readAt, Position.entry]

/-- One more instruction in front: a write occupies its own position and frees what lies before it, a read occupies
everything before it. -/
theorem occupies_cons (hcode : ∀ e ∈ code, k < e.2) : Occupies t r b ((i, k) :: code) ⟨b, n⟩ ↔
    i.Consults r ∧ n ≤ 2 * k + 1 ∨ i.Clobbers t r ∧ n = 2 * k + 2 ∨
      Occupies t r b code ⟨b, n⟩ ∧ (i.Clobbers t r → 2 * k + 2 ≤ n) := by
  simp only [occupies_mk, List.mem_cons, exists_eq_or_imp, forall_eq_or_imp]
  constructor
  · rintro ((⟨hi, hn⟩ | ⟨hi, hn, _⟩) | ⟨e, he, ⟨hd, hn⟩ | ⟨hu, hn, hk, hfree⟩⟩)
    · exact .inr (.inl ⟨hi, hn⟩)
    · exact .inl ⟨hi, hn⟩
    · have hlt := hcode e he
      exact .inr (.inr ⟨⟨e, he, .inl ⟨hd, hn⟩⟩, fun _ => by omega⟩)
    · have hlt := hcode e he
      refine .inr (.inr ⟨⟨e, he, .inr ⟨hu, hn, hfree⟩⟩, fun hi => ?_⟩)
      by_contra hlow
      have := hk hi (by omega)
      omega
  · rintro (⟨hi, hn⟩ | ⟨hi, hn⟩ | ⟨⟨e, he, ⟨hd, hn⟩ | ⟨hu, hn, hfree⟩⟩, hk⟩)
    · exact .inl (.inr ⟨hi, hn, fun _ _ => Nat.le_refl _, fun d hd _ _ => Nat.le_of_lt (hcode d hd)⟩)
    · exact .inl (.inl ⟨hi, hn⟩)
    · exact .inr ⟨e, he, .inl ⟨hd, hn⟩⟩
    · refine .inr ⟨e, he, .inr ⟨hu, hn, fun hi hlow => ?_, hfree⟩⟩
      have := hk hi
      omega

/-- A write adds its own position at most. -/
theorem LiveRange.covers_of_pinWrite (h : (range.pinWrite p).covers q) : q = p ∨ range.covers q := by
  obtain ⟨x, hx, hxq⟩ := List.any_eq_true.1 h
  rw [LiveRange.pinWrite] at hx
  cases hc : range.containing? p with
  | none =>
    rw [hc] at hx
    rcases mem_of_mem_insertBy hx with rfl | hx
    · obtain ⟨h1, h2⟩ := Segment.contains_iff.1 hxq
      exact .inl (le_antisymm h2 h1)
    · exact .inr (List.any_eq_true.2 ⟨x, hx, hxq⟩)
  | some s =>
    rw [hc] at hx
    rcases mem_of_mem_insertBy hx with rfl | hx
    · -- What is left of the segment that was cut.
      have hs : s ∈ range.segments := List.mem_of_find?_eq_some hc
      have hsp : s.contains ⟨p.block, p.slot⟩ := by simpa using List.find?_some hc
      obtain ⟨_, hfirst, _⟩ := LiveRange.contains_mk.1 hsp
      obtain ⟨c, n⟩ := q
      obtain ⟨hb, hn, hlast⟩ := LiveRange.contains_mk.1 hxq
      exact .inr (LiveRange.covers_of_mem hs hb (Nat.le_trans hfirst hn) hlast)
    · exact .inr (List.any_eq_true.2 ⟨x, (List.mem_filter.1 hx).1, hxq⟩)

/-- A read adds what lies before it in its block at most. -/
theorem LiveRange.covers_of_pinRead (h : (range.pinRead p).covers q) :
    q.block = p.block ∧ q.slot ≤ p.slot ∨ range.covers q := by
  rw [LiveRange.pinRead] at h
  split_ifs at h with hcov
  · exact .inr h
  · obtain ⟨x, hx, hxq⟩ := List.any_eq_true.1 h
    rcases mem_of_mem_insertBy hx with rfl | hx
    · simp only [Segment.contains, Bool.and_eq_true, decide_eq_true_eq] at hxq
      exact .inl ⟨hxq.1.1, hxq.2⟩
    · exact .inr (List.any_eq_true.2 ⟨x, hx, hxq⟩)

/-- What the range covers in a block after a write there, where the walk has come to. -/
theorem Pinning.covers_pinWrite (h : Pinning t r b blk (k + 1) range) :
    (range.pinWrite (.writeAt b k)).covers ⟨b, n⟩ = true ↔
      n = 2 * k + 2 ∨ range.covers ⟨b, n⟩ = true ∧ 2 * k + 2 ≤ n := by
  obtain ⟨_, hshape, hkeep, hself⟩ := h.afterWrite
  constructor
  · intro hcov
    obtain ⟨s, hs, hsn⟩ := List.any_eq_true.1 hcov
    obtain ⟨hb, hfirst, _⟩ := LiveRange.contains_mk.1 hsn
    have hle := hshape s hs hb
    exact (LiveRange.covers_of_pinWrite hcov).imp (congrArg Position.slot) fun hcov => ⟨hcov, by omega⟩
  · rintro (rfl | ⟨hcov, hn⟩)
    · exact hself
    · exact hkeep n hn hcov

/-- What the range covers in a block after a read there, where the walk has come to. -/
theorem covers_pinRead (hwf : range.WellFormed)
    (hshape : ∀ s ∈ range.segments, s.block = b → s.first = 0 ∧ 2 * k + 2 ≤ s.last ∨ 2 * k + 2 ≤ s.first) :
    (range.pinRead (.readAt b k)).covers ⟨b, n⟩ = true ↔ n ≤ 2 * k + 1 ∨ range.covers ⟨b, n⟩ = true := by
  obtain ⟨_, hshape', hkeep, ⟨s, hs, hb, hzero⟩, _⟩ := pinRead_spec hwf hshape
  constructor
  · intro hcov
    exact (LiveRange.covers_of_pinRead hcov).imp_left And.right
  · rintro (hn | hcov)
    · rcases hshape' s hs hb with ⟨_, hlast⟩ | hfirst
      · exact LiveRange.covers_of_mem hs hb (by omega) (by omega)
      · omega
    · exact hkeep _ hcov

/-- What the range covers in a block after one more instruction. -/
theorem Pinning.covers_pinInstruction (h : Pinning t r b blk (k + 1) range) :
    (pinInstruction t r b range (i, k)).covers ⟨b, n⟩ = true ↔
      i.Consults r ∧ n ≤ 2 * k + 1 ∨ i.Clobbers t r ∧ n = 2 * k + 2 ∨
        range.covers ⟨b, n⟩ = true ∧ (i.Clobbers t r → 2 * k + 2 ≤ n) := by
  have hshape : ∀ s ∈ range.segments, s.block = b → s.first = 0 ∧ 2 * k + 2 ≤ s.last ∨ 2 * k + 2 ≤ s.first := by
    intro s hs hb
    have := h.shape s hs hb
    omega
  rw [pinInstruction, ← Instruction.overwrites_iff_clobbers, ← Instruction.inspects_iff_consults]
  by_cases hw : i.overwrites t r <;> by_cases hr :
    i.inspects r <;> simp only [hw, hr, if_true, if_false, Bool.false_eq_true]
  · obtain ⟨hwf, hshape', _⟩ := h.afterWrite
    rw [covers_pinRead hwf fun s hs hb => .inr (hshape' s hs hb), h.covers_pinWrite]
    simp
  · rw [h.covers_pinWrite]
    simp
  · rw [covers_pinRead h.wf hshape]
    simp
  · simp

/-- The instructions of a block from `k` on begin with instruction `k`, and the others come after it. -/
theorem zipIdx_drop (hi : blk.code[k]? = some i) :
    blk.code.zipIdx.drop k = (i, k) :: blk.code.zipIdx.drop (k + 1) ∧ ∀ e ∈ blk.code.zipIdx.drop (k + 1), k < e.2 := by
  obtain ⟨hk, hget⟩ := List.getElem?_eq_some_iff.1 hi
  constructor
  · rw [List.drop_eq_getElem_cons (by simpa using hk), List.getElem_zipIdx, hget, Nat.zero_add]
  · intro e he
    obtain ⟨j, hj, rfl⟩ := List.getElem_of_mem he
    rw [List.getElem_drop, List.getElem_zipIdx]
    omega

/-- Walking all instructions of a block, the last one first. -/
theorem Pinning.covers_code (hk : k ≤ blk.code.length) (h : Pinning t r b blk k range)
    (hcov : ∀ n, range.covers ⟨b, n⟩ = true ↔ Occupies t r b (blk.code.zipIdx.drop k) ⟨b, n⟩) :
    ((blk.code.zipIdx.take k).reverse.foldl (pinInstruction t r b) range).covers ⟨b, n⟩ = true ↔
      Occupies t r b blk.code.zipIdx ⟨b, n⟩ := by
  induction k generalizing range with
  | zero => simpa using hcov n
  | succ k ih =>
    have hi := List.getElem?_eq_getElem (show k < blk.code.length from hk)
    obtain ⟨hdrop, hafter⟩ := zipIdx_drop hi
    rw [Note.reverse_take_succ hi, List.foldl_cons]
    refine ih (by omega) (h.instruction hi).1 fun n => ?_
    rw [h.covers_pinInstruction, hcov, hdrop, occupies_cons hafter]

/-- Walking a block of which the range does not cover anything yet. -/
theorem covers_pinBlock (blk : Block) (hwf : range.WellFormed) (hfree : ∀ q, q.block = b → ¬range.covers q) :
    (pinBlock t r range (blk, b)).covers q = true ↔ range.covers q = true ∨ Occupies t r b blk.code.zipIdx q := by
  by_cases hq : q.block = b
  · obtain ⟨c, n⟩ := q
    obtain rfl : c = b := hq
    have htake : blk.code.zipIdx.take blk.code.length = blk.code.zipIdx := List.take_of_length_le (by simp)
    have hdrop : blk.code.zipIdx.drop blk.code.length = [] := List.drop_of_length_le (by simp)
    rw [or_iff_right (hfree _ rfl), pinBlock, ← (pinning_length blk hwf hfree).covers_code (Nat.le_refl _)
      (n := n), htake]
    intro n
    rw [hdrop]
    exact iff_of_false (hfree _ rfl) fun ⟨_, he, _⟩ => absurd he List.not_mem_nil
  · rw [(pinBlock_spec blk hwf hfree).2.2 q hq, or_iff_left fun h => hq h.block_eq]

/-- Walking blocks one after the other, each once. -/
theorem covers_pinBlocks {l : List (Block × Nat)} (hl : (l.map Prod.snd).Nodup) (hwf : range.WellFormed)
    (hfree : ∀ e ∈ l, ∀ q, q.block = e.2 → ¬range.covers q) :
    (l.foldl (pinBlock t r) range).covers q = true ↔
      range.covers q = true ∨ ∃ e ∈ l, Occupies t r e.2 e.1.code.zipIdx q := by
  induction l generalizing range with
  | nil => simp
  | cons e l ih =>
    rw [List.map_cons, List.nodup_cons] at hl
    have hhead := hfree e List.mem_cons_self
    have hne : ∀ e' ∈ l, e'.2 ≠ e.2 := fun e' he' heq => hl.1 (heq ▸ List.mem_map_of_mem he')
    have hfree' : ∀ e' ∈ l, ∀ q, q.block = e'.2 → ¬(pinBlock t r range e).covers q := by
      intro e' he' q hq
      rw [covers_pinBlock e.1 hwf hhead, not_or]
      exact ⟨hfree e' (List.mem_cons_of_mem _ he') q hq, fun h => hne e' he' (hq ▸ h.block_eq)⟩
    rw [List.foldl_cons, ih hl.2 (pinBlock_spec e.1 hwf hhead).1 hfree', covers_pinBlock e.1 hwf hhead, or_assoc]
    simp only [List.mem_cons, exists_eq_or_imp]

end Walk

namespace Function

variable {f : Function} {t : Target} {r : PhysReg} {p : Position}

/-- The pinned range of a register covers the positions where the code of a block occupies the register, and no
others. -/
theorem covers_pinned : (f.pinned t r).covers p = true ↔
    ∃ blk, f.block? p.block = some blk ∧ Occupies t r p.block blk.code.zipIdx p := by
  have hnodup : (f.blocks.zipIdx.reverse.map Prod.snd).Nodup := by
    rw [List.map_reverse, List.nodup_reverse]
    exact nodup_numbers f.blocks
  have hwf : LiveRange.WellFormed .empty := LiveRange.wellFormed_nil
  have hempty : ∀ q, ¬LiveRange.empty.covers q := fun _ => Bool.false_ne_true
  rw [pinned, covers_pinBlocks hnodup hwf fun _ _ q _ => hempty q, or_iff_right (hempty p)]
  constructor
  · rintro ⟨⟨blk, b⟩, he, h⟩
    obtain rfl : p.block = b := h.block_eq
    exact ⟨blk, List.mem_zipIdx_iff_getElem?.1 (List.mem_reverse.1 he), h⟩
  · rintro ⟨blk, hb, h⟩
    exact ⟨(blk, p.block), List.mem_reverse.2 (List.mem_zipIdx_iff_getElem?.2 hb), h⟩

end Function

/-- Code occupies a register within the bounds of its block. -/
theorem Occupies.le_stop {t : Target} {r : PhysReg} {b : BlockId} {blk : Block} {p : Position}
    (h : Occupies t r b blk.code.zipIdx p) : p ≤ blk.stop b := by
  obtain ⟨e, he, h⟩ := h
  have hlt : e.2 < blk.code.length := (List.mem_zipIdx' he).1
  rcases h with ⟨_, rfl⟩ | ⟨_, _, hle, _⟩
  · refine Position.le_def.2 (.inr ⟨rfl, ?_⟩)
    simp only [Position.writeAt, Block.stop, Position.exit, Position.readAt]
    omega
  · refine le_trans hle (Position.le_def.2 (.inr ⟨rfl, ?_⟩))
    simp only [Block.stop, Position.exit, Position.readAt]
    omega

namespace Lifetimes

/-- A function that names no stray block has lifetimes. They hold, for every register that may be given to values, a
range that is well formed, stays within the bounds of blocks, and covers exactly the positions where the code of a
block occupies the register. -/
theorem pinned_exact (f : Function) (t : Target) {r : PhysReg} (hr : r ∈ t.allocatable) :
    (f.Closed → ∃ lt, ofFunction f t = .ok lt) ∧
      ∀ lt, ofFunction f t = .ok lt → ∃ range, lookupBy r lt.pinned = some range ∧ range.WellFormed ∧
        (∀ s ∈ range.segments, ∃ blk, f.block? s.block = some blk ∧ s.stop ≤ blk.stop s.block) ∧
        ∀ p, range.covers p = true ↔ ∃ blk, f.block? p.block = some blk ∧ Occupies t r p.block blk.code.zipIdx p := by
  refine ⟨fun hf => ⟨_, ofFunction_eq_ok hf⟩, fun lt h => ?_⟩
  obtain ⟨-, rfl⟩ := closed_of_ofFunction h
  have hwf := (f.pinned_spec t r).1
  refine ⟨f.pinned t r, Function.lookupBy_pinned hr, hwf, fun s hs => ?_, fun p => Function.covers_pinned⟩
  -- The last position of a segment is covered, so the code occupies the register there.
  have hstop : (f.pinned t r).covers s.stop :=
    LiveRange.covers_iff.2 ⟨s, hs, Segment.start_le_stop (hwf.bounds s hs), le_rfl⟩
  obtain ⟨blk, hb, hocc⟩ := Function.covers_pinned.1 hstop
  exact ⟨blk, hb, hocc.le_stop⟩

/-- Code that divides, and then calls with an argument. -/
def quotient : Function :=
  ⟨"quotient",
    [⟨"start", [],
      [.mov (.imm .quad 84) (.phys .quad .a), .cqto .quad, .idiv (.phys .quad .b), .call "print" [.phys .quad .di]],
      .ret, []⟩]⟩

/-- The upper half of the dividend is occupied until the division, which overwrites it, and again where the call
does. -/
theorem pinned_exact_quotient :
    PhysReg.d ∈ Target.standard.allocatable ∧ quotient.Closed ∧
      ∃ lt, ofFunction quotient .standard = .ok lt ∧
        ∃ range, lookupBy .d lt.pinned = some range ∧ range.segments = [⟨0, 4, 5⟩, ⟨0, 6, 6⟩, ⟨0, 8, 8⟩] ∧
        range.WellFormed ∧ ∀ p, range.covers p = true ↔ ∃ blk, quotient.block? p.block = some blk ∧
            Occupies .standard .d p.block blk.code.zipIdx p := by
  have hd : PhysReg.d ∈ Target.standard.allocatable := by decide
  have hclosed : quotient.Closed := by decide
  obtain ⟨hok, hexact⟩ := pinned_exact quotient .standard hd
  obtain ⟨lt, hlt⟩ := hok hclosed
  obtain ⟨range, hrange, hwf, -, hcovers⟩ := hexact lt hlt
  obtain rfl := Except.ok.inj ((ofFunction_eq_ok hclosed).symm.trans hlt)
  obtain rfl := Option.some.inj ((Function.lookupBy_pinned hd).symm.trans hrange)
  exact ⟨hd, hclosed, _, hlt, _, hrange, by decide, hwf, hcovers⟩

end Lifetimes

end RegAlloc
