import RegAlloc.Proofs.Lifetimes

/-!
# Lifetimes along paths

A path of a function goes from position to position: through the slots of a block, and from the end of a block to the
start of one of its successors (`Function.Goes`). A register is awaited at a position if a path leads from there to a
read of it and passes no write of it on the way (`Function.Awaits`). The positions on a path that lie around an
instruction are those that `LiveAt` speaks of, so the interval of a register covers every position where the register
is awaited, also where the only path to a read leads back to the start of a loop (`Lifetimes.ofFunction_covers`).
-/

namespace RegAlloc

namespace Function

/-- Exits and loops name only blocks that the function has. -/
def Closed (f : Function) : Prop := ∀ b, ∀ s ∈ f.successors b ++ f.loopBody b, s < f.blocks.length

/-- A phi or an instruction of a block writes `v`. -/
def Defines (f : Function) (v : VirtReg) (b : BlockId) : Prop :=
  ∃ blk, f.block? b = some blk ∧ (v ∈ blk.phis.filterMap Phi.virt? ∨ ∃ i ∈ blk.code, v ∈ virtRegs i.defs)

/-! ## Conditions on the blocks of a function can be checked block by block. -/

section Decidable

variable {f : Function} {b s : BlockId}

/-- Numbers below the number of blocks are those of blocks. -/
theorem exists_block_of_lt (h : b < f.blocks.length) : ∃ blk, f.block? b = some blk := ⟨_, List.getElem?_eq_getElem h⟩

/-- Only blocks of the function have successors. -/
theorem lt_length_of_mem_successors (h : s ∈ f.successors b) : b < f.blocks.length := by
  by_contra hb
  rw [successors, block?, List.getElem?_eq_none (Nat.not_lt.1 hb)] at h
  cases h

/-- Predecessors are the blocks that have the block as a successor. -/
theorem mem_predecessors : b ∈ f.predecessors s ↔ s ∈ f.successors b := by
  rw [predecessors, List.mem_filter, List.contains_iff_mem, blockIds, List.mem_range]
  exact and_iff_right_of_imp lt_length_of_mem_successors

/-- Only blocks of the function have loop bodies. -/
theorem lt_length_of_mem_loopBody (h : s ∈ f.loopBody b) : b < f.blocks.length := by
  by_contra hb
  rw [loopBody, block?, List.getElem?_eq_none (Nat.not_lt.1 hb)] at h
  cases h

instance (f : Function) : Decidable f.OneWidth :=
  inferInstanceAs (Decidable (∀ v ∈ f.mentions, ∀ w ∈ f.mentions, v.id = w.id → v = w))

instance (f : Function) : Decidable f.Closed :=
  decidable_of_iff (∀ b < f.blocks.length, ∀ s ∈ f.successors b ++ f.loopBody b, s < f.blocks.length)
    ⟨fun h b s hs => h b ((List.mem_append.1 hs).elim lt_length_of_mem_successors lt_length_of_mem_loopBody) s hs,
      fun h b _ => h b⟩

instance (f : Function) (header : BlockId) : Decidable (f.Loop header) :=
  decidable_of_iff ((∀ b ∈ f.loopBody header, header ≤ b) ∧ ∀ p < f.blocks.length, ∀ s ∈ f.successors p,
      s ∈ f.loopBody header → p ∉ f.loopBody header → s = header)
    ⟨fun h => ⟨h.1, fun p s hs => h.2 p (lt_length_of_mem_successors hs) s hs⟩, fun h =>
      ⟨h.after, fun p _ => h.entered p⟩⟩

instance (f : Function) : Decidable f.Structured :=
  decidable_of_iff (∀ p < f.blocks.length, ∀ s ∈ f.successors p, p < s ∨ p ∈ f.loopBody s ∧ f.Loop s)
    ⟨fun h p s hs => h p (lt_length_of_mem_successors hs) s hs, fun h p _ => h p⟩

instance (f : Function) (v : VirtReg) (b : BlockId) : Decidable (f.Defines v b) :=
  decidable_of_iff (∃ blk ∈ (f.block? b).toList, v ∈ blk.phis.filterMap Phi.virt? ∨ ∃ i ∈ blk.code, v ∈ virtRegs i.defs)
    (exists_congr fun _ => and_congr_left' Option.mem_toList)

end Decidable

/-! ## Paths -/

/-- A position where `v` is read: by an instruction, or at the end of a block by a phi of a successor. -/
inductive ReadsAt (f : Function) (v : VirtReg) : Position → Prop where
  | code {b : BlockId} {k : Nat} {blk : Block} {i : Instruction} (hb : f.block? b = some blk)
    (hi : blk.code[k]? = some i) (hv : v ∈ virtRegs i.uses) : ReadsAt f v (.readAt b k)
  | phi {b s : BlockId} {blk next : Block} (hb : f.block? b = some blk) (hs : s ∈ f.successors b)
    (hnext : f.block? s = some next) (hv : v ∈ Liveness.phiReads next b) : ReadsAt f v (blk.stop b)

/-- A position where `v` is written: by an instruction, or at the start of a block by a phi. -/
inductive WritesAt (f : Function) (v : VirtReg) : Position → Prop where
  | code {b : BlockId} {k : Nat} {blk : Block} {i : Instruction} (hb : f.block? b = some blk)
    (hi : blk.code[k]? = some i) (hv : v ∈ virtRegs i.defs) : WritesAt f v (.writeAt b k)
  | phi {b : BlockId} {blk : Block} (hb : f.block? b = some blk) (hv : v ∈ blk.phis.filterMap Phi.virt?) :
    WritesAt f v (.entry b)

/-- Control goes from a position to another: to the next slot of the block, or from its end to a successor. -/
inductive Goes (f : Function) : Position → Position → Prop where
  | slot {b : BlockId} {n : Nat} {blk : Block} (hb : f.block? b = some blk) (hn : ⟨b, n⟩ < blk.stop b) :
    Goes f ⟨b, n⟩ ⟨b, n + 1⟩
  | edge {b s : BlockId} {blk : Block} (hb : f.block? b = some blk) (hs : s ∈ f.successors b) :
    Goes f (blk.stop b) (.entry s)

/-- A path leads from a position to one where `v` is read, and `v` is not written at a position strictly between
them. -/
inductive Awaits (f : Function) (v : VirtReg) : Position → Prop where
  | here {p : Position} (h : f.ReadsAt v p) : Awaits f v p
  | next {p q : Position} (hpq : f.Goes p q) (h : f.ReadsAt v q) : Awaits f v p
  | pass {p q : Position} (hpq : f.Goes p q) (hq : ¬f.WritesAt v q) (h : Awaits f v q) : Awaits f v p

variable {f : Function} {v : VirtReg} {b : BlockId} {blk : Block} {k n : Nat} {p q : Position}

/-- In a closed function no block is found to be missing. -/
theorem Closed.strayBlock?_eq_none (h : f.Closed) : f.strayBlock? = none := by
  rw [strayBlock?, List.find?_eq_none]
  intro s hs hle
  obtain ⟨blk, hblk, hs⟩ := List.mem_flatMap.1 hs
  obtain ⟨b, hb⟩ := List.getElem?_of_mem hblk
  have hnamed : s ∈ f.successors b ++ f.loopBody b := by
    rw [successors_eq hb, loopBody, block?, hb]
    exact hs
  exact absurd (of_decide_eq_true hle) (Nat.not_le.2 (h b s hnamed))

/-- If none is found to be missing, the function is closed. -/
theorem closed_of_strayBlock? (h : f.strayBlock? = none) : f.Closed := by
  intro b s hs
  obtain ⟨blk, hb⟩ :=
    exists_block_of_lt ((List.mem_append.1 hs).elim lt_length_of_mem_successors lt_length_of_mem_loopBody)
  rw [successors_eq hb, loopBody, hb] at hs
  have hin := List.find?_eq_none.1 h s (List.mem_flatMap.2 ⟨blk, List.mem_of_getElem? hb, hs⟩)
  exact Nat.not_le.1 fun hle => hin (decide_eq_true hle)

theorem WritesAt.not_readAt (b : BlockId) (k : Nat) : ¬f.WritesAt v (.readAt b k) := by
  generalize hp : Position.readAt b k = p
  intro h
  cases h with
  | code =>
    rw [Position.eq_def] at hp
    simp only [Position.readAt, Position.writeAt] at hp
    omega
  | phi => cases hp

/-- An instruction writes what it says that it writes. -/
theorem writesAt_writeAt {i : Instruction} (hb : f.block? b = some blk) (hi : blk.code[k]? = some i) :
    f.WritesAt v (.writeAt b k) ↔ v ∈ virtRegs i.defs := by
  refine ⟨fun h => ?_, .code hb hi⟩
  generalize hp : Position.writeAt b k = p at h
  cases h with
  | @code b' k' blk' i' hb' hi' hv =>
    rw [Position.eq_def] at hp
    simp only [Position.writeAt] at hp
    obtain rfl : b = b' := hp.1
    obtain rfl : k = k' := by omega
    obtain rfl := Option.some.inj (hb.symm.trans hb')
    obtain rfl := Option.some.inj (hi.symm.trans hi')
    exact hv
  | phi => cases hp

/-- At the start of a block the phis write. -/
theorem writesAt_entry (hb : f.block? b = some blk) : f.WritesAt v (.entry b) ↔ v ∈ blk.phis.filterMap Phi.virt? := by
  refine ⟨fun h => ?_, .phi hb⟩
  generalize hp : Position.entry b = p at h
  cases h with
  | code => cases hp
  | phi hb' hv =>
    cases hp
    obtain rfl := Option.some.inj (hb.symm.trans hb')
    exact hv

/-- Where a register is read it is not written. -/
theorem ReadsAt.not_writesAt (h : f.ReadsAt v p) : ¬f.WritesAt v p := by
  cases h with
  | code => exact WritesAt.not_readAt _ _
  | phi => exact WritesAt.not_readAt _ _

/-- Registers are written at positions for writes. -/
theorem WritesAt.isWrite (h : f.WritesAt v p) : p.isWrite := by
  cases h with
  | @code b k => exact decide_eq_true (show (2 * k + 2) % 2 = 0 by omega)
  | phi => rfl

/-- A block that writes a register defines it. -/
theorem WritesAt.defines (h : f.WritesAt v p) : f.Defines v p.block := by
  cases h with
  | code hb hi hv => exact ⟨_, hb, .inr ⟨_, List.mem_of_getElem? hi, hv⟩⟩
  | phi hb hv => exact ⟨_, hb, .inl hv⟩

/-- Instruction `k` of a block is what lies behind a position. -/
def Around (p : Position) (k : Nat) : Prop := p.slot = 2 * k ∨ p.slot = 2 * k + 1

/-- A register is live where it is read. -/
theorem ReadsAt.liveAt (h : f.ReadsAt v p) : ∃ k, Around p k ∧ f.LiveAt v p.block k := by
  cases h with
  | @code b k blk i hb hi hv => exact ⟨k, .inr rfl, .use hb hi hv⟩
  | @phi b s blk next hb hs hnext hv => exact ⟨blk.code.length, .inr rfl, .phi hb (successors_eq hb ▸ hs) hnext hv⟩

/-- A step of a path to a position that does not write `v`. -/
theorem Goes.liveAt (hpq : f.Goes p q) (hq : ¬f.WritesAt v q) (hk : Around q k) (h : f.LiveAt v q.block k) :
    ∃ j, Around p j ∧ f.LiveAt v p.block j := by
  cases hpq with
  | @slot b n blk hb hn =>
    have hk : n + 1 = 2 * k ∨ n + 1 = 2 * k + 1 := hk
    rcases hk with heq | heq
    · -- The step passes the write of the instruction before.
      obtain ⟨j, rfl⟩ : ∃ j, k = j + 1 := Nat.exists_eq_add_one.2 (by omega)
      have hn : @LT.lt Nat _ n (2 * blk.code.length + 1) := by
        rw [Position.lt_def] at hn
        simp only [Block.stop, Position.exit, Position.readAt] at hn
        omega
      obtain ⟨i, hi⟩ : ∃ i, blk.code[j]? = some i := ⟨_, List.getElem?_eq_getElem (show j < blk.code.length by omega)⟩
      have hv : v ∉ virtRegs i.defs := by
        intro hmem
        have hwrite : f.WritesAt v (.writeAt b j) := .code hb hi hmem
        rw [Position.writeAt, show 2 * j + 2 = n + 1 by omega] at hwrite
        exact hq hwrite
      exact ⟨j, .inr (show n = 2 * j + 1 by omega), .pass hb hi hv h⟩
    · exact ⟨k, .inl (show n = 2 * k by omega), h⟩
  | @edge b s blk hb hs =>
    have hk : 0 = 2 * k ∨ 0 = 2 * k + 1 := hk
    obtain rfl : k = 0 := by omega
    obtain ⟨next, hnext⟩ := h.exists_block
    have hv : v ∉ next.phis.filterMap Phi.virt? := fun hmem => hq (.phi hnext hmem)
    exact ⟨blk.code.length, .inr rfl, .edge hb (successors_eq hb ▸ hs) hnext hv h⟩

/-- A register is live where it is awaited. -/
theorem Awaits.liveAt (h : f.Awaits v p) : ∃ k, Around p k ∧ f.LiveAt v p.block k := by
  induction h with
  | here h => exact h.liveAt
  | next hpq h =>
    obtain ⟨k, hk, hlive⟩ := h.liveAt
    exact hpq.liveAt h.not_writesAt hk hlive
  | pass hpq hq _ ih =>
    obtain ⟨k, hk, hlive⟩ := ih
    exact hpq.liveAt hq hk hlive

theorem Awaits.covers (h : f.Awaits v p) (hw : f.OneWidth) (hf : f.Structured) : (f.life v).covers p := by
  obtain ⟨k, hk, hlive⟩ := h.liveAt
  obtain ⟨hwrite, hread⟩ := covers_of_liveAt hw hf hlive
  obtain ⟨b, n⟩ := p
  rcases hk with rfl | rfl
  · exact hwrite
  · exact hread

end Function

namespace Lifetimes

variable {f : Function} {t : Target} {v : VirtReg} {p : Position} {i : Interval}

/-- The interval of a register that is live anywhere is the only one of the register. -/
theorem mem_intervals_compute (h : (f.life v).covers p) :
    i ∈ (compute f t).intervals ∧ i.register = v ↔ i = f.life v := by
  constructor
  · rintro ⟨hi, rfl⟩
    exact Function.eq_life_of_mem hi
  · rintro rfl
    exact ⟨Function.life_mem h, Note.interval_register⟩

/-- Lifetimes of a closed function are computed. -/
theorem ofFunction_eq_ok (h : f.Closed) : ofFunction f t = .ok (compute f t) := by
  rw [ofFunction, h.strayBlock?_eq_none]

/-- Only a function that names no stray block has lifetimes. -/
theorem closed_of_ofFunction {lt : Lifetimes} (h : ofFunction f t = .ok lt) : f.Closed ∧ lt = compute f t := by
  rw [ofFunction] at h
  split at h
  case h_1 => cases h
  case h_2 hnone => exact ⟨Function.closed_of_strayBlock? hnone, (Except.ok.inj h).symm⟩

/-- **Soundness of lifetimes.** In a function whose loops are entered through their headers, the lifetimes hold
exactly one interval for a register that is awaited at a position, and that interval covers the position. -/
theorem ofFunction_covers (f : Function) (t : Target) (hclosed : f.Closed) (hf : f.Structured) (hw : f.OneWidth) :
    ∃ lt, ofFunction f t = .ok lt ∧
      ∀ v p, f.Awaits v p → ∃ i, (∀ j, j ∈ lt.intervals ∧ j.register = v ↔ j = i) ∧ i.covers p := by
  refine ⟨compute f t, ofFunction_eq_ok hclosed, fun v p h => ?_⟩
  have hcovers := h.covers hw hf
  exact ⟨f.life v, fun j => mem_intervals_compute hcovers, hcovers⟩

/-- A loop that takes the value of one register from another, over and over. -/
def countdown : Function :=
  ⟨"countdown",
    [⟨"start", [],
      [.mov (.imm .quad 9) (.reg .quad (.virt ⟨0, .quad⟩)), .mov (.imm .quad 2) (.reg .quad (.virt ⟨1, .quad⟩))],
      .goto 1, []⟩,
    ⟨"header", [], [.compare .cmp (.imm .quad 0) (.reg .quad (.virt ⟨0, .quad⟩))], .branch .less 3 2, [1, 2]⟩,
    ⟨"body", [], [.arith .sub (.reg .quad (.virt ⟨1, .quad⟩)) (.reg .quad (.virt ⟨0, .quad⟩))], .goto 1, []⟩,
    ⟨"end", [], [], .ret, []⟩]⟩

/-- The end of the loop is covered by the interval of the register that only the next round reads. -/
theorem ofFunction_covers_countdown :
    countdown.Closed ∧ countdown.Structured ∧ countdown.OneWidth ∧ countdown.Awaits ⟨1, .quad⟩ (.exit 2 1) ∧
      ∃ lt, ofFunction countdown .standard = .ok lt ∧
        ∃ i, (∀ j, j ∈ lt.intervals ∧ j.register = ⟨1, .quad⟩ ↔ j = i) ∧ i.covers (.exit 2 1) := by
  have hawaits : countdown.Awaits ⟨1, .quad⟩ (.exit 2 1) := by
    have hread : countdown.ReadsAt ⟨1, .quad⟩ (.readAt 2 0) := .code rfl rfl (by decide)
    have hdefines : ¬countdown.Defines ⟨1, .quad⟩ 1 ∧ ¬countdown.Defines ⟨1, .quad⟩ 2 := by decide
    have hheader : ∀ n, ¬countdown.WritesAt ⟨1, .quad⟩ ⟨1, n⟩ := fun n h => hdefines.1 h.defines
    have hbody : ∀ n, ¬countdown.WritesAt ⟨1, .quad⟩ ⟨2, n⟩ := fun n h => hdefines.2 h.defines
    have hback : countdown.Goes (.exit 2 1) (.entry 1) := .edge (f := countdown) (b := 2) (s := 1) rfl (by decide)
    have hinto : countdown.Goes (.exit 1 1) (.entry 2) := .edge (f := countdown) (b := 1) (s := 2) rfl (by decide)
    refine .pass hback (hheader 0) ?_
    refine .pass (.slot rfl (by decide)) (hheader 1) (.pass (.slot rfl (by decide)) (hheader 2) ?_)
    refine .pass (.slot rfl (by decide)) (hheader 3) (.pass hinto (hbody 0) ?_)
    exact .next (.slot rfl (by decide)) hread
  have hclosed : countdown.Closed := by decide
  have hstructured : countdown.Structured := by decide
  have hwidth : countdown.OneWidth := by decide
  obtain ⟨lt, hlt, hcovers⟩ := ofFunction_covers countdown .standard hclosed hstructured hwidth
  exact ⟨hclosed, hstructured, hwidth, hawaits, lt, hlt, hcovers _ _ hawaits⟩

end Lifetimes

end RegAlloc
