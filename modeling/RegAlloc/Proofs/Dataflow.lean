import RegAlloc.Proofs.Openings
import RegAlloc.Proofs.Paths

/-!
# Lifetimes of code without loops

The live sets of a function are usually given by equations: a register is live at the end of a block if it is live at
the start of a successor or a phi of a successor reads it there, and live at the start if the block reads it before
writing it, or if it is live at the end and the block does not write it (`LiveSets.Solve`). If control only goes
forward, the equations have one solution, and the intervals of a function agree with it at both ends of every block
(`Lifetimes.ends_exact`).

That an interval covers enough is known of all functions (`Function.life_segment?`). Here it is shown that it covers
no more. `Confined` follows the segment of a register while its block is walked from the end to the start: the segment
reaches the end of the block only if the register is live there, and the start only if the register is live where the
walk has come to.
-/

namespace RegAlloc

open Liveness

/-! ## Live sets as solutions of equations -/

namespace Block

/-- An instruction of the block reads `v`, and no instruction before it writes `v`. -/
def Exposes (blk : Block) (v : VirtReg) : Prop :=
  ∃ before i after, blk.code = before ++ i :: after ∧ v ∈ virtRegs i.uses ∧ ∀ j ∈ before, v ∉ virtRegs j.defs

/-- An instruction of the block writes `v`. -/
def Assigns (blk : Block) (v : VirtReg) : Prop := ∃ i ∈ blk.code, v ∈ virtRegs i.defs

/-- A phi of the block writes `v`. -/
def Chooses (blk : Block) (v : VirtReg) : Prop := ∃ φ ∈ blk.phis, φ.output.register? = some (.virt v)

/-- A phi of the block reads `v` when control comes from `pred`. -/
def Takes (blk : Block) (pred : BlockId) (v : VirtReg) : Prop :=
  ∃ φ ∈ blk.phis, ∃ o, φ.input? pred = some o ∧ v ∈ virtRegs (o.reads false true)

variable {blk : Block} {v : VirtReg} {pred : BlockId}

/-- A register that a phi writes is chosen by the block. -/
theorem mem_phis : v ∈ blk.phis.filterMap Phi.virt? ↔ blk.Chooses v := by
  simp only [List.mem_filterMap, Chooses, Phi.virt?, Option.bind_eq_some_iff]
  refine exists_congr fun φ => and_congr_right fun _ => ⟨?_, fun h => ⟨_, h, rfl⟩⟩
  rintro ⟨r, hr, hv⟩
  cases r with
  | phys p => cases hv
  | virt w =>
    cases hv
    exact hr

/-- A register that a phi reads on an edge is taken from there. -/
theorem mem_phiReads : v ∈ phiReads blk pred ↔ blk.Takes pred v := by
  simp only [phiReads, List.mem_flatMap, Takes]
  refine exists_congr fun φ => and_congr_right fun _ => ?_
  cases φ.input? pred with
  | none => simp [virtRegs]
  | some o => simp

end Block

/-- Registers that are live at the start and at the end of every block. -/
structure LiveSets where
  into : BlockId → VirtReg → Prop
  out : BlockId → VirtReg → Prop

/-- The sets solve the equations of a function. -/
structure LiveSets.Solve (l : LiveSets) (f : Function) : Prop where
  out_iff : ∀ b v, l.out b v ↔ ∃ s ∈ f.successors b, l.into s v ∨ ∃ next, f.block? s = some next ∧ next.Takes b v
  into_iff : ∀ b v, l.into b v ↔ ∃ blk, f.block? b = some blk ∧
    (blk.Exposes v ∨ l.out b v ∧ ¬blk.Assigns v) ∧ ¬blk.Chooses v

namespace Function

variable {f : Function} {v : VirtReg} {b : BlockId} {blk : Block}

/-- Control only goes forward, and no loops are declared. -/
def Forward (f : Function) : Prop := ∀ b, (∀ s ∈ f.successors b, b < s) ∧ f.loopBody b = []

instance (f : Function) : Decidable f.Forward :=
  decidable_of_iff (∀ b < f.blocks.length, (∀ s ∈ f.successors b, b < s) ∧ f.loopBody b = []) ⟨fun h b => by
    refine ⟨fun s hs => (h b (lt_length_of_mem_successors hs)).1 s hs, List.eq_nil_iff_forall_not_mem.2 fun s hs => ?_⟩
    have hnil := (h b (lt_length_of_mem_loopBody hs)).2
    exact List.not_mem_nil (hnil ▸ hs), fun h b _ => h b⟩

/-- What is in the live set before instructions: what they read before they write it, and what is live after them and
that they do not write. -/
theorem mem_foldr_through {names : List VirtReg} {live : Live} {code : List Instruction}
    (hfix : ∀ i ∈ code, Fixed names (virtRegs i.uses) ∧ Fixed names (virtRegs i.defs)) :
    v ∈ code.foldr (through names) live ↔
      (∃ before i after, code = before ++ i :: after ∧ v ∈ virtRegs i.uses ∧ ∀ j ∈ before, v ∉ virtRegs j.defs) ∨
        v ∈ live ∧ ¬∃ i ∈ code, v ∈ virtRegs i.defs := by
  induction code with
  | nil => simp
  | cons i code ih =>
    obtain ⟨huses, hdefs⟩ := hfix i List.mem_cons_self
    rw [List.foldr_cons, through, mem_add_of_fixed huses, mem_remove_of_fixed hdefs,
      ih fun j hj => hfix j (List.mem_cons_of_mem _ hj)]
    constructor
    · rintro (⟨⟨before, j, after, rfl, hj, hbefore⟩ | ⟨hlive, hnot⟩, hi⟩ | hi)
      · exact .inl ⟨i :: before, j, after, rfl, hj, by simpa using ⟨hi, hbefore⟩⟩
      · exact .inr ⟨hlive, by simpa using ⟨hi, fun j hj hv => hnot ⟨j, hj, hv⟩⟩⟩
      · exact .inl ⟨[], i, code, rfl, hi, by simp⟩
    · rintro (⟨before, j, after, hcode, hj, hbefore⟩ | ⟨hlive, hnot⟩)
      · rcases List.cons_eq_append_iff.1 hcode with ⟨rfl, hcons⟩ | ⟨before, rfl, rfl⟩
        · obtain ⟨rfl, rfl⟩ := List.cons.inj hcons
          exact .inr hj
        · refine .inl ⟨.inl ⟨before, j, after, rfl, hj, fun x hx => hbefore x (List.mem_cons_of_mem _ hx)⟩, ?_⟩
          exact hbefore i List.mem_cons_self
      · refine .inl ⟨.inr ⟨hlive, ?_⟩, fun hv => hnot ⟨i, List.mem_cons_self, hv⟩⟩
        rintro ⟨j, hj, hv⟩
        exact hnot ⟨j, List.mem_cons_of_mem _ hj, hv⟩

/-- What is in the live set before the first instruction of a block. -/
theorem mem_liveBefore_zero (hw : f.OneWidth) (hb : f.block? b = some blk) :
    v ∈ f.liveBefore b blk 0 ↔ blk.Exposes v ∨ v ∈ f.liveOut b ∧ ¬blk.Assigns v := by
  rw [liveBefore, List.drop_zero, mem_foldr_through fun i hi => fixed_instruction hw hb hi]
  rfl

/-- If control only goes forward, the live sets that are computed solve the equations. -/
theorem liveSets_solve (hw : f.OneWidth) (hf : f.Forward) :
    LiveSets.Solve ⟨fun b v => v ∈ f.liveIn b, fun b v => v ∈ f.liveOut b⟩ f where
  out_iff b v := by
    refine (mem_liveOut hw).trans (exists_congr fun s => and_congr_right fun hs => ?_)
    simp only [Block.mem_phiReads, (hf b).1 s hs, true_and]
    exact or_comm
  into_iff b v := by
    cases hb : f.block? b with
    | none => simp [liveIn_eq_nil hb]
    | some blk =>
      refine (mem_liveIn hw hb).trans ?_
      rw [mem_liveBefore_zero hw hb, Block.mem_phis]
      simp

/-- If control only goes forward, two solutions agree: the sets of a block follow from those of later blocks. -/
theorem solve_agree (hclosed : f.Closed) (hf : f.Forward) {l m : LiveSets} (hl : l.Solve f) (hm : m.Solve f)
    (b : BlockId) :
    (∀ v, l.out b v ↔ m.out b v) ∧ ∀ v, l.into b v ↔ m.into b v := by
  obtain ⟨n, hn⟩ : ∃ n, f.blocks.length - b = n := ⟨_, rfl⟩
  induction n using Nat.strongRecOn generalizing b with
  | ind n ih =>
    have hout : ∀ v, l.out b v ↔ m.out b v := by
      intro v
      rw [hl.out_iff, hm.out_iff]
      refine exists_congr fun s => and_congr_right fun hs => or_congr_left ?_
      have hlt : @LT.lt Nat _ b s := (hf b).1 s hs
      have hs' : @LT.lt Nat _ s f.blocks.length := hclosed b s (List.mem_append_left _ hs)
      exact (ih (f.blocks.length - s) (by omega) s rfl).2 v
    refine ⟨hout, fun v => ?_⟩
    rw [hl.into_iff, hm.into_iff, hout]

end Function

/-! ## The segment of a register in a block -/

namespace Note

variable {b : BlockId} {n m : Nat} {o : Option Segment}

/-- A write cuts a segment off at its slot. -/
theorem first_writeSegment : (writeSegment b n o).first = n := by
  cases o <;> rfl

/-- What reaches further than an access reached there before it. -/
theorem exists_of_le_last (hm : n < m) (h : m ≤ (o.map Segment.last).getD n) : ∃ s, o = some s ∧ m ≤ s.last := by
  cases o with
  | none => exact absurd h (Nat.not_le.2 hm)
  | some s => exact ⟨s, rfl, h⟩

end Note

section Walk

variable {f : Function} {v : VirtReg} {b : BlockId} {blk : Block} {k : Nat} {i : Instruction} {o : Option Segment}

/-- The segment of a register reaches no further than the register is live, once the instructions from `k` on were
walked. -/
structure Confined (f : Function) (v : VirtReg) (b : BlockId) (blk : Block) (k : Nat) (o : Option Segment) : Prop where
  start : (∃ s, o = some s ∧ s.first = 0) → v ∈ f.liveBefore b blk k
  stop : (∃ s, o = some s ∧ 2 * blk.code.length + 1 ≤ s.last) → v ∈ f.liveOut b

/-- The writes of an instruction begin the segment anew. -/
theorem Confined.afterWrites (hw : f.OneWidth) (hb : f.block? b = some blk) (h : Confined f v b blk (k + 1) o)
    (hi : blk.code[k]? = some i) :
    ∃ o₁, (Note.writes f.mentions (.writeAt b k) i.hints i.defs).foldl (Note.onSegment v b) o = o₁ ∧
      ((∃ s, o₁ = some s ∧ s.first = 0) → v ∈ f.liveBefore b blk (k + 1) ∧ v ∉ virtRegs i.defs) ∧
      ((∃ s, o₁ = some s ∧ 2 * blk.code.length + 1 ≤ s.last) → v ∈ f.liveOut b) := by
  obtain ⟨_, hdefs⟩ := Function.fixed_instruction hw hb (List.mem_of_getElem? hi)
  have hk : k < blk.code.length := (List.getElem?_eq_some_iff.1 hi).1
  have hl : ∀ note ∈ Note.writes f.mentions (.writeAt b k) i.hints i.defs, note.WritesAt (.writeAt b k) :=
    fun _ => Note.writesAt_of_mem_writes
  obtain ⟨hmark, hidle⟩ := Note.foldl_writesAt (v := v) (b := b) (o := o) hl rfl
  rw [Note.marks_writes hdefs] at hmark hidle
  by_cases hd : v ∈ virtRegs i.defs
  · rw [hmark ⟨rfl, hd⟩]
    refine ⟨_, rfl, ?_, ?_⟩
    · rintro ⟨s, hs, hzero⟩
      obtain rfl := Option.some.inj hs
      rw [Note.first_writeSegment] at hzero
      cases hzero
    · rintro ⟨s, hs, hlast⟩
      obtain rfl := Option.some.inj hs
      refine h.stop (Note.exists_of_le_last ?_ (Note.last_writeSegment _ _ _ ▸ hlast))
      simp only [Position.writeAt]
      omega
  · rw [hidle fun hand => hd hand.2]
    exact ⟨o, rfl, fun hzero => ⟨h.start hzero, hd⟩, h.stop⟩

/-- Walking one more instruction. -/
theorem Confined.instruction (hw : f.OneWidth) (hb : f.block? b = some blk) (h : Confined f v b blk (k + 1) o)
    (hi : blk.code[k]? = some i) (live : Live) :
    Confined f v b blk k ((Note.instruction f.mentions b k i live).foldl (Note.onSegment v b) o) := by
  obtain ⟨huses, _⟩ := Function.fixed_instruction hw hb (List.mem_of_getElem? hi)
  have hk : k < blk.code.length := (List.getElem?_eq_some_iff.1 hi).1
  obtain ⟨o₁, ho₁, hstart, hstop⟩ := h.afterWrites hw hb hi
  rw [Note.instruction, List.foldl_append, ho₁]
  have hl : ∀ note ∈ Note.reads f.mentions (.readAt b k) i.hints i.uses (remove f.mentions (virtRegs i.defs) live),
      note.ReadsAt (.readAt b k) := fun _ => Note.readsAt_of_mem_reads
  obtain ⟨hmark, hidle⟩ := Note.foldl_readsAt (v := v) (b := b) (o := o₁) hl rfl
  rw [Note.marks_reads huses] at hmark hidle
  by_cases hu : v ∈ virtRegs i.uses
  · rw [hmark ⟨rfl, hu⟩]
    refine ⟨fun _ => (Function.mem_liveBefore hw hb hi).2 (.inl hu), ?_⟩
    rintro ⟨s, hs, hlast⟩
    obtain rfl := Option.some.inj hs
    refine hstop (Note.exists_of_le_last ?_ (Note.last_readSegment _ _ _ ▸ hlast))
    simp only [Position.readAt]
    omega
  · rw [hidle fun hand => hu hand.2]
    exact ⟨fun hzero => (Function.mem_liveBefore hw hb hi).2 (.inr (hstart hzero)), hstop⟩

/-- Walking all instructions of a block, the last one first. -/
theorem Confined.code (hw : f.OneWidth) (hb : f.block? b = some blk) (hk : k ≤ blk.code.length)
    (h : Confined f v b blk k o) (live : Live) :
    Confined f v b blk 0
      ((Note.code f.mentions b (blk.code.zipIdx.take k).reverse live).foldl (Note.onSegment v b) o) := by
  induction k generalizing o live with
  | zero => simpa [Note.code] using h
  | succ k ih =>
    have hi := List.getElem?_eq_getElem (show k < blk.code.length from hk)
    rw [Note.reverse_take_succ hi, Note.code, List.foldl_append]
    exact ih (by omega) (h.instruction hw hb hi live) _

/-- When the walk of a block begins, only a register that is live at its end has a segment. -/
theorem confined_exit (hw : f.OneWidth) :
    Confined f v b blk blk.code.length
      ((Note.phiReads f f.mentions b (blk.stop b) ++ Note.wholeBlock f (f.liveOut b) b).foldl
      (Note.onSegment v b) none) := by
  by_cases hv : v ∈ f.liveOut b
  · exact ⟨fun _ => by rwa [Function.liveBefore_length], fun _ => hv⟩
  have hl : ∀ note ∈ Note.phiReads f f.mentions b (blk.stop b), note.ReadsAt (blk.stop b) :=
    fun _ => Note.readsAt_of_mem_phiReads
  have hphi := (Note.foldl_readsAt (v := v) (b := b) (o := none) hl rfl).2
  rw [Note.marks_phiReads fun s next hnext => Function.fixed_phiReads hw hnext b] at hphi
  rw [List.foldl_append, hphi, Note.foldl_idle fun _ => Note.wholeBlock_idle hv]
  · constructor <;> simp
  · rintro ⟨_, s, hs, next, hnext, hread⟩
    exact hv ((Function.mem_liveOut hw).2 ⟨s, hs, .inl ⟨next, hnext, hread⟩⟩)

/-- The segment of a register after the notes on its block, if the block is not the header of a loop. -/
theorem confined_block (hw : f.OneWidth) (hb : f.block? b = some blk) (hloop : blk.loopBody = []) :
    Confined f v b blk 0 ((f.notes (blk, b)).foldl (Note.onSegment v b) none) := by
  have hexit : Confined f v b blk blk.code.length _ := confined_exit hw
  have hcode := hexit.code hw hb (Nat.le_refl _) (f.liveOut b)
  rw [List.take_of_length_le (by simp)] at hcode
  rw [Function.notes, block_eq hb, hloop, List.flatMap_nil, List.append_nil, List.foldl_append, List.foldl_append]
  generalize (Note.code f.mentions b blk.code.zipIdx.reverse (f.liveOut b)).foldl (Note.onSegment v b) _ = o at hcode ⊢
  have hl : ∀ note ∈ Note.phiWrites f.mentions b blk.phis (f.liveBefore b blk 0), note.WritesAt (.entry b) :=
    fun _ => Note.writesAt_of_mem_phiWrites
  obtain ⟨hmark, hidle⟩ := Note.foldl_writesAt (v := v) (b := b) (o := o) hl rfl
  rw [Note.marks_phiWrites (Function.fixed_phis hw hb)] at hmark hidle
  by_cases hphi : v ∈ blk.phis.filterMap Phi.virt? ∧ v ∈ f.liveBefore b blk 0
  · rw [hmark ⟨rfl, hphi⟩]
    refine ⟨fun _ => hphi.2, ?_⟩
    rintro ⟨s, hs, hlast⟩
    obtain rfl := Option.some.inj hs
    exact hcode.stop (Note.exists_of_le_last (Nat.zero_lt_succ _) (Note.last_writeSegment _ _ _ ▸ hlast))
  · rw [hidle fun h => hphi h.2]
    exact hcode

end Walk

namespace Function

variable {f : Function} {v : VirtReg} {b : BlockId} {blk : Block}

/-- Without loops, the interval of a register covers the end of a block exactly if the register is in the live set
there, and the start exactly if it is in the live set before the first instruction. -/
theorem covers_ends (hw : f.OneWidth) (hb : f.block? b = some blk) (hloops : ∀ c, f.loopBody c = []) :
    ((f.life v).covers (blk.stop b) = true ↔ v ∈ f.liveOut b) ∧
      ((f.life v).covers (.entry b) = true ↔ v ∈ f.liveBefore b blk 0) := by
  have hkept := (life_segment? (v := v) hw hb).1
  have hloop : blk.loopBody = [] := by
    have hnil := hloops b
    rwa [loopBody, hb] at hnil
  have hconf := confined_block (v := v) hw hb hloop
  rw [← segment?_eq_notes hb (by simp [hloops])] at hconf
  have hone := (life_spec f v).1
  refine ⟨⟨fun hcov => ?_, fun hv => ?_⟩, ⟨fun hcov => ?_, fun hv => ?_⟩⟩
  · obtain ⟨s, hs, _, hlast⟩ := hone.covers_iff_segment?.1 hcov
    exact hconf.stop ⟨s, hs, hlast⟩
  · exact covers_life_of_spans (hkept.live _ (Nat.le_refl _) (by rwa [liveBefore_length])).2
  · obtain ⟨s, hs, hfirst, _⟩ := hone.covers_iff_segment?.1 hcov
    exact hconf.start ⟨s, hs, Nat.le_zero.1 hfirst⟩
  · exact covers_life_of_spans (hkept.live 0 (Nat.zero_le _) hv).1

end Function

namespace Lifetimes

variable {f : Function} {t : Target}

/-- A register has an interval that covers a position if its interval in the function does. -/
theorem exists_interval_covers {v : VirtReg} {p : Position} :
    (∃ i ∈ (compute f t).intervals, i.register = v ∧ i.covers p) ↔ (f.life v).covers p = true := by
  constructor
  · rintro ⟨i, hi, rfl, hcov⟩
    rwa [Function.eq_life_of_mem hi] at hcov
  · exact fun hcov => ⟨_, Function.life_mem hcov, Note.interval_register, hcov⟩

/-- In code without loops the equations for live sets have one solution, and the lifetimes agree with it at both ends
of every block. A register has an interval that covers the end of a block if it is live there. It has one that covers
the start if it is live there, or if a phi of the block writes it and it is live after the phis. -/
theorem ends_exact (f : Function) (t : Target) (hclosed : f.Closed) (hf : f.Forward) (hw : f.OneWidth) :
    ∃ lt, ofFunction f t = .ok lt ∧ ∃ l : LiveSets, (∀ m : LiveSets, m.Solve f ↔ m = l) ∧
      ∀ v b blk, f.block? b = some blk →
        ((∃ i ∈ lt.intervals, i.register = v ∧ i.covers (blk.stop b)) ↔ l.out b v) ∧
        ((∃ i ∈ lt.intervals, i.register = v ∧ i.covers (.entry b)) ↔
          l.into b v ∨ blk.Chooses v ∧ (blk.Exposes v ∨ l.out b v ∧ ¬blk.Assigns v)) := by
  have hsolve := Function.liveSets_solve hw hf
  refine ⟨compute f t, ofFunction_eq_ok hclosed, _, fun m =>
    ⟨fun hm => ?_, fun hm => hm ▸ hsolve⟩, fun v b blk hb => ?_⟩
  · have hagree := Function.solve_agree hclosed hf hm hsolve
    cases m
    simp only [LiveSets.mk.injEq]
    exact ⟨funext fun b => funext fun v => propext ((hagree b).2 v), funext fun b => funext fun v =>
      propext ((hagree b).1 v)⟩
  · obtain ⟨hstop, hentry⟩ := Function.covers_ends (v := v) hw hb fun c => (hf c).2
    rw [exists_interval_covers, exists_interval_covers, hstop, hentry, Function.mem_liveBefore_zero hw hb]
    refine ⟨Iff.rfl, ?_⟩
    have hin : v ∈ f.liveIn b ↔ (blk.Exposes v ∨ v ∈ f.liveOut b ∧ ¬blk.Assigns v) ∧ ¬blk.Chooses v := by
      simpa [hb] using hsolve.into_iff b v
    dsimp only
    rw [hin]
    by_cases hphi : blk.Chooses v <;> simp [hphi]

/-- Code that takes the larger of two numbers, through a phi that is read and one that is not. -/
def larger : Function :=
  let reg : Nat → Operand := fun n => .reg .quad (.virt ⟨n, .quad⟩)
  ⟨"larger",
    [⟨"start", [], [.mov (.imm .quad 3) (reg 0), .mov (.imm .quad 5) (reg 1), .compare .cmp (reg 0) (reg 1)],
        .branch .less 1 2, []⟩,
      ⟨"left", [], [.mov (reg 0) (reg 2), .mov (.imm .quad 0) (reg 1)], .goto 3, []⟩,
      ⟨"right", [], [.mov (reg 1) (reg 3)], .goto 3, []⟩,
      ⟨"end", [⟨reg 4, [(1, reg 2), (2, reg 3)]⟩, ⟨reg 5, [(1, reg 2), (2, reg 3)]⟩],
        [.mov (reg 4) (.phys .quad .a)], .ret, []⟩]⟩

/-- The second number is live at the end of the first block, but not where it is written for nothing. The phi that is
read is covered at the start of its block although it is not live there, and the one that is not read is not. -/
theorem ends_exact_larger :
    larger.Closed ∧ larger.Forward ∧ larger.OneWidth ∧
      ∃ lt, ofFunction larger .standard = .ok lt ∧ ∃ l : LiveSets, (∀ m : LiveSets, m.Solve larger ↔ m = l) ∧
        l.out 0 ⟨1, .quad⟩ ∧ ¬l.out 1 ⟨1, .quad⟩ ∧ ¬l.into 3 ⟨4, .quad⟩ ∧
        (∃ i ∈ lt.intervals, i.register = ⟨4, .quad⟩ ∧ i.covers (.entry 3)) ∧
        ¬∃ i ∈ lt.intervals, i.register = ⟨5, .quad⟩ ∧ i.covers (.entry 3) := by
  have hclosed : larger.Closed := by decide
  have hf : larger.Forward := by decide
  have hw : larger.OneWidth := by decide
  obtain ⟨lt, hlt, l, hl, hends⟩ := ends_exact larger .standard hclosed hf hw
  obtain rfl := Except.ok.inj ((ofFunction_eq_ok hclosed).symm.trans hlt)
  refine ⟨hclosed, hf, hw, _, hlt, l, hl, (hends ⟨1, .quad⟩ 0 _ rfl).1.1 (by decide), fun hout => ?_,
    fun hin => ?_, by decide, by decide⟩
  · exact absurd ((hends ⟨1, .quad⟩ 1 _ rfl).1.2 hout) (by decide)
  · obtain ⟨blk, hblk, -, hphi⟩ := (((hl l).2 rfl).into_iff 3 ⟨4, .quad⟩).1 hin
    obtain rfl := Option.some.inj hblk
    exact hphi ⟨_, List.mem_cons_self, rfl⟩

end Lifetimes

end RegAlloc
