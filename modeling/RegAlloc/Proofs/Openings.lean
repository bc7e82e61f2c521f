import RegAlloc.Proofs.Lifetimes

/-!
# Where lifetimes begin

The interval of a register covers more than the positions where the register is live: a loop makes it cover whole
blocks. What it does not do is to begin in a block without a reason, of which there are three: the block is part of a
loop at whose header the register is in the live set, the register is in the live set at the start of the block, or an
instruction of the block writes the register and does not read it (`opened_of_covers`).
-/

namespace RegAlloc

open Liveness

namespace Note

variable {v : VirtReg} {b : BlockId} {o : Option Segment} {l : List Note} {note : Note}

/-- Notes that leave a segment alone one by one leave it alone together. -/
theorem foldl_idle (h : ∀ note ∈ l, ∀ o, onSegment v b o note = o) : l.foldl (onSegment v b) o = o := by
  induction l generalizing o with
  | nil => rfl
  | cons note l ih =>
    rw [List.foldl_cons, h note List.mem_cons_self]
    exact ih fun note hnote => h note (List.mem_cons_of_mem _ hnote)

/-- Notes that other registers are live in the whole of a block. -/
theorem wholeBlock_idle {f : Function} {live : Live} {c : BlockId} (hv : v ∉ live) (h : note ∈ wholeBlock f live c)
    (o : Option Segment) : onSegment v b o note = o := by
  obtain ⟨w, hw, rfl⟩ := List.mem_map.1 h
  refine if_neg fun hand => hv ?_
  rwa [← hand.1]

end Note

/-- Why there is a segment of a register in a block, once the instructions from `k` on were walked: the register is in
the live set there, or the segment begins with a write. -/
def Opened (f : Function) (v : VirtReg) (b : BlockId) (blk : Block) (k : Nat) (o : Option Segment) : Prop :=
  ∀ s, o = some s → v ∈ f.liveBefore b blk k ∨
    ∃ j i, blk.code[j]? = some i ∧ v ∈ virtRegs i.defs ∧ v ∉ virtRegs i.uses ∧ s.first = 2 * j + 2

section Walk

variable {f : Function} {v : VirtReg} {b : BlockId} {blk : Block} {k : Nat} {o : Option Segment} {i : Instruction}

/-- At the end of the block there is a segment only if the register is live there. -/
theorem opened_exit (hw : f.OneWidth) :
    Opened f v b blk blk.code.length
      ((Note.phiReads f f.mentions b (blk.stop b) ++ Note.wholeBlock f (f.liveOut b) b).foldl
      (Note.onSegment v b) none) := by
  intro s hs
  rw [Function.liveBefore_length]
  by_contra hv
  rw [List.foldl_append, Note.foldl_idle fun note hnote =>
    Note.wholeBlock_idle (fun hout => hv (.inl hout)) hnote] at hs
  have hl : ∀ note ∈ Note.phiReads f f.mentions b (blk.stop b), note.ReadsAt (blk.stop b) :=
    fun _ => Note.readsAt_of_mem_phiReads
  -- What the phis of successors read is in the live set.
  have hmark : ¬∃ note ∈ Note.phiReads f f.mentions b (blk.stop b), note.Marks v (blk.stop b) := by
    rw [Note.marks_phiReads fun s next hs => Function.fixed_phiReads hw hs b]
    rintro ⟨-, s, hs, next, hnext, hread⟩
    exact hv (.inl ((Function.mem_liveOut hw).2 ⟨s, hs, .inl ⟨next, hnext, hread⟩⟩))
  rw [(Note.foldl_readsAt (b := b) hl rfl).2 hmark] at hs
  cases hs

/-- Walking one instruction more keeps the reason, or gives a new one. -/
theorem Opened.instruction (h : Opened f v b blk (k + 1) o) (hw : f.OneWidth) (hb : f.block? b = some blk)
    (hi : blk.code[k]? = some i) (live : Live) :
    Opened f v b blk k ((Note.instruction f.mentions b k i live).foldl (Note.onSegment v b) o) := by
  obtain ⟨huses, hdefs⟩ := Function.fixed_instruction hw hb (List.mem_of_getElem? hi)
  intro s hs
  rw [Function.mem_liveBefore hw hb hi]
  by_cases hu : v ∈ virtRegs i.uses
  · exact .inl (.inl hu)
  have hreads : ∀ note ∈ Note.reads f.mentions (.readAt b k) i.hints i.uses (remove f.mentions (virtRegs i.defs) live),
      note.ReadsAt (.readAt b k) := fun _ => Note.readsAt_of_mem_reads
  have hwrites : ∀ note ∈ Note.writes f.mentions (.writeAt b k) i.hints i.defs, note.WritesAt (.writeAt b k) :=
    fun _ => Note.writesAt_of_mem_writes
  rw [Note.instruction, List.foldl_append, (Note.foldl_readsAt (b := b) hreads rfl).2 fun hmark =>
    hu ((Note.marks_reads huses).1 hmark).2] at hs
  by_cases hd : v ∈ virtRegs i.defs
  · rw [(Note.foldl_writesAt (b := b) hwrites rfl).1 ((Note.marks_writes hdefs).2 ⟨rfl, hd⟩)] at hs
    obtain rfl := Option.some.inj hs
    refine .inr ⟨k, i, hi, hd, hu, ?_⟩
    cases o <;> rfl
  · rw [(Note.foldl_writesAt (b := b) hwrites rfl).2 fun hmark => hd ((Note.marks_writes hdefs).1 hmark).2] at hs
    exact (h s hs).imp_left fun hlive => .inr ⟨hlive, hd⟩

/-- Walking the code of the block, from the last instruction to the first, keeps a reason for each segment. -/
theorem Opened.code (h : Opened f v b blk k o) (hw : f.OneWidth) (hb : f.block? b = some blk)
    (hk : k ≤ blk.code.length) (live : Live) :
    Opened f v b blk 0
      ((Note.code f.mentions b (blk.code.zipIdx.take k).reverse live).foldl (Note.onSegment v b) o) := by
  induction k generalizing o live with
  | zero => simpa [Note.code] using h
  | succ k ih =>
    have hi := List.getElem?_eq_getElem (show k < blk.code.length from hk)
    rw [Note.reverse_take_succ hi, Note.code, List.foldl_append]
    exact ih (h.instruction hw hb hi live) (by omega) _

/-- Why there is a segment after the notes on its block. -/
theorem opened_block (hw : f.OneWidth) (hb : f.block? b = some blk) :
    Opened f v b blk 0
      ((Note.block f f.mentions b blk ((entries f f.mentions).drop (b + 1))).foldl (Note.onSegment v b) none) := by
  have hexit : Opened f v b blk blk.code.length
      ((Note.phiReads f f.mentions b (blk.stop b) ++ Note.wholeBlock f (f.liveOut b) b).foldl
        (Note.onSegment v b) none) :=
    opened_exit hw
  have hcode := hexit.code hw hb (Nat.le_refl _) (f.liveOut b)
  rw [List.take_of_length_le (by simp)] at hcode
  rw [block_eq hb, List.foldl_append, List.foldl_append, List.foldl_append]
  intro s hs
  by_cases hv : v ∈ f.liveBefore b blk 0
  · exact .inl hv
  have hloop : v ∉ f.liveIn b := fun hin => hv ((Function.mem_liveIn hw hb).1 hin).1
  have hidle : ∀ note ∈ blk.loopBody.flatMap (Note.wholeBlock f (f.liveIn b)), ∀ o, Note.onSegment v b o note = o := by
    intro note hnote
    obtain ⟨c, -, hnote⟩ := List.mem_flatMap.1 hnote
    exact Note.wholeBlock_idle hloop hnote
  have hl : ∀ note ∈ Note.phiWrites f.mentions b blk.phis (f.liveBefore b blk 0), note.WritesAt (.entry b) :=
    fun _ => Note.writesAt_of_mem_phiWrites
  have hmark : ¬∃ note ∈ Note.phiWrites f.mentions b blk.phis (f.liveBefore b blk 0), note.Marks v (.entry b) :=
    fun hmark => hv ((Note.marks_phiWrites (Function.fixed_phis hw hb)).1 hmark).2.2
  rw [Note.foldl_idle hidle, (Note.foldl_writesAt (b := b) hl rfl).2 hmark] at hs
  exact hcode s hs

end Walk

namespace Function

variable {f : Function} {v : VirtReg} {b s : BlockId} {blk : Block} {n : Nat}

/-- The notes on other blocks do not touch the segment of a register in a block, if the register is live in no loop
around it. -/
theorem foldl_notes_elsewhere (hloop : ¬∃ header, b ∈ f.loopBody header ∧ v ∈ f.liveIn header) {l : List (Block × Nat)}
    (hl : l ⊆ f.blocks.zipIdx) (hne : ∀ e ∈ l, e.2 ≠ b) (o : Option Segment) :
    (l.reverse.flatMap f.notes).foldl (Note.onSegment v b) o = o := by
  refine Note.foldl_idle fun note hnote => ?_
  obtain ⟨e, he, hnote⟩ := List.mem_flatMap.1 hnote
  have he := List.mem_reverse.1 he
  have hc : f.block? e.2 = some e.1 := List.mem_zipIdx_iff_getElem?.1 (hl he)
  rcases Note.block_elsewhere (v := v) (hne e he) hnote with hidle | ⟨hbody, w, hlive, rfl⟩
  · exact hidle
  · refine fun o => if_neg fun hand => hloop ⟨e.2, ?_, ?_⟩
    · rwa [loopBody, hc]
    · rw [liveIn, entries_getElem? hc, ← hand.1]
      exact hlive

/-- The segment of a register in a block depends on the notes on that block only, if the register is live in no loop
around it. -/
theorem segment?_eq_notes (hb : f.block? b = some blk)
    (hloop : ¬∃ header, b ∈ f.loopBody header ∧ v ∈ f.liveIn header) :
    (f.life v).range.segment? b = (f.notes (blk, b)).foldl (Note.onSegment v b) none := by
  obtain ⟨before, after, hsplit, hbefore, hafter, -⟩ := zipIdx_split hb
  have hleft : before ⊆ f.blocks.zipIdx := hsplit ▸ List.subset_append_left _ _
  have hright : after ⊆ f.blocks.zipIdx := fun e he => hsplit ▸ List.mem_append_right _ (List.mem_cons_of_mem _ he)
  rw [(life_spec f v).2.1, all_eq hsplit, List.foldl_append, List.foldl_append,
    foldl_notes_elsewhere hloop hright fun e he => (Nat.ne_of_lt (hafter e he)).symm,
    foldl_notes_elsewhere hloop hleft fun e he => Nat.ne_of_lt (hbefore e he)]

/-- Why the interval of a register covers a position: because of a loop around the block, because the register is in
the live set at the start of the block, or because an earlier instruction of the block writes it and does not read
it. -/
theorem opened_of_covers (hw : f.OneWidth) (h : (f.life v).covers ⟨b, n⟩) :
    (∃ header, b ∈ f.loopBody header ∧ v ∈ f.liveIn header) ∨ ∃ blk, f.block? b = some blk ∧ (v ∈ f.liveBefore b blk 0 ∨
      ∃ j i, blk.code[j]? = some i ∧ v ∈ virtRegs i.defs ∧ v ∉ virtRegs i.uses ∧ 2 * j + 2 ≤ n) := by
  obtain ⟨hone, hsegment, -⟩ := life_spec f v
  obtain ⟨s, hs, hfirst, -⟩ := hone.covers_iff_segment?.1 h
  by_cases hloop : ∃ header, b ∈ f.loopBody header ∧ v ∈ f.liveIn header
  · exact .inl hloop
  cases hb : f.block? b with
  | none =>
    have hne : ∀ e ∈ f.blocks.zipIdx, e.2 ≠ b := by
      rintro e he rfl
      cases hb.symm.trans (List.mem_zipIdx_iff_getElem?.1 he)
    have hnone : (Note.all f f.mentions).foldl (Note.onSegment v b) none = none :=
      foldl_notes_elsewhere hloop (List.Subset.refl _) hne none
    rw [hsegment, hnone] at hs
    cases hs
  | some blk =>
    rw [segment?_eq_notes hb hloop] at hs
    refine .inr ⟨blk, rfl, ?_⟩
    rcases opened_block hw hb s hs with hlive | ⟨j, i, hi, hd, hu, hj⟩
    · exact .inl hlive
    · exact .inr ⟨j, i, hi, hd, hu, hj ▸ hfirst⟩

end Function

end RegAlloc
