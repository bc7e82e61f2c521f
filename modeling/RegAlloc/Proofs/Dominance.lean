import RegAlloc.Proofs.Openings
import RegAlloc.Proofs.Paths

/-!
# Where registers begin

A register begins where a phi, a move or a `setcc` gives it a value, and may be updated afterwards
(`Function.Begins`): the place where it begins is the only one, it dominates every read, and all updates stand in the
same block. If moreover every block is reached, and control goes back only to the headers of loops
(`Function.Proper`), then every block is reached by going forward (`Proper.ahead`), so that a register begins in a
block before all blocks at whose start it is live (`Begins.liveAt_block`). If also all loops are entered through their
headers, the interval of a register starts where the register begins (`Begins.le_of_covers`, `Begins.mem_sites`).
-/

namespace RegAlloc

namespace Instruction

variable {i : Instruction} {v : VirtReg}

/-- The instruction gives `v` a value, whatever value it had. -/
def introduces (v : VirtReg) : Instruction → Bool
  | .mov _ dest => dest.content = .reg (.virt v)
  | .setcc _ output => output.content = .reg (.virt v)
  | _ => false

/-- The instruction computes the value of `v` from the one it had. -/
def updates (v : VirtReg) : Instruction → Bool
  | .arith _ _ right => right.content = .reg (.virt v)
  | .neg operand => operand.content = .reg (.virt v)
  | _ => false

/-- A register that an instruction introduces is written by it. -/
theorem mem_defs_of_introduces (h : i.introduces v) : v ∈ virtRegs i.defs := by
  cases i with
  | mov src dest => exact mem_virtRegs_writes.2 (of_decide_eq_true h)
  | setcc relation output => exact mem_virtRegs_writes.2 (of_decide_eq_true h)
  | _ => cases h

/-- A register that an instruction updates is read by it. -/
theorem mem_uses_of_updates (h : i.updates v) : v ∈ virtRegs i.uses := by
  cases i with
  | arith op left right => exact Function.mem_virtRegs_append.2 (.inr (mem_virtRegs_reads (of_decide_eq_true h)))
  | neg operand => exact mem_virtRegs_reads (of_decide_eq_true h)
  | _ => cases h

end Instruction

/-- Where the phis and the instructions of a block give `v` a value, whatever value it had. -/
def Block.introductions (blk : Block) (b : BlockId) (v : VirtReg) : List Position :=
  (blk.phis.filter (fun φ => φ.virt? = some v)).map (fun _ => .entry b) ++
    (blk.code.zipIdx.filter (fun e => e.1.introduces v)).map (fun e => .writeAt b e.2)

namespace Function

variable {f : Function} {v : VirtReg} {b c s : BlockId} {blk : Block} {k : Nat} {i : Instruction} {p q : Position}

/-! ## Blocks that are reached -/

/-- A path leads from the first block to a block. -/
inductive Reachable (f : Function) : BlockId → Prop where
  | entry : Reachable f 0
  | step {b c : BlockId} (h : Reachable f b) (hs : c ∈ f.successors b) : Reachable f c

/-- A path that goes only forward leads from the first block to a block. -/
inductive Ahead (f : Function) : BlockId → Prop where
  | entry : Ahead f 0
  | step {b c : BlockId} (h : Ahead f b) (hs : c ∈ f.successors b) (hlt : @LT.lt Nat _ b c) : Ahead f c

/-- A block is reached by going forward, and so are the headers of the loops around it: where control goes back, it
goes to a block that it came through. -/
theorem Reachable.ahead (h : f.Reachable b) (hf : f.Structured) :
    f.Ahead b ∧ ∀ header, f.Loop header → b ∈ f.loopBody header → f.Ahead header := by
  induction h with
  | entry =>
    refine ⟨.entry, fun header hloop hbody => ?_⟩
    obtain rfl : header = 0 := Nat.le_zero.1 (hloop.after 0 hbody)
    exact .entry
  | @step b c _ hs ih =>
    obtain ⟨hahead, hheaders⟩ := ih
    have hc : f.Ahead c := by
      rcases hf b c hs with hlt | ⟨hbody, hloop⟩
      · exact .step hahead hs hlt
      · exact hheaders c hloop hbody
    refine ⟨hc, fun header hloop hbody => ?_⟩
    by_cases hb : b ∈ f.loopBody header
    · exact hheaders header hloop hb
    · rwa [← hloop.entered b c hs hbody hb]

/-! ## Dominance -/

/-- A path leads from the start of the function to a position, and passes none of the positions that are off. -/
inductive Reaches (f : Function) (off : Position → Prop) : Position → Prop where
  | start (h : ¬off (.entry 0)) : Reaches f off (.entry 0)
  | go {p q : Position} (h : Reaches f off p) (hpq : f.Goes p q) (hq : ¬off q) : Reaches f off q

/-- Every path from the start of the function to `q` passes `p`. -/
def Dominates (f : Function) (p q : Position) : Prop := ¬f.Reaches (fun r => r = p) q

/-- A position that is reached off some positions is reached off fewer of them. -/
theorem Reaches.mono {off off' : Position → Prop} (h : f.Reaches off q) (hoff : ∀ r, off' r → off r) :
    f.Reaches off' q := by
  induction h with
  | start h => exact .start fun hr => h (hoff _ hr)
  | go _ hpq hq ih => exact .go ih hpq fun hr => hq (hoff _ hr)

/-- A path goes on from before an instruction to where it reads, or from there to the end of the block. -/
theorem Reaches.read {off : Position → Prop} (h : f.Reaches off ⟨b, 2 * k⟩) (hb : f.block? b = some blk)
    (hk : k ≤ blk.code.length) (hoff : ¬off (.readAt b k)) : f.Reaches off (.readAt b k) := by
  have hlt : 2 * k < 2 * blk.code.length + 1 := by omega
  exact .go h (.slot hb (.inr ⟨rfl, hlt⟩)) hoff

/-- Where a register is live, a path that has not passed a write of it goes on to a read of it. -/
theorem LiveAt.exists_read (h : f.LiveAt v b k) (hr : f.Reaches (f.WritesAt v) ⟨b, 2 * k⟩) :
    ∃ q, f.ReadsAt v q ∧ f.Reaches (f.WritesAt v) q := by
  induction h with
  | @use b k blk i hb hi hv =>
    have hk := (List.getElem?_eq_some_iff.1 hi).1
    exact ⟨_, .code hb hi hv, hr.read hb (Nat.le_of_lt hk) (WritesAt.not_readAt b k)⟩
  | @pass b k blk i hb hi hv _ ih =>
    have hk := (List.getElem?_eq_some_iff.1 hi).1
    have hlt : 2 * k + 1 < 2 * blk.code.length + 1 := by omega
    refine ih (.go (hr.read hb (Nat.le_of_lt hk) (WritesAt.not_readAt b k)) (.slot hb (.inr ⟨rfl, hlt⟩))
      fun hwrite => ?_)
    exact hv ((writesAt_writeAt hb hi).1 hwrite)
  | @phi b s blk next hb hs hnext hv =>
    exact ⟨_, .phi hb (successors_eq hb ▸ hs) hnext hv, hr.read hb (Nat.le_refl _) (WritesAt.not_readAt b _)⟩
  | @edge b s blk next hb hs hnext hv _ ih =>
    refine ih (.go (hr.read hb (Nat.le_refl _) (WritesAt.not_readAt b _)) (.edge hb (successors_eq hb ▸ hs))
      fun hwrite => ?_)
    exact hv ((writesAt_entry hnext).1 hwrite)

/-! ## Registers -/

/-- Where a function gives `v` a value, whatever value it had. -/
def introductions (f : Function) (v : VirtReg) : List Position :=
  f.blocks.zipIdx.flatMap (fun e => e.1.introductions e.2 v)

/-- The register begins at `p` and nowhere else, it is read only where it has begun, and updated only in the block
where it begins. -/
structure Begins (f : Function) (v : VirtReg) (p : Position) : Prop where
  once : f.introductions v = [p]
  dominates : ∀ q, f.ReadsAt v q → f.Dominates p q
  updates : ∀ b blk, f.block? b = some blk → ∀ i ∈ blk.code, v ∈ virtRegs i.defs →
    i.introduces v ∨ i.updates v ∧ b = p.block

/-- Control and registers are in order: all blocks are reached, control goes back to the headers of loops only, a
number has one width, and every register begins somewhere. -/
structure Proper (f : Function) : Prop where
  reachable : ∀ b < f.blocks.length, f.Reachable b
  structured : f.Structured
  width : f.OneWidth
  begins : ∀ v ∈ f.mentions, ∃ p, f.Begins v p

/-- Every block of a proper function is reached by going forward. -/
theorem Proper.ahead (h : f.Proper) (hb : f.block? b = some blk) : f.Ahead b :=
  ((h.reachable b (List.getElem?_eq_some_iff.1 hb).1).ahead h.structured).1

/-- A phi introduces the register that it writes. -/
theorem mem_introductions_of_phis (hb : f.block? b = some blk) (hv : v ∈ blk.phis.filterMap Phi.virt?) :
    .entry b ∈ f.introductions v := by
  obtain ⟨φ, hφ, hv⟩ := List.mem_filterMap.1 hv
  refine List.mem_flatMap.2 ⟨(blk, b), List.mem_zipIdx_iff_getElem?.2 hb, List.mem_append_left _ ?_⟩
  exact List.mem_map.2 ⟨φ, List.mem_filter.2 ⟨hφ, decide_eq_true hv⟩, rfl⟩

/-- An instruction introduces a register where it writes it. -/
theorem mem_introductions_of_code (hb : f.block? b = some blk) (hi : blk.code[k]? = some i) (hv : i.introduces v) :
    .writeAt b k ∈ f.introductions v := by
  refine List.mem_flatMap.2 ⟨(blk, b), List.mem_zipIdx_iff_getElem?.2 hb, List.mem_append_right _ ?_⟩
  exact List.mem_map.2 ⟨(i, k), List.mem_filter.2 ⟨List.mem_zipIdx_iff_getElem?.2 hi, hv⟩, rfl⟩

/-- Where a register is introduced it is written. -/
theorem writesAt_of_mem_introductions (h : p ∈ f.introductions v) : f.WritesAt v p := by
  obtain ⟨⟨blk, b⟩, he, h⟩ := List.mem_flatMap.1 h
  have hb : f.block? b = some blk := List.mem_zipIdx_iff_getElem?.1 he
  rcases List.mem_append.1 h with h | h
  · obtain ⟨φ, hφ, rfl⟩ := List.mem_map.1 h
    obtain ⟨hφ, hv⟩ := List.mem_filter.1 hφ
    exact .phi hb (List.mem_filterMap.2 ⟨φ, hφ, of_decide_eq_true hv⟩)
  · obtain ⟨⟨i, k⟩, he, rfl⟩ := List.mem_map.1 h
    obtain ⟨he, hv⟩ := List.mem_filter.1 he
    exact .code hb (List.mem_zipIdx_iff_getElem?.1 he) (Instruction.mem_defs_of_introduces hv)

/-- A register that is live somewhere is mentioned. -/
theorem LiveAt.mem_mentions (h : f.LiveAt v b k) : v ∈ f.mentions := by
  induction h with
  | use hb hi hv => exact mem_mentions_of_code hb (List.mem_of_getElem? hi) (.inl hv)
  | pass _ _ _ _ ih => exact ih
  | phi _ _ hnext hv => exact mem_mentions_of_phiReads hnext hv
  | edge _ _ _ _ _ ih => exact ih

/-- A register that is read by every instruction of a block that writes it is live at the start of the block if it is
live anywhere in it. -/
theorem LiveAt.to_start (h : f.LiveAt v b k) (hb : f.block? b = some blk)
    (hv : ∀ i ∈ blk.code, v ∈ virtRegs i.defs → v ∈ virtRegs i.uses) : f.LiveAt v b 0 := by
  have hk := h.le_length hb
  induction k with
  | zero => exact h
  | succ k ih =>
    obtain ⟨i, hi⟩ : ∃ i, blk.code[k]? = some i := ⟨_, List.getElem?_eq_getElem (show k < blk.code.length by omega)⟩
    refine ih ?_ (by omega)
    by_cases hd : v ∈ virtRegs i.defs
    · exact .use hb hi (hv _ (List.mem_of_getElem? hi) hd)
    · exact .pass hb hi hd h

/-- A block with a successor is a block of the function. -/
theorem exists_block_of_mem_successors (h : s ∈ f.successors b) :
    ∃ blk, f.block? b = some blk ∧ s ∈ blk.exit.successors := by
  cases hb : f.block? b with
  | none =>
    rw [successors, hb] at h
    cases h
  | some blk => exact ⟨blk, rfl, successors_eq hb ▸ h⟩

namespace Begins

/-- Where a register begins it is written. -/
theorem writesAt (h : f.Begins v p) : f.WritesAt v p :=
  writesAt_of_mem_introductions (h.once ▸ List.mem_singleton.2 rfl)

/-- A phi that writes the register is where it begins. -/
theorem eq_entry (h : f.Begins v p) (hb : f.block? b = some blk) (hv : v ∈ blk.phis.filterMap Phi.virt?) :
    .entry b = p :=
  List.mem_singleton.1 (h.once ▸ mem_introductions_of_phis hb hv)

/-- An instruction that writes the register without reading it is where it begins. -/
theorem eq_writeAt (h : f.Begins v p) (hb : f.block? b = some blk) (hi : blk.code[k]? = some i)
    (hd : v ∈ virtRegs i.defs) (hu : v ∉ virtRegs i.uses) : .writeAt b k = p := by
  rcases h.updates b blk hb i (List.mem_of_getElem? hi) hd with hv | ⟨hv, -⟩
  · exact List.mem_singleton.1 (h.once ▸ mem_introductions_of_code hb hi hv)
  · exact absurd (Instruction.mem_uses_of_updates hv) hu

/-- A register is written only in the block where it begins. -/
theorem block_eq (h : f.Begins v p) (hd : f.Defines v b) : b = p.block := by
  obtain ⟨blk, hb, hv | ⟨i, hi, hv⟩⟩ := hd
  · exact congrArg Position.block (h.eq_entry hb hv)
  · rcases h.updates b blk hb i hi hv with hintro | ⟨-, heq⟩
    · obtain ⟨k, hk⟩ := List.getElem?_of_mem hi
      exact congrArg Position.block (List.mem_singleton.1 (h.once ▸ mem_introductions_of_code hb hk hintro))
    · exact heq

/-- A register is live at the start of the function only if it begins there. -/
theorem mem_phis_of_start (h : f.Begins v p) (hlive : f.LiveAt v 0 0) (hb : f.block? 0 = some blk) :
    v ∈ blk.phis.filterMap Phi.virt? := by
  by_contra hv
  obtain ⟨q, hread, hreach⟩ := hlive.exists_read (.start fun hwrite => hv ((writesAt_entry hb).1 hwrite))
  refine h.dominates q hread (hreach.mono ?_)
  rintro r rfl
  exact h.writesAt

/-- A register that is live at the start of a block, and does not begin there, begins in an earlier block, at whose
end it is live. -/
theorem liveAt_block (h : f.Begins v p) (hahead : f.Ahead b) (hb : f.block? b = some blk) (hlive : f.LiveAt v b 0)
    (hv : v ∉ blk.phis.filterMap Phi.virt?) :
    @LT.lt Nat _ p.block b ∧ ∃ first, f.block? p.block = some first ∧ f.LiveAt v p.block first.code.length := by
  induction hahead generalizing blk with
  | entry => exact absurd (h.mem_phis_of_start hlive hb) hv
  | @step b c _ hs hlt ih =>
    obtain ⟨prev, hprev, hs⟩ := exists_block_of_mem_successors hs
    have hexit : f.LiveAt v b prev.code.length := .edge hprev hs hb hv hlive
    by_cases hbegin : b = p.block
    · subst hbegin
      exact ⟨hlt, prev, hprev, hexit⟩
    · -- The block before does not write the register either.
      have hnot : ¬f.Defines v b := fun hd => hbegin (h.block_eq hd)
      have hcode : ∀ i ∈ prev.code, v ∈ virtRegs i.defs → v ∈ virtRegs i.uses := fun i hi hd =>
        absurd ⟨prev, hprev, .inr ⟨i, hi, hd⟩⟩ hnot
      obtain ⟨hbefore, hfirst⟩ := ih hprev (hexit.to_start hprev hcode) fun hmem => hnot ⟨prev, hprev, .inl hmem⟩
      exact ⟨Nat.lt_trans hbefore hlt, hfirst⟩

/-- A register that is in the live set at the start of a block begins in an earlier block, at whose end it is live. -/
theorem liveIn_block (h : f.Begins v p) (hf : f.Proper) (hv : v ∈ f.liveIn b) :
    @LT.lt Nat _ p.block b ∧ ∃ first, f.block? p.block = some first ∧ f.LiveAt v p.block first.code.length := by
  cases hb : f.block? b with
  | none =>
    rw [liveIn_eq_nil hb] at hv
    cases hv
  | some blk =>
    obtain ⟨hbefore, hphi⟩ := (mem_liveIn hf.width hb).1 hv
    exact h.liveAt_block (hf.ahead hb) hb (liveAt_of_mem_liveBefore hf.width hb (Nat.zero_le _) hbefore) hphi

/-- A phi whose output may still be read has it in its live set: otherwise it would be live at the header of a loop
around the block. -/
theorem mem_liveBefore (h : f.Begins v p) (hf : f.Proper) (hb : f.block? b = some blk)
    (hv : v ∈ blk.phis.filterMap Phi.virt?) (hlive : f.LiveAt v b 0) : v ∈ f.liveBefore b blk 0 := by
  refine (hlive.found hf.width hf.structured hb).resolve_right ?_
  rintro ⟨header, hloop, hbody, hin⟩
  have hlt := (h.liveIn_block hf hin).1
  rw [← h.eq_entry hb hv] at hlt
  exact absurd (hloop.after b hbody) (Nat.not_le.2 hlt)

/-- Where a register that is live anywhere begins, it is accessed. -/
theorem mem_sites (h : f.Begins v p) (hf : f.Proper) (hq : (f.life v).covers q) :
    p ∈ (f.life v).sites.map Site.position := by
  refine (mem_sites_life hf.width).2 ?_
  have hwrite := h.writesAt
  cases hwrite with
  | @code b k blk i hb hi hv => exact ⟨b, blk, hb, .inl ⟨k, i, hi, .inl ⟨rfl, hv⟩⟩⟩
  | @phi b blk hb hv =>
    refine ⟨b, blk, hb, .inr (.inr ⟨rfl, hv, h.mem_liveBefore hf hb hv ?_⟩)⟩
    -- All instructions of the block that write the register read it too.
    have hcode : ∀ i ∈ blk.code, v ∈ virtRegs i.defs → v ∈ virtRegs i.uses := by
      intro i hi hd
      by_contra hu
      obtain ⟨k, hk⟩ := List.getElem?_of_mem hi
      cases h.eq_writeAt hb hk hd hu
    have hexit : (∃ first, f.block? b = some first ∧ f.LiveAt v b first.code.length) → f.LiveAt v b 0 := by
      rintro ⟨first, hfirst, hlive⟩
      obtain rfl := Option.some.inj (hb.symm.trans hfirst)
      exact hlive.to_start hb hcode
    obtain ⟨c, n⟩ := q
    rcases opened_of_covers hf.width hq with ⟨header, -, hin⟩ | ⟨blk', hc, hbefore | ⟨j, i, hi, hd, hu, -⟩⟩
    · exact hexit (h.liveIn_block hf hin).2
    · have hlive := liveAt_of_mem_liveBefore hf.width hc (Nat.zero_le _) hbefore
      by_cases hphi : v ∈ blk'.phis.filterMap Phi.virt?
      · obtain rfl : c = b := congrArg Position.block (h.eq_entry hc hphi)
        exact hlive
      · exact hexit (h.liveAt_block (hf.ahead hc) hc hlive hphi).2
    · cases h.eq_writeAt hc hi hd hu

/-- The interval of a register covers no position before the one where the register begins. -/
theorem le_of_covers (h : f.Begins v p) (hf : f.Proper) (hloops : ∀ header, f.Loop header) (hq : (f.life v).covers q) :
    p ≤ q := by
  obtain ⟨b, n⟩ := q
  rcases opened_of_covers hf.width hq with ⟨header, hbody, hin⟩ | ⟨blk, hb, hbefore | ⟨j, i, hi, hd, hu, hle⟩⟩
  · exact .inl (Nat.lt_of_lt_of_le (h.liveIn_block hf hin).1 ((hloops header).after b hbody))
  · by_cases hphi : v ∈ blk.phis.filterMap Phi.virt?
    · rw [← h.eq_entry hb hphi]
      exact .inr ⟨rfl, Nat.zero_le _⟩
    · have hlive := liveAt_of_mem_liveBefore hf.width hb (Nat.zero_le _) hbefore
      exact .inl (h.liveAt_block (hf.ahead hb) hb hlive hphi).1
  · rw [← h.eq_writeAt hb hi hd hu]
    exact .inr ⟨rfl, hle⟩

end Begins

/-- The phis of a block write different registers. -/
theorem Proper.phis_nodup (h : f.Proper) (hb : f.block? b = some blk) : (blk.phis.filterMap Phi.virt?).Nodup := by
  refine List.nodup_iff_count_le_one.2 fun v => ?_
  by_cases hv : v ∈ blk.phis.filterMap Phi.virt?
  · obtain ⟨p, hp⟩ := h.begins v (mem_mentions_of_phis hb hv)
    have hcount : (blk.phis.filterMap Phi.virt?).count v = (blk.phis.filter (fun φ => φ.virt? = some v)).length := by
      rw [List.count, List.countP_filterMap, ← List.countP_eq_length_filter]
      refine List.countP_congr fun φ _ => ?_
      cases φ.virt? <;> simp
    have hsub : (blk.introductions b v).Sublist (f.introductions v) :=
      List.sublist_flatten_of_mem (List.mem_map.2 ⟨(blk, b), List.mem_zipIdx_iff_getElem?.2 hb, rfl⟩)
    have hlen := hsub.length_le
    rw [hp.once, Block.introductions, List.length_append, List.length_map] at hlen
    rw [hcount]
    exact Nat.le_trans (Nat.le_add_right _ _) hlen
  · rw [List.count_eq_zero.2 hv]
    exact Nat.zero_le _

/-! ## Conditions that can be checked -/

/-- Whether all loops are loops can be checked block by block. -/
theorem loop_of_check (h : ∀ b < f.blocks.length, f.Loop b) (b : BlockId) : f.Loop b := by
  rcases Nat.lt_or_ge b f.blocks.length with hlt | hle
  · exact h b hlt
  · have hnil : f.loopBody b = [] := by
      rw [loopBody, block?, List.getElem?_eq_none hle, Option.map_none, Option.getD_none]
    refine ⟨fun c hc => ?_, fun p s _ hs => ?_⟩
    · rw [hnil] at hc
      cases hc
    · rw [hnil] at hs
      cases hs

/-- If every block but the first has a predecessor before it, all blocks are reachable. -/
theorem reachable_of_check (h : ∀ b < f.blocks.length, b = 0 ∨ ∃ p < b, b ∈ f.successors p) :
    ∀ b < f.blocks.length, f.Reachable b := by
  intro b
  induction b using Nat.strongRecOn with
  | ind b ih =>
    intro hb
    rcases h b hb with rfl | ⟨p, hp, hs⟩
    · exact .entry
    · exact .step (ih p hp (Nat.lt_trans hp hb)) hs

/-- Where instructions and phis of a block read a register, and where the phis of its successors do. -/
def reads (f : Function) (v : VirtReg) : List Position :=
  f.blocks.zipIdx.flatMap (fun e =>
    (e.1.code.zipIdx.filter (fun i => (virtRegs i.1.uses).contains v)).map (fun i => .readAt e.2 i.2) ++
      if (f.successors e.2).any (fun s =>
        ((f.block? s).map (fun next => (Liveness.phiReads next e.2).contains v)).getD false) then
        [e.1.stop e.2]
      else [])

/-- The positions where a register is read are listed. -/
theorem ReadsAt.mem_reads (h : f.ReadsAt v q) : q ∈ f.reads v := by
  cases h with
  | @code b k blk i hb hi hv =>
    refine List.mem_flatMap.2 ⟨(blk, b), List.mem_zipIdx_iff_getElem?.2 hb, List.mem_append_left _ ?_⟩
    exact List.mem_map.2
      ⟨(i, k), List.mem_filter.2 ⟨List.mem_zipIdx_iff_getElem?.2 hi, List.contains_iff_mem.2 hv⟩, rfl⟩
  | @phi b s blk next hb hs hnext hv =>
    refine List.mem_flatMap.2 ⟨(blk, b), List.mem_zipIdx_iff_getElem?.2 hb, List.mem_append_right _ ?_⟩
    rw [if_pos]
    · exact List.mem_singleton.2 rfl
    · refine List.any_eq_true.2 ⟨s, hs, ?_⟩
      rw [hnext]
      exact List.contains_iff_mem.2 hv

theorem WritesAt.lt_stop (h : f.WritesAt v p) (hb : f.block? p.block = some blk) : p < blk.stop p.block := by
  refine .inr ⟨rfl, ?_⟩
  cases h with
  | @code b k blk' i hb' hi =>
    obtain rfl := Option.some.inj (hb.symm.trans hb')
    have hk := (List.getElem?_eq_some_iff.1 hi).1
    show 2 * k + 2 < 2 * blk.code.length + 1
    omega
  | phi => exact Nat.succ_pos _

/-- A path that keeps off `p` is before `p` in the block of `p`. If no edge leads past that block, it is before `p`
everywhere. -/
theorem Reaches.lt (h : f.Reaches (fun r => r = p) q) (hp : f.WritesAt v p)
    (hq : q.block = p.block ∨ ∀ b < p.block, ∀ s ∈ f.successors b, @LE.le Nat _ s p.block) : q < p := by
  have hnext : ∀ {r : Position}, r < p → r.next ≤ p := fun hr =>
    not_lt.1 fun hlt => absurd (Position.lt_next_iff.1 hlt) (not_le.2 hr)
  induction h with
  | start hne =>
    exact lt_of_le_of_ne (Nat.eq_zero_or_pos p.block |>.elim (fun h0 => .inr ⟨h0.symm, Nat.zero_le _⟩) .inl) hne
  | go _ hpq hne ih =>
    refine lt_of_le_of_ne ?_ hne
    cases hpq with
    | slot => exact hnext (ih hq)
    | @edge b s blk hb hs =>
      rcases hq with hblock | hedges
      · exact .inr ⟨hblock, Nat.zero_le _⟩
      · -- The path has left a block before that of `p`.
        rcases ih (.inr hedges) with hlt | ⟨heq, hlt⟩
        · exact (Nat.lt_or_eq_of_le (hedges b hlt s hs)).imp id fun heq => ⟨heq, Nat.zero_le _⟩
        · obtain rfl : b = p.block := heq
          exact absurd (hp.lt_stop hb) (not_lt.2 (.inr ⟨rfl, Nat.le_of_lt hlt⟩))

/-- A register begins where it should if its reads come after it in the layout, in the same block or past a block that
all edges meet. -/
theorem begins_of_check (h : ∀ v ∈ f.mentions, ∃ p ∈ f.introductions v, f.introductions v = [p] ∧
      (∀ q ∈ f.reads v, p ≤ q ∧ (q.block = p.block ∨ ∀ b < p.block, ∀ s ∈ f.successors b, @LE.le Nat _ s p.block)) ∧
      ∀ e ∈ f.blocks.zipIdx, ∀ i ∈ e.1.code, v ∈ virtRegs i.defs → i.introduces v ∨ i.updates v ∧ e.2 = p.block) :
    ∀ v ∈ f.mentions, ∃ p, f.Begins v p := by
  intro v hv
  obtain ⟨p, hp, honce, hreads, hupdates⟩ := h v hv
  refine ⟨p, honce, fun q hq hreach => ?_, fun b blk hb => hupdates (blk, b) (List.mem_zipIdx_iff_getElem?.2 hb)⟩
  obtain ⟨hle, hcases⟩ := hreads q hq.mem_reads
  exact absurd (hreach.lt (writesAt_of_mem_introductions hp) hcases) (not_lt.2 hle)

/-- Whether a function is proper can be checked: that a register begins before it is read, by the order of
positions. -/
theorem proper_of_check (hreachable : ∀ b < f.blocks.length, b = 0 ∨ ∃ p < b, b ∈ f.successors p)
    (hstructured : f.Structured) (hwidth : f.OneWidth)
    (hbegins : ∀ v ∈ f.mentions, ∃ p ∈ f.introductions v, f.introductions v = [p] ∧
      (∀ q ∈ f.reads v, p ≤ q ∧ (q.block = p.block ∨ ∀ b < p.block, ∀ s ∈ f.successors b, @LE.le Nat _ s p.block)) ∧
      ∀ e ∈ f.blocks.zipIdx, ∀ i ∈ e.1.code, v ∈ virtRegs i.defs →
        i.introduces v ∨ i.updates v ∧ e.2 = p.block) : f.Proper :=
  ⟨reachable_of_check hreachable, hstructured, hwidth, begins_of_check hbegins⟩

end Function

end RegAlloc
