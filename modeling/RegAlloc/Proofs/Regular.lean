import RegAlloc.Proofs.Dominance
import RegAlloc.Proofs.Instructions

/-!
# Regular functions

`Function.Plain` collects what the code of a function is like that registers are chosen for. Control goes forward or
back to the headers of loops, every register is written before it is read, and all writes of one register are in one
block; phis choose between registers and constants; the other instructions compute on registers and constants, with
`enter` at the very beginning and `leave` before every return. Physical registers carry values within a block only,
and from the caller to the first block.

For the code to mean the same after registers were chosen, the frame has to be left alone, too: `enter` is executed
once, and the registers that hold the frame are not written (`Function.Regular`).

From this follows where a register is written in the sense of lifetimes (`writes_iff`), and that a phi whose output
may still be read does write it there (`Regular.writes_entry`): the live sets do not miss it.
-/

namespace RegAlloc

/-- What a block of a plain function is like. -/
structure Block.Plain (blk : Block) (t : Target) (b : BlockId) : Prop where
  code : ∀ k i, blk.code[k]? = some i →
    i.isOrdinary ∨ i = .enter ∧ b = 0 ∧ k = 0 ∨ i = .leave ∧ k + 1 = blk.code.length ∧ blk.exit = .ret
  leave : blk.exit = .ret → blk.code.getLast? = some .leave
  /-- Physical registers are read only after they were overwritten in the same block, or in the first block. -/
  physical : b ≠ 0 → ∀ r, r ≠ t.frameBase → r ≠ t.stackPointer → ¬blk.Needs t r 0
  outputs : ∀ φ ∈ blk.phis, φ.virt?.isSome
  inputs : ∀ φ ∈ blk.phis, ∀ e ∈ φ.inputs, e.2.isImmediate ∨ ∃ v, e.2.content = .reg (.virt v)

/-- What a plain function is like. -/
structure Function.Plain (f : Function) (t : Target) : Prop extends Function.Proper f where
  /-- All registers are whole words. The machine moves whole words whatever the width of an operand is, so no proof
  uses this: it says of which functions the machine is a model. -/
  quad : ∀ v ∈ f.mentions, v.width = .quad
  enter : ∃ blk, f.block? 0 = some blk ∧ blk.code[0]? = some .enter
  block : ∀ b blk, f.block? b = some blk → blk.Plain t b
  /-- A phi has an input for every predecessor of its block. -/
  inputs : ∀ b s blk, s ∈ f.successors b → f.block? s = some blk → ∀ φ ∈ blk.phis, (φ.input? b).isSome
  labels : (f.blocks.map Block.label).Nodup

/-- A plain function that leaves its frame alone. -/
structure Function.Regular (f : Function) (t : Target) : Prop extends Function.Plain f t where
  /-- Control does not come back to the first block, where the frame is set up. -/
  once : ∀ b, 0 ∉ f.successors b
  /-- So there is nothing that phis of the first block could choose from. -/
  bare : f.phis 0 = []
  /-- The registers that hold the frame are not written. -/
  frame : ∀ blk ∈ f.blocks, ∀ i ∈ blk.code, ∀ r, i.overwrites t r → r ≠ t.frameBase ∧ r ≠ t.stackPointer

namespace Function

variable {f : Function} {t : Target} {v : VirtReg} {b c s : BlockId} {blk : Block} {k : Nat}
  {i : Instruction} {p : Position}

/-- No register is read before it is written. -/
theorem Regular.defined (h : f.Regular t) (v : VirtReg) : ¬f.LiveAt v 0 0 := by
  intro hlive
  obtain ⟨p, hp⟩ := h.begins v hlive.mem_mentions
  obtain ⟨blk, hb, -⟩ := h.enter
  have hphis := h.bare
  rw [phis, hb, Option.map_some, Option.getD_some] at hphis
  have hmem := hp.mem_phis_of_start hlive hb
  rw [hphis] at hmem
  cases hmem

/-- Where a register is written: where instructions write it, and at the start of a block with a phi for it whose
output is in the live set. -/
theorem writes_iff (hw : f.OneWidth) :
    f.Writes v p ↔ ∃ b blk, f.block? b = some blk ∧
      ((∃ k i, blk.code[k]? = some i ∧ p = .writeAt b k ∧ v ∈ virtRegs i.defs) ∨
        p = .entry b ∧ v ∈ blk.phis.filterMap Phi.virt? ∧ v ∈ f.liveBefore b blk 0) := by
  rw [Writes, Interval.accesses, mem_sites_life hw]
  have hread : ∀ b k, (Position.readAt b k).isWrite = false := fun b k =>
    decide_eq_false (show ¬(2 * k + 1) % 2 = 0 by omega)
  have hwrite : ∀ b k, (Position.writeAt b k).isWrite := fun b k => decide_eq_true (show (2 * k + 2) % 2 = 0 by omega)
  constructor
  · rintro ⟨⟨b, blk, hb, ⟨k, i, hi, ⟨hp, hv⟩ | ⟨hp, hv⟩⟩ | ⟨hp, hv⟩ | hentry⟩, hisw⟩
    · exact ⟨b, blk, hb, .inl ⟨k, i, hi, hp, hv⟩⟩
    · rw [hp, hread] at hisw
      cases hisw
    · have hstop := hread b blk.code.length
      rw [hp, Block.stop, Position.exit, hstop] at hisw
      cases hisw
    · exact ⟨b, blk, hb, .inr hentry⟩
  · rintro ⟨b, blk, hb, ⟨k, i, hi, rfl, hv⟩ | ⟨rfl, hv⟩⟩
    · exact ⟨⟨b, blk, hb, .inl ⟨k, i, hi, .inl ⟨rfl, hv⟩⟩⟩, hwrite b k⟩
    · exact ⟨⟨b, blk, hb, .inr (.inr ⟨rfl, hv⟩)⟩, rfl⟩

/-- In a regular function every register is written in one block. -/
theorem Regular.writesInOneBlock (h : f.Regular t) : f.WritesInOneBlock := by
  have hdefines : ∀ v p, f.Writes v p → v ∈ f.mentions ∧ f.Defines v p.block := by
    intro v p hp
    obtain ⟨b, blk, hb, ⟨k, i, hi, rfl, hv⟩ | ⟨rfl, hv, _⟩⟩ := (writes_iff h.width).1 hp
    · exact ⟨mem_mentions_of_code hb (List.mem_of_getElem? hi) (.inr hv), blk, hb,
        .inr ⟨i, List.mem_of_getElem? hi, hv⟩⟩
    · exact ⟨mem_mentions_of_phis hb hv, blk, hb, .inl hv⟩
  intro v p q hp hq
  obtain ⟨hv, hp⟩ := hdefines v p hp
  obtain ⟨first, hfirst⟩ := h.begins v hv
  rw [hfirst.block_eq hp, hfirst.block_eq (hdefines v q hq).2]

/-- An instruction writes what it says that it writes. -/
theorem writes_writeAt (hw : f.OneWidth) (hb : f.block? b = some blk) (hi : blk.code[k]? = some i) :
    f.Writes v (.writeAt b k) ↔ v ∈ virtRegs i.defs := by
  rw [writes_iff hw]
  constructor
  · rintro ⟨b', blk', hb', ⟨k', i', hi', hp, hv⟩ | ⟨hp, _⟩⟩
    · rw [Position.eq_def] at hp
      simp only [Position.writeAt] at hp
      obtain rfl : b = b' := hp.1
      obtain rfl : k = k' := by omega
      obtain rfl := Option.some.inj (hb.symm.trans hb')
      obtain rfl := Option.some.inj (hi.symm.trans hi')
      exact hv
    · cases hp
  · exact fun hv => ⟨b, blk, hb, .inl ⟨k, i, hi, rfl, hv⟩⟩

theorem not_writes_readAt (hw : f.OneWidth) : ¬f.Writes v (.readAt b k) := by
  rw [writes_iff hw]
  rintro ⟨b', blk', hb', ⟨k', i', hi', hp, hv⟩ | ⟨hp, _⟩⟩
  · rw [Position.eq_def] at hp
    simp only [Position.writeAt, Position.readAt] at hp
    omega
  · cases hp

/-- At the start of a block the phis write those of their registers that are live. -/
theorem writes_entry_iff (hw : f.OneWidth) (hb : f.block? b = some blk) :
    f.Writes v (.entry b) ↔ v ∈ blk.phis.filterMap Phi.virt? ∧ v ∈ f.liveBefore b blk 0 := by
  rw [writes_iff hw]
  constructor
  · rintro ⟨b', blk', hb', ⟨k', i', hi', hp, hv⟩ | ⟨hp, hv⟩⟩
    · cases hp
    · cases hp
      obtain rfl := Option.some.inj (hb.symm.trans hb')
      exact hv
  · exact fun hv => ⟨b, blk, hb, .inr ⟨rfl, hv⟩⟩

/-- Nothing is written before the instruction after `enter`. -/
theorem Regular.lt_of_writes (h : f.Regular t) (hp : f.Writes v p) : .writeAt 0 0 < p := by
  obtain ⟨b, blk, hb, hcases⟩ := (writes_iff h.width).1 hp
  obtain ⟨first, hfirst, henter⟩ := h.enter
  rw [Position.lt_def]
  rcases Nat.eq_zero_or_pos b with rfl | hpos
  · obtain rfl := Option.some.inj (hfirst.symm.trans hb)
    rcases hcases with ⟨k, i, hi, rfl, hv⟩ | ⟨rfl, -, hlive⟩
    · refine .inr ⟨rfl, ?_⟩
      cases k with
      | zero =>
        obtain rfl := Option.some.inj (henter.symm.trans hi)
        cases hv
      | succ k =>
        simp only [Position.writeAt]
        omega
    · exact absurd (liveAt_of_mem_liveBefore h.width hb (Nat.zero_le _) hlive) (h.defined v)
  · rcases hcases with ⟨k, i, hi, rfl, hv⟩ | ⟨rfl, -, hlive⟩
    · exact .inl hpos
    · exact .inl hpos

/-- A phi whose output may still be read writes it. -/
theorem Regular.writes_entry (h : f.Regular t) (hb : f.block? b = some blk) (hv : v ∈ blk.phis.filterMap Phi.virt?)
    (hlive : f.LiveAt v b 0) : f.Writes v (.entry b) := by
  obtain ⟨p, hp⟩ := h.begins v hlive.mem_mentions
  exact (writes_entry_iff h.width hb).2 ⟨hv, hp.mem_liveBefore h.toProper hb hv hlive⟩

end Function

/-! ## Conditions that can be checked -/

/-- An operand stands for a virtual register if it is one. -/
theorem Operand.isSome_virt?_iff {o : Operand} :
    (o.register?.bind Register.virt?).isSome ↔ ∃ v, o.content = .reg (.virt v) := by
  rw [register?]
  cases o.content with
  | reg r => cases r <;> simp [Register.virt?]
  | _ => simp

/-- Whether code reads a physical register before it overwrites it. -/
def exposes (t : Target) (r : PhysReg) : List Instruction → Bool
  | [] => false
  | i :: rest => i.inspects r || !i.overwrites t r && exposes t r rest

namespace Block

variable {blk : Block} {t : Target} {r : PhysReg} {b : BlockId} {k : Nat}

/-- Whether a block needs a register can be read off its code. -/
theorem needs_iff : blk.Needs t r k ↔ exposes t r (blk.code.drop k) := by
  constructor
  · intro h
    induction h with
    | read hi hr =>
      obtain ⟨hlt, hget⟩ := List.getElem?_eq_some_iff.1 hi
      rw [List.drop_eq_getElem_cons hlt, hget, exposes, hr, Bool.true_or]
    | pass hi hr _ ih =>
      obtain ⟨hlt, hget⟩ := List.getElem?_eq_some_iff.1 hi
      rw [List.drop_eq_getElem_cons hlt, hget, exposes, ih, Bool.and_true, Bool.eq_false_iff.2 hr,
        Bool.not_false, Bool.or_true]
  · intro h
    induction hl : blk.code.drop k generalizing k with
    | nil =>
      rw [hl] at h
      cases h
    | cons i rest ih =>
      have hi : blk.code[k]? = some i := by rw [← List.head?_drop, hl, List.head?_cons]
      have hrest : blk.code.drop (k + 1) = rest := by rw [← List.tail_drop, hl, List.tail_cons]
      rw [hl, exposes, Bool.or_eq_true, Bool.and_eq_true, Bool.not_eq_true'] at h
      rcases h with h | ⟨hr, h⟩
      · exact .read hi h
      · exact .pass hi (Bool.eq_false_iff.1 hr) (ih (hrest ▸ h) hrest)

instance : Decidable (blk.Needs t r k) := decidable_of_iff _ needs_iff.symm

instance : Decidable (blk.Plain t b) :=
  decidable_of_iff
    ((∀ e ∈ blk.code.zipIdx, e.1.isOrdinary ∨ e.1 = .enter ∧ b = 0 ∧ e.2 = 0 ∨
        e.1 = .leave ∧ e.2 + 1 = blk.code.length ∧ blk.exit = .ret) ∧
      (blk.exit = .ret → blk.code.getLast? = some .leave) ∧
      (b ≠ 0 → ∀ r ∈ PhysReg.all, r ≠ t.frameBase → r ≠ t.stackPointer → ¬blk.Needs t r 0) ∧
      (∀ φ ∈ blk.phis, φ.virt?.isSome) ∧
      ∀ φ ∈ blk.phis, ∀ e ∈ φ.inputs, e.2.isImmediate ∨ (e.2.register?.bind Register.virt?).isSome)
    ⟨fun ⟨hcode, hleave, hphysical, houtputs, hinputs⟩ =>
      ⟨fun k i hi => hcode (i, k) (List.mem_zipIdx_iff_getElem?.2 hi), hleave, fun hb r =>
        hphysical hb r (PhysReg.mem_all r), houtputs, fun φ hφ e he =>
        (hinputs φ hφ e he).imp_right Operand.isSome_virt?_iff.1⟩,
    fun ⟨hcode, hleave, hphysical, houtputs, hinputs⟩ =>
      ⟨fun e he => hcode e.2 e.1 (List.mem_zipIdx_iff_getElem?.1 he), hleave, fun hb r _ => hphysical hb r, houtputs,
        fun φ hφ e he => (hinputs φ hφ e he).imp_right Operand.isSome_virt?_iff.2⟩⟩

end Block

namespace Function

variable {f : Function} {t : Target}

/-- Whether a function is plain can be checked block by block. -/
theorem plain_of_check (hproper : f.Proper) (hquad : ∀ v ∈ f.mentions, v.width = .quad)
    (henter : ∃ blk, f.block? 0 = some blk ∧ blk.code[0]? = some .enter)
    (hblock : ∀ e ∈ f.blocks.zipIdx, e.1.Plain t e.2)
    (hinputs : ∀ b < f.blocks.length, ∀ s ∈ f.successors b, ∀ φ ∈ f.phis s, (φ.input? b).isSome)
    (hlabels : (f.blocks.map Block.label).Nodup) : f.Plain t := by
  refine ⟨hproper, hquad, henter, fun b blk hb => hblock (blk, b) (List.mem_zipIdx_iff_getElem?.2 hb), ?_, hlabels⟩
  intro b s blk hs hblk φ hφ
  refine hinputs b (lt_length_of_mem_successors hs) s hs φ ?_
  rwa [phis, hblk, Option.map_some, Option.getD_some]

/-- Whether a plain function is regular can be checked, too. -/
theorem regular_of_check (hplain : f.Plain t) (honce : ∀ b < f.blocks.length, 0 ∉ f.successors b)
    (hbare : f.phis 0 = [])
    (hframe : ∀ blk ∈ f.blocks, ∀ i ∈ blk.code, ∀ r ∈ PhysReg.all, i.overwrites t r →
      r ≠ t.frameBase ∧ r ≠ t.stackPointer) :
    f.Regular t :=
  ⟨hplain, fun b hs => honce b (lt_length_of_mem_successors hs) hs, hbare, fun blk hblk i hi r =>
    hframe blk hblk i hi r (PhysReg.mem_all r)⟩

end Function

end RegAlloc
