import RegAlloc.Compile
import RegAlloc.Proofs.Denial
import RegAlloc.Proofs.Edges

/-!
# Compiling succeeds

Nothing goes wrong when a function is compiled whose registers begin before they are read, and whose loops are entered
through their headers (`compile_total`). Each of the errors that the parts of `compile` know is excluded by one fact:

* a register that is spilled is written in its first split, because its interval starts where the register begins
  (`Allocation.exists_ofLifetimes`);
* a register that is read or written has a place there, because its interval covers the position, and a split without
  a register has a slot (`Serves.exists_storage`);
* a register that has a place at the start of a block, and is not written by a phi, has one at the end of each
  predecessor (`covers_stop`);
* the moves on an edge write different places, because different registers are kept in different places.
-/

namespace RegAlloc

/-- The first of the pieces of an interval holds its first site. -/
theorem Divides.mem_sites_head {i x : Interval} {xs : List Interval} {p : Position} (h : Divides i (x :: xs))
    (hin : i.Inside) (hp : p ∈ i.sites.map Site.position) (hmin : ∀ q, i.covers q → p ≤ q) :
    p ∈ x.sites.map Site.position := by
  obtain ⟨site, hmem, rfl⟩ := List.mem_map.1 hp
  rw [← h.sites] at hmem
  obtain ⟨y, hy, hsite⟩ := List.mem_flatMap.1 hmem
  rcases List.mem_cons.1 hy with rfl | hlater
  · exact List.mem_map.2 ⟨site, hsite, rfl⟩
  · -- Otherwise the first piece would cover a position before the site.
    have hx := h.live x List.mem_cons_self
    have hbefore := (List.pairwise_cons.1 h.ordered).1 y hlater
    have hcov : i.covers x.start := by
      by_contra hnot
      have hcount := h.covers x.start
      rw [if_neg hnot, List.countP_eq_zero] at hcount
      exact hcount x List.mem_cons_self hx.covers_start
    have hle : y.start ≤ site.position := (h.live y hy).start_le (h.inside hin y hy site hsite)
    have hlt : x.start < site.position := lt_of_le_of_lt hx.start_le_stop (lt_of_lt_of_le hbefore.range hle)
    exact absurd (hmin _ hcov) (not_le.2 hlt)

namespace Function

variable {f : Function} {v : VirtReg} {b s : BlockId} {blk next : Block} {p q : Position}

/-- A register that is covered somewhere is mentioned. -/
theorem mem_mentions_of_covers (hw : f.OneWidth) (h : (f.life v).covers q) : v ∈ f.mentions := by
  obtain ⟨b, n⟩ := q
  rcases opened_of_covers hw h with ⟨header, -, hin⟩ | ⟨blk, hb, hbefore | ⟨j, i, hi, hd, -⟩⟩
  · cases hh : f.block? header with
    | none =>
      rw [liveIn_eq_nil hh] at hin
      cases hin
    | some blk =>
      exact (liveAt_of_mem_liveBefore hw hh (Nat.zero_le _) ((mem_liveIn hw hh).1 hin).1).mem_mentions
  · exact (liveAt_of_mem_liveBefore hw hb (Nat.zero_le _) hbefore).mem_mentions
  · exact mem_mentions_of_code hb (List.mem_of_getElem? hi) (.inr hd)

/-- A register that has a place at the start of a block, and is not written by a phi there, has one at the end of each
predecessor. -/
theorem covers_stop (hf : f.Proper) (hloops : ∀ header, f.Loop header) (hs : s ∈ f.successors b)
    (hb : f.block? b = some blk) (hnext : f.block? s = some next) (hv : v ∉ next.phis.filterMap Phi.virt?)
    (h : (f.life v).covers (.entry s)) :
    (f.life v).covers (blk.stop b) := by
  have hlive : f.LiveAt v s 0 → (f.life v).covers (blk.stop b) := fun hlive =>
    (covers_of_liveAt hf.width hf.structured (.edge hb (successors_eq hb ▸ hs) hnext hv hlive)).2
  rcases opened_of_covers hf.width h with ⟨header, hbody, hin⟩ | ⟨blk', hs', hbefore | ⟨j, i, -, -, -, hle⟩⟩
  · by_cases hmem : b ∈ f.loopBody header
    · -- The loop makes the interval cover the whole of the predecessor.
      have hwhole := (life_segment? hf.width hb).2 header (hloops header) hmem hin
      exact covers_life_of_spans (hwhole ▸ ⟨_, rfl, Nat.zero_le _, Nat.le_refl _⟩)
    · obtain rfl := (hloops header).entered b s hs hbody hmem
      exact hlive (liveAt_of_mem_liveBefore hf.width hnext (Nat.zero_le _) ((mem_liveIn hf.width hnext).1 hin).1)
  · obtain rfl := Option.some.inj (hnext.symm.trans hs')
    exact hlive (liveAt_of_mem_liveBefore hf.width hnext (Nat.zero_le _) hbefore)
  · omega

end Function

/-- The address of an operand, if it has one, is made of physical registers. -/
def Operand.isGrounded (o : Operand) : Bool :=
  match o.content with
  | .mem m => m.registers.all (fun r => r.virt?.isNone)
  | _ => true

/-- An operand that is a register holds it. -/
theorem Operand.content_of_register? {o : Operand} {r : Register} (h : o.register? = some r) : o.content = .reg r := by
  rw [register?] at h
  split at h
  · rename_i hc
    rw [hc, Option.some.inj h]
  · cases h

/-- The operands of an instruction. -/
def Instruction.operands : Instruction → List Operand
  | .arith _ left right | .compare _ left right | .mov left right | .xchg left right => [left, right]
  | .neg operand | .setcc _ operand | .idiv operand | .push operand | .pop operand => [operand]
  | .call _ arguments => arguments
  | .cqto _ | .enter | .leave | .jmp _ | .jcc _ _ | .label _ | .ret => []

namespace Allocation

variable {f : Function} {t : Target} {a : Allocation} {v : VirtReg} {p : Position} {x : Split} {o : Operand}

/-- A register that is spilled is written in its first split. -/
theorem exists_ofLifetimes (hf : f.Proper) (hloops : ∀ header, f.Loop header) (ht : t.Valid) :
    ∃ a, ofLifetimes (Lifetimes.compute f t) t = .ok a := by
  have hlt := Function.compute_wellFormed hf.width t
  obtain ⟨-, s, -, hs, -⟩ := Scan.exists_complete hlt ht
  rw [ofLifetimes, bind_of_eq_ok hs]
  cases hof : ofSplits t (splitsOf (Lifetimes.compute f t) s) s.slots.slots with
  | ok a => exact ⟨a, rfl⟩
  | error e =>
    obtain ⟨entry, hentry, -, x, xs, hx, hlast⟩ := ofSplits_eq_error hof
    obtain ⟨i, hi, rfl⟩ := List.mem_map.1 (List.mem_filter.1 hentry).1
    -- A register that has splits is live, and so begins somewhere.
    have hlive : i.Live := by
      have hne : s.splits i.register ≠ [] := by
        intro hnil
        rw [hnil] at hx
        cases hx
      obtain ⟨z, hz⟩ := List.exists_mem_of_ne_nil _ hne
      obtain ⟨hl, htiles, -, -⟩ := Scan.complete_spec hlt ht hs
      obtain ⟨hint, -, hreg⟩ := Scan.mem_splits hz
      obtain ⟨j, hj, hjr⟩ := htiles.exists_whole (Scan.interval_mem (Scan.lt_length_of_mem_splits hz))
      obtain ⟨hj, hne⟩ := List.mem_filter.1 hj
      rw [← hint, hreg] at hjr
      have hji : j = i := by rw [Function.eq_life_of_mem hj, Function.eq_life_of_mem hi, hjr]
      exact ⟨hlt.intervals i hi, by simpa [hji] using hne⟩
    have hlife := Function.eq_life_of_mem hi
    have hdiv : Divides i ((joinIdle none (s.splits i.register)).map Split.interval) :=
      Divides.joinIdle (l := []) (fun _ h => absurd h (Option.not_mem_none _))
        (Scan.splits_divide hlt ht hs hi hlive.nonempty)
    rw [show joinIdle none (s.splits i.register) = x :: xs from hx, List.map_cons] at hdiv
    have hcov : (f.life i.register).covers i.start := hlife ▸ hlive.covers_start
    obtain ⟨p, hp⟩ := hf.begins i.register (Function.mem_mentions_of_covers hf.width hcov)
    have hsite : p ∈ x.interval.sites.map Site.position := by
      refine hdiv.mem_sites_head ?_ ?_ fun q hq => ?_
      · exact hlife ▸ Function.life_inside hf.width
      · exact hlife ▸ hp.mem_sites hf hcov
      · exact hp.le_of_covers hf hloops (hlife ▸ hq)
    obtain ⟨q, hq, -⟩ :=
      Interval.exists_lastDef? (hdiv.live _ List.mem_cons_self).toWellFormed hsite hp.writesAt.isWrite
    cases hlast.symm.trans hq

/-! ## Places -/

namespace Serves

/-- A register with a split that has no register has a slot, if it is accessed at all. -/
theorem slot_of_bare (h : a.Serves f t) (hx : x ∈ a.splitsFor v) (hr : x.register = none)
    (hp : p ∈ (f.life v).sites.map Site.position) :
    ∃ k, a.slot? v = some k := by
  by_cases hxs : x.interval.sites = []
  · -- The site is one of another split.
    obtain ⟨site, hsite, -⟩ := List.mem_map.1 hp
    rw [← (h.divides (h.live hx)).sites] at hsite
    obtain ⟨i, hi, hsite⟩ := List.mem_flatMap.1 hsite
    obtain ⟨y, hy, rfl⟩ := List.mem_map.1 hi
    refine h.slot_of_two hx hy ?_
    rintro rfl
    rw [hxs] at hsite
    cases hsite
  · obtain ⟨s, hs, hslots, -, hsplits⟩ := h.toMade.exists_scan hx
    rw [hsplits] at hx
    have hx : x ∈ s.splits v := (mem_joinIdle (by simp) hxs).1 hx
    obtain ⟨hint, hreg, hv⟩ := Scan.mem_splits hx
    obtain ⟨hlisted, -⟩ := Scan.complete_spec h.wellFormed h.valid hs
    have hsome :=
      (Scan.complete_slots h.wellFormed hs).2.bare x.id (hlisted x.id (Scan.lt_length_of_mem_splits hx)) (hreg ▸ hr)
    rw [← hint, hv] at hsome
    rw [slot?, hslots]
    exact Option.isSome_iff_exists.1 hsome

/-- A register has a place wherever its interval covers the position. -/
theorem exists_storage (h : a.Serves f t) (hf : f.Proper) (w : Width) (hp : (f.life v).covers p) :
    ∃ o, a.storage w (.virt v) p = .ok o := by
  obtain ⟨x, hx⟩ := Option.isSome_iff_exists.1 (h.splitAt?_isSome.2 hp)
  have hreg : a.registerAt? (.virt v) p = x.register := by rw [registerAt?, hx, Option.bind_some]
  rw [storage, hreg]
  cases hr : x.register with
  | some r => exact ⟨_, rfl⟩
  | none =>
    obtain ⟨q, hq⟩ := hf.begins v (Function.mem_mentions_of_covers hf.width hp)
    obtain ⟨k, hk⟩ := h.slot_of_bare (h.splitAt?_eq_some.1 hx).1 hr (hq.mem_sites hf hp)
    rw [slotOf?, hk]
    exact ⟨_, rfl⟩

end Serves

/-- A part of an address that is physical can be placed. -/
theorem exists_addressPart (a : Allocation) (p : Position) {part : Option Register} (h : ∀ r ∈ part, r.virt? = none) :
    ∃ part', a.addressPart p part = .ok part' := by
  cases part with
  | none => exact ⟨none, rfl⟩
  | some r =>
    cases r with
    | phys q => exact ⟨some (.phys q), rfl⟩
    | virt v => cases h _ rfl

/-- An operand has a place where the register has one that it stands for, if its address holds no virtual registers. -/
theorem Serves.exists_place (h : a.Serves f t) (hf : f.Proper) (ho : o.isGrounded)
    (hp : ∀ v, o.content = .reg (.virt v) → (f.life v).covers p) : ∃ o', a.place p o = .ok o' := by
  rw [place]
  cases hc : o.content with
  | imm n => exact ⟨o, rfl⟩
  | reg r =>
    cases r with
    | phys q => exact ⟨_, rfl⟩
    | virt v => exact h.exists_storage hf o.width (hp v hc)
  | mem m =>
    rw [Operand.isGrounded, hc, List.all_eq_true] at ho
    have hpart : ∀ part : Option Register, (∀ r ∈ part, r ∈ m.registers) → ∃ part', a.addressPart p part = .ok part' :=
      fun part hsub => exists_addressPart a p fun r hr => Option.isNone_iff_eq_none.1 (ho r (hsub r hr))
    have hbase := hpart m.base fun r hr => List.mem_append_left _ (Option.mem_toList.2 hr)
    have hindex := hpart m.index fun r hr => List.mem_append_right _ (Option.mem_toList.2 hr)
    exact exists_bind hbase fun base _ => exists_bind hindex fun index _ => ⟨_, rfl⟩

/-- A frame has a size, on a target that has slots at all. -/
theorem exists_frameSize (h : a.target.slotSize ≠ 0) : ∃ size, a.frameSize = .ok size := ⟨_, frameSize_eq h⟩

/-- An instruction is put in place if the registers that it reads and writes have places there. -/
theorem Serves.exists_placeInstruction (h : a.Serves f t) (hf : f.Proper) {read write : Position} {i : Instruction}
    (hi : ∀ o ∈ i.operands, o.isGrounded) (hread : ∀ v ∈ virtRegs i.uses, (f.life v).covers read)
    (hwrite : ∀ v ∈ virtRegs i.defs, (f.life v).covers write) : ∃ code, a.placeInstruction read write i = .ok code := by
  have hin : ∀ o ∈ i.operands, (∀ v, o.content = .reg (.virt v) → v ∈ virtRegs i.uses) →
      ∃ o', a.place read o = .ok o' :=
    fun o ho huse => h.exists_place hf (hi o ho) fun v hv => hread v (huse v hv)
  have hfst : ∀ o ∈ i.operands, ∀ ok rest, i.uses = o.reads false ok ++ rest → ∃ o', a.place read o = .ok o' :=
    fun o ho ok rest huses => hin o ho fun v hv => huses ▸ Function.mem_virtRegs_append.2 (.inl (mem_virtRegs_reads hv))
  have hsnd : ∀ o ∈ i.operands, ∀ ok rest, i.uses = rest ++ o.reads false ok → ∃ o', a.place read o = .ok o' :=
    fun o ho ok rest huses => hin o ho fun v hv => huses ▸ Function.mem_virtRegs_append.2 (.inr (mem_virtRegs_reads hv))
  have hout : ∀ o ∈ i.operands, (∀ v, o.content = .reg (.virt v) → v ∈ virtRegs i.defs) →
      ∃ o', a.place write o = .ok o' :=
    fun o ho hdef => h.exists_place hf (hi o ho) fun v hv => hwrite v (hdef v hv)
  cases i with
  | arith op left right =>
    have hleft := hfst left (by simp [Instruction.operands]) _ _ rfl
    have hright := hsnd right (by simp [Instruction.operands]) _ _ rfl
    have hresult := hout right (by simp [Instruction.operands]) fun v hv => mem_virtRegs_writes.2 hv
    exact exists_bind hleft fun _ _ => exists_bind hright fun _ _ => exists_bind hresult fun _ _ => ⟨_, rfl⟩
  | compare op left right =>
    have hleft := hfst left (by simp [Instruction.operands]) _ _ rfl
    have hright := hsnd right (by simp [Instruction.operands]) _ _ rfl
    exact exists_bind hleft fun _ _ => exists_bind hright fun _ _ => ⟨_, rfl⟩
  | mov src dest =>
    have hsrc := hfst src (by simp [Instruction.operands]) _ _ rfl
    have hdest := hout dest (by simp [Instruction.operands]) fun v hv => mem_virtRegs_writes.2 hv
    exact exists_bind hsrc fun _ _ => exists_bind hdest fun _ _ => ⟨_, rfl⟩
  | neg operand =>
    have hinput := hin operand (by simp [Instruction.operands]) fun v hv => mem_virtRegs_reads hv
    have hresult := hout operand (by simp [Instruction.operands]) fun v hv => mem_virtRegs_writes.2 hv
    exact exists_bind hinput fun _ _ => exists_bind hresult fun _ _ => ⟨_, rfl⟩
  | setcc relation output =>
    have hresult := hout output (by simp [Instruction.operands]) fun v hv => mem_virtRegs_writes.2 hv
    exact exists_bind hresult fun _ _ => ⟨_, rfl⟩
  | idiv divisor =>
    have hinput := hfst divisor (by simp [Instruction.operands]) _ _ rfl
    exact exists_bind hinput fun _ _ => ⟨_, rfl⟩
  | push operand =>
    have hinput := hin operand (by simp [Instruction.operands]) fun v hv => mem_virtRegs_reads hv
    exact exists_bind hinput fun _ _ => ⟨_, rfl⟩
  | pop operand =>
    have hresult := hout operand (by simp [Instruction.operands]) fun v hv => mem_virtRegs_writes.2 hv
    exact exists_bind hresult fun _ _ => ⟨_, rfl⟩
  | xchg left right =>
    have hleft := hfst left (by simp [Instruction.operands]) _ _ rfl
    have hright := hsnd right (by simp [Instruction.operands]) _ _ rfl
    exact exists_bind hleft fun _ _ => exists_bind hright fun _ _ => ⟨_, rfl⟩
  | enter => exact exists_bind (exists_frameSize (h.target ▸ h.valid.slotSize)) fun _ _ => ⟨_, rfl⟩
  | _ => exact ⟨_, rfl⟩

end Allocation

/-! ## Blocks and edges -/

/-- What a function has to be like so that nothing goes wrong when it is compiled, unless a loop is declared that is
none. -/
structure Function.Compilable (f : Function) : Prop extends Function.Proper f where
  closed : f.Closed
  /-- A phi has one input for each predecessor of its block. -/
  inputs : ∀ b blk, f.block? b = some blk → ∀ φ ∈ blk.phis, φ.inputs.map Prod.fst = f.predecessors b
  grounded : ∀ blk ∈ f.blocks, (∀ i ∈ blk.code, ∀ o ∈ i.operands, o.isGrounded) ∧
    ∀ φ ∈ blk.phis, ∀ e ∈ φ.inputs, e.2.isGrounded
  /-- A block with two successors is the only predecessor of each of them. -/
  edges : ∀ b s, s ∈ f.successors b → 1 < (f.successors b).length → (f.predecessors s).length ≤ 1

namespace Function

variable {f : Function} {b s : BlockId} {blk : Block}

/-- A block of the function has an end. -/
theorem exists_stop (hb : f.block? b = some blk) : f.stop b = .ok (blk.stop b) := by rw [stop, hb]

/-- Successors are blocks of the function. -/
theorem Compilable.exists_next (hf : f.Compilable) (hs : s ∈ f.successors b) : ∃ next, f.block? s = some next :=
  exists_block_of_lt (hf.closed b s (List.mem_append_left _ hs))

/-- A phi has an input for each predecessor. -/
theorem Compilable.exists_input (hf : f.Compilable) (hs : s ∈ f.successors b) {next : Block}
    (hnext : f.block? s = some next) {φ : Phi} (hφ : φ ∈ next.phis) : ∃ o, φ.input? b = some o := by
  refine Option.isSome_iff_exists.1 (lookupBy_isSome.2 ?_)
  rw [hf.inputs s next hnext φ hφ]
  exact mem_predecessors.2 hs

end Function

namespace Allocation

variable {f : Function} {t : Target} {a : Allocation} {b s : BlockId} {blk next : Block} {x : Split} {v : VirtReg}
  {placed : List PlacedBlock}

/-- A register that has splits is accessed where it begins. -/
theorem Serves.covers_of_hasRegister (h : a.Serves f t) (hf : f.Proper) (hr : a.hasRegister v) :
    ∃ p, f.Begins v p ∧ (f.life v).covers p := by
  obtain ⟨l, hl⟩ := Option.isSome_iff_exists.1 hr
  have hmem := mem_of_lookupBy hl
  obtain ⟨s, -, -, ha, -⟩ := ofLifetimes_eq_ok h.made
  have hne : l ≠ [] := by
    rintro rfl
    rw [ha] at hmem
    cases (List.mem_filter.1 hmem).2
  obtain ⟨x, hx⟩ := List.exists_mem_of_ne_nil l hne
  have hlive := h.live (show x ∈ a.splitsFor v by rwa [splitsFor, hl])
  obtain ⟨p, hp⟩ := hf.begins v (Function.mem_mentions_of_covers hf.width hlive.covers_start)
  obtain ⟨site, hsite, rfl⟩ := List.mem_map.1 (hp.mem_sites hf hlive.covers_start)
  exact ⟨site.position, hp, Function.life_inside hf.width site hsite⟩

/-- An input of a phi can be placed at the end of its predecessor. -/
theorem Serves.exists_placeInput (h : a.Serves f t) (hf : f.Compilable) (hb : f.block? b = some blk) {φ : Phi}
    (hφ : φ ∈ blk.phis) {e : BlockId × Operand} (he : e ∈ φ.inputs) : ∃ e', placeInput f a e = .ok e' := by
  have hs : b ∈ f.successors e.1 := by
    rw [← Function.mem_predecessors, ← hf.inputs b blk hb φ hφ]
    exact List.mem_map_of_mem he
  obtain ⟨pred, hpred⟩ := Function.exists_block_of_lt (Function.lt_length_of_mem_successors hs)
  have hin : φ.input? e.1 = some e.2 := by
    refine lookupBy_of_mem ?_ he
    rw [hf.inputs b blk hb φ hφ]
    exact List.nodup_range.filter _
  refine exists_bind ⟨_, Function.exists_stop hpred⟩ fun stop hstop => exists_bind ?_ fun _ _ => ⟨_, rfl⟩
  obtain rfl := Except.ok.inj ((Function.exists_stop hpred).symm.trans hstop)
  refine h.exists_place hf.toProper ((hf.grounded blk (List.mem_of_getElem? hb)).2 φ hφ e he) fun u hu => ?_
  -- The phi reads the register at the end of the predecessor.
  refine Function.Awaits.covers (.here (.phi hpred hs hb (List.mem_flatMap.2 ⟨φ, hφ, ?_⟩))) hf.width hf.structured
  rw [hin, Option.map_some, Option.getD_some]
  exact mem_virtRegs_reads hu

theorem Serves.exists_placePhi (h : a.Serves f t) (hf : f.Compilable) (hb : f.block? b = some blk) {φ : Phi}
    (hφ : φ ∈ blk.phis) :
    ∃ x, placePhi f a b φ = .ok x := by
  rw [placePhi]
  cases hv : φ.virt? with
  | none => exact ⟨none, rfl⟩
  | some v =>
    by_cases hr : a.hasRegister v
    · simp only [hr, if_true]
      refine exists_bind ?_ fun _ _ => exists_bind ?_ fun _ _ => ⟨_, rfl⟩
      · -- The register begins where the phi writes it.
        obtain ⟨p, hp, hcov⟩ := h.covers_of_hasRegister hf.toProper hr
        obtain rfl := hp.eq_entry hb (List.mem_filterMap.2 ⟨φ, hφ, hv⟩)
        have hout : φ.output.content = .reg (.virt v) := Operand.content_of_register? (Phi.virt?_eq_some.1 hv)
        refine h.exists_place hf.toProper (by rw [Operand.isGrounded, hout]) fun u hu => ?_
        cases hout.symm.trans hu
        exact hcov
      · exact exists_mapM fun e he => h.exists_placeInput hf hb hφ he
    · simp only [hr, Bool.false_eq_true, if_false]
      exact ⟨none, rfl⟩

/-- All blocks can be placed. -/
theorem Serves.exists_placeBlocks (h : a.Serves f t) (hf : f.Compilable) : ∃ placed, a.placeBlocks f = .ok placed := by
  refine exists_mapM fun b hb => ?_
  obtain ⟨blk, hb⟩ := Function.exists_block_of_lt (List.mem_range.1 hb)
  rw [placeBlock, hb]
  refine exists_bind (exists_mapM fun φ hφ => h.exists_placePhi hf hb hφ) fun _ _ =>
    exists_bind (exists_mapM fun e he => ?_) fun _ _ => ⟨_, rfl⟩
  obtain ⟨i, k⟩ := e
  have hi : blk.code[k]? = some i := List.mem_zipIdx_iff_getElem?.1 he
  refine exists_bind (h.exists_placeInstruction hf.toProper ?_ (fun v hv => ?_) fun v hv => ?_) fun _ _ => ⟨_, rfl⟩
  · exact (hf.grounded blk (List.mem_of_getElem? hb)).1 i (List.mem_of_getElem? hi)
  · exact Function.Awaits.covers (.here (.code hb hi hv)) hf.width hf.structured
  · exact Function.covers_of_write hf.width hb hi hv

/-- There is a move for each register that has a place at the start of a block. -/
theorem Serves.exists_edgeMove (h : a.Serves f t) (hf : f.Compilable) (hloops : ∀ header, f.Loop header)
    (hplaced : a.placeBlocks f = .ok placed) (hs : s ∈ f.successors b) (hx : x ∈ a.liveAt (.entry s)) :
    ∃ m, Layout.edgeMove f a placed b s x = .ok m := by
  obtain ⟨⟨v, l⟩, -, hat⟩ := List.mem_filterMap.1 hx
  have hcov := h.splitAt?_isSome.1 (hat ▸ rfl : (a.splitAt? v (.entry s)).isSome)
  obtain ⟨blk, hb⟩ := Function.exists_block_of_lt (Function.lt_length_of_mem_successors hs)
  obtain ⟨next, hnext⟩ := hf.exists_next hs
  obtain ⟨pb, hpb, hplace⟩ := placed_getElem? hplaced hnext
  obtain ⟨-, hsome⟩ := input?_of_placeBlock (v := v) hplace hnext (hf.phis_nodup hnext) hb
  rw [Layout.edgeMove, h.interval_register (h.splitAt?_eq_some.1 hat).1]
  refine exists_bind (h.exists_storage hf.toProper v.width hcov) fun dest _ => ?_
  rw [hpb, Option.bind_some]
  cases hin : pb.input? v b with
  | some o => exact ⟨_, rfl⟩
  | none =>
    refine exists_bind ⟨_, Function.exists_stop hb⟩ fun stop hstop =>
      exists_bind (h.exists_storage hf.toProper v.width ?_) fun _ _ => ⟨_, rfl⟩
    obtain rfl := Except.ok.inj ((Function.exists_stop hb).symm.trans hstop)
    refine Function.covers_stop hf.toProper hloops hs hb hnext (fun hv => ?_) hcov
    obtain ⟨φ, hφ, hv⟩ := List.mem_filterMap.1 hv
    obtain ⟨o, ho⟩ := hf.exists_input hs hnext hφ
    obtain ⟨o', ho', -⟩ := hsome φ hφ hv (h.hasRegister hcov) o ho
    cases hin.symm.trans ho'

/-- The moves on an edge write different places. -/
theorem Serves.edgeMoves_nodup (h : a.Serves f t) {moves : List Move}
    (hmoves : Layout.edgeMoves f a placed b s = .ok moves) :
    (moves.map (fun m => m.dest.content)).Nodup := by
  have hkeys : (a.splits.map Prod.fst).Nodup := by
    obtain ⟨scan, -, -, ha, -⟩ := ofLifetimes_eq_ok h.made
    rw [ha]
    exact splitsOf_keys_nodup h.wellFormed scan
  have hregister : ∀ {v y}, a.splitAt? v (.entry s) = some y → y.interval.register = v := fun hy =>
    h.interval_register (h.splitAt?_eq_some.1 hy).1
  have hlive : (a.liveAt (.entry s)).Pairwise (fun x y => x.interval.register ≠ y.interval.register) := by
    refine List.pairwise_filterMap.2 ((List.pairwise_map.1 hkeys).imp fun {d e} hne x hx y hy => ?_)
    rwa [hregister hx, hregister hy]
  have hkeeps : ∀ x ∈ a.liveAt (.entry s), ∀ m, Layout.edgeMove f a placed b s x = .ok m →
      a.Keeps x.interval.register (.entry s) m.dest.content := by
    intro x hx m hm
    obtain ⟨e, -, hat⟩ := List.mem_filterMap.1 hx
    have hat : a.splitAt? x.interval.register (.entry s) = some x := by rwa [hregister hat]
    obtain ⟨dest, hdest, hm⟩ := bind_eq_ok hm
    have hdest := keeps_of_storage (hat ▸ rfl) hdest
    split at hm
    · obtain rfl := Except.ok.inj hm
      exact hdest
    · obtain ⟨stop, -, hm⟩ := bind_eq_ok hm
      obtain ⟨src, -, hm⟩ := bind_eq_ok hm
      obtain rfl := Except.ok.inj hm
      exact hdest
  obtain ⟨hlen, hall⟩ := List.forall₂_iff_get.1 (mapM_eq_ok (Layout.edgeMoves_eq_ok.1 hmoves).2)
  refine List.pairwise_map.2 (List.pairwise_iff_getElem.2 fun i j hi hj hij => ?_)
  have hi' : i < (a.liveAt (.entry s)).length := hlen ▸ hi
  have hj' : j < (a.liveAt (.entry s)).length := hlen ▸ hj
  have hne := List.pairwise_iff_getElem.1 hlive i j hi' hj' hij
  exact (hkeeps _ (List.getElem_mem hi') _ (hall i hi' hi)).ne (hkeeps _ (List.getElem_mem hj') _ (hall j hj' hj)) h hne

/-- The moves on an edge can be made. -/
theorem Serves.exists_sequence (h : a.Serves f t) (hf : f.Compilable) (hloops : ∀ header, f.Loop header)
    (hplaced : a.placeBlocks f = .ok placed) (hs : s ∈ f.successors b) :
    ∃ moves, Layout.edgeMoves f a placed b s = .ok moves ∧ ∃ code, Move.sequence moves = .ok code := by
  obtain ⟨next, hnext⟩ := hf.exists_next hs
  obtain ⟨moves, hmoves⟩ := exists_mapM fun x hx => h.exists_edgeMove hf hloops hplaced hs hx
  have hmoves : Layout.edgeMoves f a placed b s = .ok moves := Layout.edgeMoves_eq_ok.2 ⟨hnext ▸ rfl, hmoves⟩
  exact ⟨moves, hmoves, _, Move.sequence_eq_ok (h.edgeMoves_nodup hmoves)⟩

/-- The moves on all edges can be made. -/
theorem Serves.exists_patches (h : a.Serves f t) (hf : f.Compilable) (hloops : ∀ header, f.Loop header)
    (hplaced : a.placeBlocks f = .ok placed) : ∃ patches, Layout.patches f a placed = .ok patches := by
  refine exists_bind (exists_mapM fun b _ => ?_) fun _ _ => ⟨_, rfl⟩
  rw [Layout.patchesFrom]
  split
  · rename_i s hsuccs
    obtain ⟨moves, hmoves, hcode⟩ :=
      h.exists_sequence hf hloops hplaced (hsuccs ▸ List.mem_singleton.2 rfl : s ∈ f.successors b)
    refine exists_bind ⟨moves, hmoves⟩ fun moves' hmoves' => ?_
    obtain rfl := Except.ok.inj (hmoves.symm.trans hmoves')
    exact exists_bind hcode fun _ _ => ⟨_, rfl⟩
  · rename_i hsuccs
    refine exists_bind (exists_mapM fun s hs => ?_) fun _ _ => ⟨_, rfl⟩
    -- A block with two successors leads to blocks without other predecessors.
    have htwo : 1 < (f.successors b).length := by
      cases hl : f.successors b with
      | nil =>
        rw [hl] at hs
        cases hs
      | cons s₁ rest =>
        cases rest with
        | nil => exact absurd hl (hsuccs s₁)
        | cons s₂ rest => exact Nat.succ_lt_succ (Nat.succ_pos _)
    obtain ⟨moves, hmoves, hcode⟩ := h.exists_sequence hf hloops hplaced hs
    refine exists_bind ⟨moves, hmoves⟩ fun moves' hmoves' => ?_
    obtain rfl := Except.ok.inj (hmoves.symm.trans hmoves')
    simp only [if_neg (Nat.not_lt.2 (hf.edges b s hs htwo))]
    split_ifs
    · exact ⟨none, rfl⟩
    · exact exists_bind hcode fun _ _ => ⟨_, rfl⟩

end Allocation

/-- **Compiling is total.** A function is compiled, for whatever valid target, if its registers begin before they are
read, its declared loops are entered through their headers and stand after them, its phis have inputs for the
predecessors, its addresses are made of physical registers, and no edge leads from a block with two successors to a
block with several predecessors. -/
theorem compile_total {f : Function} {t : Target} (hf : f.Compilable) (hloops : ∀ header, f.Loop header)
    (ht : t.validate = .ok ()) : ∃ c, compile f t = .ok c := by
  have hvalid := Target.valid_of_validate ht
  refine exists_bind ⟨_, ht⟩ fun _ _ => exists_bind ⟨_, Lifetimes.ofFunction_eq_ok hf.closed⟩ fun lt hlt => ?_
  obtain rfl := Except.ok.inj ((Lifetimes.ofFunction_eq_ok hf.closed).symm.trans hlt)
  refine exists_bind (Allocation.exists_ofLifetimes hf.toProper hloops hvalid) fun a ha => ?_
  have hserves : a.Serves f t := ⟨hf.width, hvalid, ha⟩
  refine exists_bind ?_ fun layout _ => ?_
  · exact exists_bind (hserves.exists_placeBlocks hf) fun placed hplaced =>
      exists_bind (hserves.exists_patches hf hloops hplaced) fun _ _ => ⟨_, rfl⟩
  · exact exists_bind (Allocation.exists_frameSize (hserves.target ▸ hvalid.slotSize)) fun _ _ => ⟨_, rfl⟩

/-- The sum of the numbers up to five, computed in a loop. -/
def summation : Function :=
  let reg : Nat → Operand := fun n => .reg .quad (.virt ⟨n, .quad⟩)
  ⟨"summation",
    [⟨"start", [], [.enter, .mov (.imm .quad 5) (reg 0), .mov (.imm .quad 0) (reg 1)], .goto 1, []⟩,
      ⟨"header", [⟨reg 2, [(0, reg 0), (2, reg 4)]⟩, ⟨reg 3, [(0, reg 1), (2, reg 5)]⟩],
        [.compare .cmp (.imm .quad 0) (reg 2)], .branch .equal 3 2, [1, 2]⟩,
      ⟨"body", [],
        [.mov (reg 3) (reg 5), .arith .add (reg 2) (reg 5), .mov (reg 2) (reg 4), .arith .sub (.imm .quad 1) (reg 4)],
        .goto 1, []⟩,
      ⟨"end", [], [.mov (reg 3) (.phys .quad .a), .leave], .ret, []⟩]⟩

/-- The example can be compiled: its registers begin before they are read. -/
theorem summation_compilable : summation.Compilable := by
  have hinputs : ∀ e ∈ summation.blocks.zipIdx, ∀ φ ∈ e.1.phis, φ.inputs.map Prod.fst = summation.predecessors e.2 := by
    decide
  have hedges : ∀ b < summation.blocks.length, ∀ s ∈ summation.successors b, 1 < (summation.successors b).length →
      (summation.predecessors s).length ≤ 1 := by decide
  exact {
    reachable := Function.reachable_of_check (by decide)
    structured := by decide
    width := by decide
    begins := Function.begins_of_check (by decide)
    closed := by decide
    inputs := fun b blk hb => hinputs (blk, b) (List.mem_zipIdx_iff_getElem?.2 hb)
    grounded := by decide
    edges := fun b s hs => hedges b (Function.lt_length_of_mem_successors hs) s hs }

/-- With a single register all values are spilled at some time. -/
theorem compile_total_summation :
    summation.Compilable ∧ (∀ header, summation.Loop header) ∧ (Target.withAllocatable [.b]).validate = .ok () ∧
      ∃ c, compile summation (.withAllocatable [.b]) = .ok c := by
  have hloops : ∀ header, summation.Loop header := Function.loop_of_check (by decide)
  exact ⟨summation_compilable, hloops, rfl, compile_total summation_compilable hloops rfl⟩

/-- The last block declares itself the header of a loop that the second block is part of, but control does not go
back. -/
def astray : Function :=
  let reg : Operand := .reg .quad (.virt ⟨0, .quad⟩)
  ⟨"astray",
    [⟨"start", [], [], .goto 1, []⟩, ⟨"middle", [], [], .goto 2, []⟩,
      ⟨"define", [], [.mov (.imm .quad 1) reg], .goto 3, []⟩,
      ⟨"end", [], [.compare .cmp (.imm .quad 0) reg], .ret, [1, 3]⟩]⟩

/-- It is not enough that control goes back only to the headers of loops: a loop that is declared where control does
not go back at all makes a register live in a block before the one where it begins. -/
theorem compile_astray :
    astray.Compilable ∧ (∀ b s, s ∈ astray.successors b → @LT.lt Nat _ b s) ∧
      (∀ blk ∈ astray.blocks, blk.phis = [] ∧ ∀ i ∈ blk.code, i.isCall = false) ∧ Target.standard.validate = .ok () ∧
      compile astray .standard = .error (.missingLocation ⟨0, .quad⟩ (.exit 0 0)) := by
  have hedges : ∀ b < astray.blocks.length, ∀ s ∈ astray.successors b,
      @LT.lt Nat _ b s ∧ (astray.successors b).length ≤ 1 := by
    decide
  have hforward : ∀ b s, s ∈ astray.successors b → @LT.lt Nat _ b s ∧ (astray.successors b).length ≤ 1 := fun b s hs =>
    hedges b (Function.lt_length_of_mem_successors hs) s hs
  have hinputs : ∀ e ∈ astray.blocks.zipIdx, ∀ φ ∈ e.1.phis, φ.inputs.map Prod.fst = astray.predecessors e.2 := by
    decide
  refine ⟨?_, fun b s hs => (hforward b s hs).1, by decide, rfl, rfl⟩
  exact {
    reachable := Function.reachable_of_check (by decide)
    structured := by decide
    width := by decide
    begins := Function.begins_of_check (by decide)
    closed := by decide
    inputs := fun b blk hb => hinputs (blk, b) (List.mem_zipIdx_iff_getElem?.2 hb)
    grounded := by decide
    edges := fun b s hs htwo => absurd (hforward b s hs).2 (Nat.not_le.2 htwo) }

end RegAlloc
