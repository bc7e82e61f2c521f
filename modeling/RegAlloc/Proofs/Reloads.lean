import RegAlloc.Proofs.Bounds
import RegAlloc.Proofs.Transfers

/-!
# What a stack slot holds where it is read

The slot of a register is read by reloads, and by instructions that read the register while it has no physical
register (`ReadsSlot`). The last write before such a position either went to the slot itself, or was made in another
split, and that split is spilled right there (`Made.stored`): the split is over before the position, so its last write
is the last one of all.

Transfers stand at positions of the function that the lifetimes are of, each at one position and once there
(`Made.count_transfers`). The code of a block is made up position by position (`body_eq_positions`), so that each
transfer is emitted once.
-/

namespace RegAlloc

namespace Interval

variable {i : Interval} {p q d : Position}

/-- The accesses before a position are those of the interval that lie before it. -/
theorem mem_accesses_before : q ∈ (i.before p).accesses ↔ q ∈ i.accesses ∧ q < p := by
  simp only [accesses, before, List.mem_map, List.mem_filter, decide_eq_true_eq]
  constructor
  · rintro ⟨s, ⟨hs, hlt⟩, rfl⟩
    exact ⟨⟨s, hs, rfl⟩, hlt⟩
  · rintro ⟨⟨s, hs, rfl⟩, hlt⟩
    exact ⟨s, ⟨hs, hlt⟩, rfl⟩

/-- The last write before a position. -/
theorem lastDef?_before (h : i.WellFormed) (hd : (i.before p).lastDef? = some d) :
    d ∈ i.accesses ∧ d.isWrite ∧ d < p ∧ ∀ q ∈ i.accesses, q.isWrite → q < p → q ≤ d := by
  obtain ⟨hmem, hwrite⟩ := mem_of_lastDef? hd
  obtain ⟨hmem, hlt⟩ := mem_accesses_before.1 hmem
  refine ⟨hmem, hwrite, hlt, fun q hq hqw hqp => ?_⟩
  obtain ⟨d', hd', hle⟩ := exists_lastDef? (h.before p) (mem_accesses_before.2 ⟨hq, hqp⟩) hqw
  obtain rfl := Option.some.inj (hd.symm.trans hd')
  exact hle

end Interval

namespace Allocation

variable {f : Function} {lt : Lifetimes} {t : Target} {a : Allocation} {v : VirtReg} {p q d : Position} {x y : Split}
  {z : Transfer} {k : Nat} {r : PhysReg}

/-! ## The last write before the slot is read -/

/-- The slot of a register is read at a position: the register is loaded there, or an instruction reads it in a split
that has no physical register. -/
def ReadsSlot (a : Allocation) (v : VirtReg) (p : Position) : Prop :=
  (∃ z ∈ a.transfersAt p, z.register = v ∧ z.kind = .reload) ∨
    ∃ x ∈ a.splitsFor v, x.register = none ∧ p ∈ x.interval.accesses ∧ p.isRead

namespace Made

/-- Where a slot is read, a split without a register stands, or a split begins. -/
theorem split_of_readsSlot (h : a.Made lt t) (hp : a.ReadsSlot v p) :
    ∃ x, a.splitAt? v p = some x ∧ (x.register = none ∨ x.interval.start = p) := by
  rcases hp with ⟨z, hz, rfl, hkind⟩ | ⟨x, hx, hr, hacc, -⟩
  · obtain ⟨-, y, hy, -, -, ⟨hspill, -⟩ | ⟨-, -, hstart, -⟩⟩ := h.mem_transfersAt.1 hz
    · cases hkind.symm.trans hspill
    · exact ⟨y, hy, .inr hstart⟩
  · exact ⟨x, h.splitAt?_of_mem_accesses hx hacc, .inl hr⟩

/-- Every site of a register is a site of one of its splits. -/
theorem exists_split_of_mem_accesses (h : a.Made lt t) (hx : x ∈ a.splitsFor v) (hd : d ∈ (lt.life v).accesses) :
    ∃ y ∈ a.splitsFor v, d ∈ y.interval.accesses := by
  obtain ⟨s, hs, rfl⟩ := List.mem_map.1 hd
  rw [← (h.divides hx).sites] at hs
  obtain ⟨_, hmem, hs⟩ := List.mem_flatMap.1 hs
  obtain ⟨y, hy, rfl⟩ := List.mem_map.1 hmem
  exact ⟨y, hy, List.mem_map_of_mem hs⟩

/-- The last write before a position where the slot is read is in the slot: the split that made it has no register, or
it is another split, which is spilled there. -/
theorem stored (h : a.Made lt t) (hk : a.slot? v = some k) (hp : a.ReadsSlot v p)
    (hd : ((lt.life v).before p).lastDef? = some d) :
    ∃ y, a.splitAt? v d = some y ∧ (y.register = none ∨
      ∃ r, y.register = some r ∧ a.splitAt? v p ≠ some y ∧ ⟨.spill, v, y.id, r, k⟩ ∈ a.transfersAt d) := by
  obtain ⟨x, hx, hor⟩ := h.split_of_readsSlot hp
  obtain ⟨hxm, hxp⟩ := h.splitAt?_eq_some.1 hx
  obtain ⟨hdacc, hdw, hlt, hlast⟩ := Interval.lastDef?_before (h.live hxm).toWellFormed hd
  obtain ⟨y, hym, hyd⟩ := h.exists_split_of_mem_accesses hxm hdacc
  have hy := h.splitAt?_of_mem_accesses hym hyd
  have hydcov := (h.splitAt?_eq_some.1 hy).2
  refine ⟨y, hy, ?_⟩
  cases hr : y.register with
  | none => exact .inl rfl
  | some r =>
    have hlx := h.live_split hxm
    have hly := h.live_split hym
    have hne : y ≠ x := by
      rintro rfl
      rcases hor with hnone | hstart
      · cases hr.symm.trans hnone
      · exact absurd (hly.start_le hydcov) (not_le.2 (hstart ▸ hlt))
    refine .inr ⟨r, rfl, fun heq => hne (Option.some.inj (heq.symm.trans hx)), ?_⟩
    have hbefore : y.interval.Before x.interval := by
      refine (h.apart hym hxm hne).resolve_right fun hxy => ?_
      have hpd : p < d := lt_of_le_of_lt (hlx.le_stop hxp) (lt_of_lt_of_le hxy.range (hly.start_le hydcov))
      exact absurd hlt (not_lt.2 (le_of_lt hpd))
    -- The split is over before the slot is read, so none of its writes comes after `d`.
    obtain ⟨q, hq, hle⟩ := Interval.exists_lastDef? hly.toWellFormed hyd hdw
    obtain ⟨hqacc, hqw⟩ := Interval.mem_of_lastDef? hq
    have hyq := h.splitAt?_of_mem_accesses hym hqacc
    have hqp : q < p :=
      lt_of_le_of_lt (hly.le_stop (h.splitAt?_eq_some.1 hyq).2) (lt_of_lt_of_le hbefore.range (hlx.start_le hxp))
    obtain rfl := le_antisymm hle (hlast q ((h.mem_sites hyq).1 hqacc) hqw hqp)
    exact h.mem_transfersAt.2 ⟨hk, y, hy, rfl, hr, .inl ⟨rfl, hq⟩⟩

/-- A later split with a register that begins inside a block, and not with a write, is loaded where it begins. -/
theorem reloaded (h : a.Made lt t) {later : List Split} (hsplits : a.splitsFor v = x :: later) (hy : y ∈ later)
    (hr : y.register = some r) (hslot : y.interval.start.slot ≠ 0)
    (hwrite : ¬(y.interval.start.isWrite ∧ y.interval.start ∈ y.interval.accesses)) :
    ∃ k, a.slot? v = some k ∧ ⟨.reload, v, y.id, r, k⟩ ∈ a.transfersAt y.interval.start := by
  have hxm : x ∈ a.splitsFor v := hsplits ▸ List.mem_cons_self
  have hym : y ∈ a.splitsFor v := hsplits ▸ List.mem_cons_of_mem _ hy
  have hbefore : x.interval.Before y.interval := by
    have hordered := (h.divides hxm).ordered
    rw [hsplits, List.map_cons] at hordered
    exact (List.pairwise_cons.1 hordered).1 _ (List.mem_map_of_mem hy)
  have hne : x ≠ y := by
    rintro rfl
    exact absurd (lt_of_lt_of_le hbefore.range (h.live_split hxm).start_le_stop) (lt_irrefl _)
  obtain ⟨k, hk⟩ := h.slot_of_two hxm hym hne
  refine ⟨k, hk, h.mem_transfersAt.2 ⟨hk, y, ?_, rfl, hr, .inr ⟨rfl, ⟨x, hxm, hbefore⟩, rfl, hslot, ?_⟩⟩⟩
  · exact h.splitAt?_eq_some.2 ⟨hym, (h.live_split hym).covers_start⟩
  · rintro ⟨hw, hfirst⟩
    exact hwrite ⟨hw, Interval.mem_of_firstSite? hfirst⟩

/-- A transfer stands at one position only: after the last write of its split, or where the split begins. -/
theorem position_unique (h : a.Made lt t) (hp : z ∈ a.transfersAt p) (hq : z ∈ a.transfersAt q) : p = q := by
  obtain ⟨-, x, hx, hidx, -, hcasex⟩ := h.mem_transfersAt.1 hp
  obtain ⟨-, y, hy, hidy, -, hcasey⟩ := h.mem_transfersAt.1 hq
  obtain rfl := h.ids_inj (h.splitAt?_eq_some.1 hx).1 (h.splitAt?_eq_some.1 hy).1 (hidx.symm.trans hidy)
  rcases hcasex with ⟨hkind, hlast⟩ | ⟨hkind, -, hstart, -⟩ <;>
    rcases hcasey with ⟨hkind', hlast'⟩ | ⟨hkind', -, hstart', -⟩
  · exact Option.some.inj (hlast.symm.trans hlast')
  · cases hkind.symm.trans hkind'
  · cases hkind.symm.trans hkind'
  · exact hstart.symm.trans hstart'

end Made

end Allocation

/-! ## Each transfer is emitted once -/

namespace Transfer

variable {x y z : Transfer} {p : Position} {l : List Transfer}

instance : IsStrictOrder Transfer (· < ·) where
  irrefl x := by
    rintro (h | ⟨-, h | ⟨-, h⟩⟩)
    · exact Nat.lt_irrefl _ h
    · exact irrefl_of (· < ·) _ h
    · exact Nat.lt_irrefl _ h
  trans x y z hxy hyz := by
    rcases hxy with hxy | ⟨hxy, hxy'⟩ <;> rcases hyz with hyz | ⟨hyz, hyz'⟩
    · exact .inl (Nat.lt_trans hxy hyz)
    · exact .inl (hyz ▸ hxy)
    · exact .inl (hxy ▸ hyz)
    · refine .inr ⟨hxy.trans hyz, ?_⟩
      rcases hxy' with hxy' | ⟨hxy', hid⟩ <;> rcases hyz' with hyz' | ⟨hyz', hid'⟩
      · exact .inl (trans_of (· < ·) hxy' hyz')
      · exact .inl (hyz' ▸ hxy')
      · exact .inl (hxy' ▸ hyz')
      · exact .inr ⟨hxy'.trans hyz', Nat.lt_trans hid hid'⟩

/-- Inserting a transfer that stands in a list leaves the list as it is, so transfers are kept in order and once.
Transfers of one split and kind that differ in their homes or slots do not compare, which is why the order alone does
not tell them apart. -/
theorem insertBy_distinct (h : l.Pairwise (fun x y => ¬y < x ∧ x ≠ y)) :
    (insertBy id z l).Pairwise (fun x y => ¬y < x ∧ x ≠ y) := by
  induction l with
  | nil => exact List.pairwise_singleton _ _
  | cons x l ih =>
    obtain ⟨hx, hl⟩ := List.pairwise_cons.1 h
    rw [insertBy]
    simp only [id_eq]
    split_ifs with hlt heq
    · refine List.pairwise_cons.2 ⟨List.forall_mem_cons.2 ⟨⟨asymm_of (· < ·) hlt, ?_⟩, fun y hy => ⟨?_, ?_⟩⟩, h⟩
      · rintro rfl
        exact irrefl_of (· < ·) z hlt
      · exact fun hyz => (hx y hy).1 (trans_of (· < ·) hyz hlt)
      · rintro rfl
        exact (hx z hy).1 hlt
    · exact heq ▸ h
    · refine List.pairwise_cons.2 ⟨fun y hy => ?_, ih hl⟩
      rcases mem_of_mem_insertBy hy with rfl | hy
      · exact ⟨hlt, Ne.symm heq⟩
      · exact hx y hy

/-- Whatever transfers are put in, those of each position are in order and different. -/
theorem foldl_insert_distinct {l : List (Position × Transfer)} {table : List (Position × List Transfer)}
    (h : ∀ p, ((lookupBy p table).getD []).Pairwise (fun x y => ¬y < x ∧ x ≠ y)) (p : Position) :
    ((lookupBy p (l.foldl insert table)).getD []).Pairwise (fun x y => ¬y < x ∧ x ≠ y) := by
  induction l generalizing table with
  | nil => exact h p
  | cons e l ih =>
    refine ih fun q => ?_
    rw [insert, lookupBy_insertBy]
    split_ifs
    · exact insertBy_distinct (h e.1)
    · exact h q

end Transfer

namespace Allocation

variable {f : Function} {lt : Lifetimes} {t : Target} {a : Allocation} {b : BlockId} {blk : Block}
  {p : Position} {z : Transfer}

/-- No transfer stands twice at a position. -/
theorem nodup_transfersAt (h : ofLifetimes lt t = .ok a) (p : Position) : (a.transfersAt p).Nodup := by
  obtain ⟨s, -, h⟩ := bind_eq_ok h
  obtain ⟨transfers, -, h⟩ := bind_eq_ok h
  obtain rfl := Except.ok.inj h
  exact (Transfer.foldl_insert_distinct (fun _ => List.Pairwise.nil) p).imp And.right

/-- A transfer of an allocation for the lifetimes of a function stands at a position of the function, and only there. -/
theorem Made.count_transfers (h : a.Made lt t) {t' : Target} (hf : Lifetimes.ofFunction f t' = .ok lt)
    (hz : z ∈ a.transfersAt p) :
    p ∈ f.positions ∧ (f.positions.flatMap a.transfersAt).count z = 1 := by
  have hp : p ∈ f.positions := by
    obtain ⟨hclosed, rfl⟩ := Lifetimes.closed_of_ofFunction hf
    obtain ⟨-, y, hy, -⟩ := h.mem_transfersAt.1 hz
    obtain ⟨hym, hyp⟩ := h.splitAt?_eq_some.1 hy
    exact Function.mem_positions_of_covers hclosed (h.covers_life hym hyp)
  refine ⟨hp, List.count_eq_one_of_mem ?_ (List.mem_flatMap.2 ⟨p, hp, hz⟩)⟩
  refine List.nodup_flatMap.2 ⟨fun q _ => nodup_transfersAt h.made q, f.nodup_positions.imp fun {p q} hne z hp hq => ?_⟩
  exact hne (h.position_unique hp hq)

/-- A transfer is one move, between the register that its split has at the position and the slot of its register. -/
theorem Made.transferCode_eq (h : a.Made lt t) (hz : z ∈ a.transfersAt p) :
    ∃ y cell, a.splitAt? z.register p = some y ∧ y.register = some z.home ∧
      a.slotOf? z.register z.register.width = some cell ∧
      (z.kind = .spill → a.transferCode z = .mov (.phys z.register.width z.home) cell) ∧
      (z.kind = .reload → a.transferCode z = .mov cell (.phys z.register.width z.home)) := by
  obtain ⟨hk, y, hy, -, hr, -⟩ := h.mem_transfersAt.1 hz
  have hcell : a.slotOf? z.register z.register.width = some (a.slotCell z.slot z.register.width) := by
    rw [slotOf?, hk]
    rfl
  refine ⟨y, _, hy, hr, hcell, fun hkind => ?_, fun hkind => ?_⟩
  · rw [transferCode, hkind]
  · rw [transferCode, hkind]

/-- What the code of a block does at a position besides transfers: an instruction stands where it reads. -/
def ownCode (a : Allocation) (blk : Block) (p : Position) : List Instruction :=
  match if p.isRead then blk.code[p.slot / 2]? else none with
  | some i => (a.placeInstruction p p.next i).toOption.getD []
  | none => []

/-- Where an instruction reads, its code in place stands. -/
theorem ownCode_readAt {k : Nat} {i : Instruction} {code : List Instruction} (hi : blk.code[k]? = some i)
    (hcode : a.placeInstruction (.readAt b k) (.writeAt b k) i = .ok code) : a.ownCode blk (.readAt b k) = code := by
  have hread : (Position.readAt b k).isRead = true := by simp [Position.isRead, Position.isWrite, Position.readAt]
  have hhalf : (Position.readAt b k).slot / 2 = k := by
    simp only [Position.readAt]
    omega
  have hnext : (Position.readAt b k).next = .writeAt b k := rfl
  rw [ownCode, hread, hhalf, hnext, if_pos rfl, hi]
  simp only [hcode]
  rfl

/-- Where instructions write, nothing but transfers stands. -/
theorem ownCode_of_isWrite (hp : p.isWrite) : a.ownCode blk p = [] := by
  rw [ownCode, Position.isRead, hp]
  rfl

theorem ownCode_stop : a.ownCode blk (blk.stop b) = [] := by
  have hhalf : (blk.stop b).slot / 2 = blk.code.length := by
    simp only [Block.stop, Position.exit, Position.readAt]
    omega
  rw [ownCode, hhalf, List.getElem?_eq_none (Nat.le_refl _)]
  split_ifs <;> rfl

/-- The instructions from one on, with the transfers around them. -/
theorem flatten_placeNumbered {k : Nat} {l : List Instruction} {codes : List (List Instruction)}
    (hl : blk.code.drop k = l) (h : (l.zipIdx k).mapM (a.placeNumbered b) = .ok codes) :
    codes.flatten = ((List.range' (2 * k + 1) (2 * l.length)).map (Position.mk b)).flatMap
      (fun p => a.transferCodeAt p ++ a.ownCode blk p) := by
  induction l generalizing k codes with
  | nil =>
    obtain rfl := Except.ok.inj h
    rfl
  | cons i l ih =>
    have hi : blk.code[k]? = some i := by
      have hhead := congrArg List.head? hl
      rwa [List.head?_drop] at hhead
    rw [List.zipIdx_cons, List.mapM_cons] at h
    obtain ⟨code, hcode, h⟩ := bind_eq_ok h
    obtain ⟨codes, hcodes, h⟩ := bind_eq_ok h
    obtain rfl := Except.ok.inj h
    obtain ⟨own, hown, hcode⟩ := bind_eq_ok hcode
    obtain rfl := Except.ok.inj hcode
    have hrest := ih (by rw [← List.drop_drop, hl]; rfl) hcodes
    have hlength : 2 * (i :: l).length = 2 * l.length + 1 + 1 := by
      rw [List.length_cons]
      omega
    rw [List.flatten_cons, hrest, hlength, List.range'_succ, List.range'_succ]
    have hread : Position.mk b (2 * k + 1) = .readAt b k := rfl
    have hwrite : Position.mk b (2 * k + 1 + 1) = .writeAt b k := rfl
    have hnone : a.ownCode blk (.writeAt b k) = [] := ownCode_of_isWrite (by simp [Position.isWrite, Position.writeAt])
    have hnext : 2 * (k + 1) + 1 = 2 * k + 1 + 1 + 1 := by omega
    simp only [List.map_cons, List.flatMap_cons, hread, hwrite, ownCode_readAt hi hown, hnone, hnext, List.append_nil,
      List.append_assoc]

/-- The code of a block, position by position: the transfers there, and then what the block does itself. -/
theorem body_eq_positions (hb : f.block? b = some blk) {placed : PlacedBlock} (h : placeBlock f a b = .ok placed) :
    placed.body = (blk.positions b).flatMap (fun p => a.transferCodeAt p ++ a.ownCode blk p) := by
  rw [placeBlock, hb] at h
  obtain ⟨phis, -, h⟩ := bind_eq_ok h
  obtain ⟨codes, hcodes, h⟩ := bind_eq_ok h
  obtain rfl := Except.ok.inj h
  have hrange : List.range (2 * blk.code.length + 2) =
      0 :: List.range' 1 (2 * blk.code.length) ++ [2 * blk.code.length + 1] := by
    rw [List.range_eq_range', List.range'_succ, List.range'_1_concat, Nat.add_comm 1]
    rfl
  have hentry : Position.mk b 0 = .entry b := rfl
  have hstop : Position.mk b (2 * blk.code.length + 1) = blk.stop b := rfl
  have hnone : a.ownCode blk (.entry b) = [] := ownCode_of_isWrite (by simp [Position.isWrite, Position.entry])
  rw [Block.positions, hrange]
  simp only [List.map_append, List.map_cons, List.map_nil, List.flatMap_append, List.flatMap_cons, List.flatMap_nil,
    hentry, hstop, hnone, ownCode_stop, List.append_nil, flatten_placeNumbered List.drop_zero hcodes]

/-- A stack slot holds the value of its register wherever it is read. The last write before went to the slot itself,
or was made in another split that is spilled there. Every split with a register is loaded where it begins, unless it
is the first of its register or begins with a block or with a write. A transfer is a move between the register of its
split and the slot. And if the lifetimes are those of a function, each transfer stands at one position of the
function, and the code of a block is, position by position, the moves of the transfers there and what the block does
itself. -/
theorem slot_current (hlt : lt.WellFormed) (hin : ∀ i ∈ lt.intervals, i.Inside) (ht : t.validate = .ok ())
    (h : ofLifetimes lt t = .ok a) :
    (∀ i ∈ lt.intervals, ∀ k, a.slot? i.register = some k → ∀ p, a.ReadsSlot i.register p →
      ∀ d, (i.before p).lastDef? = some d →
      (∃ y, a.splitAt? i.register d = some y ∧ (y.register = none ∨ ∃ r, y.register = some r ∧
          a.splitAt? i.register p ≠ some y ∧ ⟨.spill, i.register, y.id, r, k⟩ ∈ a.transfersAt d)) ∧
        ∀ q ∈ i.accesses, q.isWrite → ¬(d < q ∧ q < p)) ∧
      (∀ v x later, a.splitsFor v = x :: later → ∀ y ∈ later, ∀ r, y.register = some r → y.interval.start.slot ≠ 0 →
        ¬(y.interval.start.isWrite ∧ y.interval.start ∈ y.interval.accesses) →
          ∃ k, a.slot? v = some k ∧ ⟨.reload, v, y.id, r, k⟩ ∈ a.transfersAt y.interval.start) ∧
      (∀ p, ∀ z ∈ a.transfersAt p, ∃ y cell, a.splitAt? z.register p = some y ∧ y.register = some z.home ∧
        a.slotOf? z.register z.register.width = some cell ∧
        (z.kind = .spill → a.transferCode z = .mov (.phys z.register.width z.home) cell) ∧
        (z.kind = .reload → a.transferCode z = .mov cell (.phys z.register.width z.home))) ∧
      ∀ f t', Lifetimes.ofFunction f t' = .ok lt →
        (∀ p, ∀ z ∈ a.transfersAt p, p ∈ f.positions ∧ (f.positions.flatMap a.transfersAt).count z = 1) ∧
        ∀ b blk placed, f.block? b = some blk → placeBlock f a b = .ok placed →
          placed.body =
            (blk.positions b).flatMap (fun p => (a.transfersAt p).map a.transferCode ++ a.ownCode blk p) := by
  have hmade : a.Made lt t := ⟨hlt, hin, Target.valid_of_validate ht, h⟩
  refine ⟨fun i hi k hk p hp d hd => ⟨?_, fun q hq hw hbetween => ?_⟩, ?_, ?_, fun f t' hf => ⟨?_, ?_⟩⟩
  · exact hmade.stored hk hp (by rwa [hlt.life_eq hi])
  · obtain ⟨-, -, -, hlast⟩ := Interval.lastDef?_before (hlt.intervals i hi) hd
    exact absurd hbetween.1 (not_lt.2 (hlast q hq hw hbetween.2))
  · exact fun v x later hsplits y hy r hr hslot hwrite => hmade.reloaded hsplits hy hr hslot hwrite
  · exact fun p z hz => hmade.transferCode_eq hz
  · exact fun p z hz => hmade.count_transfers hf hz
  · exact fun b blk placed hb hplaced => body_eq_positions hb hplaced

/-- Code that needs its only register for other values, before and after it writes the first one again. -/
def juggled : Function :=
  let reg : Nat → Operand := fun n => .reg .quad (.virt ⟨n, .quad⟩)
  let argument : Operand := .phys .quad .di
  ⟨"juggled",
    [⟨"start", [], [.mov (.imm .quad 1) (reg 0), .mov (.imm .quad 2) (reg 1), .mov (reg 1) argument, .neg (reg 0),
    .mov (.imm .quad 3) (reg 2), .neg (reg 2), .mov (reg 2) argument, .mov (reg 0) argument], .ret, []⟩]⟩

/-- The last reload of the first value finds what was written last, two splits before. -/
theorem slot_current_juggled :
    ∃ lt, Lifetimes.ofFunction juggled (.withAllocatable [.c]) = .ok lt ∧ lt.WellFormed ∧
      (∀ i ∈ lt.intervals, i.Inside) ∧ (Target.withAllocatable [.c]).validate = .ok () ∧
      ∃ a, ofLifetimes lt (.withAllocatable [.c]) = .ok a ∧ a.slot? ⟨0, .quad⟩ = some 0 ∧
      a.ReadsSlot ⟨0, .quad⟩ ⟨0, 15⟩ ∧ ((lt.life ⟨0, .quad⟩).before ⟨0, 15⟩).lastDef? = some ⟨0, 8⟩ ∧
        (∃ y, a.splitAt? ⟨0, .quad⟩ ⟨0, 8⟩ = some y ∧ y.register = some .c ∧ a.splitAt? ⟨0, .quad⟩ ⟨0, 15⟩ ≠ some y ∧
          ⟨.spill, ⟨0, .quad⟩, y.id, .c, 0⟩ ∈ a.transfersAt ⟨0, 8⟩) ∧
        (juggled.positions.flatMap a.transfersAt).count ⟨.reload, ⟨0, .quad⟩, 6, .c, 0⟩ = 1 ∧
        ∃ cell, a.slotOf? ⟨0, .quad⟩ .quad = some cell ∧
          a.transferCode ⟨.reload, ⟨0, .quad⟩, 6, .c, 0⟩ = .mov cell (.phys .quad .c) := by
  have hf :
      Lifetimes.ofFunction juggled (.withAllocatable [.c]) = .ok (Lifetimes.compute juggled (.withAllocatable [.c])) :=
    Lifetimes.ofFunction_eq_ok (by decide)
  have hw : juggled.OneWidth := by decide
  have hlt := Function.compute_wellFormed hw (.withAllocatable [.c])
  have hin : ∀ i ∈ (Lifetimes.compute juggled (.withAllocatable [.c])).intervals, i.Inside :=
    fun i hi => Function.eq_life_of_mem hi ▸ Function.life_inside hw
  have hrun :
      (ofLifetimes (Lifetimes.compute juggled (.withAllocatable [.c])) (.withAllocatable [.c])).toOption.map (fun a =>
        (a.slot? ⟨0, .quad⟩, (a.splitAt? ⟨0, .quad⟩ ⟨0, 8⟩).bind Split.register, a.transfersAt ⟨0, 15⟩)) =
      some (some 0, some .c, [⟨.reload, ⟨0, .quad⟩, 6, .c, 0⟩]) := rfl
  obtain ⟨a, ha, hrun⟩ := Option.map_eq_some_iff.1 hrun
  have ha := ok_of_toOption ha
  simp only [Prod.mk.injEq] at hrun
  obtain ⟨hslot, hhome, htransfers⟩ := hrun
  have hreload : ⟨.reload, ⟨0, .quad⟩, 6, .c, 0⟩ ∈ a.transfersAt ⟨0, 15⟩ := htransfers ▸ List.mem_singleton.2 rfl
  have hreads : a.ReadsSlot ⟨0, .quad⟩ ⟨0, 15⟩ := .inl ⟨_, hreload, rfl, rfl⟩
  have hlast :
      ((Lifetimes.compute juggled (.withAllocatable [.c])).life ⟨0, .quad⟩ |>.before ⟨0, 15⟩).lastDef? = some ⟨0, 8⟩ :=
    rfl
  obtain ⟨hstored, -, hmove, honce⟩ := slot_current hlt hin rfl ha
  obtain ⟨-, cell, -, -, hcell, -, hcode⟩ := hmove _ _ hreload
  obtain ⟨⟨y, hy, hor⟩, -⟩ := hstored _ List.mem_cons_self 0 hslot ⟨0, 15⟩ hreads ⟨0, 8⟩ hlast
  have hc : y.register = some .c := by
    rwa [show a.splitAt? ⟨0, .quad⟩ ⟨0, 8⟩ = some y from hy] at hhome
  refine ⟨_, hf, hlt, hin, rfl, a, ha, hslot, hreads, hlast, ⟨y, hy, hc, ?_⟩, ((honce juggled _ hf).1 _ _ hreload).2,
    cell, hcell, hcode rfl⟩
  rcases hor with hnone | ⟨r, hr, hne, hspill⟩
  · cases hc.symm.trans hnone
  · obtain rfl := Option.some.inj (hc.symm.trans hr)
    exact ⟨hne, hspill⟩

end Allocation

end RegAlloc
