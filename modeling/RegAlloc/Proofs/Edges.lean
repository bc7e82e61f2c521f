import RegAlloc.Layout
import RegAlloc.Proofs.Lockstep

/-!
# A function and its code between blocks

On the way from a block to the next one the function lets the phis of the second block choose, all at once, and its
code makes moves. There is one move for every register that has a place at the start of the second block: it reads the
input of the phi that writes the register, or else the place where the register is kept at the end of the first block
(`Feeds`). So the moves carry every value that is live to its place, and the transfers at the start of the block bring
the machines back into agreement (`Agree.moves`, `Arrived.agree`).
-/

namespace RegAlloc

open Machine

/-! ## Phis -/

/-- A phi writes the register that is its output. -/
theorem Phi.virt?_eq_some {φ : Phi} {v : VirtReg} : φ.virt? = some v ↔ φ.output.register? = some (.virt v) := by
  rw [virt?]
  cases φ.output.register? with
  | none => simp
  | some r => cases r <;> simp [Register.virt?]

/-- Of phis that write different registers, one register is written by one only. -/
theorem Phi.eq_of_virt? {phis : List Phi} (hnd : (phis.filterMap Phi.virt?).Nodup) {φ ψ : Phi} {v : VirtReg}
    (hφ : φ ∈ phis) (hψ : ψ ∈ phis) (hv : φ.virt? = some v) (hw : ψ.virt? = some v) : φ = ψ := by
  induction phis with
  | nil => cases hφ
  | cons χ phis ih =>
    have hmem : ∀ {ω : Phi}, ω ∈ phis → ω.virt? = some v → v ∈ phis.filterMap Phi.virt? := fun hω hωv =>
      List.mem_filterMap.2 ⟨_, hω, hωv⟩
    rcases List.mem_cons.1 hφ with rfl | hφ'
    · rw [List.filterMap_cons_some hv, List.nodup_cons] at hnd
      rcases List.mem_cons.1 hψ with rfl | hψ'
      · rfl
      · exact absurd (hmem hψ' hw) hnd.1
    · rcases List.mem_cons.1 hψ with rfl | hψ'
      · rw [List.filterMap_cons_some hw, List.nodup_cons] at hnd
        exact absurd (hmem hφ' hv) hnd.1
      · exact ih (hnd.sublist ((List.sublist_cons_self _ _).filterMap _)) hφ' hψ'

namespace Machine

variable {m : Machine} {phis : List Phi} {b : BlockId} {v : VirtReg} {r : PhysReg}

/-- A register that no phi writes is left alone. -/
theorem choose_of_forall {r : Register} (h : ∀ φ ∈ phis, φ.output.register? ≠ some r) :
    (m.choose phis b).regs r = m.regs r := by
  have hnone : phis.find? (fun φ => φ.output.register? = some r) = none := by
    rw [List.find?_eq_none]
    exact fun φ hφ hout => h φ hφ (of_decide_eq_true hout)
  simp only [choose, phiValue?, hnone]
  rfl

/-- Phis change only the registers that they write. -/
theorem choose_of_not_mem (h : v ∉ phis.filterMap Phi.virt?) : (m.choose phis b).regs (.virt v) = m.regs (.virt v) :=
  choose_of_forall fun φ hφ hout => h (List.mem_filterMap.2 ⟨φ, hφ, Phi.virt?_eq_some.2 hout⟩)

theorem choose_phys (h : ∀ φ ∈ phis, φ.virt?.isSome) : (m.choose phis b).regs (.phys r) = m.regs (.phys r) := by
  refine choose_of_forall fun φ hφ hout => ?_
  have hsome := h φ hφ
  rw [Phi.virt?, hout] at hsome
  cases hsome

/-- A register that a phi writes gets the phi's input. -/
theorem choose_of_mem (hnd : (phis.filterMap Phi.virt?).Nodup) {φ : Phi} (hφ : φ ∈ phis) (hv : φ.virt? = some v)
    {o : Operand} (ho : φ.input? b = some o) : (m.choose phis b).regs (.virt v) = m.value o := by
  have hfind : phis.find? (fun φ => φ.output.register? = some (.virt v)) = some φ := by
    cases hψ : phis.find? (fun φ => φ.output.register? = some (.virt v)) with
    | none => exact absurd (decide_eq_true (Phi.virt?_eq_some.1 hv)) (List.find?_eq_none.1 hψ φ hφ)
    | some ψ =>
      have hw : ψ.output.register? = some (.virt v) := by simpa using List.find?_some hψ
      rw [Phi.eq_of_virt? hnd (List.mem_of_find?_eq_some hψ) hφ (Phi.virt?_eq_some.2 hw) hv]
  simp only [choose, phiValue?, hfind, Option.bind_some, ho, Option.map_some, Option.getD_some]

end Machine

/-! ## Moves on an edge -/

/-- The moves of an edge are those of the registers that are live at the start of the successor. -/
theorem Layout.edgeMoves_eq_ok {f : Function} {a : Allocation} {placed : List PlacedBlock} {b s : BlockId}
    {moves : List Move} :
    edgeMoves f a placed b s = .ok moves ↔
      (f.block? s).isSome ∧ (a.liveAt (.entry s)).mapM (edgeMove f a placed b s) = .ok moves := by
  rw [edgeMoves]
  cases f.block? s with
  | none => simp
  | some blk => simp

namespace Allocation

variable {f : Function} {t : Target} {a : Allocation} {size : Nat} {m₀ sm tm sm' tm' : Machine} {b s : BlockId}
  {blk next : Block} {v : VirtReg} {p : Position} {c : Content} {o o' : Operand} {pb : PlacedBlock}

/-- The input of a phi for a predecessor, in place. -/
theorem lookupBy_placeInput {ins ins' : List (BlockId × Operand)}
    (h : List.Forall₂ (fun e e' => placeInput f a e = .ok e') ins ins') (hb : f.block? b = some blk)
    (ho : lookupBy b ins = some o) :
    ∃ o', lookupBy b ins' = some o' ∧ a.place (blk.stop b) o = .ok o' := by
  induction h with
  | nil => cases ho
  | @cons e e' ins ins' he _ ih =>
    obtain ⟨stop, hstop, he⟩ := bind_eq_ok he
    obtain ⟨x, hx, he⟩ := bind_eq_ok he
    obtain rfl := Except.ok.inj he
    rw [lookupBy_cons] at ho ⊢
    by_cases heq : e.1 = b
    · rw [if_pos heq] at ho ⊢
      obtain rfl := Option.some.inj ho
      refine ⟨x, rfl, ?_⟩
      rw [Function.stop, heq, hb] at hstop
      obtain rfl := Except.ok.inj hstop
      exact hx
    · rw [if_neg heq] at ho ⊢
      exact ih ho

/-- A phi that is placed is the phi of its register. -/
theorem virt?_of_placePhi {φ φ' : Phi} (h : placePhi f a s φ = .ok (some (v, φ'))) : φ.virt? = some v := by
  rw [placePhi] at h
  cases hv : φ.virt? with
  | none =>
    rw [hv] at h
    cases h
  | some w =>
    rw [hv] at h
    simp only at h
    split_ifs at h
    · obtain ⟨output, -, h⟩ := bind_eq_ok h
      obtain ⟨inputs, -, h⟩ := bind_eq_ok h
      cases h
      rfl
    · cases h

/-- A phi of a register that is live anywhere is kept, with its inputs in place. -/
theorem exists_placePhi {φ : Phi} {x : Option (VirtReg × Phi)} (h : placePhi f a s φ = .ok x) (hv : φ.virt? = some v)
    (hr : a.hasRegister v) :
    ∃ φ', x = some (v, φ') ∧ List.Forall₂ (fun e e' => placeInput f a e = .ok e') φ.inputs φ'.inputs := by
  rw [placePhi, hv] at h
  simp only [hr, if_true] at h
  obtain ⟨output, -, h⟩ := bind_eq_ok h
  obtain ⟨inputs, hinputs, h⟩ := bind_eq_ok h
  cases h
  exact ⟨_, rfl, mapM_eq_ok hinputs⟩

/-- The phis that are placed write registers that phis of the block write, in the same order. -/
theorem placedPhis_sublist {phis : List Phi} {placed : List (Option (VirtReg × Phi))}
    (h : List.Forall₂ (fun φ x => placePhi f a s φ = .ok x) phis placed) :
    ((placed.filterMap id).map Prod.fst).Sublist (phis.filterMap Phi.virt?) := by
  induction h with
  | nil => exact .slnil
  | @cons φ x phis placed hx _ ih =>
    cases x with
    | none => exact ih.trans ((List.sublist_cons_self φ phis).filterMap _)
    | some e =>
      rw [List.filterMap_cons_some (virt?_of_placePhi hx)]
      exact ih.cons_cons _

/-- What a block in place has as input of a register from a predecessor: that of the phi that writes the register, if
there is one. -/
theorem input?_of_placeBlock (h : placeBlock f a s = .ok pb) (hs : f.block? s = some next)
    (hnd : (next.phis.filterMap Phi.virt?).Nodup) (hb : f.block? b = some blk) :
    (v ∉ next.phis.filterMap Phi.virt? → pb.input? v b = none) ∧
      ∀ φ ∈ next.phis, φ.virt? = some v → a.hasRegister v → ∀ o, φ.input? b = some o →
        ∃ o', pb.input? v b = some o' ∧ a.place (blk.stop b) o = .ok o' := by
  rw [placeBlock, hs] at h
  obtain ⟨phis, hphis, h⟩ := bind_eq_ok h
  obtain ⟨code, -, h⟩ := bind_eq_ok h
  obtain rfl := Except.ok.inj h
  have hplaced := mapM_eq_ok hphis
  have hkeys : ((phis.filterMap id).map Prod.fst).Nodup := hnd.sublist (placedPhis_sublist hplaced)
  have hperm : (insertAllBy Prod.fst (phis.filterMap id) []).Perm (phis.filterMap id) := by
    have hnodup : ((phis.filterMap id ++ []).map Prod.fst).Nodup := by rwa [List.append_nil]
    simpa using insertAllBy_perm hnodup
  simp only [PlacedBlock.input?]
  refine ⟨fun hv => ?_, fun φ hφ hv hr o ho => ?_⟩
  · cases hl : lookupBy v (insertAllBy Prod.fst (phis.filterMap id) []) with
    | none => rfl
    | some φ' =>
      have hmem := hperm.mem_iff.1 (mem_of_lookupBy hl)
      exact absurd ((placedPhis_sublist hplaced).mem (List.mem_map_of_mem hmem)) hv
  · obtain ⟨x, hx, hplace⟩ := exists_result hphis hφ
    obtain ⟨φ', rfl, hinputs⟩ := exists_placePhi hplace hv hr
    have hmem : (v, φ') ∈ insertAllBy Prod.fst (phis.filterMap id) [] :=
      hperm.mem_iff.2 (List.mem_filterMap.2 ⟨_, hx, rfl⟩)
    obtain ⟨o', ho', hplaced⟩ := lookupBy_placeInput hinputs hb ho
    rw [lookupBy_of_mem ((hperm.map _).nodup_iff.2 hkeys) hmem]
    exact ⟨o', ho', hplaced⟩

theorem placed_getElem? {placed : List PlacedBlock} (h : a.placeBlocks f = .ok placed) (hs : f.block? s = some next) :
    ∃ pb, placed[s]? = some pb ∧ placeBlock f a s = .ok pb :=
  getElem?_mapM h (List.getElem?_range (List.getElem?_eq_some_iff.1 hs).1)

/-- What the move of a register reads on the way from block `b` to the block `next`: the input of the phi that writes
the register, or else the place of the register at the end of `b`. -/
inductive Feeds (a : Allocation) (b : BlockId) (blk next : Block) (v : VirtReg) : Content → Prop where
  | phi {φ : Phi} {o o' : Operand} (hφ : φ ∈ next.phis) (hv : φ.virt? = some v) (ho : φ.input? b = some o)
      (h : a.place (blk.stop b) o = .ok o') : Feeds a b blk next v o'.content
  | stay {o' : Operand} (hv : v ∉ next.phis.filterMap Phi.virt?)
    (h : a.storage v.width (.virt v) (blk.stop b) = .ok o') : Feeds a b blk next v o'.content

/-- A register that is live somewhere has splits. -/
theorem Serves.hasRegister (h : a.Serves f t) (hp : (f.life v).covers p) : a.hasRegister v := by
  obtain ⟨x, hx⟩ := Option.isSome_iff_exists.1 (h.splitAt?_isSome.2 hp)
  obtain ⟨y, ys, he, -⟩ := h.exists_first (h.splitAt?_eq_some.1 hx).1
  exact lookupBy_isSome.2 (List.mem_map_of_mem he)

/-- A register without a split at a position is in its slot, if it is anywhere. -/
theorem Serves.place_of_storage (h : a.Serves f t) {w : Width} (ho : a.storage w (.virt v) p = .ok o) :
    Place t.frameBase t.stackPointer a.cells o.content := by
  cases hx : a.splitAt? v p with
  | some x => exact (keeps_of_storage (hx ▸ rfl) ho).place h
  | none =>
    have hreg : a.registerAt? (.virt v) p = none := by rw [registerAt?, hx, Option.bind_none]
    rw [storage, hreg, slotOf?] at ho
    cases hk : a.slot? v with
    | none =>
      rw [hk] at ho
      cases ho
    | some k =>
      rw [hk] at ho
      obtain rfl := Except.ok.inj ho
      exact h.slotPlace_place hk

/-- The moves on an edge: one for each register that has a place at the start of the second block. -/
theorem Suits.edgeMoves_spec (ha : a.Suits f t size) {placed : List PlacedBlock}
    (hplaced : a.placeBlocks f = .ok placed) (hb : f.block? b = some blk) (hs : s ∈ f.successors b)
    (hnext : f.block? s = some next) {moves : List Move} (hmoves : Layout.edgeMoves f a placed b s = .ok moves) :
    (∀ x ∈ moves, ∃ v, a.Keeps v (.entry s) x.dest.content ∧ a.Feeds b blk next v x.src.content) ∧
      ∀ v, (f.life v).covers (.entry s) → ∃ x ∈ moves, a.Keeps v (.entry s) x.dest.content ∧
      a.Feeds b blk next v x.src.content := by
  obtain ⟨-, hmoves⟩ := Layout.edgeMoves_eq_ok.1 hmoves
  obtain ⟨pb, hpb, hplace⟩ := placed_getElem? hplaced hnext
  have hone : ∀ v y x, a.splitAt? v (.entry s) = some y → Layout.edgeMove f a placed b s y = .ok x →
      a.Keeps v (.entry s) x.dest.content ∧ a.Feeds b blk next v x.src.content := by
    intro v y x hy hx
    obtain ⟨hmem, hcov⟩ := ha.serves.splitAt?_eq_some.1 hy
    have hlive := ha.serves.splitAt?_isSome.1 (hy ▸ rfl : (a.splitAt? v (.entry s)).isSome)
    obtain ⟨hnone, hsome⟩ := input?_of_placeBlock (v := v) hplace hnext (ha.regular.phis_nodup hnext) hb
    rw [Layout.edgeMove, ha.serves.interval_register hmem] at hx
    obtain ⟨dest, hdest, hx⟩ := bind_eq_ok hx
    rw [hpb, Option.bind_some] at hx
    by_cases hv : v ∈ next.phis.filterMap Phi.virt?
    · obtain ⟨φ, hφ, hv⟩ := List.mem_filterMap.1 hv
      obtain ⟨o, ho⟩ := Option.isSome_iff_exists.1 (ha.regular.inputs b s next hs hnext φ hφ)
      obtain ⟨o', hinput, ho'⟩ := hsome φ hφ hv (ha.serves.hasRegister hlive) o ho
      rw [hinput] at hx
      obtain rfl := Except.ok.inj hx
      have hfeeds : a.Feeds b blk next v o'.content := .phi hφ hv ho ho'
      exact ⟨keeps_of_storage (hy ▸ rfl) hdest, hfeeds⟩
    · rw [hnone hv] at hx
      obtain ⟨stop, hstop, hx⟩ := bind_eq_ok hx
      obtain ⟨src, hsrc, hx⟩ := bind_eq_ok hx
      obtain rfl := Except.ok.inj hx
      rw [Function.stop, hb] at hstop
      obtain rfl := Except.ok.inj hstop
      exact ⟨keeps_of_storage (hy ▸ rfl) hdest, .stay hv hsrc⟩
  refine ⟨fun x hx => ?_, fun v hv => ?_⟩
  · obtain ⟨y, hy, hmove⟩ := exists_of_result hmoves hx
    obtain ⟨e, -, hat⟩ := List.mem_filterMap.1 hy
    exact ⟨e.1, hone e.1 y x hat hmove⟩
  · obtain ⟨y, hy⟩ := Option.isSome_iff_exists.1 (ha.serves.splitAt?_isSome.2 hv)
    obtain ⟨z, zs, he, -⟩ := ha.serves.exists_first (ha.serves.splitAt?_eq_some.1 hy).1
    obtain ⟨x, hx, hmove⟩ := exists_result hmoves (List.mem_filterMap.2 ⟨_, he, hy⟩)
    exact ⟨x, hx, hone v y x hy hmove⟩

/-- An input of a phi is in its place at the end of the predecessor. -/
theorem Suits.located_input (ha : a.Suits f t size) (hb : f.block? b = some blk) (hs : s ∈ f.successors b)
    (hnext : f.block? s = some next) {φ : Phi} (hφ : φ ∈ next.phis) (ho : φ.input? b = some o)
    (h : a.place (blk.stop b) o = .ok o') :
    (∀ r, o.content ≠ .reg (.phys r)) ∧ (∀ u, o.content = .reg (.virt u) → f.LiveAt u b blk.code.length) ∧
      a.Located (blk.stop b) o o' := by
  have hlive : ∀ u, o.content = .reg (.virt u) → f.LiveAt u b blk.code.length := by
    intro u hu
    refine .phi hb (Function.successors_eq hb ▸ hs) hnext (List.mem_flatMap.2 ⟨φ, hφ, ?_⟩)
    rw [ho, Option.map_some, Option.getD_some, mem_virtRegs, Operand.reads, hu]
    exact ⟨_, List.mem_singleton.2 rfl, rfl⟩
  have hsplit : ∀ u, o.content = .reg (.virt u) → (a.splitAt? u (blk.stop b)).isSome := fun u hu =>
    ha.serves.splitAt?_isSome.2 (Function.covers_of_liveAt ha.regular.width ha.regular.structured (hlive u hu)).2
  rcases (ha.regular.block s next hnext).inputs φ hφ _ (mem_of_lookupBy ho) with himm | ⟨u, hu⟩
  · have hne : ∀ r, o.content ≠ .reg r := by
      intro r hr
      rw [Operand.isImmediate, hr] at himm
      cases himm
    exact ⟨fun r => hne _, hlive, located_of_place (isMemory_of_isImmediate himm) hsplit h⟩
  · have hmem : o.isMemory = false := by rw [Operand.isMemory, hu]
    refine ⟨fun r hr => ?_, hlive, located_of_place hmem hsplit h⟩
    cases hu.symm.trans hr

/-- Moves read places or constants. -/
theorem Feeds.source (h : a.Feeds b blk next v c) (ha : a.Suits f t size) (hb : f.block? b = some blk)
    (hs : s ∈ f.successors b) (hnext : f.block? s = some next) : Source t.frameBase t.stackPointer a.cells c := by
  cases h with
  | phi hφ hv ho h =>
    obtain ⟨hphys, -, hlocated⟩ := ha.located_input hb hs hnext hφ ho h
    cases hlocated with
    | imm h h' => exact .inr ⟨_, h' ▸ h⟩
    | phys h h' => exact absurd h (hphys _)
    | virt h h' => exact .inl (h'.place ha.serves)
  | stay hv h => exact .inl (ha.serves.place_of_storage h)

/-- For a register that is live, a move reads the value that the register has once the phis have chosen. -/
theorem Feeds.value_eq (h : a.Feeds b blk next v c) (ha : a.Suits f t size)
    (hagree : a.Agree f t size m₀ b blk.code.length (blk.stop b) sm tm) (hb : f.block? b = some blk)
    (hs : s ∈ f.successors b) (hnext : f.block? s = some next) (hlive : f.LiveAt v s 0) :
    tm.get c = (sm.choose next.phis b).regs (.virt v) := by
  cases h with
  | phi hφ hv ho h =>
    obtain ⟨hphys, hread, hlocated⟩ := ha.located_input hb hs hnext hφ ho h
    rw [choose_of_mem (ha.regular.phis_nodup hnext) hφ hv ho]
    exact hlocated.value_eq (fun u hu => (hagree.values u (hread u hu)).kept) fun r hr => absurd hr (hphys r)
  | stay hv h =>
    have hstop : f.LiveAt v b blk.code.length := .edge hb (Function.successors_eq hb ▸ hs) hnext hv hlive
    have hsplit :=
      ha.serves.splitAt?_isSome.2 (Function.covers_of_liveAt ha.regular.width ha.regular.structured hstop).2
    rw [choose_of_not_mem hv]
    exact (hagree.values v hstop).kept _ (keeps_of_storage hsplit h)

end Allocation

/-- Code that makes moves: it was made for them, or there is nothing to be done. -/
def Move.Makes (code : List Instruction) (moves : List Move) : Prop :=
  sequence moves = .ok code ∨ code = [] ∧ ∀ x ∈ moves, x.isNoop

/-- What code that makes moves does: every destination gets the word of its source, and slots that are no destination
stay as they are. -/
theorem Move.Makes.effect {base top : PhysReg} {slots : Set Int} {w : World} {moves : List Move}
    {code : List Instruction} {m : Machine} (h : Makes code moves) (htop : w.stackPointer = top)
    (hsrc : ∀ x ∈ moves, Source base top slots x.src.content)
    (hdest : ∀ x ∈ moves, Place base top slots x.dest.content) (hbase : base ≠ top) (hf : m.Framed base top slots) :
    ∃ m', m.execAll w code = some m' ∧ (∀ x ∈ moves, m'.get x.dest.content = m.get x.src.content) ∧
      SameFrame base top m m' ∧
      (∀ d ∈ slots, (∀ x ∈ moves, x.dest.content ≠ slotAt base d) → m'.get (slotAt base d) = m.get (slotAt base d)) ∧
      m'.flags = m.flags ∧ m'.calls = m.calls := by
  subst htop
  rcases h with hcode | ⟨rfl, hnoop⟩
  · have ha : Sequencer.Admissible base w.stackPointer slots moves := ⟨hsrc, hdest, nodup_of_sequence hcode⟩
    obtain ⟨m', hrun, hvalues, hagree⟩ := sequence_effect ha hcode hbase hf
    obtain ⟨hb, ht⟩ := Sequencer.not_mem_touched ha
    exact ⟨m', hrun, hvalues, hagree.sameFrame hb ht, fun d hd =>
      Sequencer.get_slot_of_agree ha hf hagree hd, hagree.flags, hagree.calls⟩
  · refine ⟨m, rfl, fun x hx => ?_, .refl _ _ _, fun _ _ _ => rfl, rfl, rfl⟩
    rw [isNoop_eq_true_iff.1 (hnoop x hx)]

namespace Allocation

variable {f : Function} {t : Target} {a : Allocation} {size : Nat} {m₀ sm tm : Machine} {b s : BlockId}
  {blk next : Block} {v : VirtReg}

/-- The machines are about to agree at the start of a block, once the transfers there are made. -/
structure Arrived (a : Allocation) (f : Function) (t : Target) (size : Nat) (m₀ : Machine) (s : BlockId)
    (sm tm : Machine) : Prop where
  source : InFrame t size m₀ sm
  target : InFrame t size m₀ tm
  flags : tm.flags = sm.flags
  calls : tm.calls = sm.calls
  values : ∀ v, f.LiveAt v s 0 → a.Arriving f v (.entry s) tm (sm.regs (.virt v))

/-- At the end of a block no write is pending. -/
theorem Suits.not_pending_stop (ha : a.Suits f t size) (hb : f.block? b = some blk) : ¬a.Pending v (blk.stop b) := by
  rintro ⟨x, q, hx, hq, hwrite, hblock, hlt⟩
  have hat := ha.serves.splitAt?_of_mem_accesses (ha.serves.splitAt?_eq_some.1 hx).1 hq
  obtain ⟨c, blk', hc, hcases⟩ := (Function.writes_iff ha.regular.width).1 ((ha.serves.writes_iff hat).2 ⟨hq, hwrite⟩)
  rw [Position.lt_def] at hlt
  rcases hcases with ⟨k, i, hi, rfl, -⟩ | ⟨rfl, -⟩
  · obtain rfl : c = b := hblock
    obtain rfl := Option.some.inj (hb.symm.trans hc)
    have hk := (List.getElem?_eq_some_iff.1 hi).1
    simp only [Block.stop, Position.exit, Position.readAt, Position.writeAt] at hlt
    omega
  · obtain rfl : c = b := hblock
    simp only [Block.stop, Position.exit, Position.readAt, Position.entry] at hlt
    omega

/-- A register that no phi of a block writes is not transferred at the start of the block. -/
theorem Suits.not_transferred (ha : a.Suits f t size) (hnext : f.block? s = some next)
    (hv : v ∉ next.phis.filterMap Phi.virt?) :
    ∀ z ∈ a.transfersAt (.entry s), z.register ≠ v := by
  rintro z hz rfl
  have hwrites : ¬f.Writes z.register (.entry s) := fun hw =>
    hv ((Function.writes_entry_iff ha.regular.width hnext).1 hw).1
  obtain ⟨-, y, hy, -, -, ⟨-, hlast⟩ | ⟨-, -, -, hslot, -⟩⟩ := ha.serves.mem_transfersAt.1 hz
  · exact hwrites ((ha.serves.writes_iff hy).2 (Interval.mem_of_lastDef? hlast))
  · exact hslot rfl

/-- **An edge.** The moves on an edge carry the values that are live to the next block, while the phis of the block
choose. -/
theorem Agree.moves (h : a.Agree f t size m₀ b blk.code.length (blk.stop b) sm tm) (ha : a.Suits f t size)
    (answer : List Call → PhysReg → Word) {placed : List PlacedBlock} (hplaced : a.placeBlocks f = .ok placed)
    (hb : f.block? b = some blk) (hs : s ∈ f.successors b) (hnext : f.block? s = some next) {moves : List Move}
    (hmoves : Layout.edgeMoves f a placed b s = .ok moves) {code : List Instruction} (hcode : Move.Makes code moves) :
    ∃ tm', tm.execAll (t.world answer) code = some tm' ∧ a.Arrived f t size m₀ s (sm.choose next.phis b) tm' := by
  have hphis := ha.regular.block s next hnext
  obtain ⟨hall, hone⟩ := ha.edgeMoves_spec hplaced hb hs hnext hmoves
  obtain ⟨tm', hrun, hvalues, hframe, hslots, hflags, hcalls⟩ :=
    hcode.effect (congrArg World.stackPointer (Target.world_eq ha.top answer)) (fun x hx =>
    ((hall x hx).choose_spec.2).source ha hb hs hnext) (fun x hx => ((hall x hx).choose_spec.1).place ha.serves)
    ha.apart (h.target.framed ha)
  refine ⟨tm', hrun, ?_, ?_, hflags.trans h.flags, hcalls.trans h.calls, fun v hv => ?_⟩
  · refine ⟨(choose_phys hphis.outputs).trans h.source.base, (choose_phys hphis.outputs).trans h.source.top, ?_⟩
    rw [get_slotAt, choose_phys hphis.outputs, ← h.source.saved, get_slotAt]
    rfl
  · refine ⟨hframe.1.trans h.target.base, hframe.2.trans h.target.top, ?_⟩
    rw [hslots 0 (.inl rfl) fun x hx => ((hall x hx).choose_spec.1).ne_saved ha.serves, h.target.saved]
  · have hcov : (f.life v).covers (.entry s) := (Function.covers_of_liveAt ha.regular.width ha.regular.structured hv).1
    obtain ⟨x, hx, hkeeps, hfeeds⟩ := hone v hcov
    have hvalue := (hvalues x hx).trans (hfeeds.value_eq ha h hb hs hnext hv)
    have hkept : ∀ c, a.Keeps v (.entry s) c → tm'.get c = (sm.choose next.phis b).regs (.virt v) := fun c hc =>
      hc.unique hkeeps ▸ hvalue
    by_cases hphi : v ∈ next.phis.filterMap Phi.virt?
    · exact .written (ha.regular.writes_entry hnext hphi hv) hkept
    · refine .stays (ha.not_transferred hnext hphi) ⟨hkept, fun k hk => .inl ?_⟩
      have hstop : f.LiveAt v b blk.code.length := .edge hb (Function.successors_eq hb ▸ hs) hnext hphi hv
      by_cases hdest : ∃ y ∈ moves, y.dest.content = a.slotPlace k
      · -- Only the register itself can be kept in its slot.
        obtain ⟨y, hy, heq⟩ := hdest
        obtain ⟨u, hu, -⟩ := hall y hy
        obtain rfl : u = v := by
          by_contra hne
          exact hu.ne_slotPlace ha.serves hne hcov hk heq
        exact heq ▸ hkept _ hu
      · have hslot := ((h.values v hstop).slot k hk).resolve_right (ha.not_pending_stop hb)
        have hstays : tm'.get (a.slotPlace k) = tm.get (a.slotPlace k) := by
          rw [slotPlace, ha.serves.target]
          refine hslots _ (.inr ⟨k, lt_slotCount hk, by rw [ha.serves.target]⟩) fun y hy heq => hdest ⟨y, hy, ?_⟩
          rw [heq, slotPlace, ha.serves.target]
        rw [choose_of_not_mem hphi, hstays, hslot]

/-- The transfers at the start of a block bring the machines into agreement. -/
theorem Arrived.agree (h : a.Arrived f t size m₀ s sm tm) (ha : a.Suits f t size) (answer : List Call → PhysReg → Word)
    (hs : s ≠ 0) :
    ∃ tm', tm.execAll (t.world answer) (a.transferCodeAt (.entry s)) = some tm' ∧
      a.Agree f t size m₀ s 0 (.entry s) sm tm' := by
  obtain ⟨tm', hrun, hframe, hflags, hcalls, hheld, -⟩ := ha.run_transfers answer h.target (.entry s)
  refine ⟨tm', hrun, h.source, hframe, hflags.trans h.flags, hcalls.trans h.calls,
    fun v hv => ?_, fun next hnext r hr => ?_⟩
  · exact hheld v _ (Function.covers_of_liveAt ha.regular.width ha.regular.structured hv).1 (h.values v hv)
  · by_cases hbase : r = t.frameBase
    · rw [hbase, hframe.base, h.source.base]
    by_cases htop : r = t.stackPointer
    · rw [htop, hframe.top, h.source.top]
    · exact absurd hr ((ha.regular.block s next hnext).physical hs r hbase htop)

end Allocation

end RegAlloc
