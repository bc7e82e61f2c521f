import RegAlloc.Proofs.Regular

/-!
# A function and its code in one block

The run of a function and the run of its code, side by side within a block. `Agree` relates the two machines before
instruction `k` of block `b`: both have the same frame, flags and calls, every register that is live holds its value
in the place that was chosen for it, and so do the physical registers whose values the code still needs.

One instruction with the transfers around it keeps the machines in agreement, or both fault (`Agree.instruction`);
`enter` brings them into agreement, and after `leave` the caller's frame is back.
-/

namespace RegAlloc

open Machine

/-! ## The cells of a frame -/

/-- Within one frame, different distances from the base are different cells. -/
theorem slotCell_inj {b : Word} {d e : Int} {n : Nat} (hn : n < UInt64.size) (hd : -(n : Int) ≤ d ∧ d ≤ 0)
    (he : -(n : Int) ≤ e ∧ e ≤ 0) (h : slotCell b d = slotCell b e) : d = e := by
  have hnat := congrArg BitVec.toNat ((BitVec.add_left_inj b).1 h)
  rw [BitVec.toNat_ofInt, BitVec.toNat_ofInt] at hnat
  simp only [UInt64.size] at hn
  omega

/-- A cell below the base lies at a negative distance. -/
theorem sub_eq_slotCell (b : Word) (n : Nat) : b - BitVec.ofNat 64 n = slotCell b (-(n : Int)) := by
  rw [slotCell, BitVec.ofInt_neg, BitVec.ofInt_natCast, BitVec.sub_eq_add_neg, BitVec.add_comm]

/-- A word more is taken off the stack pointer. -/
theorem sub_ofNat_sub (b : Word) (n : Nat) : b - BitVec.ofNat 64 n - 8 = b - BitVec.ofNat 64 (n + 8) := by bv_omega

namespace Allocation

variable {a : Allocation} {size : Nat} {d : Int}

/-- The frame has room for all slots. -/
theorem le_frameBytes (t : Target) (slots : Nat) : slots * t.slotSize ≤ frameBytes t slots := by
  rw [frameBytes]
  refine Nat.mul_le_mul_right _ ?_
  have hg : 0 < max (t.frameAlignment / t.slotSize) 1 := by omega
  generalize max (t.frameAlignment / t.slotSize) 1 = g at hg
  have hdiv := Nat.div_add_mod (slots + g - 1) g
  have hmod := Nat.mod_lt (slots + g - 1) hg
  rw [Nat.mul_comm ((slots + g - 1) / g) g]
  omega

/-- All cells of a frame lie between its base and its end. -/
theorem mem_cells_bounds (hsize : a.frameSize = .ok size) (hd : d ∈ a.cells) : -(size : Int) ≤ d ∧ d ≤ 0 := by
  rw [frameSize] at hsize
  split_ifs at hsize
  obtain rfl := Except.ok.inj hsize
  have hle := le_frameBytes a.target a.slotCount
  rcases hd with rfl | ⟨k, hk, rfl⟩
  · omega
  · have hk := Nat.mul_le_mul_right a.target.slotSize (show k + 1 ≤ a.slotCount from hk)
    omega

/-- In a frame that fits into memory, with two words to spare, the cells are in order. -/
theorem frame_cells (hsize : a.frameSize = .ok size) (hfits : size + 16 < UInt64.size) (b : Word) :
    Frame a.cells b (b - BitVec.ofNat 64 size) := by
  have hne : ∀ d ∈ a.cells, ∀ n, size < n → n ≤ size + 16 → RegAlloc.slotCell b d ≠ b - BitVec.ofNat 64 n := by
    intro d hd n hlt hle heq
    obtain ⟨h1, h2⟩ := mem_cells_bounds hsize hd
    rw [sub_eq_slotCell] at heq
    have := slotCell_inj hfits ⟨by omega, h2⟩ ⟨by omega, by omega⟩ heq
    omega
  refine ⟨fun d hd e he heq => ?_, fun d hd => ⟨?_, ?_⟩⟩
  · obtain ⟨h1, h2⟩ := mem_cells_bounds hsize hd
    obtain ⟨h3, h4⟩ := mem_cells_bounds hsize he
    exact slotCell_inj hfits ⟨by omega, h2⟩ ⟨by omega, h4⟩ heq
  · rw [sub_ofNat_sub]
    exact hne d hd _ (by omega) (by omega)
  · rw [sub_ofNat_sub, sub_ofNat_sub]
    exact hne d hd _ (by omega) (by omega)

end Allocation

/-- The machine is in a frame that was set up on the machine `m₀`. -/
structure InFrame (t : Target) (size : Nat) (m₀ m : Machine) : Prop where
  base : m.regs (.phys t.frameBase) = m₀.regs (.phys t.stackPointer) - 8
  top : m.regs (.phys t.stackPointer) = m₀.regs (.phys t.stackPointer) - 8 - BitVec.ofNat 64 size
  saved : m.get (slotAt t.frameBase 0) = m₀.regs (.phys t.frameBase)

/-- An allocation for a regular function, on a target that has a frame on the stack of the machine. -/
structure Allocation.Suits (a : Allocation) (f : Function) (t : Target) (size : Nat) : Prop where
  regular : f.Regular t
  serves : a.Serves f t
  top : t.stackPointer = .sp
  apart : t.frameBase ≠ t.stackPointer
  sized : a.frameSize = .ok size
  fits : size + 16 < UInt64.size

namespace InFrame

variable {f : Function} {t : Target} {a : Allocation} {size : Nat} {m₀ m m' : Machine} {S : Set Content}

/-- A machine in its frame has room for the slots. -/
theorem framed (h : InFrame t size m₀ m) (ha : a.Suits f t size) : m.Framed t.frameBase t.stackPointer a.cells := by
  unfold Framed
  rw [h.base, h.top]
  exact a.frame_cells ha.sized ha.fits _

/-- What changes only places of values stays in the frame. -/
theorem of_changes (h : InFrame t size m₀ m) (hc : m.ChangesOnly t.frameBase t.stackPointer a.cells S m')
    (hS : slotAt t.frameBase 0 ∉ S) : InFrame t size m₀ m' :=
  ⟨hc.frame.1.trans h.base, hc.frame.2.trans h.top, (hc.places _ (.slot 0 (.inl rfl)) hS).trans h.saved⟩

/-- So does an instruction of a function that does not write the registers of the frame. -/
theorem of_keeps {i : Instruction} (h : InFrame t size m₀ m) (hk : i.Keeps t m m')
    (hframe : ∀ r, i.overwrites t r → r ≠ t.frameBase ∧ r ≠ t.stackPointer) : InFrame t size m₀ m' := by
  have hbase := hk.phys t.frameBase fun hr => (hframe _ hr).1 rfl
  refine ⟨hbase.trans h.base, (hk.phys t.stackPointer fun hr => (hframe _ hr).2 rfl).trans h.top, ?_⟩
  rw [get_slotAt, hk.memory, hbase, ← get_slotAt, h.saved]

end InFrame

/-- Setting up a frame puts the machine into it. -/
theorem inFrame_enter (t : Target) (size : Nat) (m : Machine) (hne : t.frameBase ≠ t.stackPointer) :
    InFrame t size m (m.enter t size) := by
  have hreg : Register.phys t.frameBase ≠ .phys t.stackPointer := fun heq => hne (Register.phys.inj heq)
  refine ⟨?_, ?_, ?_⟩
  · simp [enter, hreg]
  · simp [enter]
  · simp [enter, hreg, slotCell]

/-- Taking it down brings the caller's frame back. -/
theorem InFrame.leave {t : Target} {size : Nat} {m₀ m : Machine} (h : InFrame t size m₀ m)
    (hne : t.frameBase ≠ t.stackPointer) :
    SameFrame t.frameBase t.stackPointer m₀ (m.leave t) := by
  have hsaved : m.memory (m.regs (.phys t.frameBase)) = m₀.regs (.phys t.frameBase) := by simpa [slotCell] using h.saved
  have hreg : Register.phys t.stackPointer ≠ .phys t.frameBase := fun heq => hne (Register.phys.inj heq).symm
  refine ⟨?_, ?_⟩
  · simp [Machine.leave, hsaved]
  · simp only [Machine.leave, setReg_regs, if_neg hreg, if_true, h.base, BitVec.sub_add_cancel]

namespace Allocation

variable {f : Function} {t : Target} {a : Allocation} {size : Nat} {m₀ sm tm sm' tm' : Machine} {b : BlockId}
  {blk : Block} {k : Nat} {i : Instruction} {code : List Instruction} {v : VirtReg} {p : Position} {c : Content}
  {answer : List Call → PhysReg → Word}

/-- No slot is the cell where the frame base of the caller is saved. -/
theorem slotPlace_ne_saved (ha : a.Serves f t) : a.slotPlace k ≠ slotAt t.frameBase 0 := by
  intro heq
  simp only [slotPlace, slotAt, Address.offset, Content.mem.injEq, Address.mk.injEq] at heq
  have hpos := Nat.mul_pos (show 0 < k + 1 by omega) (Nat.pos_of_ne_zero (ha.target ▸ ha.valid.slotSize))
  omega

theorem Keeps.ne_saved (h : a.Keeps v p c) (ha : a.Serves f t) : c ≠ slotAt t.frameBase 0 := by
  cases h with
  | register => exact nofun
  | slot => exact slotPlace_ne_saved ha

/-- The transfers of a position, made in a frame. -/
theorem Suits.run_transfers (ha : a.Suits f t size) (answer : List Call → PhysReg → Word) (htm : InFrame t size m₀ tm)
    (p : Position) :
    ∃ tm', tm.execAll (t.world answer) (a.transferCodeAt p) = some tm' ∧ InFrame t size m₀ tm' ∧
      tm'.flags = tm.flags ∧ tm'.calls = tm.calls ∧
      (∀ v n, (f.life v).covers p → a.Arriving f v p tm n → a.Held v p tm' n) ∧
      ∀ r, (f.pinned t r).covers p → tm'.regs (.phys r) = tm.regs (.phys r) := by
  obtain ⟨tm', hrun, hdest, hchanges, hflags, hcalls⟩ :=
    ha.serves.execAll_transfers (w := t.world answer) (fun _ h => h) (htm.framed ha)
  refine ⟨tm', hrun, htm.of_changes hchanges ?_, hflags, hcalls, fun v n hv h => ?_, fun r hr => ?_⟩
  · rintro ⟨z, hz, heq⟩
    obtain ⟨-, hkeeps, -⟩ := ha.serves.home_of_transfer hz
    rcases a.destOf_cases z with hd | hd
    · exact hkeeps.ne_saved ha.serves (hd ▸ heq)
    · exact slotPlace_ne_saved ha.serves (hd ▸ heq)
  · exact h.held ha.serves ha.regular.writesInOneBlock hv hdest hchanges
  · by_cases hbase : r = t.frameBase
    · rw [hbase, hchanges.frame.1]
    by_cases htop : r = t.stackPointer
    · rw [htop, hchanges.frame.2]
    · -- A register that the code needs is no one's home.
      refine hchanges.places _ (.reg r hbase htop) ?_
      rintro ⟨z, hz, heq⟩
      obtain ⟨-, hkeeps, -⟩ := ha.serves.home_of_transfer hz
      rcases a.destOf_cases z with hd | hd
      · rw [hd] at heq
        exact ((heq ▸ hkeeps).allowed ha.serves).2 hr
      · rw [hd] at heq
        cases heq

/-- The machine of a function and that of its code agree before instruction `k` of block `b`. The transfers of the
positions up to `p` have been made, which is where the instruction reads or the position before it. -/
structure Agree (a : Allocation) (f : Function) (t : Target) (size : Nat) (m₀ : Machine) (b : BlockId) (k : Nat)
    (p : Position) (sm tm : Machine) : Prop where
  source : InFrame t size m₀ sm
  target : InFrame t size m₀ tm
  flags : tm.flags = sm.flags
  calls : tm.calls = sm.calls
  values : ∀ v, f.LiveAt v b k → a.Held v p tm (sm.regs (.virt v))
  needs : ∀ blk, f.block? b = some blk → ∀ r, blk.Needs t r k → tm.regs (.phys r) = sm.regs (.phys r)

/-- The transfers where an instruction reads, or where a block ends, keep the machines in agreement. -/
theorem Agree.read (h : a.Agree f t size m₀ b k ⟨b, 2 * k⟩ sm tm) (ha : a.Suits f t size)
    (answer : List Call → PhysReg → Word) :
    ∃ tm', tm.execAll (t.world answer) (a.transferCodeAt (.readAt b k)) = some tm' ∧
      a.Agree f t size m₀ b k (.readAt b k) sm tm' := by
  have hw := ha.regular.width
  obtain ⟨tm', hrun, hframe, hflags, hcalls, hheld, hpinned⟩ := ha.run_transfers answer h.target (.readAt b k)
  refine ⟨tm', hrun, h.source, hframe, hflags.trans h.flags, hcalls.trans h.calls,
    fun v hv => ?_, fun blk hb r hr => ?_⟩
  · obtain ⟨hcov, hcov'⟩ := Function.covers_of_liveAt hw ha.regular.structured hv
    refine hheld v _ hcov' ?_
    exact (h.values v hv).arriving ha.serves hcov hcov' (Function.not_writes_readAt hw) (.refl tm ∅) nofun
      fun _ _ => nofun
  · exact (hpinned r (((Function.pinned_spec f t r).2 b blk hb).needs k hr).2).trans (h.needs blk hb r hr)

/-- Machines in agreement where an instruction reads have what the instruction needs. -/
theorem Agree.supplies (h : a.Agree f t size m₀ b k (.readAt b k) sm tm) (ha : a.Suits f t size)
    (hb : f.block? b = some blk) (hi : blk.code[k]? = some i) : a.Supplies (.readAt b k) (.writeAt b k) i sm tm := by
  have hw := ha.regular.width
  refine ⟨fun v hv => ?_, fun v hv => ?_, fun v hv => ?_, fun r hr => h.needs blk hb r (.read hi hr), h.flags, h.calls⟩
  · exact ha.serves.splitAt?_isSome.2 (Function.covers_of_liveAt hw ha.regular.structured (.use hb hi hv)).2
  · exact ha.serves.splitAt?_isSome.2 (Function.covers_of_write hw hb hi hv)
  · exact (h.values v (.use hb hi hv)).kept

/-- A value that is live after an instruction that does not write it is spared by the instruction, in its place and in
its slot. -/
theorem Suits.spared (ha : a.Suits f t size) (hb : f.block? b = some blk) (hi : blk.code[k]? = some i)
    (hv : v ∉ virtRegs i.defs) (hcov : (f.life v).covers (.readAt b k)) (hcov' : (f.life v).covers (.writeAt b k)) :
    (∀ c ∈ a.Touches t (.readAt b k) (.writeAt b k) i, a.Keeps v (.readAt b k) c → ¬a.Keeps v (.writeAt b k) c) ∧
      ∀ l, a.slot? v = some l → a.slotPlace l ∉ a.Touches t (.readAt b k) (.writeAt b k) i := by
  have hne : ∀ u ∈ virtRegs i.defs, u ≠ v := fun u hu heq => hv (heq ▸ hu)
  refine ⟨?_, ?_⟩
  · rintro c (⟨u, hu, hk | hk⟩ | ⟨r, hr, rfl⟩) hread hwrite
    · exact hk.ne hread ha.serves (hne u hu) rfl
    · exact hk.ne hwrite ha.serves (hne u hu) rfl
    · exact (hwrite.allowed ha.serves).2 (((Function.pinned_spec f t r).2 b blk hb).writes k i hi hr)
  · rintro l hl (⟨u, hu, hk | hk⟩ | ⟨r, hr, heq⟩)
    · exact hk.ne_slotPlace ha.serves (hne u hu) hcov hl rfl
    · exact hk.ne_slotPlace ha.serves (hne u hu) hcov' hl rfl
    · cases heq

/-- A physical register that the code still needs is spared by an instruction that does not overwrite it. -/
theorem Suits.spared_phys (ha : a.Suits f t size) (hb : f.block? b = some blk) {r : PhysReg} (hr : ¬i.overwrites t r)
    (hread : blk.Needs t r k) (hwrite : blk.Needs t r (k + 1)) :
    .reg (.phys r) ∉ a.Touches t (.readAt b k) (.writeAt b k) i := by
  have hpin := (Function.pinned_spec f t r).2 b blk hb
  rintro (⟨u, hu, hk | hk⟩ | ⟨r', hr', heq⟩)
  · exact (hk.allowed ha.serves).2 (hpin.needs k hread).2
  · exact (hk.allowed ha.serves).2 (hpin.needs (k + 1) hwrite).1
  · cases heq
    exact hr hr'

/-- No instruction in place touches it. -/
theorem saved_not_mem_touches (ha : a.Serves f t) {read write : Position} :
    slotAt t.frameBase 0 ∉ a.Touches t read write i := by
  rintro (⟨u, hu, hk | hk⟩ | ⟨r, hr, heq⟩)
  · exact hk.ne_saved ha rfl
  · exact hk.ne_saved ha rfl
  · cases heq

/-- **One instruction.** An instruction and the code made of it, with the transfers around it, keep the machines in
agreement. If the instruction faults, so does the code, and no call is made on the way. -/
theorem Agree.instruction (h : a.Agree f t size m₀ b k ⟨b, 2 * k⟩ sm tm) (ha : a.Suits f t size)
    (answer : List Call → PhysReg → Word) (hb : f.block? b = some blk) (hi : blk.code[k]? = some i)
    (hord : i.isOrdinary) (hcode : a.placeNumbered b (i, k) = .ok code) :
    (sm.exec (t.world answer) i = none → ∃ pre j post tm', code = pre ++ j :: post ∧
      tm.execAll (t.world answer) pre = some tm' ∧ j.isControl = false ∧ tm'.exec (t.world answer) j = none ∧
      tm'.calls = sm.calls) ∧
    ∀ sm', sm.exec (t.world answer) i = some sm' →
      ∃ tm', tm.execAll (t.world answer) code = some tm' ∧ a.Agree f t size m₀ b (k + 1) (.writeAt b k) sm' tm' := by
  obtain ⟨placed, hplaced, hcode⟩ := bind_eq_ok hcode
  obtain rfl := Except.ok.inj hcode
  have hw := ha.regular.width
  have hframe := ha.regular.frame blk (List.mem_of_getElem? hb) i (List.mem_of_getElem? hi)
  obtain ⟨tm₁, hrun₁, h₁⟩ := h.read ha answer
  have hmirror :=
    placed_mirrors answer ha.serves ha.top ha.apart hord hplaced (h₁.supplies ha hb hi) hframe (h₁.target.framed ha)
  refine ⟨fun hnone => ?_, fun sm' hsome => ?_⟩
  · obtain ⟨j, rest, rfl, hj, hfault⟩ := hmirror.faults hnone
    exact ⟨_, j, _, tm₁, by rw [List.append_assoc, List.cons_append], hrun₁, hj, hfault, h₁.calls⟩
  · obtain ⟨tm₂, hrun₂, hfollows⟩ := hmirror.follows sm' hsome
    have hkeeps := Instruction.keeps_exec hord hsome
    have hin₂ := h₁.target.of_changes hfollows.changes (saved_not_mem_touches ha.serves)
    obtain ⟨tm₃, hrun₃, hin₃, hflags, hcalls, hheld₃, hpinned⟩ := ha.run_transfers answer hin₂ (.writeAt b k)
    refine ⟨tm₃, ?_, h.source.of_keeps hkeeps hframe, hin₃, hflags.trans hfollows.flags, hcalls.trans hfollows.calls,
      fun v hv => ?_, fun blk' hblk' r hr => ?_⟩
    · rw [execAll_append, execAll_append, hrun₁, Option.bind_some, hrun₂, Option.bind_some, hrun₃]
    · have hcov : (f.life v).covers (.writeAt b k) := (Function.covers_of_liveAt hw ha.regular.structured hv).1
      refine hheld₃ v _ hcov ?_
      by_cases hdef : v ∈ virtRegs i.defs
      · exact .written ((Function.writes_writeAt hw hb hi).2 hdef) (hfollows.virt v hdef)
      · have hbefore : f.LiveAt v b k := .pass hb hi hdef hv
        have hcov' := (Function.covers_of_liveAt hw ha.regular.structured hbefore).2
        obtain ⟨hkept, hslot⟩ := ha.spared hb hi hdef hcov' hcov
        rw [hkeeps.virt v hdef]
        exact (h₁.values v hbefore).arriving ha.serves hcov' hcov (fun hwrites =>
          hdef ((Function.writes_writeAt hw hb hi).1 hwrites)) hfollows.changes hkept hslot
    · obtain rfl := Option.some.inj (hb.symm.trans hblk')
      rw [hpinned r (((Function.pinned_spec f t r).2 b blk hb).needs (k + 1) hr).1]
      by_cases hover : i.overwrites t r
      · exact hfollows.phys r hover
      · have hbefore : blk.Needs t r k := .pass hi hover hr
        rw [hkeeps.phys r hover, ← h₁.needs blk hb r hbefore]
        by_cases hbase : r = t.frameBase
        · rw [hbase, hfollows.changes.frame.1]
        by_cases htop : r = t.stackPointer
        · rw [htop, hfollows.changes.frame.2]
        · exact hfollows.changes.places _ (.reg r hbase htop) (ha.spared_phys hb hover hbefore hr)

/-! ## The frame -/

/-- The code of `enter` sets up a frame. -/
theorem execAll_enterCode (answer : List Call → PhysReg → Word) (m : Machine) (ha : a.Suits f t size)
    (hcode : a.enterCode = .ok code) : m.execAll (t.world answer) code = some (m.enter t size) := by
  obtain ⟨n, hn, hcode⟩ := bind_eq_ok hcode
  obtain rfl := Except.ok.inj (ha.sized.symm.trans hn)
  obtain rfl := Except.ok.inj hcode
  rw [ha.serves.target, Target.world_eq ha.top]
  have hne : Register.phys t.stackPointer ≠ .phys t.frameBase := fun heq => ha.apart (Register.phys.inj heq).symm
  let pushed := m.push ⟨t.stackPointer, t.callerSaved, answer⟩ (m.regs (.phys t.frameBase))
  let based := pushed.setReg (.phys t.frameBase) (pushed.regs (.phys t.stackPointer))
  show some (based.setReg (.phys t.stackPointer) (based.regs (.phys t.stackPointer) - BitVec.ofInt 64 size)) = _
  refine congrArg some (ext_parts (fun r => ?_) (fun _ => rfl) rfl rfl)
  by_cases htop : r = .phys t.stackPointer
  · simp [based, pushed, enter, push, htop, hne]
  · simp [based, pushed, enter, push, htop]

/-- The code of `leave` takes down a frame. -/
theorem execAll_leaveCode (answer : List Call → PhysReg → Word) (m : Machine) (ha : a.Suits f t size) :
    m.execAll (t.world answer) a.leaveCode = some (m.leave t) := by
  rw [leaveCode, ha.serves.target, Target.world_eq ha.top]
  have hne : Register.phys t.frameBase ≠ .phys t.stackPointer := fun heq => ha.apart (Register.phys.inj heq)
  let cut := m.setReg (.phys t.stackPointer) (m.regs (.phys t.frameBase))
  show some ((cut.setReg (.phys t.stackPointer) (cut.regs (.phys t.stackPointer) + 8)).setReg (.phys t.frameBase)
    (cut.memory (cut.regs (.phys t.stackPointer)))) = _
  refine congrArg some (ext_parts (fun r => ?_) (fun _ => rfl) rfl rfl)
  by_cases htop : r = .phys t.stackPointer
  · simp [cut, leave, htop]
  · simp [cut, leave, htop]

/-- No transfers are made before `enter`. -/
theorem Suits.transferCodeAt_eq_nil (ha : a.Suits f t size) (hp : p ≤ .writeAt 0 0) : a.transferCodeAt p = [] := by
  rw [transferCodeAt, List.map_eq_nil_iff, List.eq_nil_iff_forall_not_mem]
  intro z hz
  obtain ⟨q, hq, hwrites⟩ := ha.serves.exists_writes_le hz
  exact absurd (ha.regular.lt_of_writes hwrites) (not_lt.2 (le_trans hq hp))

/-- **Enter.** The code of `enter` brings the machines into agreement. -/
theorem Suits.enter (ha : a.Suits f t size) (answer : List Call → PhysReg → Word) (m : Machine)
    (hcode : a.placeNumbered 0 (.enter, 0) = .ok code) :
    m.execAll (t.world answer) code = some (m.enter t size) ∧
      a.Agree f t size m 0 1 (.writeAt 0 0) (m.enter t size) (m.enter t size) := by
  obtain ⟨placed, hplaced, hcode⟩ := bind_eq_ok hcode
  obtain rfl := Except.ok.inj hcode
  have hin := inFrame_enter t size m ha.apart
  refine ⟨?_, hin, hin, rfl, rfl, fun v hv => ?_, fun _ _ _ _ => rfl⟩
  · have hread : Position.readAt 0 0 ≤ .writeAt 0 0 := Position.le_def.2 (.inr ⟨rfl, Nat.le_succ 1⟩)
    rw [ha.transferCodeAt_eq_nil hread, ha.transferCodeAt_eq_nil (le_refl _), List.nil_append, List.append_nil]
    exact execAll_enterCode answer m ha hplaced
  · obtain ⟨blk, hb, henter⟩ := ha.regular.enter
    exact absurd (.pass hb henter nofun hv) (ha.regular.defined v)

/-- Any transfers may follow when the frame is gone. -/
theorem Suits.run_transfers_apart (ha : a.Suits f t size) (answer : List Call → PhysReg → Word) (m : Machine)
    (p : Position) :
    ∃ m', m.execAll (t.world answer) (a.transferCodeAt p) = some m' ∧ SameFrame t.frameBase t.stackPointer m m' ∧
      m'.calls = m.calls :=
  ha.serves.execAll_transfers_apart (fun _ h => h) m

/-- **Leave.** The code of `leave`, with the transfers around it, brings the frame of the caller back. -/
theorem Agree.leave (h : a.Agree f t size m₀ b k ⟨b, 2 * k⟩ sm tm) (ha : a.Suits f t size)
    (answer : List Call → PhysReg → Word) (hcode : a.placeNumbered b (.leave, k) = .ok code) :
    ∃ tm', tm.execAll (t.world answer) code = some tm' ∧ SameFrame t.frameBase t.stackPointer m₀ tm' ∧
      tm'.calls = (sm.leave t).calls := by
  obtain ⟨placed, hplaced, hcode⟩ := bind_eq_ok hcode
  obtain rfl := Except.ok.inj hcode
  obtain rfl := Except.ok.inj hplaced
  obtain ⟨tm₁, hrun₁, h₁⟩ := h.read ha answer
  obtain ⟨tm₂, hrun₂, hframe, hcalls⟩ := ha.run_transfers_apart answer (tm₁.leave t) (.writeAt b k)
  refine ⟨tm₂, ?_, SameFrame.trans (h₁.target.leave ha.apart) hframe, hcalls.trans h₁.calls⟩
  rw [execAll_append, execAll_append, hrun₁, Option.bind_some, execAll_leaveCode answer tm₁ ha, Option.bind_some, hrun₂]

end Allocation

end RegAlloc
