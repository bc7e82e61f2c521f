import RegAlloc.Proofs.Order

/-!
# Where a value may still be read

`Function.LiveAt f v b k` says that a path of the function leads from before instruction `k` of block `b` to a read of
`v` without passing a write of `v`. It is about all paths, those around loops included, and does not mention how live
sets are computed.

The live sets see a path as far as it goes forward. A path that goes back to the header of a loop is found there
instead: if loops are entered through their headers only, a register that is live by any path is in the live set of
its block, or is live at the header of a loop that the block is part of (`LiveAt.found`). Nothing else is in the live
sets (`liveAt_of_mem_liveBefore`).
-/

namespace RegAlloc

/-- The virtual registers of accesses are the virtual registers among their registers. -/
theorem mem_virtRegs {accesses : List Access} {v : VirtReg} :
    v ∈ virtRegs accesses ↔ ∃ a ∈ accesses, a.register = .virt v := by
  rw [virtRegs, List.mem_filterMap]
  refine exists_congr fun a => and_congr_right fun _ => ?_
  cases a.register <;> simp [Register.virt?]

/-- An operand that is written writes its register, if it is one. -/
theorem mem_virtRegs_writes {o : Operand} {v : VirtReg} :
    v ∈ virtRegs (o.writes false).toList ↔ o.content = .reg (.virt v) := by
  rw [mem_virtRegs, Operand.writes]
  cases o.content with
  | imm n => simp
  | mem m => simp
  | reg r => simp

/-- An operand that is a register reads it. -/
theorem mem_virtRegs_reads {o : Operand} {v : VirtReg} {memoryOk : Bool} (h : o.content = .reg (.virt v)) :
    v ∈ virtRegs (o.reads false memoryOk) := by
  rw [mem_virtRegs, Operand.reads, h]
  exact ⟨_, List.mem_singleton.2 rfl, rfl⟩

namespace Liveness

variable {names vs live : List VirtReg} {v w : VirtReg}

/-- What is added to a live set are the canonical registers. -/
theorem mem_add : w ∈ add names vs live ↔ w ∈ live ∨ ∃ v ∈ vs, canonical names v = w := by
  induction vs generalizing live with
  | nil => simp [add]
  | cons u vs ih =>
    have hcons : add names (u :: vs) live = add names vs (live.insert (canonical names u)) := rfl
    rw [hcons, ih, List.mem_insert_iff]
    simp only [List.mem_cons, exists_eq_or_imp, eq_comm (a := w), or_assoc, or_left_comm]

/-- What is removed from a live set are the canonical registers. -/
theorem mem_remove : w ∈ remove names vs live ↔ w ∈ live ∧ ∀ v ∈ vs, w ≠ canonical names v := by
  induction vs generalizing live with
  | nil => simp [remove]
  | cons u vs ih =>
    have hcons : remove names (u :: vs) live = remove names vs (live.filter (fun w => w ≠ canonical names u)) := rfl
    rw [hcons, ih, List.mem_filter]
    simp only [List.mem_cons, forall_eq_or_imp, decide_eq_true_eq, and_assoc]

/-- A canonical register stands for itself. -/
theorem canonical_canonical : canonical names (canonical names v) = canonical names v := by
  have hid : (canonical names v).id = v.id := by
    rw [canonical]
    cases hf : names.find? (fun w => w.id = v.id) with
    | none => rfl
    | some w => simpa using List.find?_some hf
  rw [canonical, hid, canonical]
  cases names.find? (fun w => w.id = v.id) <;> rfl

/-- The registers of a list stand for themselves. -/
def Fixed (names vs : List VirtReg) : Prop := ∀ v ∈ vs, canonical names v = v

/-- Registers that stand for themselves are added as they are. -/
theorem mem_add_of_fixed (h : Fixed names vs) : w ∈ add names vs live ↔ w ∈ live ∨ w ∈ vs := by
  rw [mem_add]
  refine or_congr_right ⟨?_, fun hw => ⟨w, hw, h w hw⟩⟩
  rintro ⟨v, hv, rfl⟩
  rwa [h v hv]

theorem mem_remove_of_fixed (h : Fixed names vs) : w ∈ remove names vs live ↔ w ∈ live ∧ w ∉ vs := by
  rw [mem_remove]
  refine and_congr_right fun _ => ⟨fun hne hw => hne w hw (h w hw).symm, fun hw v hv heq => ?_⟩
  rw [heq, h v hv] at hw
  exact hw hv

/-- Adding keeps a live set among canonical registers. -/
theorem Fixed.add (h : Fixed names live) : Fixed names (add names vs live) := by
  intro w hw
  rcases mem_add.1 hw with hw | ⟨v, _, rfl⟩
  · exact h w hw
  · exact canonical_canonical

theorem Fixed.remove (h : Fixed names live) : Fixed names (remove names vs live) := fun w hw => h w (mem_remove.1 hw).1

/-- Going through code keeps a live set among canonical registers. -/
theorem Fixed.throughAll {code : List Instruction} (h : Fixed names live) :
    Fixed names (code.foldr (through names) live) := by
  induction code with
  | nil => exact h
  | cons i code ih => exact ih.remove.add

/-- Live sets are made of canonical registers. -/
theorem fixed_atExit (f : Function) (b : BlockId) (later : List Live) : Fixed names (atExit f names b later) := by
  suffices h : ∀ (l : List BlockId) (live : Live), Fixed names live → Fixed names (l.foldl (fun live s =>
      Liveness.add names (((f.block? s).map (fun blk => phiReads blk b)).getD [])
        (Liveness.add names (seenFrom b later s) live)) live) from h _ _ nofun
  intro l
  induction l with
  | nil => exact fun _ h => h
  | cons s l ih => exact fun live h => ih _ h.add.add

/-- Registers that are live at the start of a block are canonical. -/
theorem fixed_atEntry (f : Function) (b : BlockId) (blk : Block) (later : List Live) :
    Fixed names (atEntry f names b blk later) := ((fixed_atExit f b later).throughAll).remove

/-- The live set at the start of a block follows from those of the blocks after it. -/
theorem entries_getElem? {f : Function} {b : BlockId} {blk : Block} (h : f.block? b = some blk) :
    (entries f names)[b]? = some (atEntry f names b blk ((entries f names).drop (b + 1))) := by
  suffices hfold : ∀ (l : List Block) (k n : Nat) (x : Block), l[n]? = some x →
      let sets := (l.zipIdx k).foldr (fun e later => atEntry f names e.2 e.1 later :: later) []
      sets[n]? = some (atEntry f names (k + n) x (sets.drop (n + 1))) by
    rw [entries]
    simpa using hfold f.blocks 0 b blk h
  intro l
  induction l with
  | nil => exact fun k n x hx => by simp at hx
  | cons y l ih =>
    intro k n x hx
    rw [List.zipIdx_cons, List.foldr_cons]
    cases n with
    | zero =>
      obtain rfl : y = x := by simpa using hx
      simp
    | succ n =>
      have hrest := ih (k + 1) n x (by simpa using hx)
      rw [show k + 1 + n = k + (n + 1) by omega] at hrest
      simpa using hrest

/-- There is one live set for each block. -/
theorem length_entries (f : Function) : (entries f names).length = f.blocks.length := by
  suffices h : ∀ l : List (Block × Nat),
      (l.foldr (fun e later => atEntry f names e.2 e.1 later :: later) []).length = l.length by
    rw [entries, h, List.length_zipIdx]
  intro l
  induction l with
  | nil => rfl
  | cons e l ih => rw [List.foldr_cons, List.length_cons, ih, List.length_cons]

end Liveness

namespace Function

open Liveness

/-- One number never occurs with two widths. -/
def OneWidth (f : Function) : Prop := ∀ v ∈ f.mentions, ∀ w ∈ f.mentions, v.id = w.id → v = w

/-- From before instruction `k` of block `b` a path leads to a read of `v`, and does not pass a write of `v`. Phis
read at the end of the block that control comes from, and write on the way. -/
inductive LiveAt (f : Function) (v : VirtReg) : BlockId → Nat → Prop where
  | use {b : BlockId} {k : Nat} {blk : Block} {i : Instruction} (hb : f.block? b = some blk)
    (hi : blk.code[k]? = some i) (hv : v ∈ virtRegs i.uses) : LiveAt f v b k
  | pass {b : BlockId} {k : Nat} {blk : Block} {i : Instruction} (hb : f.block? b = some blk)
    (hi : blk.code[k]? = some i) (hv : v ∉ virtRegs i.defs) (h : LiveAt f v b (k + 1)) : LiveAt f v b k
  | phi {b s : BlockId} {blk next : Block} (hb : f.block? b = some blk) (hs : s ∈ blk.exit.successors)
      (hnext : f.block? s = some next) (hv : v ∈ phiReads next b) : LiveAt f v b blk.code.length
  | edge {b s : BlockId} {blk next : Block} (hb : f.block? b = some blk) (hs : s ∈ blk.exit.successors)
      (hnext : f.block? s = some next) (hv : v ∉ next.phis.filterMap Phi.virt?) (h : LiveAt f v s 0) :
      LiveAt f v b blk.code.length

/-- The blocks of the loop that a block is the header of. -/
def loopBody (f : Function) (b : BlockId) : List BlockId := ((f.block? b).map (·.loopBody)).getD []

/-- The blocks of a loop stand after its header, and control gets into the loop through the header only. -/
structure Loop (f : Function) (header : BlockId) : Prop where
  after : ∀ b ∈ f.loopBody header, header ≤ b
  entered : ∀ p s, s ∈ f.successors p → s ∈ f.loopBody header → p ∉ f.loopBody header → s = header

/-- Control goes forward, or back to the header of a loop that it is in. -/
def Structured (f : Function) : Prop :=
  ∀ p s, s ∈ f.successors p → p < s ∨ p ∈ f.loopBody s ∧ f.Loop s

/-- The registers in the live set at the end of a block. -/
def liveOut (f : Function) (b : BlockId) : Live := atExit f f.mentions b ((entries f f.mentions).drop (b + 1))

/-- The registers in the live set at the start of a block. -/
def liveIn (f : Function) (b : BlockId) : Live := ((entries f f.mentions)[b]?).getD []

/-- The registers in the live set before instruction `k` of a block. -/
def liveBefore (f : Function) (b : BlockId) (blk : Block) (k : Nat) : Live :=
  (blk.code.drop k).foldr (through f.mentions) (f.liveOut b)

variable {f : Function} {v : VirtReg} {b : BlockId} {blk : Block} {k : Nat} {i : Instruction}

/-- Successors of a block are those of its exit. -/
theorem successors_eq (hb : f.block? b = some blk) : f.successors b = blk.exit.successors := by
  rw [successors, hb]
  rfl

/-- What a block mentions the function mentions. -/
theorem mem_block_mentions (hb : f.block? b = some blk) (h : v ∈ blk.mentions) : v ∈ f.mentions :=
  List.mem_flatMap.2 ⟨blk, List.mem_of_getElem? hb, h⟩

/-- If every number has one width, the registers mentioned are canonical. -/
theorem fixed_of_mentions (h : f.OneWidth) {vs : List VirtReg} (hvs : ∀ v ∈ vs, v ∈ f.mentions) :
    Fixed f.mentions vs := by
  intro v hv
  rw [canonical]
  cases hf : f.mentions.find? (fun w => w.id = v.id) with
  | none => rfl
  | some w => exact h w (List.mem_of_find?_eq_some hf) v (hvs v hv) (by simpa using List.find?_some hf)

/-- The virtual registers of two lists of accesses are those of each. -/
theorem mem_virtRegs_append {l l' : List Access} : v ∈ virtRegs (l ++ l') ↔ v ∈ virtRegs l ∨ v ∈ virtRegs l' := by
  simp only [virtRegs, List.filterMap_append, List.mem_append]

/-- What an instruction reads or writes is mentioned. -/
theorem mem_mentions_of_code (hb : f.block? b = some blk) (hi : i ∈ blk.code)
    (h : v ∈ virtRegs i.uses ∨ v ∈ virtRegs i.defs) :
    v ∈ f.mentions :=
  mem_block_mentions hb (List.mem_append_right _ (List.mem_flatMap.2 ⟨i, hi, mem_virtRegs_append.2 h⟩))

theorem mem_mentions_of_phiReads (hb : f.block? b = some blk) {p : BlockId} (h : v ∈ phiReads blk p) :
    v ∈ f.mentions := by
  refine mem_block_mentions hb (List.mem_append_left _ ?_)
  obtain ⟨φ, hφ, h⟩ := List.mem_flatMap.1 h
  refine List.mem_flatMap.2 ⟨φ, hφ, List.mem_append_right _ ?_⟩
  cases hin : φ.input? p with
  | none =>
    rw [hin] at h
    cases h
  | some o =>
    rw [hin] at h
    exact List.mem_flatMap.2 ⟨(p, o), mem_of_lookupBy hin, h⟩

theorem mem_mentions_of_phis (hb : f.block? b = some blk) (h : v ∈ blk.phis.filterMap Phi.virt?) : v ∈ f.mentions := by
  refine mem_block_mentions hb (List.mem_append_left _ ?_)
  obtain ⟨φ, hφ, h⟩ := List.mem_filterMap.1 h
  obtain ⟨r, hr, h⟩ := Option.bind_eq_some_iff.1 h
  refine List.mem_flatMap.2 ⟨φ, hφ, List.mem_append_left _ (List.mem_filterMap.2 ⟨r, ?_, h⟩)⟩
  simp [Phi.hints, hr]

/-- If every number has one width, the registers of an instruction are canonical. -/
theorem fixed_instruction (h : f.OneWidth) (hb : f.block? b = some blk) (hi : i ∈ blk.code) :
    Fixed f.mentions (virtRegs i.uses) ∧ Fixed f.mentions (virtRegs i.defs) :=
  ⟨fixed_of_mentions h fun _ hw => mem_mentions_of_code hb hi (.inl hw),
    fixed_of_mentions h fun _ hw => mem_mentions_of_code hb hi (.inr hw)⟩

/-- The registers that phis read on an edge are canonical. -/
theorem fixed_phiReads (h : f.OneWidth) (hb : f.block? b = some blk) (p : BlockId) :
    Fixed f.mentions (phiReads blk p) :=
  fixed_of_mentions h fun _ hw => mem_mentions_of_phiReads hb hw

/-- The registers that phis write are canonical. -/
theorem fixed_phis (h : f.OneWidth) (hb : f.block? b = some blk) : Fixed f.mentions (blk.phis.filterMap Phi.virt?) :=
  fixed_of_mentions h fun _ hw => mem_mentions_of_phis hb hw

/-- What is live before the first instruction and not written by a phi is live at the start of the block. -/
theorem liveIn_eq (hb : f.block? b = some blk) :
    f.liveIn b = remove f.mentions (blk.phis.filterMap Phi.virt?) (f.liveBefore b blk 0) := by
  rw [liveIn, entries_getElem? hb]
  rfl

theorem liveIn_eq_nil (hb : f.block? b = none) : f.liveIn b = [] := by
  have hnone : (entries f f.mentions)[b]? = none := by
    rw [List.getElem?_eq_none_iff, length_entries]
    exact List.getElem?_eq_none_iff.1 hb
  rw [liveIn, hnone, Option.getD_none]

/-- A register is in the live set at the start of a block if it is before the first instruction and no phi writes it. -/
theorem mem_liveIn (h : f.OneWidth) (hb : f.block? b = some blk) :
    v ∈ f.liveIn b ↔ v ∈ f.liveBefore b blk 0 ∧ v ∉ blk.phis.filterMap Phi.virt? := by
  rw [liveIn_eq hb, mem_remove_of_fixed (fixed_phis h hb)]

/-- Before the end of the code is live what is live at the end of the block. -/
theorem liveBefore_length (f : Function) (b : BlockId) (blk : Block) :
    f.liveBefore b blk blk.code.length = f.liveOut b := by
  rw [liveBefore, List.drop_length, List.foldr_nil]

/-- Before an instruction is live what the instruction makes of the registers that are live after it. -/
theorem liveBefore_eq_through (hi : blk.code[k]? = some i) :
    f.liveBefore b blk k = through f.mentions i (f.liveBefore b blk (k + 1)) := by
  obtain ⟨hk, rfl⟩ := List.getElem?_eq_some_iff.1 hi
  rw [liveBefore, List.drop_eq_getElem_cons hk, List.foldr_cons]
  rfl

/-- A register is in the live set before an instruction that reads it, or if it is after the instruction and not
written by it. -/
theorem mem_liveBefore (h : f.OneWidth) (hb : f.block? b = some blk) (hi : blk.code[k]? = some i) :
    v ∈ f.liveBefore b blk k ↔ v ∈ virtRegs i.uses ∨ v ∈ f.liveBefore b blk (k + 1) ∧ v ∉ virtRegs i.defs := by
  obtain ⟨huses, hdefs⟩ := fixed_instruction h hb (List.mem_of_getElem? hi)
  rw [liveBefore_eq_through hi, through, mem_add_of_fixed huses, mem_remove_of_fixed hdefs, or_comm]

/-- From a block, the live sets of the later blocks are seen. -/
theorem seenFrom_entries (s : BlockId) :
    seenFrom b ((entries f f.mentions).drop (b + 1)) s = if b < s then f.liveIn s else [] := by
  rw [seenFrom]
  split_ifs with hlt
  · have hs : b + 1 + (s - (b + 1)) = s := Nat.add_sub_cancel' hlt
    rw [List.getElem?_drop, liveIn, hs]
  · rfl

/-- The live sets at the starts of blocks hold canonical registers. -/
theorem fixed_liveIn (s : BlockId) : Fixed f.mentions (f.liveIn s) := by
  cases hs : f.block? s with
  | some blk =>
    rw [liveIn, entries_getElem? hs, Option.getD_some]
    exact fixed_atEntry f s blk _
  | none =>
    rw [liveIn_eq_nil hs]
    exact nofun

/-- A register is in the live set at the end of a block if the phis of a successor read it there, or if it is in the
live set at the start of a successor that stands later. -/
theorem mem_liveOut (h : f.OneWidth) :
    v ∈ f.liveOut b ↔ ∃ s ∈ f.successors b,
      (∃ next, f.block? s = some next ∧ v ∈ phiReads next b) ∨ b < s ∧ v ∈ f.liveIn s := by
  suffices hfold : ∀ (l : List BlockId) (live : Live), v ∈ l.foldl (fun live s =>
      add f.mentions (((f.block? s).map (fun blk => phiReads blk b)).getD [])
        (add f.mentions (seenFrom b ((entries f f.mentions).drop (b + 1)) s) live)) live ↔
      v ∈ live ∨ ∃ s ∈ l, (∃ next, f.block? s = some next ∧ v ∈ phiReads next b) ∨ b < s ∧ v ∈ f.liveIn s by
    rw [liveOut, atExit, hfold]
    simp
  intro l
  induction l with
  | nil => simp
  | cons s l ih =>
    intro live
    have hphi : Fixed f.mentions (((f.block? s).map (fun blk => phiReads blk b)).getD []) ∧
        (v ∈ ((f.block? s).map (fun blk => phiReads blk b)).getD [] ↔
          ∃ next, f.block? s = some next ∧ v ∈ phiReads next b) := by
      cases hs : f.block? s with
      | none => exact ⟨nofun, by simp⟩
      | some next => exact ⟨fixed_phiReads h hs b, by simp⟩
    have hseen : Fixed f.mentions (if b < s then f.liveIn s else []) := by
      split_ifs
      · exact fixed_liveIn s
      · exact nofun
    have hmem : v ∈ (if b < s then f.liveIn s else []) ↔ b < s ∧ v ∈ f.liveIn s := by
      split_ifs with hlt
      · simp [hlt]
      · simp only [List.not_mem_nil, hlt, false_and]
    rw [List.foldl_cons, ih, seenFrom_entries, mem_add_of_fixed hphi.1, mem_add_of_fixed hseen, hphi.2, hmem]
    simp only [List.mem_cons, exists_eq_or_imp, or_assoc, or_left_comm (b := b < s ∧ v ∈ f.liveIn s)]

/-- A register that is live by some path is in the live set of its block, or in that of the header of a loop that the
block is part of. -/
theorem LiveAt.found (hw : f.OneWidth) (hf : f.Structured) (h : f.LiveAt v b k) (hb : f.block? b = some blk) :
    v ∈ f.liveBefore b blk k ∨ ∃ header, f.Loop header ∧ b ∈ f.loopBody header ∧ v ∈ f.liveIn header := by
  induction h generalizing blk with
  | use hb' hi hv =>
    obtain rfl := Option.some.inj (hb.symm.trans hb')
    exact .inl ((mem_liveBefore hw hb hi).2 (.inl hv))
  | pass hb' hi hv _ ih =>
    obtain rfl := Option.some.inj (hb.symm.trans hb')
    exact (ih hb).imp_left fun hmem => (mem_liveBefore hw hb hi).2 (.inr ⟨hmem, hv⟩)
  | phi hb' hs hnext hv =>
    obtain rfl := Option.some.inj (hb.symm.trans hb')
    rw [← successors_eq hb] at hs
    rw [liveBefore_length]
    exact .inl ((mem_liveOut hw).2 ⟨_, hs, .inl ⟨_, hnext, hv⟩⟩)
  | @edge b s blk' next hb' hs hnext hv h ih =>
    obtain rfl := Option.some.inj (hb.symm.trans hb')
    rw [← successors_eq hb] at hs
    rw [liveBefore_length]
    rcases ih hnext with hmem | ⟨header, hloop, hbody, hmem⟩
    · have hin : v ∈ f.liveIn s := (mem_liveIn hw hnext).2 ⟨hmem, hv⟩
      rcases hf b s hs with hlt | ⟨hbody, hloop⟩
      · exact .inl ((mem_liveOut hw).2 ⟨s, hs, .inr ⟨hlt, hin⟩⟩)
      · exact .inr ⟨s, hloop, hbody, hin⟩
    · by_cases hmemb : b ∈ f.loopBody header
      · exact .inr ⟨header, hloop, hmemb, hmem⟩
      · -- The edge leads into the loop, so it leads to the header.
        obtain rfl := hloop.entered b s hs hbody hmemb
        rcases hf b s hs with hlt | ⟨hbody', _⟩
        · exact .inl ((mem_liveOut hw).2 ⟨s, hs, .inr ⟨hlt, hmem⟩⟩)
        · exact absurd hbody' hmemb

/-- Within a block, what holds of the live set at its end holds before every instruction. -/
theorem liveAt_of_mem_liveBefore_of_out (hw : f.OneWidth) (hb : f.block? b = some blk)
    (hout : ∀ v ∈ f.liveOut b, f.LiveAt v b blk.code.length) (hk : k ≤ blk.code.length)
    (h : v ∈ f.liveBefore b blk k) : f.LiveAt v b k := by
  obtain ⟨n, hn⟩ := Nat.exists_eq_add_of_le hk
  induction n generalizing k with
  | zero =>
    obtain rfl : blk.code.length = k := by omega
    rw [liveBefore_length] at h
    exact hout v h
  | succ n ih =>
    have hi := List.getElem?_eq_getElem (show k < blk.code.length by omega)
    rcases (mem_liveBefore hw hb hi).1 h with huse | ⟨hnext, hdef⟩
    · exact .use hb hi huse
    · exact .pass hb hi hdef (ih (by omega) hnext (by omega))

/-- Every register of a live set is live by some path. -/
theorem liveAt_of_mem_liveOut (hw : f.OneWidth) (hb : f.block? b = some blk) (h : v ∈ f.liveOut b) :
    f.LiveAt v b blk.code.length := by
  obtain ⟨n, hn⟩ : ∃ n, f.blocks.length - b = n := ⟨_, rfl⟩
  -- The live set at the start of a later block was found before this one.
  induction n using Nat.strongRecOn generalizing b blk v with
  | ind n ih =>
    obtain ⟨s, hs, ⟨next, hnext, hv⟩ | ⟨hlt, hv⟩⟩ := (mem_liveOut hw).1 h
    · rw [successors_eq hb] at hs
      exact .phi hb hs hnext hv
    · rw [successors_eq hb] at hs
      cases hnext : f.block? s with
      | none =>
        rw [liveIn_eq_nil hnext] at hv
        cases hv
      | some next =>
        obtain ⟨hbefore, hphi⟩ := (mem_liveIn hw hnext).1 hv
        have hslt : @LT.lt Nat _ s f.blocks.length := (List.getElem?_eq_some_iff.1 hnext).1
        have hlt : @LT.lt Nat _ b s := hlt
        refine .edge hb hs hnext hphi
          (liveAt_of_mem_liveBefore_of_out hw hnext (fun w hw' => ?_) (Nat.zero_le _) hbefore)
        exact ih (f.blocks.length - s) (by omega) hnext hw' rfl

/-- Whatever is in the live sets is live: it is read before it is written on some path. -/
theorem liveAt_of_mem_liveBefore (hw : f.OneWidth) (hb : f.block? b = some blk) (hk : k ≤ blk.code.length)
    (h : v ∈ f.liveBefore b blk k) : f.LiveAt v b k :=
  liveAt_of_mem_liveBefore_of_out hw hb (fun _ => liveAt_of_mem_liveOut hw hb) hk h

end Function

end RegAlloc
