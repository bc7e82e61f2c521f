import RegAlloc.Proofs.Liveness
import RegAlloc.Proofs.Notes

/-!
# What the lifetimes of a function cover

The notes on a block are read from its end to its start, as they are made. `Walked` says what is known of a register's
segment in the block once the instructions from `k` on were walked: it spans every position there where the register
is in the live set, and every write. Notes of other blocks do not touch the segment, except that a loop makes it the
whole block. So the interval of a register covers every position where the register is live by any path
(`covers_of_liveAt`) and every position where it is written, and its sites are where it is accessed
(`mem_sites_write`, `sites_inside`).
-/

namespace RegAlloc

open Liveness

/-- A slot lies between the ends of a segment that may not be there. -/
def Spans (o : Option Segment) (n : Nat) : Prop := ∃ s, o = some s ∧ s.first ≤ n ∧ n ≤ s.last

/-- A segment that is not there has no slots. -/
theorem not_spans_none (n : Nat) : ¬Spans none n := by
  rintro ⟨s, hs, _⟩
  cases hs

namespace Note

variable {names : List VirtReg} {v : VirtReg} {b c : BlockId} {p q : Position} {hints : List Register}
  {o : Option Segment} {f : Function} {blk : Block} {live : Live} {later : List Live} {note : Note} {l : List Note}

/-- The segment after a write. -/
def writeSegment (b : BlockId) (n : Nat) (o : Option Segment) : Segment := (o.map (·.withFirst n)).getD ⟨b, n, n⟩

/-- The segment after a read. -/
def readSegment (b : BlockId) (n : Nat) (o : Option Segment) : Segment :=
  (o.map (fun s => if n < s.first then s.withFirst 0 else s)).getD ⟨b, 0, n⟩

/-- To note a write twice changes nothing. -/
theorem writeSegment_self (b : BlockId) (n : Nat) (o : Option Segment) :
    writeSegment b n (some (writeSegment b n o)) = writeSegment b n o := by
  cases o <;> rfl

/-- To note a read twice changes nothing. -/
theorem readSegment_self (b : BlockId) (n : Nat) (o : Option Segment) :
    readSegment b n (some (readSegment b n o)) = readSegment b n o := by
  cases o with
  | none => rfl
  | some s =>
    simp only [readSegment, Option.map_some, Option.getD_some]
    by_cases h : n < s.first <;> simp [h, Segment.withFirst]

/-- A write does not move the end of a segment. -/
theorem last_writeSegment (b : BlockId) (n : Nat) (o : Option Segment) :
    (writeSegment b n o).last = (o.map Segment.last).getD n := by
  cases o <;> rfl

/-- A read does not move the end of a segment. -/
theorem last_readSegment (b : BlockId) (n : Nat) (o : Option Segment) :
    (readSegment b n o).last = (o.map Segment.last).getD n := by
  cases o with
  | none => rfl
  | some s =>
    simp only [readSegment, Option.map_some, Option.getD_some]
    split_ifs <;> rfl

/-- The note says at most that a register is written at `p`. -/
def WritesAt (p : Position) (note : Note) : Prop := (∃ w m, note = .write w p m) ∨ ∃ w hints, note = .linkStart w hints

/-- The note says at most that a register is read at `p`. -/
def ReadsAt (p : Position) (note : Note) : Prop := (∃ w m, note = .read w p m) ∨ ∃ w hints, note = .linkStop w hints

/-- Notes that change the segment in one and the same way change it once, however many there are. -/
theorem foldl_onSegment {u : Option Segment → Segment} (hu : ∀ o, u (some (u o)) = u o)
    (hl : ∀ note ∈ l, (note.Marks v p → ∀ o, onSegment v b o note = some (u o)) ∧
      (¬note.Marks v p → ∀ o, onSegment v b o note = o)) :
    ((∃ note ∈ l, note.Marks v p) → l.foldl (onSegment v b) o = some (u o)) ∧
      ((¬∃ note ∈ l, note.Marks v p) → l.foldl (onSegment v b) o = o) := by
  induction l generalizing o with
  | nil => exact ⟨by simp, fun _ => rfl⟩
  | cons note l ih =>
    obtain ⟨hmark, hidle⟩ := hl note List.mem_cons_self
    have ih := fun o => @ih o fun x hx => hl x (List.mem_cons_of_mem _ hx)
    simp only [List.mem_cons, exists_eq_or_imp, List.foldl_cons]
    by_cases hnote : note.Marks v p
    · rw [hmark hnote]
      refine ⟨fun _ => ?_, fun hnot => absurd (.inl hnote) hnot⟩
      by_cases hrest : ∃ note ∈ l, note.Marks v p
      · rw [(ih _).1 hrest, hu]
      · exact (ih _).2 hrest
    · rw [hidle hnote]
      simpa only [hnote, false_or] using ih o

/-- Notes on writes at one position act like one of them if they mark the register, and not at all otherwise. -/
theorem foldl_writesAt (hl : ∀ note ∈ l, note.WritesAt p) (hp : p.block = b) :
    ((∃ note ∈ l, note.Marks v p) → l.foldl (onSegment v b) o = some (writeSegment b p.slot o)) ∧
      ((¬∃ note ∈ l, note.Marks v p) → l.foldl (onSegment v b) o = o) := by
  refine foldl_onSegment (writeSegment_self b p.slot) fun note hnote => ?_
  rcases hl note hnote with ⟨w, m, rfl⟩ | ⟨w, hints, rfl⟩
  · by_cases hw : w = v <;> simp [Marks, onSegment, writeSegment, hp, hw]
  · simp [Marks, onSegment]

/-- Notes on reads at one position act like one of them if they mark the register, and not at all otherwise. -/
theorem foldl_readsAt (hl : ∀ note ∈ l, note.ReadsAt p) (hp : p.block = b) :
    ((∃ note ∈ l, note.Marks v p) → l.foldl (onSegment v b) o = some (readSegment b p.slot o)) ∧
      ((¬∃ note ∈ l, note.Marks v p) → l.foldl (onSegment v b) o = o) := by
  refine foldl_onSegment (readSegment_self b p.slot) fun note hnote => ?_
  rcases hl note hnote with ⟨w, m, rfl⟩ | ⟨w, hints, rfl⟩
  · by_cases hw : w = v <;> simp [Marks, onSegment, readSegment, hp, hw]
  · simp [Marks, onSegment]

/-! ## Which notes there are -/

/-- What is noted where an instruction writes are writes at that position. -/
theorem writesAt_of_mem_writes {accesses : List Access} (h : note ∈ writes names p hints accesses) :
    note.WritesAt p := by
  obtain ⟨a, _, h⟩ := List.mem_flatMap.1 h
  cases ha : a.register with
  | phys q => simp [ha] at h
  | virt w =>
    simp only [ha, List.mem_cons] at h
    rcases h with rfl | h
    · exact .inl ⟨_, _, rfl⟩
    · split_ifs at h
      · exact .inr ⟨_, _, List.mem_singleton.1 h⟩
      · cases h

/-- They mark the registers that it writes. -/
theorem marks_writes {accesses : List Access} (hfix : Fixed names (virtRegs accesses)) :
    (∃ note ∈ writes names p hints accesses, note.Marks v q) ↔ q = p ∧ v ∈ virtRegs accesses := by
  constructor
  · rintro ⟨note, h, hmark⟩
    obtain ⟨a, ha, h⟩ := List.mem_flatMap.1 h
    cases hr : a.register with
    | phys q => simp [hr] at h
    | virt w =>
      have hw : w ∈ virtRegs accesses := mem_virtRegs.2 ⟨a, ha, hr⟩
      simp only [hr, List.mem_cons, hfix w hw] at h
      rcases h with rfl | h
      · obtain ⟨m, h | h⟩ := hmark
        · cases h
          exact ⟨rfl, hw⟩
        · cases h
      · split_ifs at h
        · rw [List.mem_singleton.1 h] at hmark
          simp [Marks] at hmark
        · cases h
  · rintro ⟨rfl, hv⟩
    obtain ⟨a, ha, hr⟩ := mem_virtRegs.1 hv
    refine ⟨.write v q a.memoryOk, List.mem_flatMap.2 ⟨a, ha, ?_⟩, a.memoryOk, .inl rfl⟩
    simp only [hr, hfix v hv]
    exact List.mem_cons_self

/-- What is noted where an instruction reads are reads at that position. -/
theorem readsAt_of_mem_reads {accesses : List Access} (h : note ∈ reads names p hints accesses live) :
    note.ReadsAt p := by
  induction accesses generalizing live with
  | nil => cases h
  | cons a rest ih =>
    rw [reads] at h
    cases ha : a.register with
    | phys q =>
      rw [ha] at h
      exact ih h
    | virt w =>
      simp only [ha, List.mem_cons, List.mem_append] at h
      rcases h with rfl | h | h
      · exact .inl ⟨_, _, rfl⟩
      · split_ifs at h
        · exact .inr ⟨_, _, List.mem_singleton.1 h⟩
        · cases h
      · exact ih h

/-- They mark the registers that it reads. -/
theorem marks_reads {accesses : List Access} (hfix : Fixed names (virtRegs accesses)) :
    (∃ note ∈ reads names p hints accesses live, note.Marks v q) ↔ q = p ∧ v ∈ virtRegs accesses := by
  induction accesses generalizing live with
  | nil => simp [reads, virtRegs]
  | cons a rest ih =>
    rw [reads]
    cases ha : a.register with
    | phys r =>
      have hregs : virtRegs (a :: rest) = virtRegs rest := by simp [virtRegs, ha, Register.virt?]
      rw [hregs] at hfix ⊢
      exact ih hfix
    | virt w =>
      have hregs : virtRegs (a :: rest) = w :: virtRegs rest := by simp [virtRegs, ha, Register.virt?]
      rw [hregs] at hfix ⊢
      have hw : canonical names w = w := hfix w List.mem_cons_self
      have hread : (Note.read w p a.memoryOk).Marks v q ↔ q = p ∧ v = w := by
        simp only [Marks, Note.read.injEq, reduceCtorEq, false_or, exists_and_left, exists_eq', and_true]
        exact ⟨fun h => ⟨h.2.symm, h.1.symm⟩, fun h => ⟨h.2.symm, h.1.symm⟩⟩
      have hlink : ∀ cond : Bool, ¬∃ note ∈ (if cond then
          [Note.linkStop w (hints.map (canonicalRegister names))] else []), note.Marks v q := by
        intro cond
        cases cond <;> simp [Marks]
      have hrest : ∀ live,
          (∃ note ∈ reads names p hints rest live, note.Marks v q) ↔ q = p ∧ v ∈ virtRegs rest :=
        fun _ => ih fun u hu => hfix u (List.mem_cons_of_mem _ hu)
      simp only [hw, List.mem_cons, List.mem_append, or_and_right, exists_or, exists_eq_left, hread, hlink,
        false_or, hrest]
      rw [← and_or_left]

/-- What is noted of phis of the successors are reads at the end of the block. -/
theorem readsAt_of_mem_phiReads (h : note ∈ phiReads f names b p) : note.ReadsAt p := by
  obtain ⟨s, _, h⟩ := List.mem_flatMap.1 h
  obtain ⟨φ, _, h⟩ := List.mem_flatMap.1 h
  obtain ⟨a, _, h⟩ := List.mem_flatMap.1 h
  cases ha : a.register with
  | phys q => simp [ha] at h
  | virt w =>
    simp only [ha, List.mem_cons] at h
    rcases h with rfl | h
    · exact .inl ⟨_, _, rfl⟩
    · split_ifs at h
      · exact .inr ⟨_, _, List.mem_singleton.1 h⟩
      · cases h

/-- They mark the registers that those phis take from the block. -/
theorem marks_phiReads (hfix : ∀ s next, f.block? s = some next → Fixed names (Liveness.phiReads next b)) :
    (∃ note ∈ phiReads f names b p, note.Marks v q) ↔
      q = p ∧ ∃ s ∈ f.successors b, ∃ next, f.block? s = some next ∧ v ∈ Liveness.phiReads next b := by
  constructor
  · rintro ⟨note, h, hmark⟩
    obtain ⟨s, hs, h⟩ := List.mem_flatMap.1 h
    obtain ⟨φ, hφ, h⟩ := List.mem_flatMap.1 h
    obtain ⟨a, ha, h⟩ := List.mem_flatMap.1 h
    cases hnext : f.block? s with
    | none => simp [hnext] at hφ
    | some next =>
      rw [hnext, Option.map_some, Option.getD_some] at hφ
      cases hr : a.register with
      | phys r => simp [hr] at h
      | virt w =>
        have hw : w ∈ Liveness.phiReads next b := List.mem_flatMap.2 ⟨φ, hφ, mem_virtRegs.2 ⟨a, ha, hr⟩⟩
        simp only [hr, List.mem_cons, hfix s next hnext w hw] at h
        rcases h with rfl | h
        · obtain ⟨m, h | h⟩ := hmark
          · cases h
          · cases h
            exact ⟨rfl, s, hs, next, hnext, hw⟩
        · split_ifs at h
          · rw [List.mem_singleton.1 h] at hmark
            simp [Marks] at hmark
          · cases h
  · rintro ⟨rfl, s, hs, next, hnext, hv⟩
    obtain ⟨φ, hφ, hva⟩ := List.mem_flatMap.1 hv
    obtain ⟨a, ha, hr⟩ := mem_virtRegs.1 hva
    refine ⟨.read v q a.memoryOk,
      List.mem_flatMap.2 ⟨s, hs, List.mem_flatMap.2 ⟨φ, ?_, List.mem_flatMap.2 ⟨a, ha, ?_⟩⟩⟩, a.memoryOk, .inr rfl⟩
    · rw [hnext]
      exact hφ
    · simp only [hr, hfix s next hnext v hv]
      exact List.mem_cons_self

/-- What is noted of the phis of a block are writes at its start. -/
theorem writesAt_of_mem_phiWrites {phis : List Phi} (h : note ∈ phiWrites names b phis live) :
    note.WritesAt (.entry b) := by
  induction phis generalizing live with
  | nil => cases h
  | cons φ rest ih =>
    rw [phiWrites] at h
    split at h
    · exact ih h
    · split_ifs at h
      · simp only [List.mem_cons] at h
        rcases h with rfl | rfl | h
        · exact .inl ⟨_, _, rfl⟩
        · exact .inr ⟨_, _, rfl⟩
        · exact ih h
      · exact ih h

/-- A phi whose output is live writes it at the start of the block. -/
theorem marks_phiWrites {phis : List Phi} (hfix : Fixed names (phis.filterMap Phi.virt?)) :
    (∃ note ∈ phiWrites names b phis live, note.Marks v q) ↔
      q = .entry b ∧ v ∈ phis.filterMap Phi.virt? ∧ v ∈ live := by
  induction phis generalizing live with
  | nil => simp [phiWrites]
  | cons φ rest ih =>
    rw [phiWrites]
    cases hφ : φ.virt? with
    | none =>
      rw [List.filterMap_cons_none hφ] at hfix ⊢
      exact ih hfix
    | some w =>
      rw [List.filterMap_cons_some hφ] at hfix ⊢
      have hw : canonical names w = w := hfix w List.mem_cons_self
      have hrest : ∀ live, (∃ note ∈ phiWrites names b rest live, note.Marks v q) ↔
          q = .entry b ∧ v ∈ rest.filterMap Phi.virt? ∧ v ∈ live := fun _ => ih fun u hu =>
            hfix u (List.mem_cons_of_mem _ hu)
      have hremove : v ∈ remove names [w] live ↔ v ∈ live ∧ v ≠ w := by
        simp [mem_remove, hw]
      simp only [hw]
      by_cases hlive : w ∈ live
      · have hwrite : (Note.write w (.entry b) true).Marks v q ↔ q = .entry b ∧ v = w := by
          simp only [Marks, Note.write.injEq, reduceCtorEq, or_false, exists_and_left, exists_eq', and_true]
          exact ⟨fun h => ⟨h.2.symm, h.1.symm⟩, fun h => ⟨h.2.symm, h.1.symm⟩⟩
        have hlink : ¬(Note.linkStart w (φ.hints.map (canonicalRegister names))).Marks v q := by simp [Marks]
        simp only [hlive, List.contains_eq_mem, decide_true, if_true, List.mem_cons, exists_eq_or_imp, hwrite, hlink,
          false_or, hrest, hremove]
        by_cases hvw : v = w
        · subst hvw
          simp [hlive]
        · simp [hvw]
      · simp only [hlive, List.contains_eq_mem, decide_false, Bool.false_eq_true, if_false, hrest, List.mem_cons]
        refine and_congr_right fun _ => ⟨fun h => ⟨.inr h.1, h.2⟩, ?_⟩
        rintro ⟨rfl | hmem, hv⟩
        · exact absurd hv hlive
        · exact ⟨hmem, hv⟩

/-- From one instruction on, backwards, comes the instruction first and then those before it. -/
theorem reverse_take_succ {code : List Instruction} {k : Nat} {i : Instruction} (h : code[k]? = some i) :
    (code.zipIdx.take (k + 1)).reverse = (i, k) :: (code.zipIdx.take k).reverse := by
  rw [List.take_add_one, List.getElem?_zipIdx, h]
  simp

/-- Notes that make the segment the whole block, or do not touch it. -/
theorem foldl_alive {n : Nat} (hl : ∀ note ∈ l, (∀ o, onSegment v b o note = o) ∨ ∃ w, note = .alive w b n) :
    (l.foldl (onSegment v b) o = o ∨ l.foldl (onSegment v b) o = some (.whole b n)) ∧
      (.alive v b n ∈ l → l.foldl (onSegment v b) o = some (.whole b n)) := by
  induction l generalizing o with
  | nil => exact ⟨.inl rfl, nofun⟩
  | cons note l ih =>
    have ih := fun o => @ih o fun x hx => hl x (List.mem_cons_of_mem _ hx)
    rw [List.foldl_cons]
    rcases hl note List.mem_cons_self with hidle | ⟨w, rfl⟩
    · rw [hidle]
      refine ⟨(ih o).1, fun hmem => ?_⟩
      rcases List.mem_cons.1 hmem with rfl | hmem
      · -- A note that touches nothing is not about this register and block.
        have hwhole := hidle none
        rw [onSegment, if_pos ⟨rfl, rfl⟩] at hwhole
        cases hwhole
      · exact (ih o).2 hmem
    · by_cases hw : w = v
      · subst hw
        rw [onSegment, if_pos ⟨rfl, rfl⟩]
        have hsome : l.foldl (onSegment w b) (some (.whole b n)) = some (.whole b n) := by
          rcases (ih (some (.whole b n))).1 with h | h <;> exact h
        exact ⟨.inr hsome, fun _ => hsome⟩
      · rw [onSegment, if_neg (fun h => hw h.1)]
        refine ⟨(ih o).1, fun hmem => ?_⟩
        rcases List.mem_cons.1 hmem with heq | hmem
        · cases heq
          exact absurd rfl hw
        · exact (ih o).2 hmem

end Note

section Walk

variable {f : Function} {v : VirtReg} {b : BlockId} {blk : Block} {k : Nat} {o : Option Segment} {i : Instruction}

/-- What is known of a register's segment in a block once the instructions from `k` on were walked. -/
structure Walked (f : Function) (v : VirtReg) (b : BlockId) (blk : Block) (k : Nat) (o : Option Segment) : Prop where
  bounds : ∀ s, o = some s → s.block = b ∧ s.first ≤ s.last ∧ (s.first = 0 ∨ 2 * k + 2 ≤ s.first) ∧ 2 * k + 1 ≤ s.last
  /-- A register that is live where the walk has come to is taken to be live from the start of the block. -/
  start : v ∈ f.liveBefore b blk k → ∃ s, o = some s ∧ s.first = 0
  live : ∀ j, k ≤ j → j ≤ blk.code.length → v ∈ f.liveBefore b blk j → Spans o (2 * j) ∧ Spans o (2 * j + 1)
  writes : ∀ j i, k ≤ j → blk.code[j]? = some i → v ∈ virtRegs i.defs → Spans o (2 * j + 2)

/-- The writes of an instruction cut the segment off before them. -/
theorem Walked.afterWrites (hw : f.OneWidth) (hb : f.block? b = some blk) (h : Walked f v b blk (k + 1) o)
    (hi : blk.code[k]? = some i) :
    ∃ o₁, (Note.writes f.mentions (.writeAt b k) i.hints i.defs).foldl (Note.onSegment v b) o = o₁ ∧
      (∀ s, o₁ = some s → s.block = b ∧ s.first ≤ s.last ∧ (s.first = 0 ∨ 2 * k + 2 ≤ s.first) ∧ 2 * k + 2 ≤ s.last) ∧
      (∀ n, 2 * k + 2 ≤ n → Spans o n → Spans o₁ n) ∧ (v ∈ virtRegs i.defs → Spans o₁ (2 * k + 2)) ∧
      (v ∈ f.liveBefore b blk (k + 1) → v ∉ virtRegs i.defs → ∃ s, o₁ = some s ∧ s.first = 0) := by
  obtain ⟨_, hdefs⟩ := Function.fixed_instruction hw hb (List.mem_of_getElem? hi)
  have hl : ∀ note ∈ Note.writes f.mentions (.writeAt b k) i.hints i.defs, note.WritesAt (.writeAt b k) :=
    fun _ => Note.writesAt_of_mem_writes
  obtain ⟨hmark, hidle⟩ := Note.foldl_writesAt (v := v) (b := b) (o := o) hl rfl
  rw [Note.marks_writes hdefs] at hmark hidle
  by_cases hd : v ∈ virtRegs i.defs
  · rw [hmark ⟨rfl, hd⟩]
    refine ⟨_, rfl, ?_⟩
    cases o with
    | none =>
      refine ⟨fun s hs => ?_, fun n _ hn => absurd hn (not_spans_none n), fun _ =>
        ⟨_, rfl, Nat.le_refl _, Nat.le_refl _⟩, fun _ hnot => absurd hd hnot⟩
      obtain rfl := Option.some.inj hs
      exact ⟨rfl, Nat.le_refl _, .inr (Nat.le_refl _), Nat.le_refl _⟩
    | some s =>
      obtain ⟨hblock, _, _, hlast⟩ := h.bounds s rfl
      have hlast : 2 * k + 2 ≤ s.last := by omega
      refine ⟨fun s' hs' => ?_, fun n hn ⟨s', hs', _, hle⟩ => ?_, fun _ => ⟨_, rfl, Nat.le_refl _, hlast⟩,
        fun _ hnot => absurd hd hnot⟩
      · obtain rfl := Option.some.inj hs'
        exact ⟨hblock, hlast, .inr (Nat.le_refl _), hlast⟩
      · obtain rfl := Option.some.inj hs'
        exact ⟨_, rfl, hn, hle⟩
  · rw [hidle fun hand => hd hand.2]
    refine ⟨o, rfl, fun s hs => ?_, fun n _ hn => hn, fun hdef => absurd hdef hd, fun hlive _ => h.start hlive⟩
    obtain ⟨hblock, hle, hfirst, hlast⟩ := h.bounds s hs
    exact ⟨hblock, hle, by omega, by omega⟩

/-- The reads of an instruction make the segment reach back to the start of the block. -/
theorem spans_afterReads (hw : f.OneWidth) (hb : f.block? b = some blk) (hi : blk.code[k]? = some i) (live : Live)
    (ho : ∀ s, o = some s → s.block = b ∧ s.first ≤ s.last ∧ (s.first = 0 ∨ 2 * k + 2 ≤ s.first) ∧ 2 * k + 2 ≤ s.last) :
    ∃ o₁, (Note.reads f.mentions (.readAt b k) i.hints i.uses live).foldl (Note.onSegment v b) o = o₁ ∧
      (∀ s, o₁ = some s → s.block = b ∧ s.first ≤ s.last ∧ (s.first = 0 ∨ 2 * k + 2 ≤ s.first) ∧ 2 * k + 1 ≤ s.last) ∧
      (∀ n, Spans o n → Spans o₁ n) ∧ (v ∈ virtRegs i.uses → ∃ s, o₁ = some s ∧ s.first = 0) ∧
      ((∃ s, o = some s ∧ s.first = 0) → ∃ s, o₁ = some s ∧ s.first = 0) := by
  obtain ⟨huses, _⟩ := Function.fixed_instruction hw hb (List.mem_of_getElem? hi)
  have hl : ∀ note ∈ Note.reads f.mentions (.readAt b k) i.hints i.uses live, note.ReadsAt (.readAt b k) :=
    fun _ => Note.readsAt_of_mem_reads
  obtain ⟨hmark, hidle⟩ := Note.foldl_readsAt (v := v) (b := b) (o := o) hl rfl
  rw [Note.marks_reads huses] at hmark hidle
  by_cases hu : v ∈ virtRegs i.uses
  · rw [hmark ⟨rfl, hu⟩]
    refine ⟨_, rfl, ?_⟩
    cases o with
    | none =>
      refine ⟨fun s hs => ?_, fun n hn => absurd hn (not_spans_none n), fun _ => ⟨_, rfl, rfl⟩, ?_⟩
      · obtain rfl := Option.some.inj hs
        exact ⟨rfl, Nat.zero_le _, .inl rfl, Nat.le_refl _⟩
      · rintro ⟨s, hs, -⟩
        cases hs
    | some s =>
      obtain ⟨hblock, hle, hfirst, hlast⟩ := ho s rfl
      -- The segment starts at a later write, or reaches back already.
      have hread : Note.readSegment b (2 * k + 1) (some s) = s.withFirst 0 := by
        rcases hfirst with hzero | hfirst
        · have hs : s.withFirst 0 = s := by rw [Segment.withFirst, ← hzero]
          simp [Note.readSegment, hzero, hs]
        · simp [Note.readSegment, show 2 * k + 1 < s.first by omega]
      have hslot : (Position.readAt b k).slot = 2 * k + 1 := rfl
      rw [hslot, hread]
      refine ⟨fun s' hs' => ?_, fun n hspan => ?_, fun _ => ⟨_, rfl, rfl⟩, fun _ => ⟨_, rfl, rfl⟩⟩
      · obtain rfl := Option.some.inj hs'
        exact ⟨hblock, Nat.zero_le _, .inl rfl, Nat.le_of_succ_le hlast⟩
      · obtain ⟨s', hs', -, hn⟩ := hspan
        obtain rfl := Option.some.inj hs'
        exact ⟨_, rfl, Nat.zero_le _, hn⟩
  · rw [hidle fun hand => hu hand.2]
    refine ⟨o, rfl, fun s hs => ?_, fun n hn => hn, fun huse => absurd huse hu, fun h => h⟩
    obtain ⟨hblock, hle, hfirst, hlast⟩ := ho s hs
    exact ⟨hblock, hle, hfirst, by omega⟩

/-- Walking one more instruction. -/
theorem Walked.instruction (hw : f.OneWidth) (hb : f.block? b = some blk) (h : Walked f v b blk (k + 1) o)
    (hi : blk.code[k]? = some i) (live : Live) :
    Walked f v b blk k ((Note.instruction f.mentions b k i live).foldl (Note.onSegment v b) o) := by
  rw [Note.instruction, List.foldl_append]
  obtain ⟨o₁, ho₁, hbounds₁, hspans₁, hdef₁, hstart₁⟩ := h.afterWrites hw hb hi
  rw [ho₁]
  obtain ⟨o₂, ho₂, hbounds₂, hspans₂, huse₂, hstart₂⟩ :=
    spans_afterReads (v := v) hw hb hi (remove f.mentions (virtRegs i.defs) live) hbounds₁
  rw [ho₂]
  have hstart : v ∈ f.liveBefore b blk k → ∃ s, o₂ = some s ∧ s.first = 0 := by
    intro hlive
    rcases (Function.mem_liveBefore hw hb hi).1 hlive with huse | ⟨hnext, hdef⟩
    · exact huse₂ huse
    · exact hstart₂ (hstart₁ hnext hdef)
  refine ⟨hbounds₂, hstart, fun j hkj hj hlive => ?_, fun j i' hkj hi' hdef => ?_⟩
  · rcases Nat.eq_or_lt_of_le hkj with rfl | hkj
    · obtain ⟨s, hs, hzero⟩ := hstart hlive
      have hlast := (hbounds₂ s hs).2.2.2
      exact ⟨⟨s, hs, by omega, by omega⟩, ⟨s, hs, by omega, hlast⟩⟩
    · obtain ⟨hread, hwrite⟩ := h.live j hkj hj hlive
      exact ⟨hspans₂ _ (hspans₁ _ (by omega) hread), hspans₂ _ (hspans₁ _ (by omega) hwrite)⟩
  · rcases Nat.eq_or_lt_of_le hkj with rfl | hkj
    · obtain rfl := Option.some.inj (hi.symm.trans hi')
      exact hspans₂ _ (hdef₁ hdef)
    · exact hspans₂ _ (hspans₁ _ (by omega) (h.writes j i' hkj hi' hdef))

/-- Walking all instructions of a block, the last one first. -/
theorem Walked.code (hw : f.OneWidth) (hb : f.block? b = some blk) (hk : k ≤ blk.code.length)
    (h : Walked f v b blk k o) (live : Live) :
    Walked f v b blk 0
      ((Note.code f.mentions b (blk.code.zipIdx.take k).reverse live).foldl (Note.onSegment v b) o) := by
  induction k generalizing o live with
  | zero => simpa [Note.code] using h
  | succ k ih =>
    have hi := List.getElem?_eq_getElem (show k < blk.code.length from hk)
    rw [Note.reverse_take_succ hi, Note.code, List.foldl_append]
    exact ih (by omega) (h.instruction hw hb hi live) _

/-- What the segment of a register in a block has to span. -/
structure Kept (f : Function) (v : VirtReg) (b : BlockId) (blk : Block) (o : Option Segment) : Prop where
  bounds : ∀ s, o = some s → s.block = b ∧ s.first ≤ s.last
  live : ∀ j, j ≤ blk.code.length → v ∈ f.liveBefore b blk j → Spans o (2 * j) ∧ Spans o (2 * j + 1)
  writes : ∀ j i, blk.code[j]? = some i → v ∈ virtRegs i.defs → Spans o (2 * j + 2)

/-- A segment that spans the whole block spans all that it has to. -/
theorem kept_whole : Kept f v b blk (some (.whole b blk.code.length)) := by
  have hspans : ∀ n, n ≤ 2 * blk.code.length + 1 → Spans (some (.whole b blk.code.length)) n :=
    fun n hn => ⟨_, rfl, Nat.zero_le _, hn⟩
  refine ⟨fun s hs => ?_, fun j hj _ => ⟨hspans _ (by omega), hspans _ (by omega)⟩, fun j i hi _ => hspans _ ?_⟩
  · obtain rfl := Option.some.inj hs
    exact ⟨rfl, Nat.zero_le _⟩
  · have hj := (List.getElem?_eq_some_iff.1 hi).1
    omega

/-- The segment when the walk of a block begins: what is live at the end is live in the whole of the block. -/
theorem walked_exit (hb : f.block? b = some blk) (ho : o = none ∨ o = some (.whole b blk.code.length)) :
    Walked f v b blk blk.code.length
      ((Note.phiReads f f.mentions b (blk.stop b) ++ Note.wholeBlock f (f.liveOut b) b).foldl
        (Note.onSegment v b) o) := by
  have hl : ∀ note ∈ Note.phiReads f f.mentions b (blk.stop b), note.ReadsAt (blk.stop b) :=
    fun _ => Note.readsAt_of_mem_phiReads
  obtain ⟨hmark, hidle⟩ := Note.foldl_readsAt (v := v) (b := b) (o := o) hl rfl
  have hreads : (Note.phiReads f f.mentions b (blk.stop b)).foldl (Note.onSegment v b) o = none ∨
      (Note.phiReads f f.mentions b (blk.stop b)).foldl (Note.onSegment v b) o = some (.whole b blk.code.length) := by
    by_cases hphi : ∃ note ∈ Note.phiReads f f.mentions b (blk.stop b), note.Marks v (blk.stop b)
    · rw [hmark hphi]
      rcases ho with rfl | rfl <;> exact .inr rfl
    · rw [hidle hphi]
      exact ho
  have halive : ∀ note ∈ Note.wholeBlock f (f.liveOut b) b,
      (∀ o, Note.onSegment v b o note = o) ∨ ∃ w, note = .alive w b blk.code.length := by
    intro note hnote
    obtain ⟨w, _, rfl⟩ := List.mem_map.1 hnote
    rw [hb]
    exact .inr ⟨w, rfl⟩
  rw [List.foldl_append]
  obtain ⟨hor, hmem⟩ :=
    Note.foldl_alive (o := (Note.phiReads f f.mentions b (blk.stop b)).foldl (Note.onSegment v b) o) halive
  have hwhole : v ∈ f.liveOut b → (Note.wholeBlock f (f.liveOut b) b).foldl (Note.onSegment v b)
      ((Note.phiReads f f.mentions b (blk.stop b)).foldl (Note.onSegment v b) o) = some (.whole b blk.code.length) := by
    intro hv
    refine hmem (List.mem_map.2 ⟨v, hv, ?_⟩)
    rw [hb]
    rfl
  generalize (Note.wholeBlock f (f.liveOut b) b).foldl (Note.onSegment v b)
    ((Note.phiReads f f.mentions b (blk.stop b)).foldl (Note.onSegment v b) o) = o' at hor hwhole ⊢
  have ho' : o' = none ∨ o' = some (.whole b blk.code.length) := by
    rcases hor with rfl | rfl
    · exact hreads
    · exact .inr rfl
  refine ⟨fun s hs => ?_, fun hv => ?_, fun j hkj hj hv => ?_, fun j i hkj hi _ => ?_⟩
  · rcases ho' with rfl | rfl
    · cases hs
    · obtain rfl := Option.some.inj hs
      exact ⟨rfl, Nat.zero_le _, .inl rfl, Nat.le_refl _⟩
  · rw [Function.liveBefore_length] at hv
    exact ⟨_, hwhole hv, rfl⟩
  · obtain rfl : blk.code.length = j := by omega
    rw [hwhole (by rwa [Function.liveBefore_length] at hv)]
    exact kept_whole.live _ (Nat.le_refl _) hv
  · have hj := (List.getElem?_eq_some_iff.1 hi).1
    omega

/-- The notes on a block of a function, with its live sets. -/
theorem block_eq (hb : f.block? b = some blk) :
    Note.block f f.mentions b blk ((entries f f.mentions).drop (b + 1)) =
      (Note.phiReads f f.mentions b (blk.stop b) ++ Note.wholeBlock f (f.liveOut b) b) ++
        Note.code f.mentions b blk.code.zipIdx.reverse (f.liveOut b) ++
        Note.phiWrites f.mentions b blk.phis (f.liveBefore b blk 0) ++
        blk.loopBody.flatMap (Note.wholeBlock f (f.liveIn b)) := by
  rw [Function.liveIn, entries_getElem? hb]
  rfl

/-- The segment of a block that was walked to its start. -/
theorem Walked.kept (h : Walked f v b blk 0 o) : Kept f v b blk o :=
  ⟨fun s hs => ⟨(h.bounds s hs).1, (h.bounds s hs).2.1⟩, fun j => h.live j (Nat.zero_le _),
    fun j i => h.writes j i (Nat.zero_le _)⟩

/-- The phis write at the very start of a block, where the segment then begins. -/
theorem Kept.phiWrites (h : Kept f v b blk o) (live : Live) :
    Kept f v b blk ((Note.phiWrites f.mentions b blk.phis live).foldl (Note.onSegment v b) o) := by
  have hl : ∀ note ∈ Note.phiWrites f.mentions b blk.phis live, note.WritesAt (.entry b) :=
    fun _ => Note.writesAt_of_mem_phiWrites
  obtain ⟨hmark, hidle⟩ := Note.foldl_writesAt (v := v) (b := b) (o := o) hl rfl
  by_cases hphi : ∃ note ∈ Note.phiWrites f.mentions b blk.phis live, note.Marks v (.entry b)
  · rw [hmark hphi]
    have hspans : ∀ n, Spans o n → Spans (some (Note.writeSegment b 0 o)) n := by
      rintro n ⟨s, rfl, _, hle⟩
      exact ⟨_, rfl, Nat.zero_le _, hle⟩
    refine ⟨fun s hs => ?_, fun j hj hv => (h.live j hj hv).imp (hspans _) (hspans _),
      fun j i hi hv => hspans _ (h.writes j i hi hv)⟩
    obtain rfl := Option.some.inj hs
    cases o with
    | none => exact ⟨rfl, Nat.le_refl _⟩
    | some s => exact ⟨(h.bounds s rfl).1, Nat.zero_le _⟩
  · rw [hidle hphi]
    exact h

/-- The segment after the notes on its block. -/
theorem kept_block (hw : f.OneWidth) (hb : f.block? b = some blk)
    (ho : o = none ∨ o = some (.whole b blk.code.length)) :
    Kept f v b blk
        ((Note.block f f.mentions b blk ((entries f f.mentions).drop (b + 1))).foldl (Note.onSegment v b) o) ∧
      (b ∈ blk.loopBody → v ∈ f.liveIn b →
        (Note.block f f.mentions b blk ((entries f f.mentions).drop (b + 1))).foldl (Note.onSegment v b) o =
          some (.whole b blk.code.length)) := by
  have hexit : Walked f v b blk blk.code.length
      ((Note.phiReads f f.mentions b (blk.stop b) ++ Note.wholeBlock f (f.liveOut b) b).foldl (Note.onSegment v b) o) :=
    walked_exit hb ho
  have hcode := hexit.code hw hb (Nat.le_refl _) (f.liveOut b)
  have htake : blk.code.zipIdx.take blk.code.length = blk.code.zipIdx := List.take_of_length_le (by simp)
  rw [htake] at hcode
  rw [block_eq hb, List.foldl_append, List.foldl_append, List.foldl_append]
  have hkept := hcode.kept.phiWrites (f.liveBefore b blk 0)
  have halive : ∀ note ∈ blk.loopBody.flatMap (Note.wholeBlock f (f.liveIn b)),
      (∀ o, Note.onSegment v b o note = o) ∨ ∃ w, note = .alive w b blk.code.length := by
    intro note hnote
    obtain ⟨c, _, hnote⟩ := List.mem_flatMap.1 hnote
    obtain ⟨w, _, rfl⟩ := List.mem_map.1 hnote
    by_cases hc : c = b
    · subst hc
      rw [hb]
      exact .inr ⟨w, rfl⟩
    · exact .inl fun o => by rw [Note.onSegment, if_neg fun h => hc h.2]
  obtain ⟨hor, hmem⟩ := Note.foldl_alive (o := (Note.phiWrites f.mentions b blk.phis (f.liveBefore b blk 0)).foldl
    (Note.onSegment v b) ((Note.code f.mentions b blk.code.zipIdx.reverse (f.liveOut b)).foldl (Note.onSegment v b)
      ((Note.phiReads f f.mentions b (blk.stop b) ++ Note.wholeBlock f (f.liveOut b) b).foldl
        (Note.onSegment v b) o))) halive
  refine ⟨?_, fun hbody hv => hmem ?_⟩
  · rcases hor with h | h
    · rw [h]
      exact hkept
    · rw [h]
      exact kept_whole
  · refine List.mem_flatMap.2 ⟨b, hbody, List.mem_map.2 ⟨v, hv, ?_⟩⟩
    rw [hb]
    rfl

end Walk

namespace Note

variable {names : List VirtReg} {v : VirtReg} {b c : BlockId} {p q : Position} {f : Function} {blk : Block}
  {live : Live} {later : List Live} {note : Note} {i : Instruction} {k : Nat}

/-- Writes in another block leave the segment of a block alone. -/
theorem WritesAt.idle (h : note.WritesAt p) (hp : p.block ≠ b) (o : Option Segment) : onSegment v b o note = o := by
  rcases h with ⟨w, m, rfl⟩ | ⟨w, hints, rfl⟩
  · rw [onSegment, if_neg fun h => hp h.2]
  · rfl

theorem ReadsAt.idle (h : note.ReadsAt p) (hp : p.block ≠ b) (o : Option Segment) : onSegment v b o note = o := by
  rcases h with ⟨w, m, rfl⟩ | ⟨w, hints, rfl⟩
  · rw [onSegment, if_neg fun h => hp h.2]
  · rfl

/-- Every note on code is on a write or a read of one of its instructions. -/
theorem mem_code {l : List (Instruction × Nat)} (h : note ∈ code names b l live) :
    ∃ e ∈ l, note.WritesAt (.writeAt b e.2) ∨ note.ReadsAt (.readAt b e.2) := by
  induction l generalizing live with
  | nil => cases h
  | cons e l ih =>
    rw [code] at h
    rcases List.mem_append.1 h with h | h
    · refine ⟨e, List.mem_cons_self, ?_⟩
      rcases List.mem_append.1 h with h | h
      · exact .inl (writesAt_of_mem_writes h)
      · exact .inr (readsAt_of_mem_reads h)
    · obtain ⟨e', he', h⟩ := ih h
      exact ⟨e', List.mem_cons_of_mem _ he', h⟩

/-- The notes on code mark what its instructions write and read. -/
theorem marks_code {l : List (Instruction × Nat)}
    (hfix : ∀ e ∈ l, Fixed names (virtRegs e.1.uses) ∧ Fixed names (virtRegs e.1.defs)) :
    (∃ note ∈ code names b l live, note.Marks v q) ↔ ∃ e ∈ l,
      q = .writeAt b e.2 ∧ v ∈ virtRegs e.1.defs ∨ q = .readAt b e.2 ∧ v ∈ virtRegs e.1.uses := by
  induction l generalizing live with
  | nil => simp [code]
  | cons e l ih =>
    obtain ⟨huses, hdefs⟩ := hfix e List.mem_cons_self
    rw [code, instruction]
    simp only [List.mem_append, or_and_right, exists_or, marks_writes hdefs, marks_reads huses,
      ih fun e he => hfix e (List.mem_cons_of_mem _ he), List.mem_cons, exists_eq_left]

/-- That a register is live in a whole block marks no position. -/
theorem not_marks_wholeBlock {l : Live} : ¬∃ note ∈ wholeBlock f l b, note.Marks v q := by
  rintro ⟨note, hnote, hmark⟩
  obtain ⟨w, _, rfl⟩ := List.mem_map.1 hnote
  simp [Marks] at hmark

/-- The notes on a block do not touch the segment of a register in another block, unless that is part of the same loop
and the register is in the live set at the header. -/
theorem block_elsewhere (hc : c ≠ b) (h : note ∈ block f names c blk later) :
    (∀ o, onSegment v b o note = o) ∨ b ∈ blk.loopBody ∧ ∃ w ∈ atEntry f names c blk later,
      note = .alive w b (((f.block? b).map (·.code.length)).getD 0) := by
  simp only [block, List.mem_append] at h
  rcases h with (((h | h) | h) | h) | h
  · exact .inl ((readsAt_of_mem_phiReads h).idle hc)
  · obtain ⟨w, _, rfl⟩ := List.mem_map.1 h
    exact .inl fun o => by rw [onSegment, if_neg fun h => hc h.2]
  · obtain ⟨e, _, h | h⟩ := mem_code h
    · exact .inl (h.idle hc)
    · exact .inl (h.idle hc)
  · exact .inl ((writesAt_of_mem_phiWrites h).idle hc)
  · obtain ⟨d, hbody, h⟩ := List.mem_flatMap.1 h
    obtain ⟨w, hw, rfl⟩ := List.mem_map.1 h
    by_cases hd : d = b
    · exact .inr ⟨hd ▸ hbody, w, hw, by rw [hd]⟩
    · exact .inl fun o => by rw [onSegment, if_neg fun h => hd h.2]

end Note

namespace Function

variable {f : Function} {v : VirtReg} {b : BlockId} {blk : Block} {k : Nat} {i : Instruction} {p : Position}

/-- The notes on one block of a function. -/
def notes (f : Function) (e : Block × Nat) : List Note :=
  Note.block f f.mentions e.2 e.1 ((entries f f.mentions).drop (e.2 + 1))

/-- The interval of a register of a function. -/
def life (f : Function) (v : VirtReg) : Interval := Note.interval ((Note.all f f.mentions).foldl Note.apply []) v

/-- The segment of a register in each block, and its sites, are what the notes make of them, and there is one segment
in each block. -/
theorem life_spec (f : Function) (v : VirtReg) :
    (f.life v).range.OnePerBlock ∧
      (∀ b, (f.life v).range.segment? b = (Note.all f f.mentions).foldl (Note.onSegment v b) none) ∧
      (f.life v).sites = (Note.all f f.mentions).foldl (Note.onSites v) [] :=
  Note.interval_foldl _ LiveRange.onePerBlock_empty

/-- The blocks of a function, divided at one of them. -/
theorem zipIdx_split (hb : f.block? b = some blk) :
    ∃ before after : List (Block × Nat), f.blocks.zipIdx = before ++ (blk, b) :: after ∧
      (∀ e ∈ before, @LT.lt Nat _ e.2 b) ∧ (∀ e ∈ after, @LT.lt Nat _ b e.2) ∧
      ∀ c blk', f.block? c = some blk' → @LT.lt Nat _ c b → (blk', c) ∈ before := by
  obtain ⟨hlt, hget⟩ := List.getElem?_eq_some_iff.1 hb
  have hlt : @LT.lt Nat _ b f.blocks.length := hlt
  have hsplit : f.blocks = f.blocks.take b ++ blk :: f.blocks.drop (b + 1) := by
    rw [← hget, ← List.drop_eq_getElem_cons hlt, List.take_append_drop]
  have hlen : (f.blocks.take b).length = b := List.length_take_of_le (Nat.le_of_lt hlt)
  refine ⟨(f.blocks.take b).zipIdx, (f.blocks.drop (b + 1)).zipIdx (b + 1), ?_, fun e he => ?_, fun e he => ?_,
    fun c blk' hc hcb => ?_⟩
  · rw [hsplit, List.zipIdx_append, List.zipIdx_cons, ← hsplit, hlen, Nat.zero_add]
  · have := (List.mem_zipIdx he).2.1
    rw [hlen] at this
    omega
  · have := (List.mem_zipIdx he).1
    omega
  · refine List.mem_zipIdx_iff_getElem?.2 ?_
    rw [List.getElem?_take, if_pos hcb]
    exact hc

/-- The notes on a function, divided at one of its blocks. -/
theorem all_eq {before after : List (Block × Nat)} (h : f.blocks.zipIdx = before ++ (blk, b) :: after) :
    Note.all f f.mentions = after.reverse.flatMap f.notes ++ (f.notes (blk, b) ++ before.reverse.flatMap f.notes) := by
  have hflat : Note.all f f.mentions = f.blocks.zipIdx.reverse.flatMap f.notes := rfl
  rw [hflat, h, List.reverse_append, List.reverse_cons, List.flatMap_append, List.flatMap_append,
    List.flatMap_singleton, List.append_assoc]

/-- The segment of a register in a block of the function. -/
theorem life_segment? (hw : f.OneWidth) (hb : f.block? b = some blk) :
    Kept f v b blk ((f.life v).range.segment? b) ∧
      ∀ header, f.Loop header → b ∈ f.loopBody header → v ∈ f.liveIn header →
        (f.life v).range.segment? b = some (.whole b blk.code.length) := by
  obtain ⟨before, after, hsplit, hbefore, hafter, hmem⟩ := zipIdx_split hb
  have helse : ∀ l : List (Block × Nat), (∀ e ∈ l, e.2 ≠ b) → ∀ note ∈ l.reverse.flatMap f.notes,
      (∀ o, Note.onSegment v b o note = o) ∨ ∃ w, note = .alive w b blk.code.length := by
    intro l hl note hnote
    obtain ⟨e, he, hnote⟩ := List.mem_flatMap.1 hnote
    rcases Note.block_elsewhere (v := v) (hl e (List.mem_reverse.1 he)) hnote with hidle | ⟨-, w, -, halive⟩
    · exact .inl hidle
    · exact .inr ⟨w, by rw [halive, hb]; rfl⟩
  rw [(life_spec f v).2.1, all_eq hsplit, List.foldl_append, List.foldl_append]
  have hfirst : (after.reverse.flatMap f.notes).foldl (Note.onSegment v b) none = none ∨
      (after.reverse.flatMap f.notes).foldl (Note.onSegment v b) none = some (.whole b blk.code.length) :=
    (Note.foldl_alive (helse after fun e he => (Nat.ne_of_lt (hafter e he)).symm)).1
  obtain ⟨hkept, hself⟩ := kept_block (v := v) hw hb hfirst
  obtain ⟨hlast, halive⟩ := Note.foldl_alive
    (o := (f.notes (blk, b)).foldl (Note.onSegment v b)
      ((after.reverse.flatMap f.notes).foldl (Note.onSegment v b) none))
    (helse before fun e he => Nat.ne_of_lt (hbefore e he))
  refine ⟨?_, fun header hloop hbody hv => ?_⟩
  · rcases hlast with h | h
    · rw [h]
      exact hkept
    · rw [h]
      exact kept_whole
  · rcases Nat.eq_or_lt_of_le (hloop.after b hbody) with rfl | hlt
    · rw [loopBody, hb, Option.map_some, Option.getD_some] at hbody
      have hwhole := hself hbody hv
      rcases hlast with h | h
      · rw [h]
        exact hwhole
      · exact h
    · cases hheader : f.block? header with
      | none =>
        rw [liveIn_eq_nil hheader] at hv
        cases hv
      | some blk' =>
        refine halive (List.mem_flatMap.2 ⟨(blk', header), List.mem_reverse.2 (hmem header blk' hheader hlt), ?_⟩)
        refine List.mem_append_right _ (List.mem_flatMap.2 ⟨b, ?_, List.mem_map.2 ⟨v, ?_, ?_⟩⟩)
        · rwa [loopBody, hheader, Option.map_some, Option.getD_some] at hbody
        · rwa [liveIn, entries_getElem? hheader, Option.getD_some] at hv
        · rw [hb]
          rfl

/-- A register is live before an instruction of its block, or at the end. -/
theorem LiveAt.le_length (h : f.LiveAt v b k) (hb : f.block? b = some blk) : k ≤ blk.code.length := by
  cases h with
  | use hb' hi =>
    obtain rfl := Option.some.inj (hb.symm.trans hb')
    exact Nat.le_of_lt (List.getElem?_eq_some_iff.1 hi).1
  | pass hb' hi =>
    obtain rfl := Option.some.inj (hb.symm.trans hb')
    exact Nat.le_of_lt (List.getElem?_eq_some_iff.1 hi).1
  | phi hb' => exact Nat.le_of_eq (by rw [Option.some.inj (hb.symm.trans hb')])
  | edge hb' => exact Nat.le_of_eq (by rw [Option.some.inj (hb.symm.trans hb')])

/-- A register is live only in blocks of the function. -/
theorem LiveAt.exists_block (h : f.LiveAt v b k) : ∃ blk, f.block? b = some blk := by
  cases h with
  | use hb => exact ⟨_, hb⟩
  | pass hb => exact ⟨_, hb⟩
  | phi hb => exact ⟨_, hb⟩
  | edge hb => exact ⟨_, hb⟩

/-- A slot that the segment of a block spans is covered. -/
theorem covers_life_of_spans {n : Nat} (h : Spans ((f.life v).range.segment? b) n) : (f.life v).covers ⟨b, n⟩ :=
  (life_spec f v).1.covers_iff_segment?.2 h

/-- The interval of a register covers every position from which a path leads to a read of it. -/
theorem covers_of_liveAt (hw : f.OneWidth) (hf : f.Structured) (h : f.LiveAt v b k) :
    (f.life v).covers ⟨b, 2 * k⟩ ∧ (f.life v).covers (.readAt b k) := by
  obtain ⟨blk, hb⟩ := h.exists_block
  have hk := h.le_length hb
  obtain ⟨hkept, hloop⟩ := life_segment? (v := v) hw hb
  rcases h.found hw hf hb with hlive | ⟨header, hheader, hbody, hv⟩
  · obtain ⟨hwrite, hread⟩ := hkept.live k hk hlive
    exact ⟨covers_life_of_spans hwrite, covers_life_of_spans hread⟩
  · have hwhole := hloop header hheader hbody hv
    refine ⟨covers_life_of_spans ⟨_, hwhole, Nat.zero_le _, ?_⟩, covers_life_of_spans ⟨_, hwhole, Nat.zero_le _, ?_⟩⟩
    · exact Nat.le_succ_of_le (Nat.mul_le_mul_left 2 hk)
    · exact Nat.succ_le_succ (Nat.mul_le_mul_left 2 hk)

/-- The interval of a register covers every position where an instruction writes it. -/
theorem covers_of_write (hw : f.OneWidth) (hb : f.block? b = some blk) (hi : blk.code[k]? = some i)
    (hv : v ∈ virtRegs i.defs) : (f.life v).covers (.writeAt b k) :=
  covers_life_of_spans ((life_segment? hw hb).1.writes k i hi hv)

/-- The positions where a register is accessed: where instructions read and write it, where the phis of a successor
read it, and where a phi writes it whose output is in the live set. -/
theorem mem_sites_life (hw : f.OneWidth) :
    p ∈ (f.life v).sites.map Site.position ↔ ∃ b blk, f.block? b = some blk ∧
      ((∃ k i, blk.code[k]? = some i ∧
          (p = .writeAt b k ∧ v ∈ virtRegs i.defs ∨ p = .readAt b k ∧ v ∈ virtRegs i.uses)) ∨
        (p = blk.stop b ∧ ∃ s ∈ f.successors b, ∃ next, f.block? s = some next ∧ v ∈ Liveness.phiReads next b) ∨
        (p = .entry b ∧ v ∈ blk.phis.filterMap Phi.virt? ∧ v ∈ f.liveBefore b blk 0)) := by
  have hblock : ∀ b blk, f.block? b = some blk → ((∃ note ∈ f.notes (blk, b), note.Marks v p) ↔
      ((∃ k i, blk.code[k]? = some i ∧
          (p = .writeAt b k ∧ v ∈ virtRegs i.defs ∨ p = .readAt b k ∧ v ∈ virtRegs i.uses)) ∨
        (p = blk.stop b ∧ ∃ s ∈ f.successors b, ∃ next, f.block? s = some next ∧ v ∈ Liveness.phiReads next b) ∨
        (p = .entry b ∧ v ∈ blk.phis.filterMap Phi.virt? ∧ v ∈ f.liveBefore b blk 0))) := by
    intro b blk hb
    have hloop : ¬∃ note ∈ blk.loopBody.flatMap (Note.wholeBlock f
        (atEntry f f.mentions b blk ((entries f f.mentions).drop (b + 1)))), note.Marks v p := by
      rintro ⟨note, hnote, hmark⟩
      obtain ⟨c, _, hnote⟩ := List.mem_flatMap.1 hnote
      exact Note.not_marks_wholeBlock ⟨note, hnote, hmark⟩
    have hcode : (∃ e ∈ blk.code.zipIdx.reverse,
        p = .writeAt b e.2 ∧ v ∈ virtRegs e.1.defs ∨ p = .readAt b e.2 ∧ v ∈ virtRegs e.1.uses) ↔
        ∃ k i, blk.code[k]? = some i ∧
          (p = .writeAt b k ∧ v ∈ virtRegs i.defs ∨ p = .readAt b k ∧ v ∈ virtRegs i.uses) := by
      simp only [List.mem_reverse, List.mem_zipIdx_iff_getElem?, Prod.exists]
      exact exists_comm
    have hfix : ∀ e ∈ blk.code.zipIdx.reverse,
        Fixed f.mentions (virtRegs e.1.uses) ∧ Fixed f.mentions (virtRegs e.1.defs) := fun e he =>
      fixed_instruction hw hb (List.mem_of_getElem? (List.mem_zipIdx_iff_getElem?.1 (List.mem_reverse.1 he)))
    simp only [notes, Note.block, List.mem_append, or_and_right, exists_or,
      Note.marks_phiReads fun s next hnext => fixed_phiReads hw hnext b, Note.not_marks_wholeBlock,
      Note.marks_code hfix, hcode, Note.marks_phiWrites (fixed_phis hw hb), hloop, or_false]
    exact (or_congr_left or_comm).trans or_assoc
  rw [(life_spec f v).2.2, Note.mem_sites_foldl, List.map_nil, List.mem_nil_iff, false_or]
  have hall : Note.all f f.mentions = f.blocks.zipIdx.reverse.flatMap f.notes := rfl
  simp only [hall, List.mem_flatMap, List.mem_reverse]
  constructor
  · rintro ⟨note, ⟨⟨blk, b⟩, he, hnote⟩, hmark⟩
    have hb : f.block? b = some blk := List.mem_zipIdx_iff_getElem?.1 he
    exact ⟨b, blk, hb, (hblock b blk hb).1 ⟨note, hnote, hmark⟩⟩
  · rintro ⟨b, blk, hb, h⟩
    obtain ⟨note, hnote, hmark⟩ := (hblock b blk hb).2 h
    exact ⟨note, ⟨(blk, b), List.mem_zipIdx_iff_getElem?.2 hb, hnote⟩, hmark⟩

/-- The sites of a register are covered by its interval. -/
theorem life_inside (hw : f.OneWidth) : (f.life v).Inside := by
  intro s hs
  obtain ⟨b, blk, hb, ⟨k, i, hi, ⟨hp, hv⟩ | ⟨hp, hv⟩⟩ | ⟨hp, s', hs', next, hnext, hv⟩ | ⟨hp, _, hv⟩⟩ :=
    (mem_sites_life hw).1 (List.mem_map_of_mem hs)
  · rw [hp]
    exact covers_of_write hw hb hi hv
  · have hk : k ≤ blk.code.length := Nat.le_of_lt (List.getElem?_eq_some_iff.1 hi).1
    rw [hp]
    exact covers_life_of_spans ((life_segment? hw hb).1.live k hk ((mem_liveBefore hw hb hi).2 (.inl hv))).2
  · have hlive : v ∈ f.liveBefore b blk blk.code.length := by
      rw [liveBefore_length]
      exact (mem_liveOut hw).2 ⟨s', hs', .inl ⟨next, hnext, hv⟩⟩
    rw [hp]
    exact covers_life_of_spans ((life_segment? hw hb).1.live _ (Nat.le_refl _) hlive).2
  · rw [hp]
    exact covers_life_of_spans ((life_segment? hw hb).1.live 0 (Nat.zero_le _) hv).1

/-- The interval of every register is well formed, if every number has one width. -/
theorem life_wellFormed (hw : f.OneWidth) (v : VirtReg) : (f.life v).WellFormed := by
  obtain ⟨hone, hsegment, hsites⟩ := life_spec f v
  refine ⟨hone.wellFormed fun s hs => ?_, hsites ▸ Note.ascending_onSites List.Pairwise.nil _⟩
  have hseg : (f.life v).range.segment? s.block = some s := hone.segment?_eq_some.2 ⟨hs, rfl⟩
  cases hb : f.block? s.block with
  | some blk => exact ((life_segment? hw hb).1.bounds s hseg).2
  | none =>
    -- Nothing is said of a block that is not there, except that it may be named by a loop.
    have helse : ∀ note ∈ Note.all f f.mentions,
        (∀ o, Note.onSegment v s.block o note = o) ∨ ∃ w, note = .alive w s.block 0 := by
      intro note hnote
      obtain ⟨⟨blk, c⟩, he, hnote⟩ := List.mem_flatMap.1 hnote
      have hc : f.block? c = some blk := List.mem_zipIdx_iff_getElem?.1 (List.mem_reverse.1 he)
      have hne : c ≠ s.block := by
        rintro rfl
        rw [hb] at hc
        cases hc
      rcases Note.block_elsewhere (v := v) hne hnote with hidle | ⟨-, w, -, halive⟩
      · exact .inl hidle
      · exact .inr ⟨w, by rw [halive, hb]; rfl⟩
    rw [hsegment] at hseg
    rcases (Note.foldl_alive (o := none) helse).1 with h | h
    · rw [h] at hseg
      cases hseg
    · rw [h] at hseg
      rw [← Option.some.inj hseg]
      exact Nat.zero_le _

/-- The intervals in the table are those of their registers. -/
theorem eq_life_of_mem {i : Interval} (h : i ∈ (Note.all f f.mentions).foldl Note.apply []) : i = f.life i.register :=
  (Note.interval_of_mem (Note.ascending_foldl List.Pairwise.nil _) h).symm

/-- A register that is live anywhere has its interval in the table. -/
theorem life_mem {v : VirtReg} (h : (f.life v).covers p) : f.life v ∈ (Note.all f f.mentions).foldl Note.apply [] := by
  rw [life, Note.interval] at h ⊢
  cases hf : ((Note.all f f.mentions).foldl Note.apply []).find? (fun j => j.register = v) with
  | none =>
    rw [hf] at h
    cases h
  | some j => exact List.mem_of_find?_eq_some hf

end Function

end RegAlloc
