import RegAlloc.Proofs.Lifetimes
import RegAlloc.Proofs.ScanState

/-!
# Where the code needs physical registers

A physical register that the code names holds a value within one block only: from an instruction that overwrites it,
or from the start of the block, to an instruction that reads it. `Block.Needs` says that the value in the register
before an instruction is still going to be read. The pinned range of a register covers every position where its value
is needed and every position where it is overwritten (`pinned_spec`). With it the lifetimes of a function are well
formed (`compute_wellFormed`).
-/

namespace RegAlloc

namespace LiveRange

variable {r : LiveRange} {s t : Segment} {p q : Position}

/-- The segments of a well-formed range are in order. -/
theorem WellFormed.ascending (h : r.WellFormed) : Ascending Segment.start r.segments :=
  h.ordered.imp_of_mem fun {x _} hx _ hlt => lt_of_le_of_lt (Segment.start_le_stop (h.bounds x hx)) hlt

/-- A segment that lies apart from all others is added. -/
theorem WellFormed.insert (h : r.WellFormed) (hs : s.first ≤ s.last) (ha : ∀ t ∈ r.segments, Apart s t) :
    (r.insert s).WellFormed ∧ (r.insert s).segments.Perm (s :: r.segments) := by
  have hle := Segment.start_le_stop hs
  have hperm : (r.insert s).segments.Perm (s :: r.segments) := by
    refine insertBy_perm fun t ht heq => ?_
    have hle' := Segment.start_le_stop (h.bounds t ht)
    rcases ha t ht with hlt | hlt
    · exact absurd (lt_of_le_of_lt hle hlt) (heq ▸ lt_irrefl _)
    · exact absurd (lt_of_le_of_lt hle' hlt) (heq ▸ lt_irrefl _)
  refine ⟨wellFormed_of_ascending (fun t ht => ?_) ?_ (ascending_insertBy h.ascending), hperm⟩
  · rcases List.mem_cons.1 (hperm.mem_iff.1 ht) with rfl | ht
    · exact hs
    · exact h.bounds t ht
  · refine (hperm.pairwise_iff fun h => h.symm).2 (List.pairwise_cons.2 ⟨ha, h.ordered.imp .inl⟩)

/-- With a segment added, a range covers what the segment contains as well. -/
theorem covers_insert (h : (r.insert s).segments.Perm (s :: r.segments)) :
    (r.insert s).covers q = true ↔ (s.start ≤ q ∧ q ≤ s.stop) ∨ r.covers q = true := by
  simp only [covers_iff, h.mem_iff, List.mem_cons, exists_eq_or_imp]

/-- A position is in one segment at most. -/
theorem WellFormed.eq_of_contains (h : r.WellFormed) (hs : s ∈ r.segments) (ht : t ∈ r.segments)
    (hsp : s.contains p) (htp : t.contains p) : s = t := by
  rw [Segment.contains_iff] at hsp htp
  obtain ⟨i, hi, rfl⟩ := List.getElem_of_mem hs
  obtain ⟨j, hj, rfl⟩ := List.getElem_of_mem ht
  have hget := List.pairwise_iff_getElem.1 h.ordered
  rcases Nat.lt_trichotomy i j with hij | rfl | hij
  · exact absurd (lt_of_le_of_lt hsp.2 (hget i j hi hj hij)) (not_lt.2 htp.1)
  · rfl
  · exact absurd (lt_of_le_of_lt htp.2 (hget j i hj hi hij)) (not_lt.2 hsp.1)

/-- Different segments of a well-formed range lie apart. -/
theorem WellFormed.apart_of_ne (h : r.WellFormed) (hs : s ∈ r.segments) (ht : t ∈ r.segments) (hne : s ≠ t) :
    Apart s t := by
  refine apart_of_no_common (h.bounds s hs) (h.bounds t ht) fun q h1 h2 h3 h4 => hne ?_
  exact h.eq_of_contains hs ht (Segment.contains_iff.2 ⟨h1, h2⟩) (Segment.contains_iff.2 ⟨h3, h4⟩)

/-- A write begins a segment: it cuts off what lies before it in the segment it is in. -/
theorem WellFormed.pinWrite (h : r.WellFormed) (p : Position) :
    (r.pinWrite p).WellFormed ∧ ∃ s', s'.start = p ∧ s' ∈ (r.pinWrite p).segments ∧
      (∀ x, x ∈ (r.pinWrite p).segments ↔ x = s' ∨ x ∈ r.segments ∧ ¬x.contains p) ∧
      ∀ x ∈ r.segments, x.contains p → s'.stop = x.stop := by
  rw [LiveRange.pinWrite]
  cases hc : r.containing? p with
  | none =>
    have hnot : ∀ x ∈ r.segments, ¬x.contains p := by simpa using List.find?_eq_none.1 hc
    have ha : ∀ x ∈ r.segments, Apart ⟨p.block, p.slot, p.slot⟩ x := by
      refine fun x hx => apart_of_no_common (Nat.le_refl _) (h.bounds x hx) fun q h1 h2 h3 h4 => hnot x hx ?_
      rw [show p = q from le_antisymm h1 h2]
      exact Segment.contains_iff.2 ⟨h3, h4⟩
    obtain ⟨hwf, hperm⟩ := h.insert (Nat.le_refl _) ha
    refine ⟨hwf, _, rfl, hperm.mem_iff.2 List.mem_cons_self, fun x => ?_, fun x hx hxp => absurd hxp (hnot x hx)⟩
    rw [hperm.mem_iff, List.mem_cons]
    exact or_congr_right ⟨fun hx => ⟨hx, hnot x hx⟩, And.left⟩
  | some s =>
    have hs : s ∈ r.segments := List.mem_of_find?_eq_some hc
    have hsp : s.contains p := by simpa using List.find?_some hc
    have hle := Segment.contains_iff.1 hsp
    have hblock : p.block = s.block := by simpa using (Bool.and_eq_true_iff.1 (Bool.and_eq_true_iff.1 hsp).1).1
    have hstart : (s.withFirst p.slot).start = p := Position.eq_def.2 ⟨hblock.symm, rfl⟩
    have hmem : ∀ x, x ∈ (r.erase s).segments ↔ x ∈ r.segments ∧ ¬x.contains p := by
      intro x
      rw [LiveRange.erase, List.mem_filter, decide_eq_true_eq]
      refine and_congr_right fun hx => not_congr ⟨fun heq => ?_, fun hxp => ?_⟩
      · have hxs : x = s :=
          h.eq_of_contains hx hs (Segment.contains_iff.2 ⟨le_rfl, Segment.start_le_stop (h.bounds x hx)⟩)
          (Segment.contains_iff.2 ⟨le_of_eq heq.symm, heq ▸ Segment.start_le_stop (h.bounds s hs)⟩)
        rwa [hxs]
      · rw [h.eq_of_contains hx hs hxp hsp]
    have herase : (r.erase s).WellFormed := ⟨fun x hx => h.bounds x ((hmem x).1 hx).1, h.ordered.filter _⟩
    have hbound : (s.withFirst p.slot).first ≤ (s.withFirst p.slot).last :=
      Segment.first_le_last (by rw [hstart]; exact hle.2)
    have ha : ∀ x ∈ (r.erase s).segments, Apart (s.withFirst p.slot) x := by
      intro x hx
      obtain ⟨hx, hnot⟩ := (hmem x).1 hx
      have hne : s ≠ x := fun heq => hnot (heq ▸ hsp)
      rcases h.apart_of_ne hs hx hne with hlt | hlt
      · exact .inl hlt
      · exact .inr (lt_of_lt_of_le hlt (hstart.symm ▸ hle.1))
    obtain ⟨hwf, hperm⟩ := herase.insert hbound ha
    refine ⟨hwf, _, hstart, hperm.mem_iff.2 List.mem_cons_self, fun x => ?_, fun x hx hxp => ?_⟩
    · rw [hperm.mem_iff, List.mem_cons, hmem]
    · rw [h.eq_of_contains hx hs hxp hsp]
      rfl

/-- What it means for a slot to lie in a segment. -/
theorem contains_mk {b : BlockId} {n : Nat} : s.contains ⟨b, n⟩ = true ↔ s.block = b ∧ s.first ≤ n ∧ n ≤ s.last := by
  simp only [Segment.contains, Bool.and_eq_true, decide_eq_true_eq, and_assoc, eq_comm (a := b)]

/-- A range covers the slots of its segments. -/
theorem covers_of_mem {b : BlockId} {n : Nat} (hs : s ∈ r.segments) (hb : s.block = b) (h1 : s.first ≤ n)
    (h2 : n ≤ s.last) :
    r.covers ⟨b, n⟩ := List.any_eq_true.2 ⟨s, hs, contains_mk.2 ⟨hb, h1, h2⟩⟩

/-- A write changes nothing in other blocks. -/
theorem WellFormed.covers_pinWrite_elsewhere (h : r.WellFormed) (hq : q.block ≠ p.block) :
    (r.pinWrite p).covers q = true ↔ r.covers q = true := by
  obtain ⟨_, s', hs', _, hmem, _⟩ := h.pinWrite p
  simp only [covers, List.any_eq_true, hmem]
  have hnot : ¬s'.contains q := by
    intro hc
    have hblock : q.block = s'.block := by simpa using (Bool.and_eq_true_iff.1 (Bool.and_eq_true_iff.1 hc).1).1
    exact hq (hblock.trans (congrArg Position.block hs'))
  constructor
  · rintro ⟨x, rfl | ⟨hx, _⟩, hxq⟩
    · exact absurd hxq hnot
    · exact ⟨x, hx, hxq⟩
  · rintro ⟨x, hx, hxq⟩
    refine ⟨x, .inr ⟨hx, fun hxp => hq ?_⟩, hxq⟩
    have h1 : q.block = x.block := by simpa using (Bool.and_eq_true_iff.1 (Bool.and_eq_true_iff.1 hxq).1).1
    have h2 : p.block = x.block := by simpa using (Bool.and_eq_true_iff.1 (Bool.and_eq_true_iff.1 hxp).1).1
    exact h1.trans h2.symm

end LiveRange

/-- The value that a physical register holds before instruction `k` of a block is read later in the block. -/
inductive Block.Needs (blk : Block) (t : Target) (r : PhysReg) : Nat → Prop where
  | read {k : Nat} {i : Instruction} (hi : blk.code[k]? = some i) (hr : i.inspects r) : Needs blk t r k
  | pass {k : Nat} {i : Instruction} (hi : blk.code[k]? = some i) (hr : ¬i.overwrites t r) (h : Needs blk t r (k + 1)) :
      Needs blk t r k

section Walk

variable {t : Target} {r : PhysReg} {b : BlockId} {blk : Block} {k : Nat} {range : LiveRange} {i : Instruction}

/-- What is known of the pinned range of a register once the instructions of a block from `k` on were walked, and no
block before it. -/
structure Pinning (t : Target) (r : PhysReg) (b : BlockId) (blk : Block) (k : Nat) (range : LiveRange) : Prop where
  wf : range.WellFormed
  /-- A segment of the block begins at a write that was walked, or reaches back to the start of the block. -/
  shape : ∀ s ∈ range.segments, s.block = b → s.first = 0 ∧ 2 * k + 1 ≤ s.last ∨ 2 * k + 2 ≤ s.first
  start : blk.Needs t r k → ∃ s ∈ range.segments, s.block = b ∧ s.first = 0
  needs : ∀ j, k ≤ j → blk.Needs t r j → range.covers ⟨b, 2 * j⟩ ∧ range.covers (.readAt b j)
  writes : ∀ j i, k ≤ j → blk.code[j]? = some i → i.overwrites t r → range.covers (.writeAt b j)

/-- The range after an instruction overwrites the register. -/
theorem Pinning.afterWrite (h : Pinning t r b blk (k + 1) range) :
    (range.pinWrite (.writeAt b k)).WellFormed ∧
      (∀ s ∈ (range.pinWrite (.writeAt b k)).segments, s.block = b → 2 * k + 2 ≤ s.first) ∧
      (∀ n, 2 * k + 2 ≤ n → range.covers ⟨b, n⟩ → (range.pinWrite (.writeAt b k)).covers ⟨b, n⟩) ∧
      (range.pinWrite (.writeAt b k)).covers (.writeAt b k) := by
  obtain ⟨hwf, s', hs', hmem', hmem, hstop⟩ := h.wf.pinWrite (.writeAt b k)
  have hblock : s'.block = b := congrArg Position.block hs'
  have hfirst : s'.first = 2 * k + 2 := congrArg Position.slot hs'
  have hlast : s'.first ≤ s'.last := hwf.bounds s' hmem'
  refine ⟨hwf, fun s hs hb => ?_, fun n hn hcov => ?_, LiveRange.covers_of_mem hmem' hblock (by omega) (by omega)⟩
  · rcases (hmem s).1 hs with rfl | ⟨hs, hnot⟩
    · exact Nat.le_of_eq hfirst.symm
    · rcases h.shape s hs hb with ⟨hzero, hlast⟩ | hfirst
      · exact absurd (LiveRange.contains_mk.2 ⟨hb, by omega, by omega⟩) hnot
      · omega
  · obtain ⟨x, hx, hxn⟩ := List.any_eq_true.1 hcov
    obtain ⟨hxb, h1, h2⟩ := LiveRange.contains_mk.1 hxn
    by_cases hxp : x.contains (.writeAt b k)
    · have hlast' : s'.last = x.last := congrArg Position.slot (hstop x hx hxp)
      exact LiveRange.covers_of_mem hmem' hblock (by omega) (by omega)
    · exact List.any_eq_true.2 ⟨x, (hmem x).2 (.inr ⟨hx, hxp⟩), hxn⟩

/-- The range after an instruction reads the register. -/
theorem pinRead_spec (hwf : range.WellFormed)
    (hshape : ∀ s ∈ range.segments, s.block = b → s.first = 0 ∧ 2 * k + 2 ≤ s.last ∨ 2 * k + 2 ≤ s.first) :
    (range.pinRead (.readAt b k)).WellFormed ∧
      (∀ s ∈ (range.pinRead (.readAt b k)).segments, s.block = b →
        s.first = 0 ∧ 2 * k + 1 ≤ s.last ∨ 2 * k + 2 ≤ s.first) ∧
      (∀ q, range.covers q → (range.pinRead (.readAt b k)).covers q) ∧
      (∃ s ∈ (range.pinRead (.readAt b k)).segments, s.block = b ∧ s.first = 0) ∧
      ∀ q, q.block ≠ b → ((range.pinRead (.readAt b k)).covers q = true ↔ range.covers q = true) := by
  rw [LiveRange.pinRead]
  split_ifs with hcov
  · refine ⟨hwf, fun s hs hb => ?_, fun _ h => h, ?_, fun _ _ => Iff.rfl⟩
    · rcases hshape s hs hb with ⟨hzero, hlast⟩ | hfirst
      · exact .inl ⟨hzero, by omega⟩
      · exact .inr hfirst
    · obtain ⟨x, hx, hxk⟩ := List.any_eq_true.1 hcov
      obtain ⟨hxb, h1, h2⟩ := LiveRange.contains_mk.1 hxk
      rcases hshape x hx hxb with ⟨hzero, _⟩ | hfirst
      · exact ⟨x, hx, hxb, hzero⟩
      · omega
  · -- Nothing in the block reaches back to the read, so the new segment lies apart.
    have ha : ∀ x ∈ range.segments, LiveRange.Apart ⟨b, 0, 2 * k + 1⟩ x := by
      refine fun x hx => LiveRange.apart_of_no_common (Nat.zero_le _) (hwf.bounds x hx) fun q h1 h2 h3 h4 => hcov ?_
      have hq := Segment.contains_iff.2 ⟨h3, h4⟩
      have hq' := Segment.contains_iff.2 ⟨h1, h2⟩
      obtain ⟨c, n⟩ := q
      obtain ⟨hxc, hn1, hn2⟩ := LiveRange.contains_mk.1 hq
      obtain ⟨hbc, hn3, hn4⟩ := LiveRange.contains_mk.1 hq'
      have hxb : x.block = b := hxc.trans hbc.symm
      rcases hshape x hx hxb with ⟨hzero, hlast⟩ | hfirst
      · exact LiveRange.covers_of_mem hx hxb (by omega) (by omega)
      · exact absurd (Nat.le_trans hfirst hn1) (Nat.not_le.2 (Nat.lt_of_le_of_lt hn4 (Nat.lt_succ_self _)))
    obtain ⟨hwf', hperm⟩ := hwf.insert (s := ⟨b, 0, 2 * k + 1⟩) (Nat.zero_le _) ha
    refine ⟨hwf', fun s hs hb => ?_, fun q hq => (LiveRange.covers_insert hperm).2 (.inr hq),
      ⟨_, hperm.mem_iff.2 List.mem_cons_self, rfl, rfl⟩, fun q hq => ?_⟩
    · rcases List.mem_cons.1 (hperm.mem_iff.1 hs) with rfl | hs
      · exact .inl ⟨rfl, Nat.le_refl _⟩
      · rcases hshape s hs hb with ⟨hzero, hlast⟩ | hfirst
        · exact .inl ⟨hzero, by omega⟩
        · exact .inr hfirst
    · refine (LiveRange.covers_insert hperm).trans (or_iff_right fun hand => hq ?_)
      have hc := Segment.contains_iff.2 hand
      obtain ⟨c, n⟩ := q
      exact (LiveRange.contains_mk.1 hc).1.symm

/-- What is known of the range halfway through instruction `k`, once its write was walked and its read was not. -/
structure WriteWalked (t : Target) (r : PhysReg) (b : BlockId) (blk : Block) (k : Nat) (i : Instruction)
    (range range' : LiveRange) : Prop where
  wf : range'.WellFormed
  shape : ∀ s ∈ range'.segments, s.block = b → s.first = 0 ∧ 2 * k + 2 ≤ s.last ∨ 2 * k + 2 ≤ s.first
  keeps : ∀ n, 2 * k + 2 ≤ n → range.covers ⟨b, n⟩ → range'.covers ⟨b, n⟩
  write : i.overwrites t r → range'.covers (.writeAt b k)
  start : ¬i.overwrites t r → blk.Needs t r (k + 1) → ∃ s ∈ range'.segments, s.block = b ∧ s.first = 0
  elsewhere : ∀ q, q.block ≠ b → (range'.covers q = true ↔ range.covers q = true)

/-- Walking the write of an instruction gives what is known halfway through it. -/
theorem Pinning.write (h : Pinning t r b blk (k + 1) range) (i : Instruction) :
    WriteWalked t r b blk k i range (if i.overwrites t r then range.pinWrite (.writeAt b k) else range) := by
  by_cases hover : i.overwrites t r
  · obtain ⟨hwf, hshape, hkeep, hcov⟩ := h.afterWrite
    rw [if_pos hover]
    exact ⟨hwf, fun s hs hb => .inr (hshape s hs hb), hkeep, fun _ => hcov, fun hnot => absurd hover hnot,
      fun q hq => h.wf.covers_pinWrite_elsewhere hq⟩
  · rw [if_neg hover]
    refine ⟨h.wf, fun s hs hb => ?_, fun _ _ hn => hn, fun hyes => absurd hyes hover,
      fun _ => h.start, fun _ _ => Iff.rfl⟩
    rcases h.shape s hs hb with ⟨hzero, hlast⟩ | hfirst
    · exact .inl ⟨hzero, by omega⟩
    · exact .inr (by omega)

/-- The second half: the range may grow, and has to reach back to the start of the block if the instruction reads the
register. -/
theorem WriteWalked.pinning {range' range'' : LiveRange} (hw : WriteWalked t r b blk k i range range')
    (h : Pinning t r b blk (k + 1) range) (hi : blk.code[k]? = some i) (hwf : range''.WellFormed)
    (hshape : ∀ s ∈ range''.segments, s.block = b → s.first = 0 ∧ 2 * k + 1 ≤ s.last ∨ 2 * k + 2 ≤ s.first)
    (hkeep : ∀ q, range'.covers q → range''.covers q)
    (hread : i.inspects r → ∃ s ∈ range''.segments, s.block = b ∧ s.first = 0)
    (hstart : (∃ s ∈ range'.segments, s.block = b ∧ s.first = 0) → ∃ s ∈ range''.segments, s.block = b ∧ s.first = 0) :
    Pinning t r b blk k range'' := by
  have hfirst : blk.Needs t r k → ∃ s ∈ range''.segments, s.block = b ∧ s.first = 0 := by
    intro hneeds
    cases hneeds with
    | read hi' hr =>
      obtain rfl := Option.some.inj (hi.symm.trans hi')
      exact hread hr
    | pass hi' hr hneeds =>
      obtain rfl := Option.some.inj (hi.symm.trans hi')
      exact hstart (hw.start hr hneeds)
  refine ⟨hwf, hshape, hfirst, fun j hkj hneeds => ?_, fun j i' hkj hi' hr => ?_⟩
  · rcases Nat.eq_or_lt_of_le hkj with rfl | hkj
    · obtain ⟨s, hs, hb, hzero⟩ := hfirst hneeds
      rcases hshape s hs hb with ⟨_, hlast⟩ | hlt
      · exact ⟨LiveRange.covers_of_mem hs hb (by omega) (by omega), LiveRange.covers_of_mem hs hb (by omega) hlast⟩
      · omega
    · obtain ⟨hbefore, hatRead⟩ := h.needs j hkj hneeds
      exact ⟨hkeep _ (hw.keeps _ (by omega) hbefore), hkeep _ (hw.keeps _ (by omega) hatRead)⟩
  · rcases Nat.eq_or_lt_of_le hkj with rfl | hkj
    · obtain rfl := Option.some.inj (hi.symm.trans hi')
      exact hkeep _ (hw.write hr)
    · exact hkeep _ (hw.keeps _ (by omega) (h.writes j i' hkj hi' hr))

/-- Walking one more instruction. -/
theorem Pinning.instruction (h : Pinning t r b blk (k + 1) range) (hi : blk.code[k]? = some i) :
    Pinning t r b blk k (pinInstruction t r b range (i, k)) ∧
      ∀ q, q.block ≠ b → ((pinInstruction t r b range (i, k)).covers q = true ↔ range.covers q = true) := by
  have hw := h.write i
  rw [pinInstruction]
  by_cases hread : i.inspects r
  · obtain ⟨hwf, hshape, hkeep, hzero, helse⟩ := pinRead_spec hw.wf hw.shape
    rw [if_pos hread]
    exact ⟨hw.pinning h hi hwf hshape hkeep (fun _ => hzero) (fun _ => hzero),
      fun q hq => (helse q hq).trans (hw.elsewhere q hq)⟩
  · rw [if_neg hread]
    refine ⟨hw.pinning h hi hw.wf (fun s hs hb => ?_) (fun _ hq => hq) (fun hyes => absurd hyes hread) (fun hs => hs),
      hw.elsewhere⟩
    rcases hw.shape s hs hb with ⟨hzero, hlast⟩ | hfirst
    · exact .inl ⟨hzero, by omega⟩
    · exact .inr hfirst

/-- Walking all instructions of a block, the last one first. -/
theorem Pinning.code (hk : k ≤ blk.code.length) (h : Pinning t r b blk k range) :
    Pinning t r b blk 0 ((blk.code.zipIdx.take k).reverse.foldl (pinInstruction t r b) range) ∧
      ∀ q, q.block ≠ b →
        (((blk.code.zipIdx.take k).reverse.foldl (pinInstruction t r b) range).covers q = true ↔
        range.covers q = true) := by
  induction k generalizing range with
  | zero => exact ⟨by simpa using h, fun _ _ => by simp⟩
  | succ k ih =>
    have hi := List.getElem?_eq_getElem (show k < blk.code.length from hk)
    have htake : (blk.code.zipIdx.take (k + 1)).reverse = (blk.code[k], k) :: (blk.code.zipIdx.take k).reverse := by
      rw [List.take_add_one, List.getElem?_zipIdx, hi]
      simp
    obtain ⟨hstep, helse⟩ := h.instruction hi
    obtain ⟨hrest, helse'⟩ := ih (by omega) hstep
    rw [htake, List.foldl_cons]
    exact ⟨hrest, fun q hq => (helse' q hq).trans (helse q hq)⟩

/-- The range of a register in a block covers the positions where the register is needed or overwritten. -/
structure PinnedIn (t : Target) (r : PhysReg) (b : BlockId) (blk : Block) (range : LiveRange) : Prop where
  needs : ∀ k, blk.Needs t r k → range.covers ⟨b, 2 * k⟩ ∧ range.covers (.readAt b k)
  writes : ∀ k i, blk.code[k]? = some i → i.overwrites t r → range.covers (.writeAt b k)

/-- Before a block is walked, the range covers nothing of it. -/
theorem pinning_length (blk : Block) (hwf : range.WellFormed) (hfree : ∀ q, q.block = b → ¬range.covers q) :
    Pinning t r b blk blk.code.length range := by
  have hend : ∀ {j i}, blk.code.length ≤ j → blk.code[j]? ≠ some i := by
    intro j i hj hi
    have := (List.getElem?_eq_some_iff.1 hi).1
    omega
  have hneeds : ∀ {j}, blk.code.length ≤ j → ¬blk.Needs t r j := by
    intro j hj hneeds
    cases hneeds with
    | read hi => exact hend hj hi
    | pass hi => exact hend hj hi
  refine ⟨hwf, fun s hs hb => absurd ?_ (hfree s.start hb), fun h => absurd h (hneeds (Nat.le_refl _)),
    fun j hj h => absurd h (hneeds hj), fun j i hj hi => absurd hi (hend hj)⟩
  exact LiveRange.covers_iff.2 ⟨s, hs, le_rfl, Segment.start_le_stop (hwf.bounds s hs)⟩

/-- Walking a block of which the range does not cover anything yet. -/
theorem pinBlock_spec (blk : Block) (hwf : range.WellFormed) (hfree : ∀ q, q.block = b → ¬range.covers q) :
    (pinBlock t r range (blk, b)).WellFormed ∧ PinnedIn t r b blk (pinBlock t r range (blk, b)) ∧
      ∀ q, q.block ≠ b → ((pinBlock t r range (blk, b)).covers q = true ↔ range.covers q = true) := by
  have htake : blk.code.zipIdx.take blk.code.length = blk.code.zipIdx := List.take_of_length_le (by simp)
  obtain ⟨hpin, helse⟩ := (pinning_length (t := t) (r := r) blk hwf hfree).code (Nat.le_refl _)
  rw [htake] at hpin helse
  exact ⟨hpin.wf, ⟨fun k => hpin.needs k (Nat.zero_le _), fun k i => hpin.writes k i (Nat.zero_le _)⟩, helse⟩

/-- Walking blocks one after the other, each once. -/
theorem pinBlocks_spec {l : List (Block × Nat)} (hl : (l.map Prod.snd).Nodup) (hwf : range.WellFormed)
    (hfree : ∀ e ∈ l, ∀ q, q.block = e.2 → ¬range.covers q) :
    (l.foldl (pinBlock t r) range).WellFormed ∧
      (∀ e ∈ l, PinnedIn t r e.2 e.1 (l.foldl (pinBlock t r) range)) ∧
      ∀ q, q.block ∉ l.map Prod.snd → ((l.foldl (pinBlock t r) range).covers q = true ↔ range.covers q = true) := by
  induction l generalizing range with
  | nil => exact ⟨hwf, nofun, fun _ _ => Iff.rfl⟩
  | cons e l ih =>
    rw [List.map_cons, List.nodup_cons] at hl
    obtain ⟨hwf₁, hpin, helse⟩ := pinBlock_spec (t := t) (r := r) e.1 hwf (hfree e List.mem_cons_self)
    have hne : ∀ e' ∈ l, e'.2 ≠ e.2 := fun e' he' heq => hl.1 (heq ▸ List.mem_map_of_mem he')
    obtain ⟨hwf₂, hpins, helse'⟩ := ih hl.2 hwf₁ fun e' he' q hq hcov =>
      hfree e' (List.mem_cons_of_mem _ he') q hq ((helse q (hq ▸ hne e' he')).1 hcov)
    rw [List.foldl_cons]
    refine ⟨hwf₂, fun e' he' => ?_, fun q hq => ?_⟩
    · rcases List.mem_cons.1 he' with rfl | he'
      · refine ⟨fun k hk => ?_, fun k i hi hr => (helse' _ hl.1).2 (hpin.writes k i hi hr)⟩
        exact ⟨(helse' _ hl.1).2 (hpin.needs k hk).1, (helse' _ hl.1).2 (hpin.needs k hk).2⟩
      · exact hpins e' he'
    · rw [List.map_cons, List.mem_cons, not_or] at hq
      exact (helse' q hq.2).trans (helse q hq.1)

end Walk

namespace Function

variable {f : Function} {t : Target} {r : PhysReg} {b : BlockId} {blk : Block}

/-- The pinned range of a register covers every position where the code needs the register. -/
theorem pinned_spec (f : Function) (t : Target) (r : PhysReg) :
    (f.pinned t r).WellFormed ∧ ∀ b blk, f.block? b = some blk → PinnedIn t r b blk (f.pinned t r) := by
  have hnodup : (f.blocks.zipIdx.reverse.map Prod.snd).Nodup := by
    rw [List.map_reverse, List.nodup_reverse]
    exact nodup_numbers f.blocks
  have hempty : LiveRange.WellFormed .empty := LiveRange.wellFormed_nil
  obtain ⟨hwf, hpin, _⟩ := pinBlocks_spec (t := t) (r := r) hnodup hempty fun _ _ _ _ hcov => by cases hcov
  refine ⟨hwf, fun b blk hb => ?_⟩
  exact hpin (blk, b) (List.mem_reverse.2 (List.mem_zipIdx_iff_getElem?.2 hb))

/-- The lifetimes of a function are well formed. -/
theorem compute_wellFormed (hw : f.OneWidth) (t : Target) : (Lifetimes.compute f t).WellFormed where
  registers := Note.ascending_foldl List.Pairwise.nil _
  intervals i hi := by
    rw [eq_life_of_mem hi]
    exact life_wellFormed hw _
  pinned := by
    have hall : Ascending id PhysReg.all := by
      unfold Ascending
      decide
    exact List.pairwise_map.2 (hall.filter _)
  ranges e he := by
    obtain ⟨r, _, rfl⟩ := List.mem_map.1 he
    exact (pinned_spec f t r).1

/-- The pins of an allocatable register are found. -/
theorem lookupBy_pinned (hr : r ∈ t.allocatable) : lookupBy r (Lifetimes.compute f t).pinned = some (f.pinned t r) := by
  have hmem : r ∈ PhysReg.all.filter t.isAllocatable :=
    List.mem_filter.2 ⟨PhysReg.mem_all r, List.contains_iff_mem.2 hr⟩
  refine lookupBy_of_mem ?_ (List.mem_map.2 ⟨r, hmem, rfl⟩)
  have hfst : (Lifetimes.compute f t).pinned.map Prod.fst = PhysReg.all.filter t.isAllocatable := by
    simp [Lifetimes.compute, Function.comp_def]
  rw [hfst]
  exact List.Nodup.filter _ (by decide)

end Function

end RegAlloc
