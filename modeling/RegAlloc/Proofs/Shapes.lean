import RegAlloc.Proofs.Bounds
import RegAlloc.Proofs.Dataflow
import RegAlloc.Proofs.Widths

/-!
# The shape of intervals

Every interval of a function looks the same, whatever the control flow is like (`Lifetimes.ofFunction_shaped`): it has
a site; it has segments, at most one in each block and within the block; each of them starts with the block or with a
write of the register; and all sites lie in them.

A segment is widened and narrowed by one note after the other. Its start moves to the start of the block, or to where
the register is written (`Note.first_onSegment`). That there is a site at all needs the live sets: notes come together
with one that makes a site of their register (`Note.Attested`), except those that say that a register is live in a
whole block, and such a register is read somewhere (`Function.LiveAt.exists_site`).
-/

namespace RegAlloc

open Liveness

/-- What an interval of a function looks like. -/
structure Interval.Shaped (f : Function) (i : Interval) : Prop where
  accessed : i.sites ≠ []
  live : i.range.segments ≠ []
  once : i.range.OnePerBlock
  within : ∀ s ∈ i.range.segments, s.first ≤ s.last ∧ ∃ blk, f.block? s.block = some blk ∧ s.stop ≤ blk.stop s.block
  /-- A segment starts with its block, or at a site where the register is written, at whatever width. -/
  opens : ∀ s ∈ i.range.segments,
    s.first = 0 ∨ s.start ∈ i.sites.map Site.position ∧ ∃ w, w.id = i.register.id ∧ f.WritesAt w s.start
  inside : i.Inside

namespace Note

variable {names : List VirtReg} {v : VirtReg} {b : BlockId} {p : Position} {f : Function} {live : Live}
  {note x : Note} {l l' : List Note} {o : Option Segment} {P : Nat → Prop} {m : Bool}

/-! ## Where segments start -/

/-- One note moves the start of a segment to the start of the block or to a write. -/
theorem first_onSegment (hnote : ∀ p m, note = .write v p m → p.block = b → P p.slot)
    (ho : ∀ s ∈ o, s.first = 0 ∨ P s.first) : ∀ s ∈ onSegment v b o note, s.first = 0 ∨ P s.first := by
  cases note with
  | alive w c n =>
    rw [onSegment]
    split_ifs
    · rintro s ⟨⟩
      exact .inl rfl
    · exact ho
  | write w p m =>
    rw [onSegment]
    split_ifs with hif
    · obtain ⟨rfl, hp⟩ := hif
      rintro s ⟨⟩
      have hfirst : (writeSegment b p.slot o).first = p.slot := first_writeSegment
      exact .inr (hfirst.symm ▸ hnote p m rfl hp)
    · exact ho
  | read w p m =>
    rw [onSegment]
    split_ifs
    · rintro s ⟨⟩
      cases o with
      | none => exact .inl rfl
      | some s =>
        simp only [Option.map_some, Option.getD_some]
        split_ifs
        · exact .inl rfl
        · exact ho s rfl
    · exact ho
  | linkStart => exact ho
  | linkStop => exact ho

/-- A segment begins with the block or with a write that was noted. -/
theorem first_foldl (hl : ∀ p m, .write v p m ∈ l → p.block = b → P p.slot) (ho : ∀ s ∈ o, s.first = 0 ∨ P s.first) :
    ∀ s ∈ l.foldl (onSegment v b) o, s.first = 0 ∨ P s.first := by
  induction l generalizing o with
  | nil => exact ho
  | cons note l ih =>
    refine ih (fun p m hmem => hl p m (List.mem_cons_of_mem _ hmem)) (first_onSegment (fun p m heq => ?_) ho)
    exact hl p m (heq ▸ List.mem_cons_self)

/-- What is noted as written at a position is written by one of the accesses. -/
theorem virtRegs_of_mem_writes {hints : List Register} {q : Position} {accesses : List Access}
    (h : .write v q m ∈ writes names p hints accesses) : q = p ∧ ∃ w ∈ virtRegs accesses, canonical names w = v := by
  obtain ⟨a, ha, h⟩ := List.mem_flatMap.1 h
  cases hr : a.register with
  | phys r => simp [hr] at h
  | virt w =>
    simp only [hr, List.mem_cons, write.injEq] at h
    rcases h with ⟨rfl, rfl, -⟩ | h
    · exact ⟨rfl, w, mem_virtRegs.2 ⟨a, ha, hr⟩, rfl⟩
    · split_ifs at h <;> simp at h

/-- What is noted as written in code is written by one of its instructions. -/
theorem virtRegs_of_mem_code {l : List (Instruction × Nat)} (h : .write v p m ∈ code names b l live) :
    ∃ e ∈ l, p = .writeAt b e.2 ∧ ∃ w ∈ virtRegs e.1.defs, canonical names w = v := by
  induction l generalizing live with
  | nil => cases h
  | cons e l ih =>
    rw [code, instruction, List.mem_append, List.mem_append] at h
    rcases h with (h | h) | h
    · exact ⟨e, List.mem_cons_self, virtRegs_of_mem_writes h⟩
    · rcases readsAt_of_mem_reads h with ⟨_, _, h⟩ | ⟨_, _, h⟩ <;> cases h
    · obtain ⟨e', he', hp⟩ := ih h
      exact ⟨e', List.mem_cons_of_mem _ he', hp⟩

/-- What is noted as written by phis is written by one of them. -/
theorem virtRegs_of_mem_phiWrites {phis : List Phi} (h : .write v p m ∈ phiWrites names b phis live) :
    p = .entry b ∧ ∃ w ∈ phis.filterMap Phi.virt?, canonical names w = v := by
  induction phis generalizing live with
  | nil => cases h
  | cons φ phis ih =>
    rw [phiWrites] at h
    cases hφ : φ.virt? with
    | none =>
      rw [hφ] at h
      rw [List.filterMap_cons_none hφ]
      exact ih h
    | some u =>
      have hrest : ∀ live, .write v p m ∈ phiWrites names b phis live →
          p = .entry b ∧ ∃ w ∈ u :: phis.filterMap Phi.virt?, canonical names w = v := by
        intro live h
        obtain ⟨hp, w, hw, hcanonical⟩ := ih h
        exact ⟨hp, w, List.mem_cons_of_mem _ hw, hcanonical⟩
      rw [List.filterMap_cons_some hφ]
      simp only [hφ] at h
      split_ifs at h
      · simp only [List.mem_cons, write.injEq, reduceCtorEq, false_or] at h
        rcases h with ⟨rfl, rfl, -⟩ | h
        · exact ⟨rfl, u, List.mem_cons_self, rfl⟩
        · exact hrest _ h
      · exact hrest _ h

/-- What is noted as written is written. -/
theorem writesAt_of_mem_all (h : .write v p m ∈ all f names) : ∃ w, w.id = v.id ∧ f.WritesAt w p := by
  obtain ⟨⟨blk, b⟩, he, h⟩ := List.mem_flatMap.1 h
  have hb : f.block? b = some blk := List.mem_zipIdx_iff_getElem?.1 (List.mem_reverse.1 he)
  simp only [block, List.mem_append] at h
  rcases h with (((h | h) | h) | h) | h
  · rcases readsAt_of_mem_phiReads h with ⟨_, _, h⟩ | ⟨_, _, h⟩ <;> cases h
  · obtain ⟨w, -, h⟩ := List.mem_map.1 h
    cases h
  · obtain ⟨⟨i, k⟩, he, rfl, w, hw, rfl⟩ := virtRegs_of_mem_code h
    have hi : blk.code[k]? = some i := List.mem_zipIdx_iff_getElem?.1 (List.mem_reverse.1 he)
    exact ⟨w, canonical_id.symm, .code hb hi hw⟩
  · obtain ⟨rfl, w, hw, rfl⟩ := virtRegs_of_mem_phiWrites h
    exact ⟨w, canonical_id.symm, .phi hb hw⟩
  · obtain ⟨c, -, h⟩ := List.mem_flatMap.1 h
    obtain ⟨w, -, h⟩ := List.mem_map.1 h
    cases h

/-! ## Notes that come with sites -/

/-- Every note comes with one that makes a site of its register. -/
def Attested (l : List Note) : Prop := ∀ note ∈ l, ∃ x ∈ l, ∃ p, x.Marks note.register p

/-- Without notes nothing has to be attested. -/
theorem attested_nil : Attested [] := by
  intro note h
  cases h

/-- Attested notes can be put one after the other. -/
theorem Attested.append (h : Attested l) (h' : Attested l') : Attested (l ++ l') := by
  intro note hnote
  rcases List.mem_append.1 hnote with hnote | hnote
  · obtain ⟨x, hx, hmark⟩ := h note hnote
    exact ⟨x, List.mem_append_left _ hx, hmark⟩
  · obtain ⟨x, hx, hmark⟩ := h' note hnote
    exact ⟨x, List.mem_append_right _ hx, hmark⟩

theorem Attested.flatMap {α : Type} {xs : List α} {g : α → List Note} (h : ∀ a ∈ xs, Attested (g a)) :
    Attested (xs.flatMap g) := by
  intro note hnote
  obtain ⟨a, ha, hnote⟩ := List.mem_flatMap.1 hnote
  obtain ⟨x, hx, hmark⟩ := h a ha note hnote
  exact ⟨x, List.mem_flatMap.2 ⟨a, ha, hx⟩, hmark⟩

/-- A site, and what else is noted on its register. -/
theorem attested_cons (hx : x.Marks v p) (hl : ∀ note ∈ l, note.register = v) : Attested (x :: l) := by
  have hv : x.register = v := by
    obtain ⟨m, rfl | rfl⟩ := hx <;> rfl
  intro note hnote
  refine ⟨x, List.mem_cons_self, p, ?_⟩
  rcases List.mem_cons.1 hnote with rfl | hnote
  · exact hv.symm ▸ hx
  · exact (hl note hnote).symm ▸ hx

/-- A link that may be made is a note on its register. -/
theorem register_of_mem_link {c : Bool} (hx : x.register = v) (h : note ∈ if c then [x] else []) :
    note.register = v := by
  cases c with
  | true => rw [List.mem_singleton.1 h, hx]
  | false => cases h

/-- Notes on writes are attested by the writes. -/
theorem attested_writes (hints : List Register) (accesses : List Access) :
    Attested (writes names p hints accesses) := by
  refine .flatMap fun a _ => ?_
  cases a.register with
  | phys r => exact attested_nil
  | virt w => exact attested_cons ⟨a.memoryOk, .inl rfl⟩ fun note => register_of_mem_link rfl

/-- Notes on reads are attested by the reads. -/
theorem attested_reads (hints : List Register) (accesses : List Access) (live : Live) :
    Attested (reads names p hints accesses live) := by
  induction accesses generalizing live with
  | nil => exact attested_nil
  | cons a rest ih =>
    rw [reads]
    cases a.register with
    | phys r => exact ih live
    | virt w =>
      have hread : Attested (.read (canonical names w) p a.memoryOk ::
          if !live.contains (canonical names w) && hints.contains (.virt w) then
            [.linkStop (canonical names w) (hints.map (canonicalRegister names))] else []) :=
        attested_cons ⟨a.memoryOk, .inr rfl⟩ fun note => register_of_mem_link rfl
      exact hread.append (ih _)

theorem attested_code (b : BlockId) (l : List (Instruction × Nat)) (live : Live) : Attested (code names b l live) := by
  induction l generalizing live with
  | nil => exact attested_nil
  | cons e l ih => exact ((attested_writes _ _).append (attested_reads _ _ _)).append (ih _)

theorem attested_phiReads (f : Function) (b : BlockId) (p : Position) : Attested (phiReads f names b p) := by
  refine .flatMap fun s _ => .flatMap fun φ _ => .flatMap fun a _ => ?_
  cases a.register with
  | phys r => exact attested_nil
  | virt w => exact attested_cons ⟨a.memoryOk, .inr rfl⟩ fun note => register_of_mem_link rfl

theorem attested_phiWrites (b : BlockId) (phis : List Phi) (live : Live) : Attested (phiWrites names b phis live) := by
  induction phis generalizing live with
  | nil => exact attested_nil
  | cons φ phis ih =>
    rw [phiWrites]
    split
    · exact ih live
    · rename_i w _
      split_ifs
      · have hwrite : Attested [.write (canonical names w) (.entry b) true,
            .linkStart (canonical names w) (φ.hints.map (canonicalRegister names))] :=
          attested_cons ⟨true, .inl rfl⟩ fun note hnote => by rw [List.mem_singleton.1 hnote]; rfl
        exact hwrite.append (ih _)
      · exact ih live

end Note

namespace Function

variable {f : Function} {v : VirtReg} {b : BlockId} {k : Nat} {p : Position} {note : Note}

/-- A position that is marked is a site. -/
theorem mem_sites_of_marks (hnote : note ∈ Note.all f f.mentions) (h : note.Marks v p) :
    p ∈ (f.life v).sites.map Site.position := by
  rw [(life_spec f v).2.2, Note.mem_sites_foldl]
  exact .inr ⟨note, hnote, h⟩

/-- A register that is live somewhere is read somewhere. -/
theorem LiveAt.exists_site (hw : f.OneWidth) (h : f.LiveAt v b k) : ∃ p, p ∈ (f.life v).sites.map Site.position := by
  induction h with
  | @use b k blk i hb hi hv => exact ⟨_, (mem_sites_life hw).2 ⟨b, blk, hb, .inl ⟨k, i, hi, .inr ⟨rfl, hv⟩⟩⟩⟩
  | pass _ _ _ _ ih => exact ih
  | @phi b s blk next hb hs hnext hv =>
    rw [← successors_eq hb] at hs
    exact ⟨_, (mem_sites_life hw).2 ⟨b, blk, hb, .inr (.inl ⟨rfl, s, hs, next, hnext, hv⟩)⟩⟩
  | edge _ _ _ _ _ ih => exact ih

/-- A register that anything is noted on has a site. -/
theorem exists_site_of_mem_all (hw : f.OneWidth) (h : note ∈ Note.all f f.mentions) :
    ∃ p, p ∈ (f.life note.register).sites.map Site.position := by
  have hattested : ∀ l, Note.Attested l → (∀ x ∈ l, x ∈ Note.all f f.mentions) → note ∈ l →
      ∃ p, p ∈ (f.life note.register).sites.map Site.position := by
    intro l hl hsub hnote
    obtain ⟨x, hx, p, hmark⟩ := hl note hnote
    exact ⟨p, mem_sites_of_marks (hsub x hx) hmark⟩
  obtain ⟨⟨blk, b⟩, he, hnote⟩ := List.mem_flatMap.1 h
  have hb : f.block? b = some blk := List.mem_zipIdx_iff_getElem?.1 (List.mem_reverse.1 he)
  have hsub : ∀ x ∈ f.notes (blk, b), x ∈ Note.all f f.mentions := fun x hx => List.mem_flatMap.2 ⟨(blk, b), he, hx⟩
  simp only [notes, Note.block, List.mem_append] at hsub
  simp only [Note.block, List.mem_append] at hnote
  rcases hnote with (((hnote | hnote) | hnote) | hnote) | hnote
  · exact hattested _ (Note.attested_phiReads f b _) (fun x hx => hsub x (.inl (.inl (.inl (.inl hx))))) hnote
  · obtain ⟨w, hout, rfl⟩ := List.mem_map.1 hnote
    exact (liveAt_of_mem_liveOut hw hb hout).exists_site hw
  · exact hattested _ (Note.attested_code b _ _) (fun x hx => hsub x (.inl (.inl (.inr hx)))) hnote
  · exact hattested _ (Note.attested_phiWrites b _ _) (fun x hx => hsub x (.inl (.inr hx))) hnote
  · obtain ⟨c, -, hnote⟩ := List.mem_flatMap.1 hnote
    obtain ⟨w, hin, rfl⟩ := List.mem_map.1 hnote
    have hin : w ∈ f.liveIn b := by
      rw [liveIn, entries_getElem? hb]
      exact hin
    have hbefore : w ∈ f.liveBefore b blk 0 := ((mem_liveIn hw hb).1 hin).1
    exact (liveAt_of_mem_liveBefore hw hb (Nat.zero_le _) hbefore).exists_site hw

/-- A segment starts with its block, or at a site where the register is written. -/
theorem opens_of_mem_segments {s : Segment} (hs : s ∈ (f.life v).range.segments) :
    s.first = 0 ∨ s.start ∈ (f.life v).sites.map Site.position ∧ ∃ w, w.id = v.id ∧ f.WritesAt w s.start := by
  obtain ⟨hone, hsegment, -⟩ := life_spec f v
  have hfold : s ∈ (Note.all f f.mentions).foldl (Note.onSegment v s.block) none := by
    rw [← hsegment]
    exact hone.segment?_eq_some.2 ⟨hs, rfl⟩
  have hfirst : s.first = 0 ∨ ∃ m, .write v ⟨s.block, s.first⟩ m ∈ Note.all f f.mentions := by
    refine Note.first_foldl (P := fun n => ∃ m, .write v ⟨s.block, n⟩ m ∈ Note.all f f.mentions) (fun p m hmem hp => ?_)
      (fun s hs => absurd hs (Option.not_mem_none s)) s hfold
    exact ⟨m, hp ▸ hmem⟩
  refine hfirst.imp_right ?_
  rintro ⟨m, hmem⟩
  exact ⟨mem_sites_of_marks hmem ⟨m, .inl rfl⟩, Note.writesAt_of_mem_all hmem⟩

end Function

namespace Lifetimes

variable {f : Function} {t : Target} {i : Interval}

/-- The intervals of a function are those of the uniform function, up to hints. -/
theorem exists_uniform (hi : i ∈ (compute f t).intervals) :
    ∃ j ∈ (compute f.uniform t).intervals, j.register = i.register ∧ j.range = i.range ∧ j.sites = i.sites := by
  have hmem : i.unlinked ∈ (compute f.uniform t).unlinked.intervals := by
    rw [compute_uniform]
    exact List.mem_map_of_mem hi
  obtain ⟨j, hj, heq⟩ := List.mem_map.1 hmem
  have hregister : j.unlinked.register = i.unlinked.register := congrArg Interval.register heq
  have hrange : j.unlinked.range = i.unlinked.range := congrArg Interval.range heq
  have hsites : j.unlinked.sites = i.unlinked.sites := congrArg Interval.sites heq
  exact ⟨j, hj, hregister, hrange, hsites⟩

/-- An interval has sites, and covers them. -/
theorem sites_of_mem (hi : i ∈ (compute f t).intervals) : i.sites ≠ [] ∧ i.Inside := by
  obtain ⟨j, hj, -, hrange, hsites⟩ := exists_uniform hi
  have hlife : j = f.uniform.life j.register := Function.eq_life_of_mem hj
  obtain hnone | ⟨note, hnote, hregister⟩ := Note.exists_note (List.mem_map_of_mem (f := Interval.register) hj)
  · cases hnone
  obtain ⟨p, hp⟩ := Function.exists_site_of_mem_all f.oneWidth_uniform hnote
  rw [hregister, ← hlife, hsites] at hp
  refine ⟨fun hnil => ?_, fun x hx => ?_⟩
  · rw [hnil] at hp
    cases hp
  · have hinside : j.Inside := hlife ▸ Function.life_inside f.oneWidth_uniform
    rw [Interval.covers, ← hrange]
    exact hinside x (hsites ▸ hx)

/-- The segments of every interval lie in blocks of the function and end no later than these. -/
theorem within_of_mem (hclosed : f.Closed) (hi : i ∈ (compute f t).intervals) {s : Segment}
    (hs : s ∈ i.range.segments) :
    s.first ≤ s.last ∧ ∃ blk, f.block? s.block = some blk ∧ s.stop ≤ blk.stop s.block := by
  have hle : s.first ≤ s.last := ((wellFormed_compute f t).intervals i hi).range.bounds s hs
  have hcovers : i.covers s.stop := LiveRange.covers_iff.2 ⟨s, hs, Segment.start_le_stop hle, le_rfl⟩
  rw [Function.eq_life_of_mem hi] at hcovers
  obtain ⟨blk, hb, hstop⟩ := Function.mem_positions.1 (Function.mem_positions_of_covers hclosed hcovers)
  exact ⟨hle, blk, hb, Position.le_def.2 (.inr ⟨rfl, hstop⟩)⟩

/-- **The shape of intervals.** Every interval of a function that names no stray block, for every target and whatever
the control flow and the order of reads and writes are, has a site; it has segments, one in a block at most, that lie
within their blocks and start with them or with a write of the register; and all its sites are covered. -/
theorem ofFunction_shaped (f : Function) (t : Target) (hclosed : f.Closed) :
    ∃ lt, ofFunction f t = .ok lt ∧ ∀ i ∈ lt.intervals, i.Shaped f := by
  refine ⟨compute f t, ofFunction_eq_ok hclosed, fun i hi => ?_⟩
  obtain ⟨hsites, hinside⟩ := sites_of_mem hi
  have hlife : i = f.life i.register := Function.eq_life_of_mem hi
  constructor
  case accessed => exact hsites
  case inside => exact hinside
  case once => exact hlife ▸ (Function.life_spec f i.register).1
  case within => exact fun s hs => within_of_mem hclosed hi hs
  case opens =>
    intro s hs
    rw [hlife] at hs
    have hopens := Function.opens_of_mem_segments hs
    rwa [← hlife] at hopens
  case live =>
    obtain ⟨x, hx⟩ := List.exists_mem_of_ne_nil _ hsites
    obtain ⟨s, hs, -⟩ := LiveRange.covers_iff.1 (hinside x hx)
    exact List.ne_nil_of_mem hs

/-- Two blocks that control goes back and forth between, with no loop declared. A register is read and then written in
one block and has two widths, another is read by an edge on which it was not written, and a third is written and never
read. -/
def tangled : Function :=
  ⟨"tangled",
    [⟨"start", [], [.mov (.imm .quad 1) (.reg .quad (.virt ⟨0, .quad⟩))], .branch .less 1 2, []⟩,
    ⟨"left", [], [.mov (.reg .long (.virt ⟨0, .long⟩)) (.reg .long (.virt ⟨1, .long⟩)),
      .mov (.imm .quad 5) (.reg .quad (.virt ⟨0, .quad⟩))], .goto 2, []⟩,
    ⟨"right", [], [.arith .add (.reg .long (.virt ⟨1, .long⟩)) (.reg .quad (.virt ⟨0, .quad⟩)),
      .mov (.imm .quad 0) (.reg .quad (.virt ⟨2, .quad⟩))], .branch .less 1 3, []⟩,
    ⟨"end", [], [], .ret, []⟩]⟩

/-- The last segment of the first register stays at the start of its block, where the register is read before it is
written. That of the third starts at its only write. -/
theorem ofFunction_shaped_tangled :
    tangled.Closed ∧ ¬tangled.OneWidth ∧ ¬tangled.Structured ∧ ∃ lt, ofFunction tangled .standard = .ok lt ∧
      lt.intervals.map (·.range.segments) =
        [[⟨0, 2, 3⟩, ⟨1, 0, 5⟩, ⟨2, 0, 2⟩], [⟨0, 0, 3⟩, ⟨1, 2, 5⟩, ⟨2, 0, 1⟩], [⟨2, 4, 4⟩]] ∧
      ∀ i ∈ lt.intervals, i.Shaped tangled := by
  have hclosed : tangled.Closed := by decide
  obtain ⟨lt, hlt, hshaped⟩ := ofFunction_shaped tangled .standard hclosed
  obtain ⟨-, hcompute⟩ := closed_of_ofFunction hlt
  exact ⟨hclosed, by decide, by decide, lt, hlt, hcompute ▸ rfl, hshaped⟩

end Lifetimes

end RegAlloc
