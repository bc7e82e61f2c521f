import RegAlloc.Proofs.Paths

/-!
# Lifetimes lie within blocks

The positions of a function are the slots of its blocks, from the one where phis write to the end of the block
(`Function.positions`). An interval covers no other positions, whatever the code is like
(`Function.mem_positions_of_covers`): every note on the code speaks of positions of the function (`Note.Within`), and
so the segments that are made of notes end in time.
-/

namespace RegAlloc

open Liveness

/-- The positions of a block, in order. -/
def Block.positions (blk : Block) (b : BlockId) : List Position :=
  (List.range (2 * blk.code.length + 2)).map (Position.mk b)

/-- The positions of a function, in order. -/
def Function.positions (f : Function) : List Position := f.blocks.zipIdx.flatMap (fun e => e.1.positions e.2)

namespace Function

variable {f : Function} {b : BlockId} {blk : Block} {p : Position} {k : Nat}

/-- A position of the function is one of the slots of one of its blocks. -/
theorem mem_positions : p ∈ f.positions ↔ ∃ blk, f.block? p.block = some blk ∧ p.slot ≤ 2 * blk.code.length + 1 := by
  simp only [positions, List.mem_flatMap, Block.positions, List.mem_map, List.mem_range]
  constructor
  · rintro ⟨⟨blk, b⟩, he, n, hn, rfl⟩
    exact ⟨blk, List.mem_zipIdx_iff_getElem?.1 he, Nat.le_of_lt_succ hn⟩
  · rintro ⟨blk, hb, hn⟩
    exact ⟨(blk, p.block), List.mem_zipIdx_iff_getElem?.2 hb, p.slot, Nat.lt_succ_of_le hn, rfl⟩

theorem nodup_positions (f : Function) : f.positions.Nodup := by
  refine List.nodup_flatMap.2 ⟨fun e _ => ?_, ?_⟩
  · exact List.nodup_range.map fun m n h => congrArg Position.slot h
  · refine (List.pairwise_map.1 (nodup_numbers f.blocks)).imp fun {d e} hne p hd he => ?_
    obtain ⟨m, -, rfl⟩ := List.mem_map.1 hd
    obtain ⟨n, -, heq⟩ := List.mem_map.1 he
    exact hne (congrArg Position.block heq).symm

theorem stop_mem_positions (hb : f.block? b = some blk) : blk.stop b ∈ f.positions :=
  mem_positions.2 ⟨blk, hb, Nat.le_refl _⟩

/-- The start of a block is a position. -/
theorem entry_mem_positions (hb : f.block? b = some blk) : .entry b ∈ f.positions :=
  mem_positions.2 ⟨blk, hb, Nat.zero_le _⟩

/-- Instructions read and write at positions of the function. -/
theorem instruction_mem_positions (hb : f.block? b = some blk) (hk : k < blk.code.length) :
    .readAt b k ∈ f.positions ∧ .writeAt b k ∈ f.positions :=
  ⟨mem_positions.2 ⟨blk, hb, show 2 * k + 1 ≤ _ by omega⟩, mem_positions.2 ⟨blk, hb, show 2 * k + 2 ≤ _ by omega⟩⟩

end Function

namespace Note

variable {f : Function} {v : VirtReg} {b : BlockId} {blk : Block} {p : Position} {note : Note} {o : Option Segment}
  {l : List Note}

/-- What the note says is accessed or live lies at positions of the function. -/
def Within (f : Function) : Note → Prop
  | .alive _ b n => .exit b n ∈ f.positions
  | .write _ p _ => p ∈ f.positions
  | .read _ p _ => p ∈ f.positions
  | .linkStart _ _ => True
  | .linkStop _ _ => True

/-- A note on a write at a position of the function stays within the function. -/
theorem WritesAt.within (h : note.WritesAt p) (hp : p ∈ f.positions) : note.Within f := by
  rcases h with ⟨w, m, rfl⟩ | ⟨w, hints, rfl⟩
  · exact hp
  · trivial

theorem ReadsAt.within (h : note.ReadsAt p) (hp : p ∈ f.positions) : note.Within f := by
  rcases h with ⟨w, m, rfl⟩ | ⟨w, hints, rfl⟩
  · exact hp
  · trivial

/-- A note on a whole block stays within the function. -/
theorem within_wholeBlock {live : Live} (hb : f.block? b = some blk) (h : note ∈ wholeBlock f live b) :
    note.Within f := by
  obtain ⟨w, _, rfl⟩ := List.mem_map.1 h
  rw [hb]
  exact Function.stop_mem_positions hb

/-- The notes on a block speak of positions of the function, if the blocks of its loop are there. -/
theorem within_of_mem_all (hclosed : f.Closed) (h : note ∈ all f f.mentions) : note.Within f := by
  obtain ⟨⟨blk, b⟩, he, h⟩ := List.mem_flatMap.1 h
  have hb : f.block? b = some blk := List.mem_zipIdx_iff_getElem?.1 (List.mem_reverse.1 he)
  simp only [block, List.mem_append] at h
  rcases h with (((h | h) | h) | h) | h
  · exact (readsAt_of_mem_phiReads h).within (Function.stop_mem_positions hb)
  · exact within_wholeBlock hb h
  · obtain ⟨e, he, h⟩ := mem_code h
    have hk : e.2 < blk.code.length := (List.mem_zipIdx' (List.mem_reverse.1 he)).1
    obtain ⟨hread, hwrite⟩ := Function.instruction_mem_positions hb hk
    exact h.elim (fun h => h.within hwrite) (fun h => h.within hread)
  · exact (writesAt_of_mem_phiWrites h).within (Function.entry_mem_positions hb)
  · obtain ⟨c, hc, h⟩ := List.mem_flatMap.1 h
    have hlt : c < f.blocks.length := hclosed b c (List.mem_append_right _ (by rw [Function.loopBody, hb]; exact hc))
    exact within_wholeBlock (List.getElem?_eq_getElem hlt) h

/-- One note keeps the end of a segment within the block. -/
theorem Within.onSegment (h : note.Within f) (ho : ∀ s ∈ o, ⟨b, s.last⟩ ∈ f.positions) :
    ∀ s ∈ onSegment v b o note, ⟨b, s.last⟩ ∈ f.positions := by
  have haccess : ∀ p : Position, p ∈ f.positions → p.block = b →
      ⟨b, (o.map Segment.last).getD p.slot⟩ ∈ f.positions := by
    rintro p hp rfl
    cases o with
    | none => exact hp
    | some s => exact ho s rfl
  cases note with
  | alive w c n =>
    rw [Note.onSegment]
    split_ifs with hif
    · rintro s ⟨⟩
      exact hif.2 ▸ h
    · exact ho
  | write w p m =>
    rw [Note.onSegment]
    split_ifs with hif
    · rintro s ⟨⟩
      exact last_writeSegment b p.slot o ▸ haccess p h hif.2
    · exact ho
  | read w p m =>
    rw [Note.onSegment]
    split_ifs with hif
    · rintro s ⟨⟩
      exact last_readSegment b p.slot o ▸ haccess p h hif.2
    · exact ho
  | linkStart => exact ho
  | linkStop => exact ho

/-- Segments that are made from such notes end at positions of the function, by induction on the notes. -/
theorem within_foldl (hl : ∀ note ∈ l, note.Within f) (ho : ∀ s ∈ o, ⟨b, s.last⟩ ∈ f.positions) :
    ∀ s ∈ l.foldl (Note.onSegment v b) o, ⟨b, s.last⟩ ∈ f.positions := by
  induction l generalizing o with
  | nil => exact ho
  | cons note l ih =>
    exact ih (fun x hx => hl x (List.mem_cons_of_mem _ hx)) ((hl note List.mem_cons_self).onSegment ho)

end Note

/-- An interval covers positions of the function only. -/
theorem Function.mem_positions_of_covers {f : Function} (hclosed : f.Closed) {v : VirtReg} {p : Position}
    (h : (f.life v).covers p) : p ∈ f.positions := by
  obtain ⟨hone, hsegment, -⟩ := life_spec f v
  obtain ⟨s, hs, -, hlast⟩ := hone.covers_iff_segment?.1 h
  rw [hsegment] at hs
  have hend := Note.within_foldl (fun note hnote => Note.within_of_mem_all hclosed hnote)
    (fun s hs => absurd hs (Option.not_mem_none s)) s hs
  obtain ⟨blk, hb, hle⟩ := mem_positions.1 hend
  exact mem_positions.2 ⟨blk, hb, Nat.le_trans hlast hle⟩

end RegAlloc
