import RegAlloc.Proofs.Homes
import RegAlloc.Proofs.MoveCode

/-!
# Values on their way between registers and slots

Which transfers stand at a position (`mem_transfersAt`), and what follows for the value of a register from one
position to the next. A split that begins in the middle of a block is loaded from the slot there, unless it begins
with a write; the last write of a split is followed by a spill. So the slot of a register holds its value, except
while a split waits for another write (`Pending`).

`Held` says of a machine that it holds the value of a register at a position: in the place where it is kept, and in
its slot unless another write is pending. `Arriving` says the same of a machine on which the transfers of the position
are still to be made, and `Arriving.held` that making them is enough. From one position to the next a held value
arrives (`Held.arriving`), if what happens in between spares the places that it is in.
-/

namespace RegAlloc

section Results

variable {ε α β : Type} {g : α → Except ε β} {l : List α} {r : List β} {x : α} {y : β} {n : Nat}

/-- The results of a list of computations that all succeed. -/
theorem mapM_eq_ok (h : l.mapM g = .ok r) : List.Forall₂ (fun x y => g x = .ok y) l r := by
  induction l generalizing r with
  | nil =>
    obtain rfl := Except.ok.inj h
    exact .nil
  | cons x l ih =>
    rw [List.mapM_cons] at h
    obtain ⟨y, hy, h⟩ := bind_eq_ok h
    obtain ⟨ys, hys, h⟩ := bind_eq_ok h
    obtain rfl := Except.ok.inj h
    exact .cons hy (ih hys)

/-- Results stand in the order of what they are the results of. -/
theorem getElem?_mapM (h : l.mapM g = .ok r) (hx : l[n]? = some x) : ∃ y, r[n]? = some y ∧ g x = .ok y := by
  obtain ⟨hlen, hall⟩ := List.forall₂_iff_get.1 (mapM_eq_ok h)
  obtain ⟨hn, rfl⟩ := List.getElem?_eq_some_iff.1 hx
  have hn' : n < r.length := hlen ▸ hn
  exact ⟨r[n], List.getElem?_eq_getElem hn', hall n hn hn'⟩

theorem exists_result (h : l.mapM g = .ok r) (hx : x ∈ l) : ∃ y ∈ r, g x = .ok y := by
  obtain ⟨n, hn⟩ := List.getElem?_of_mem hx
  obtain ⟨y, hy, hgy⟩ := getElem?_mapM h hn
  exact ⟨y, List.mem_of_getElem? hy, hgy⟩

/-- Every result comes from an element. -/
theorem exists_of_result (h : l.mapM g = .ok r) (hy : y ∈ r) : ∃ x ∈ l, g x = .ok y := by
  obtain ⟨hlen, hall⟩ := List.forall₂_iff_get.1 (mapM_eq_ok h)
  obtain ⟨n, hn, rfl⟩ := List.getElem_of_mem hy
  have hn' : n < l.length := hlen ▸ hn
  exact ⟨l[n], List.getElem_mem hn', hall n hn' hn⟩

end Results

namespace Interval

variable {i : Interval} {p q : Position}

/-- The positions of the sites of an interval. -/
def accesses (i : Interval) : List Position := i.sites.map Site.position

/-- The last write is a write of the interval. -/
theorem mem_of_lastDef? (h : i.lastDef? = some p) : p ∈ i.accesses ∧ p.isWrite := by
  obtain ⟨s, hs, rfl⟩ := Option.map_eq_some_iff.1 h
  obtain ⟨hmem, hw⟩ := List.mem_filter.1 (List.mem_of_getLast? hs)
  exact ⟨List.mem_map_of_mem hmem, hw⟩

/-- Every write is followed by the last one. -/
theorem exists_lastDef? (h : i.WellFormed) (hp : p ∈ i.accesses) (hw : p.isWrite) :
    ∃ q, i.lastDef? = some q ∧ p ≤ q := by
  obtain ⟨s, hs, rfl⟩ := List.mem_map.1 hp
  have hmem : s ∈ i.sites.filter (fun s => s.position.isWrite) := List.mem_filter.2 ⟨hs, hw⟩
  have hasc : Ascending Site.position (i.sites.filter (fun s => s.position.isWrite)) := h.sites.filter _
  rw [lastDef?]
  cases hlast : (i.sites.filter (fun s => s.position.isWrite)).getLast? with
  | none =>
    rw [List.getLast?_eq_none_iff.1 hlast] at hmem
    cases hmem
  | some l =>
    obtain ⟨init, hinit⟩ := List.getLast?_eq_some_iff.1 hlast
    rw [hinit] at hmem hasc
    refine ⟨l.position, rfl, ?_⟩
    rcases List.mem_append.1 hmem with hmem | hmem
    · exact le_of_lt ((List.pairwise_append.1 hasc).2.2 s hmem l (List.mem_singleton.2 rfl))
    · rw [List.mem_singleton.1 hmem]

theorem mem_of_firstSite? (h : i.firstSite? = some p) : p ∈ i.accesses := by
  obtain ⟨s, hs, rfl⟩ := Option.map_eq_some_iff.1 h
  exact List.mem_map_of_mem (List.mem_of_head? hs)

/-- A site before which there is none is the first. -/
theorem firstSite?_of_le (h : i.WellFormed) (hp : p ∈ i.accesses) (hle : ∀ q ∈ i.accesses, p ≤ q) :
    i.firstSite? = some p := by
  obtain ⟨s, hs, rfl⟩ := List.mem_map.1 hp
  have hasc := h.sites
  rw [firstSite?]
  cases hi : i.sites with
  | nil =>
    rw [hi] at hs
    cases hs
  | cons x rest =>
    rw [hi] at hs hasc
    have hx : s.position ≤ x.position := hle _ (List.mem_map_of_mem (hi ▸ List.mem_cons_self))
    rcases List.mem_cons.1 hs with rfl | hs
    · rfl
    · exact absurd ((List.pairwise_cons.1 hasc).1 s hs) (not_lt.2 hx)

end Interval

namespace Transfer

variable {p : Position} {x : Transfer} {v : VirtReg} {k : Nat}

/-- The transfers at a position are those that were put in for it. -/
theorem mem_foldl_insert {l : List (Position × Transfer)} {table : List (Position × List Transfer)} :
    x ∈ (lookupBy p (l.foldl insert table)).getD [] ↔ (p, x) ∈ l ∨ x ∈ (lookupBy p table).getD [] := by
  induction l generalizing table with
  | nil => simp
  | cons e l ih =>
    rw [List.foldl_cons, ih, insert, lookupBy_insertBy, List.mem_cons]
    have hmem : x ∈ (insertBy id e.2 ((lookupBy e.1 table).getD [])).map id ↔
        x = id e.2 ∨ x ∈ ((lookupBy e.1 table).getD []).map id := mem_map_insertBy
    simp only [List.map_id, id_eq] at hmem
    by_cases hp : e.1 = p
    · rw [if_pos hp, Option.getD_some, hmem, hp, ← or_assoc, or_comm (a := (p, x) ∈ l), ← hp]
      simp [Prod.ext_iff, hp]
    · rw [if_neg hp]
      simp [Prod.ext_iff, Ne.symm hp]

/-- The transfer moves a split between its register and the slot at a position: after its last write, or where it
begins if it is not the first of its register and does not begin with a write. -/
def Moves (x : Transfer) (y : Split) (first : Bool) (p : Position) : Prop :=
  x.split = y.id ∧ y.register = some x.home ∧
    (x.kind = .spill ∧ y.interval.lastDef? = some p ∨
      x.kind = .reload ∧ first = false ∧ y.interval.start = p ∧ p.slot ≠ 0 ∧
        ¬(p.isWrite ∧ y.interval.firstSite? = some p))

/-- The transfers of a later split are those that move it. -/
theorem mem_ofLater {y : Split} :
    (p, x) ∈ ofLater v k y ↔ x.register = v ∧ x.slot = k ∧ x.Moves y false p := by
  obtain ⟨kind, w, n, r, l⟩ := x
  rw [ofLater, Moves]
  cases y.register with
  | none => simp
  | some r' =>
    simp only [List.mem_append, Option.mem_toList, Option.map_eq_some_iff]
    constructor
    · rintro (h | ⟨q, hq, heq⟩)
      · split_ifs at h with hcond
        · cases List.mem_singleton.1 h
          exact ⟨rfl, rfl, rfl, rfl, .inr ⟨rfl, trivial, rfl, hcond⟩⟩
        · cases h
      · cases heq
        exact ⟨rfl, rfl, rfl, rfl, .inl ⟨rfl, hq⟩⟩
    · rintro ⟨rfl, rfl, rfl, hr, ⟨rfl, hlast⟩ | ⟨rfl, -, rfl, hcond⟩⟩
      · cases hr
        exact .inr ⟨p, hlast, rfl⟩
      · cases hr
        rw [if_pos hcond]
        exact .inl (List.mem_singleton.2 rfl)

/-- The first split of a register with a slot holds a write. -/
theorem ofSplits_first {y : Split} {ys : List Split} {l : List (Position × Transfer)}
    (h : ofSplits v k (y :: ys) = .ok l) :
    y.interval.lastDef?.isSome := by
  rw [ofSplits] at h
  cases hlast : y.interval.lastDef? with
  | none =>
    rw [hlast] at h
    cases h
  | some q => rfl

/-- The transfers of a register are those that move its splits. -/
theorem mem_ofSplits {y : Split} {ys : List Split} {l : List (Position × Transfer)}
    (h : ofSplits v k (y :: ys) = .ok l) :
    (p, x) ∈ l ↔ x.register = v ∧ x.slot = k ∧ (x.Moves y true p ∨ ∃ z ∈ ys, x.Moves z false p) := by
  obtain ⟨q, hlast⟩ := Option.isSome_iff_exists.1 (ofSplits_first h)
  rw [ofSplits, hlast] at h
  obtain rfl := Except.ok.inj h
  have hfirst : (p, x) ∈ (y.register.map (fun r => (q, (⟨.spill, v, y.id, r, k⟩ : Transfer)))).toList ↔
      x.register = v ∧ x.slot = k ∧ x.Moves y true p := by
    obtain ⟨kind, w, n, r, l⟩ := x
    rw [Moves, hlast]
    cases y.register with
    | none => simp
    | some r' =>
      simp only [Option.map_some, Option.toList_some, List.mem_singleton, Prod.mk.injEq, Transfer.mk.injEq,
        Option.some.injEq, Bool.true_eq_false, false_and, and_false, or_false]
      exact ⟨fun ⟨h1, h2, h3, h4, h5, h6⟩ => ⟨h3, h6, h4, h5.symm, h2, h1.symm⟩,
        fun ⟨h3, h6, h4, h5, h2, h1⟩ => ⟨h1.symm, h2, h3, h4, h5.symm, h6⟩⟩
  rw [List.mem_append, hfirst, List.mem_flatMap]
  simp only [mem_ofLater]
  constructor
  · rintro (⟨hv, hk, hm⟩ | ⟨z, hz, hv, hk, hm⟩)
    · exact ⟨hv, hk, .inl hm⟩
    · exact ⟨hv, hk, .inr ⟨z, hz, hm⟩⟩
  · rintro ⟨hv, hk, hm | ⟨z, hz, hm⟩⟩
    · exact .inl ⟨hv, hk, hm⟩
    · exact .inr ⟨z, hz, hv, hk, hm⟩

end Transfer

/-- A phi or an instruction writes `v` at a position. -/
def Function.Writes (f : Function) (v : VirtReg) (p : Position) : Prop := p ∈ (f.life v).accesses ∧ p.isWrite

/-- Each register is written in one block only. -/
def Function.WritesInOneBlock (f : Function) : Prop := ∀ v p q, f.Writes v p → f.Writes v q → @Eq Nat q.block p.block

namespace Allocation

/-- The split of `v` at a position is written again later in the block. -/
def Pending (a : Allocation) (v : VirtReg) (p : Position) : Prop :=
  ∃ x q, a.splitAt? v p = some x ∧ q ∈ x.interval.accesses ∧ q.isWrite ∧ @Eq Nat q.block p.block ∧ p < q

variable {f : Function} {lt : Lifetimes} {t : Target} {a : Allocation} {u v : VirtReg} {p q : Position} {x y : Split}
  {z z' : Transfer} {k : Nat}

/-- The transfers of an allocation are those of the splits of all registers that have a slot. -/
theorem ofLifetimes_transfers (h : ofLifetimes lt t = .ok a) :
    (∀ e ∈ a.splits, ∀ k, a.slot? e.1 = some k → ∃ l, Transfer.ofSplits e.1 k e.2 = .ok l ∧ ∀ p z, (p, z) ∈ l →
      z ∈ a.transfersAt p) ∧ ∀ p, ∀ z ∈ a.transfersAt p, ∃ e ∈ a.splits, ∃ k l, a.slot? e.1 = some k ∧
      Transfer.ofSplits e.1 k e.2 = .ok l ∧ (p, z) ∈ l := by
  obtain ⟨s, -, h⟩ := bind_eq_ok h
  obtain ⟨transfers, htransfers, h⟩ := bind_eq_ok h
  obtain rfl := Except.ok.inj h
  have hmem : ∀ p z, z ∈ transfersAt ⟨t, splitsOf lt s, s.slots.slots, transfers.flatten.foldl Transfer.insert []⟩ p ↔
      (p, z) ∈ transfers.flatten := by
    intro p z
    rw [transfersAt, Transfer.mem_foldl_insert]
    simp [lookupBy]
  refine ⟨fun e he k hk => ?_, fun p z hz => ?_⟩
  · obtain ⟨l, hl, hmade⟩ := exists_result htransfers he
    have hslot : lookupBy e.1 s.slots.slots = some k := hk
    simp only [hslot] at hmade
    exact ⟨l, hmade, fun p z hz => (hmem p z).2 (List.mem_flatten.2 ⟨l, hl, hz⟩)⟩
  · obtain ⟨l, hl, hz⟩ := List.mem_flatten.1 ((hmem p z).1 hz)
    obtain ⟨e, he, hmade⟩ := exists_of_result htransfers hl
    refine ⟨e, he, ?_⟩
    cases hslot : lookupBy e.1 s.slots.slots with
    | none =>
      simp only [hslot] at hmade
      rw [← Except.ok.inj hmade] at hz
      cases hz
    | some k =>
      simp only [hslot] at hmade
      exact ⟨k, l, hslot, hmade, hz⟩

namespace Made

/-- A split covers its sites. -/
theorem splitAt?_of_mem_accesses (h : a.Made lt t) (hx : x ∈ a.splitsFor v) (hp : p ∈ x.interval.accesses) :
    a.splitAt? v p = some x := by
  obtain ⟨s, hs, rfl⟩ := List.mem_map.1 hp
  exact h.splitAt?_eq_some.2 ⟨hx, h.inside_split hx s hs⟩

/-- The splits of a register that has one, the first of them apart. -/
theorem exists_first (h : a.Made lt t) (hy : y ∈ a.splitsFor v) :
    ∃ x xs, (v, x :: xs) ∈ a.splits ∧ a.splitsFor v = x :: xs ∧ ∀ z ∈ xs, x.interval.Before z.interval := by
  obtain ⟨⟨v, l⟩, he, rfl, _⟩ := exists_entry hy
  have hl : a.splitsFor v = l := h.splitsFor_eq_of_mem he
  have hdiv := h.divides hy
  cases l with
  | nil =>
    rw [hl] at hy
    cases hy
  | cons x xs =>
    rw [hl, List.map_cons] at hdiv
    exact ⟨x, xs, he, hl, fun z hz => (List.pairwise_cons.1 hdiv.ordered).1 _ (List.mem_map_of_mem hz)⟩

/-- The transfers at a position: the spill of a split that is written there for the last time, and the reload of a
split that begins there, is not the first of its register, and does not begin with a write. -/
theorem mem_transfersAt (h : a.Made lt t) :
    z ∈ a.transfersAt p ↔ a.slot? z.register = some z.slot ∧ ∃ y, a.splitAt? z.register p = some y ∧ z.split = y.id ∧
      y.register = some z.home ∧
        (z.kind = .spill ∧ y.interval.lastDef? = some p ∨
          z.kind = .reload ∧ (∃ x ∈ a.splitsFor z.register, x.interval.Before y.interval) ∧ y.interval.start = p ∧
            p.slot ≠ 0 ∧ ¬(p.isWrite ∧ y.interval.firstSite? = some p)) := by
  obtain ⟨hgiven, hcases⟩ := ofLifetimes_transfers h.made
  constructor
  · intro hz
    obtain ⟨⟨v, l⟩, he, k, table, hk, htable, hmem⟩ := hcases p z hz
    have hsplits : a.splitsFor v = l := h.splitsFor_eq_of_mem he
    cases l with
    | nil =>
      obtain rfl := Except.ok.inj htable
      cases hmem
    | cons x xs =>
      obtain ⟨hv, hslot, hmoves⟩ := (Transfer.mem_ofSplits htable).1 hmem
      have hx : x ∈ a.splitsFor v := hsplits ▸ List.mem_cons_self
      rw [hv, hslot]
      have hspill : ∀ y ∈ a.splitsFor v, y.interval.lastDef? = some p → a.splitAt? v p = some y := fun y hy hlast =>
        h.splitAt?_of_mem_accesses hy (Interval.mem_of_lastDef? hlast).1
      rcases hmoves with ⟨hid, hr, hkind⟩ | ⟨y, hy, hid, hr, hkind⟩
      · rcases hkind with ⟨hkind, hlast⟩ | ⟨_, hfalse, _⟩
        · exact ⟨hk, x, hspill x hx hlast, hid, hr, .inl ⟨hkind, hlast⟩⟩
        · cases hfalse
      · have hym : y ∈ a.splitsFor v := hsplits ▸ List.mem_cons_of_mem _ hy
        rcases hkind with ⟨hkind, hlast⟩ | ⟨hkind, -, hstart, hcond⟩
        · exact ⟨hk, y, hspill y hym hlast, hid, hr, .inl ⟨hkind, hlast⟩⟩
        · have hdiv := h.divides hx
          rw [hsplits, List.map_cons] at hdiv
          have hbefore := (List.pairwise_cons.1 hdiv.ordered).1 _ (List.mem_map_of_mem hy)
          have hcov : y.interval.covers p := hstart ▸ (h.live_split hym).covers_start
          exact ⟨hk, y, h.splitAt?_eq_some.2 ⟨hym, hcov⟩, hid, hr, .inr ⟨hkind, ⟨x, hx, hbefore⟩, hstart, hcond⟩⟩
  · rintro ⟨hk, y, hy, hid, hr, hkind⟩
    have hym := (h.splitAt?_eq_some.1 hy).1
    obtain ⟨x, xs, he, hsplits, hfirst⟩ := h.exists_first hym
    obtain ⟨table, htable, hmem⟩ := hgiven _ he _ hk
    refine hmem p z ((Transfer.mem_ofSplits htable).2 ⟨rfl, rfl, ?_⟩)
    rw [hsplits] at hym hkind
    rcases List.mem_cons.1 hym with rfl | hym
    · refine .inl ⟨hid, hr, hkind.imp_right fun ⟨_, ⟨x, hx, hbefore⟩, _⟩ => ?_⟩
      -- Nothing comes before the first split.
      have hlive : ∀ z ∈ y :: xs, z.interval.start ≤ z.interval.stop := fun z hz =>
        (h.live_split (hsplits ▸ hz)).start_le_stop
      have hle := hlive y List.mem_cons_self
      have hlt := hbefore.range
      rcases List.mem_cons.1 hx with rfl | hx'
      · exact absurd (lt_of_lt_of_le hlt hle) (lt_irrefl _)
      · have hlt' := lt_of_lt_of_le (lt_of_le_of_lt hle (hfirst x hx').range) (hlive x hx)
        exact absurd (lt_trans hlt hlt') (lt_irrefl _)
    · exact .inr ⟨y, hym, hid, hr, hkind.imp_right fun ⟨hkind, _, hrest⟩ => ⟨hkind, rfl, hrest⟩⟩

end Made

namespace Serves

/-- A split covers its sites. -/
theorem splitAt?_of_mem_accesses (h : a.Serves f t) (hx : x ∈ a.splitsFor v) (hp : p ∈ x.interval.accesses) :
    a.splitAt? v p = some x := h.toMade.splitAt?_of_mem_accesses hx hp

/-- The splits of a register that has one, the first of them apart. -/
theorem exists_first (h : a.Serves f t) (hy : y ∈ a.splitsFor v) :
    ∃ x xs, (v, x :: xs) ∈ a.splits ∧ a.splitsFor v = x :: xs ∧ ∀ z ∈ xs, x.interval.Before z.interval :=
  h.toMade.exists_first hy

/-- The transfers at a position: the spill of a split that is written there for the last time, and the reload of a
split that begins there, is not the first of its register, and does not begin with a write. -/
theorem mem_transfersAt (h : a.Serves f t) :
    z ∈ a.transfersAt p ↔ a.slot? z.register = some z.slot ∧ ∃ y, a.splitAt? z.register p = some y ∧ z.split = y.id ∧
      y.register = some z.home ∧
        (z.kind = .spill ∧ y.interval.lastDef? = some p ∨
          z.kind = .reload ∧ (∃ x ∈ a.splitsFor z.register, x.interval.Before y.interval) ∧ y.interval.start = p ∧
            p.slot ≠ 0 ∧ ¬(p.isWrite ∧ y.interval.firstSite? = some p)) := h.toMade.mem_transfersAt

/-- What a split is written at, its register is written at. -/
theorem writes_iff (h : a.Serves f t) (hx : a.splitAt? v p = some x) :
    f.Writes v p ↔ p ∈ x.interval.accesses ∧ p.isWrite :=
  and_congr_left' (h.mem_sites hx).symm

/-- A transfer at a position where its register is not written is a reload. -/
theorem reload_of_not_writes (h : a.Serves f t) (hz : z ∈ a.transfersAt p) (hw : ¬f.Writes z.register p) :
    z.kind = .reload := by
  obtain ⟨-, y, hy, -, -, ⟨-, hlast⟩ | ⟨hkind, -⟩⟩ := h.mem_transfersAt.1 hz
  · exact absurd ((h.writes_iff hy).2 (Interval.mem_of_lastDef? hlast)) hw
  · exact hkind

/-- A transfer at a position where its register is written is a spill: a split that begins there begins with the
write. -/
theorem spill_of_writes (h : a.Serves f t) (hz : z ∈ a.transfersAt p) (hw : f.Writes z.register p) :
    z.kind = .spill := by
  obtain ⟨-, y, hy, -, -, ⟨hkind, -⟩ | ⟨-, -, hstart, -, hnot⟩⟩ := h.mem_transfersAt.1 hz
  · exact hkind
  · have hym := (h.splitAt?_eq_some.1 hy).1
    have hlive := h.live_split hym
    obtain ⟨hacc, hwrite⟩ := (h.writes_iff hy).1 hw
    refine absurd ⟨hwrite, Interval.firstSite?_of_le hlive.toWellFormed hacc fun q hq => ?_⟩ hnot
    rw [← hstart]
    exact hlive.start_le (h.splitAt?_eq_some.1 (h.splitAt?_of_mem_accesses hym hq)).2

/-- A split with a register that is written is spilled there, or is written again. -/
theorem spilled_or_pending (h : a.Serves f t) (hblock : ∀ q, f.Writes v q → @Eq Nat q.block p.block) (hw : f.Writes v p)
    (hx : a.splitAt? v p = some x) {r : PhysReg} (hr : x.register = some r) (hk : a.slot? v = some k) :
    ⟨.spill, v, x.id, r, k⟩ ∈ a.transfersAt p ∨ a.Pending v p := by
  have hxm := (h.splitAt?_eq_some.1 hx).1
  obtain ⟨hacc, hwrite⟩ := (h.writes_iff hx).1 hw
  obtain ⟨q, hq, hle⟩ := Interval.exists_lastDef? (h.live_split hxm).toWellFormed hacc hwrite
  rcases eq_or_lt_of_le hle with rfl | hlt
  · exact .inl (h.mem_transfersAt.2 ⟨hk, x, hx, rfl, hr, .inl ⟨rfl, hq⟩⟩)
  · obtain ⟨hqacc, hqwrite⟩ := Interval.mem_of_lastDef? hq
    have hxq := h.splitAt?_of_mem_accesses hxm hqacc
    exact .inr ⟨x, q, hx, hqacc, hqwrite, hblock q ((h.writes_iff hxq).2 ⟨hqacc, hqwrite⟩), hlt⟩

/-- No transfer comes before its register was written: the first split of a register with a slot holds a write. -/
theorem exists_writes_le (h : a.Serves f t) (hz : z ∈ a.transfersAt p) : ∃ q ≤ p, f.Writes z.register q := by
  obtain ⟨hk, y, hy, -, -, ⟨-, hlast⟩ | ⟨-, ⟨x, hx, hbefore⟩, hstart, -⟩⟩ := h.mem_transfersAt.1 hz
  · exact ⟨p, le_refl p, (h.writes_iff hy).2 (Interval.mem_of_lastDef? hlast)⟩
  · obtain ⟨first, later, he, hsplits, hfirst⟩ := h.exists_first hx
    have hmem : first ∈ a.splitsFor z.register := hsplits ▸ List.mem_cons_self
    obtain ⟨table, htable, -⟩ := (ofLifetimes_transfers h.made).1 _ he _ hk
    obtain ⟨q, hq⟩ := Option.isSome_iff_exists.1 (Transfer.ofSplits_first htable)
    have hqacc := Interval.mem_of_lastDef? hq
    have hat := h.splitAt?_of_mem_accesses hmem hqacc.1
    have hle : first.interval.stop ≤ x.interval.stop := by
      rcases List.mem_cons.1 (hsplits ▸ hx) with rfl | hlater
      · exact le_refl _
      · exact le_of_lt (lt_of_lt_of_le (hfirst x hlater).range (h.live_split hx).start_le_stop)
    have hqstop := (h.live_split hmem).le_stop (h.splitAt?_eq_some.1 hat).2
    exact ⟨q, hstart ▸ le_of_lt (lt_of_le_of_lt (le_trans hqstop hle) hbefore.range), (h.writes_iff hat).2 hqacc⟩

/-- From a position to the next one, where it is not written, a register stays in its split. -/
theorem stays (h : a.Serves f t) (hxy : a.splitAt? v p = a.splitAt? v p.next) (hw : ¬f.Writes v p.next) :
    (∀ z ∈ a.transfersAt p.next, z.register ≠ v) ∧ (a.Pending v p → a.Pending v p.next) := by
  refine ⟨?_, ?_⟩
  · rintro z hz rfl
    obtain ⟨-, y, hy, -, -, ⟨-, hlast⟩ | ⟨-, -, hstart, -⟩⟩ := h.mem_transfersAt.1 hz
    · exact hw ((h.writes_iff hy).2 (Interval.mem_of_lastDef? hlast))
    · obtain ⟨hym, hyp⟩ := h.splitAt?_eq_some.1 (hxy.trans hy)
      exact absurd ((h.live_split hym).start_le hyp) (not_le.2 (hstart ▸ Position.lt_next p))
  · rintro ⟨x, q, hx, hq, hwrite, hblock, hlt⟩
    have hne : p.next ≠ q := by
      rintro rfl
      exact hw ((h.writes_iff (hxy ▸ hx)).2 ⟨hq, hwrite⟩)
    exact ⟨x, q, hxy ▸ hx, hq, hwrite, hblock, lt_of_le_of_ne ((Position.next_le_iff hblock.symm).2 hlt) hne⟩

/-- Or it changes its split. Then no write is pending, and a split with a register is loaded. -/
theorem changes (h : a.Serves f t) (hx : a.splitAt? v p = some x) (hy : a.splitAt? v p.next = some y) (hne : x ≠ y)
    (hw : ¬f.Writes v p.next) :
    ¬a.Pending v p ∧ ∃ k, a.slot? v = some k ∧ ∀ r, y.register = some r →
      ⟨.reload, v, y.id, r, k⟩ ∈ a.transfersAt p.next := by
  obtain ⟨hstart, hbefore⟩ := h.start_eq_next hx hy hne
  obtain ⟨hxm, -⟩ := h.splitAt?_eq_some.1 hx
  obtain ⟨hym, -⟩ := h.splitAt?_eq_some.1 hy
  obtain ⟨k, hk⟩ := h.slot_of_two hxm hym hne
  refine ⟨?_, k, hk, fun r hr => ?_⟩
  · rintro ⟨x', q, hx', hq, _, hblock, hlt⟩
    obtain rfl := Option.some.inj (hx.symm.trans hx')
    have hle := (h.live_split hxm).le_stop (h.splitAt?_eq_some.1 (h.splitAt?_of_mem_accesses hxm hq)).2
    have hnext := (Position.next_le_iff hblock.symm).2 hlt
    exact absurd (lt_of_le_of_lt hle (lt_of_lt_of_le hbefore.range (hstart ▸ hnext))) (lt_irrefl q)
  · refine h.mem_transfersAt.2 ⟨hk, y, hy, rfl, hr, .inr ⟨rfl, ⟨x, hxm, hbefore⟩, hstart, Nat.succ_ne_zero _, ?_⟩⟩
    exact fun ⟨hwrite, hfirst⟩ => hw ((h.writes_iff hy).2 ⟨Interval.mem_of_firstSite? hfirst, hwrite⟩)

end Serves

/-! ## Making the transfers -/

/-- The place that a transfer reads. -/
def sourceOf (a : Allocation) (z : Transfer) : Content :=
  match z.kind with
  | .spill => .reg (.phys z.home)
  | .reload => a.slotPlace z.slot

/-- The place that a transfer writes. -/
def destOf (a : Allocation) (z : Transfer) : Content :=
  match z.kind with
  | .spill => a.slotPlace z.slot
  | .reload => .reg (.phys z.home)

/-- A transfer writes its register or its slot. -/
theorem destOf_cases (a : Allocation) (z : Transfer) :
    a.destOf z = .reg (.phys z.home) ∨ a.destOf z = a.slotPlace z.slot := by
  rw [destOf]
  cases z.kind with
  | spill => exact .inr rfl
  | reload => exact .inl rfl

namespace Serves

/-- The register of a transfer is live, its split has the transfer's register and it owns the transfer's slot. -/
theorem home_of_transfer (h : a.Serves f t) (hz : z ∈ a.transfersAt p) :
    (f.life z.register).covers p ∧ a.Keeps z.register p (.reg (.phys z.home)) ∧ a.slot? z.register = some z.slot := by
  obtain ⟨hk, y, hy, -, hr, -⟩ := h.mem_transfersAt.1 hz
  exact ⟨h.splitAt?_isSome.1 (hy ▸ rfl), .register hy hr, hk⟩

theorem sourceOf_place (h : a.Serves f t) (hz : z ∈ a.transfersAt p) :
    Place t.frameBase t.stackPointer a.cells (a.sourceOf z) := by
  obtain ⟨-, hkeeps, hk⟩ := h.home_of_transfer hz
  rw [sourceOf]
  cases z.kind with
  | spill => exact hkeeps.place h
  | reload => exact h.slotPlace_place hk

theorem destOf_place (h : a.Serves f t) (hz : z ∈ a.transfersAt p) :
    Place t.frameBase t.stackPointer a.cells (a.destOf z) := by
  obtain ⟨-, hkeeps, hk⟩ := h.home_of_transfer hz
  rcases a.destOf_cases z with hd | hd
  · exact hd ▸ hkeeps.place h
  · exact hd ▸ h.slotPlace_place hk

/-- A transfer of another register writes no place where a register is kept. -/
theorem destOf_ne_keeps (h : a.Serves f t) (hz : z ∈ a.transfersAt p) (hne : z.register ≠ v) {c : Content}
    (hc : a.Keeps v p c) :
    a.destOf z ≠ c := by
  obtain ⟨hcov, hkeeps, hk⟩ := h.home_of_transfer hz
  rcases a.destOf_cases z with hd | hd
  · exact hd ▸ hkeeps.ne hc h hne
  · exact hd ▸ (hc.ne_slotPlace h hne.symm hcov hk).symm

/-- A transfer of another register does not write the slot of a register that is live. -/
theorem destOf_ne_slotPlace (h : a.Serves f t) (hz : z ∈ a.transfersAt p) (hne : z.register ≠ v)
    (hv : (f.life v).covers p) (hk : a.slot? v = some k) : a.destOf z ≠ a.slotPlace k := by
  obtain ⟨hcov, -, hz'⟩ := h.home_of_transfer hz
  rcases a.destOf_cases z with hd | hd
  · rw [hd]
    exact nofun
  · exact fun heq => h.slot_ne hne hcov hv hz' hk (slotPlace_inj (h.target ▸ h.valid.slotSize) (hd ▸ heq))

/-- Transfers of one register at one position agree. -/
theorem eq_of_register (h : a.Serves f t) (hz : z ∈ a.transfersAt p) (hz' : z' ∈ a.transfersAt p)
    (hv : z.register = z'.register) : z = z' := by
  have hkind : z.kind = z'.kind := by
    by_cases hw : f.Writes z.register p
    · rw [h.spill_of_writes hz hw, h.spill_of_writes hz' (hv ▸ hw)]
    · rw [h.reload_of_not_writes hz hw, h.reload_of_not_writes hz' (hv ▸ hw)]
  obtain ⟨hk, y, hy, hid, hr, -⟩ := h.mem_transfersAt.1 hz
  obtain ⟨hk', y', hy', hid', hr', -⟩ := h.mem_transfersAt.1 hz'
  rw [hv] at hy hk
  obtain rfl := Option.some.inj (hy.symm.trans hy')
  cases z
  cases z'
  simp only [Transfer.mk.injEq]
  exact ⟨hkind, hv, hid.trans hid'.symm, Option.some.inj (hr.symm.trans hr'), Option.some.inj (hk.symm.trans hk')⟩

/-- No transfer at a position writes what another one reads. -/
theorem destOf_ne_sourceOf (h : a.Serves f t) (hz : z ∈ a.transfersAt p) (hz' : z' ∈ a.transfersAt p) :
    a.destOf z ≠ a.sourceOf z' := by
  by_cases hv : z.register = z'.register
  · obtain rfl := h.eq_of_register hz hz' hv
    rw [destOf, sourceOf]
    cases z.kind with
    | spill => exact nofun
    | reload => exact nofun
  · obtain ⟨hcov, hkeeps, hk⟩ := h.home_of_transfer hz'
    rw [sourceOf]
    cases z'.kind with
    | spill => exact h.destOf_ne_keeps hz hv hkeeps
    | reload => exact h.destOf_ne_slotPlace hz hv hcov hk

/-- Different transfers at a position write different places. -/
theorem eq_of_destOf (h : a.Serves f t) (hz : z ∈ a.transfersAt p) (hz' : z' ∈ a.transfersAt p)
    (heq : a.destOf z = a.destOf z') : z = z' := by
  by_contra hne
  have hv : z.register ≠ z'.register := fun hv => hne (h.eq_of_register hz hz' hv)
  obtain ⟨hcov, hkeeps, hk⟩ := h.home_of_transfer hz'
  rcases a.destOf_cases z' with hd | hd
  · exact h.destOf_ne_keeps hz hv hkeeps (heq.trans hd)
  · exact h.destOf_ne_slotPlace hz hv hcov hk (heq.trans hd)

variable {w : World} {m m' : Machine}

/-- A transfer copies what it reads to what it writes. -/
theorem exec_transferCode (h : a.Serves f t) (hz : z ∈ a.transfersAt p) :
    m.exec w (a.transferCode z) = some (m.set (a.destOf z) (m.get (a.sourceOf z))) := by
  have hplace := h.destOf_place hz
  rw [destOf] at hplace
  rw [transferCode, destOf, sourceOf]
  cases hkind : z.kind with
  | spill =>
    rw [hkind] at hplace
    exact Machine.exec_mov hplace rfl w m
  | reload =>
    rw [hkind] at hplace
    exact Machine.exec_mov hplace rfl w m

/-- Transfers of one position, made one after the other, read what was there before all of them. -/
theorem execAll_transfers (h : a.Serves f t) {l : List Transfer} (hl : ∀ z ∈ l, z ∈ a.transfersAt p)
    (hf : m.Framed t.frameBase t.stackPointer a.cells) :
    ∃ m', m.execAll w (l.map a.transferCode) = some m' ∧ (∀ z ∈ l, m'.get (a.destOf z) = m.get (a.sourceOf z)) ∧
      m.ChangesOnly t.frameBase t.stackPointer a.cells {c | ∃ z ∈ l, a.destOf z = c} m' ∧
      m'.flags = m.flags ∧ m'.calls = m.calls := by
  induction l generalizing m with
  | nil => exact ⟨m, rfl, fun _ hz => absurd hz List.not_mem_nil, .refl _ _, rfl, rfl⟩
  | cons z l ih =>
    have hz := hl z List.mem_cons_self
    have hplace := h.destOf_place hz
    have hone := Machine.changesOnly_set hf hplace (m.get (a.sourceOf z))
    obtain ⟨m', hm', hdest, hrest, hflags, hcalls⟩ :=
      ih (fun z' hz' => hl z' (List.mem_cons_of_mem _ hz')) (hf.of_same hone.frame)
    refine ⟨m', ?_, fun z' hz' => ?_, ⟨hone.frame.trans hrest.frame, fun c hc hnot => ?_⟩, ?_, ?_⟩
    · rw [List.map_cons, Machine.execAll, h.exec_transferCode hz, Option.bind_some, hm']
    · have hsource : ∀ y ∈ l,
          (m.set (a.destOf z) (m.get (a.sourceOf z))).get (a.sourceOf y) = m.get (a.sourceOf y) := fun y hy =>
        hone.places _ (h.sourceOf_place (hl y (List.mem_cons_of_mem _ hy)))
          (h.destOf_ne_sourceOf hz (hl y (List.mem_cons_of_mem _ hy))).symm
      by_cases hmem : z' ∈ l
      · rw [hdest z' hmem, hsource z' hmem]
      · obtain rfl := (List.mem_cons.1 hz').resolve_right hmem
        rw [hrest.places _ hplace, Machine.get_set_self hplace]
        rintro ⟨y, hy, heq⟩
        exact hmem (h.eq_of_destOf (hl y (List.mem_cons_of_mem _ hy)) hz heq ▸ hy)
    · rw [hrest.places c hc fun hex => hnot (hex.imp fun _ hy => hy.imp_left (List.mem_cons_of_mem _))]
      exact hone.places c hc fun heq => hnot ⟨z, List.mem_cons_self, heq.symm⟩
    · rw [hflags, Machine.set_flags]
    · rw [hcalls, Machine.set_calls]

/-- Even without a frame, transfers leave the registers of a frame and the record of calls alone. -/
theorem execAll_transfers_apart (h : a.Serves f t) {l : List Transfer} (hl : ∀ z ∈ l, z ∈ a.transfersAt p)
    (m : Machine) :
    ∃ m', m.execAll w (l.map a.transferCode) = some m' ∧ Machine.SameFrame t.frameBase t.stackPointer m m' ∧
      m'.calls = m.calls := by
  induction l generalizing m with
  | nil => exact ⟨m, rfl, .refl _ _ _, rfl⟩
  | cons z l ih =>
    have hz := hl z List.mem_cons_self
    obtain ⟨m', hm', hframe, hcalls⟩ :=
      ih (fun z' hz' => hl z' (List.mem_cons_of_mem _ hz')) (m.set (a.destOf z) (m.get (a.sourceOf z)))
    refine ⟨m', ?_, (Machine.sameFrame_set (h.destOf_place hz) m _).trans hframe, ?_⟩
    · rw [List.map_cons, Machine.execAll, h.exec_transferCode hz, Option.bind_some, hm']
    · rw [hcalls, Machine.set_calls]

end Serves

/-! ## Held values -/

variable {m m' : Machine} {n : Word}

/-- The machine holds a word as the value of `v` at a position: where `v` is kept, and in its slot unless a write is
pending. -/
structure Held (a : Allocation) (v : VirtReg) (p : Position) (m : Machine) (n : Word) : Prop where
  kept : ∀ c, a.Keeps v p c → m.get c = n
  slot : ∀ k, a.slot? v = some k → m.get (a.slotPlace k) = n ∨ a.Pending v p

/-- The machine is going to hold a word as the value of `v` once the transfers of the position are made. -/
inductive Arriving (a : Allocation) (f : Function) (v : VirtReg) (p : Position) (m : Machine) (n : Word) : Prop where
  /-- It was just written to the place where `v` is kept. -/
  | written (hw : f.Writes v p) (h : ∀ c, a.Keeps v p c → m.get c = n)
  /-- It is held and not transferred. -/
  | stays (hno : ∀ z ∈ a.transfersAt p, z.register ≠ v) (h : a.Held v p m n)
  /-- It is in the slot, and is going to be loaded if `v` has a register. -/
  | slot {k : Nat} (hw : ¬f.Writes v p) (hk : a.slot? v = some k) (h : m.get (a.slotPlace k) = n)
      (hload : ∀ y r, a.splitAt? v p = some y → y.register = some r → ⟨.reload, v, y.id, r, k⟩ ∈ a.transfersAt p)

/-- Making the transfers of a position is enough. -/
theorem Arriving.held (h : a.Arriving f v p m n) (ha : a.Serves f t) (hf : f.WritesInOneBlock)
    (hv : (f.life v).covers p) (hdest : ∀ z ∈ a.transfersAt p, m'.get (a.destOf z) = m.get (a.sourceOf z))
    (hrest : m.ChangesOnly t.frameBase t.stackPointer a.cells {c | ∃ z ∈ a.transfersAt p, a.destOf z = c} m') :
    a.Held v p m' n := by
  cases h with
  | written hw h =>
    -- The only transfer of the register is a spill, which does not touch the place where it is kept.
    have hkept : ∀ c, a.Keeps v p c → m'.get c = n := by
      intro c hc
      rw [hrest.places c (hc.place ha), h c hc]
      rintro ⟨z, hz, rfl⟩
      by_cases hzv : z.register = v
      · subst hzv
        have hspill := ha.spill_of_writes hz hw
        have hreg := hc.unique (ha.home_of_transfer hz).2.1
        rw [destOf, hspill] at hreg
        cases hreg
      · exact ha.destOf_ne_keeps hz hzv hc rfl
    refine ⟨hkept, fun k hk => ?_⟩
    obtain ⟨y, hy⟩ := Option.isSome_iff_exists.1 (ha.splitAt?_isSome.2 hv)
    cases hr : y.register with
    | none => exact .inl (hkept _ (.slot hy hr hk))
    | some r =>
      refine (ha.spilled_or_pending (fun q hq => hf v p q hw hq) hw hy hr hk).imp_left fun hz => ?_
      exact (hdest _ hz).trans (h _ (.register hy hr))
  | stays hno h =>
    refine ⟨fun c hc => ?_, fun k hk => ?_⟩
    · rw [hrest.places c (hc.place ha), h.kept c hc]
      rintro ⟨z, hz, heq⟩
      exact ha.destOf_ne_keeps hz (hno z hz) hc heq
    · rw [hrest.places _ (ha.slotPlace_place hk)]
      · exact h.slot k hk
      · rintro ⟨z, hz, heq⟩
        exact ha.destOf_ne_slotPlace hz (hno z hz) hv hk heq
  | @slot k hw hk h hload =>
    have hslot : m'.get (a.slotPlace k) = n := by
      rw [hrest.places _ (ha.slotPlace_place hk), h]
      rintro ⟨z, hz, heq⟩
      by_cases hzv : z.register = v
      · rw [destOf, ha.reload_of_not_writes hz (hzv ▸ hw)] at heq
        cases heq
      · exact ha.destOf_ne_slotPlace hz hzv hv hk heq
    refine ⟨fun c hc => ?_, fun l hl => ?_⟩
    · cases hc with
      | slot _ _ hl =>
        obtain rfl := Option.some.inj (hk.symm.trans hl)
        exact hslot
      | register hy hr => exact (hdest _ (hload _ _ hy hr)).trans h
    · obtain rfl := Option.some.inj (hk.symm.trans hl)
      exact .inl hslot

/-- A held value arrives at the next position, if what happens in between spares the slot, and the place of a register
that stays where it is. -/
theorem Held.arriving (h : a.Held v p m n) (ha : a.Serves f t) (hp : (f.life v).covers p)
    (hn : (f.life v).covers p.next) (hw : ¬f.Writes v p.next) {S : Set Content}
    (hc : m.ChangesOnly t.frameBase t.stackPointer a.cells S m') (hkept : ∀ c ∈ S, a.Keeps v p c → ¬a.Keeps v p.next c)
    (hslot : ∀ k, a.slot? v = some k → a.slotPlace k ∉ S) :
    a.Arriving f v p.next m' n := by
  obtain ⟨x, hx⟩ := Option.isSome_iff_exists.1 (ha.splitAt?_isSome.2 hp)
  obtain ⟨y, hy⟩ := Option.isSome_iff_exists.1 (ha.splitAt?_isSome.2 hn)
  by_cases hxy : x = y
  · subst hxy
    have hsame := hx.trans hy.symm
    obtain ⟨hno, hpending⟩ := ha.stays hsame hw
    refine .stays hno ⟨fun c hkeep => ?_, fun k hk => ?_⟩
    · have hkeep' := hkeep.of_split hsame.symm
      rw [hc.places c (hkeep.place ha) fun hS => hkept c hS hkeep' hkeep]
      exact h.kept c hkeep'
    · rw [hc.places _ (ha.slotPlace_place hk) (hslot k hk)]
      exact (h.slot k hk).imp_right hpending
  · obtain ⟨hnot, k, hk, hload⟩ := ha.changes hx hy hxy hw
    refine .slot hw hk ?_ fun y' r hy' hr => ?_
    · rw [hc.places _ (ha.slotPlace_place hk) (hslot k hk)]
      exact (h.slot k hk).resolve_right hnot
    · obtain rfl := Option.some.inj (hy.symm.trans hy')
      exact hload r hr

end Allocation

end RegAlloc
