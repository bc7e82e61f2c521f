import RegAlloc.Proofs.Verdict

/-!
# What a verdict rests on

A horizon of `neededAt` is there because a register is pinned, or because an owner of it is accessed
(`neededAt_cases`), and the best entry of a table has the latest horizon (`Conflicts.le_best?`). So the verdicts on a
piece have their grounds (`verdict_grounds`): a cut always lies behind the start of the piece; owners that lose their
register are not accessed where the piece starts; and a piece that waits although it has to be in a register waits
because each of the registers is `Taken` at its start.
-/

namespace RegAlloc

namespace Horizon

variable {p q : Position} {o : Option Position}

/-- Horizons that are positions are ordered like them. -/
theorem pos_le_pos : Horizon.pos p ≤ .pos q ↔ p ≤ q := by
  rw [← not_lt, pos_lt_pos, not_lt]

/-- A horizon that is a position comes from a position. -/
theorem ofOption_eq_pos (h : ofOption o = .pos p) : o = some p := by
  cases o with
  | none => cases h
  | some q => exact congrArg some (Horizon.pos.inj h)

/-- A horizon that is `never` comes from none. -/
theorem ofOption_eq_never (h : ofOption o = .never) : o = none := by
  cases o with
  | none => rfl
  | some q => cases h

end Horizon

/-! ## The sites of an interval in order -/

namespace Interval

variable {i : Interval} {p q : Position} {x : Site}

/-- The first site of a kind comes before the others of the kind. -/
theorem WellFormed.find?_le (hi : i.WellFormed) {P : Site → Bool} {y : Site} (h : i.sites.find? P = some x)
    (hy : y ∈ i.sites) (hP : P y) : x.position ≤ y.position := by
  obtain ⟨-, l₁, l₂, hl, hnot⟩ := List.find?_eq_some_iff_append.1 h
  have hasc := hi.sites
  rw [Ascending, hl] at hasc
  rw [hl] at hy
  rcases List.mem_append.1 hy with hy | hy
  · have := hnot y hy
    rw [hP] at this
    cases this
  · rcases List.mem_cons.1 hy with rfl | hy
    · exact le_rfl
    · exact le_of_lt ((List.pairwise_cons.1 (List.pairwise_append.1 hasc).2.1).1 y hy)

/-- The next site is a site, and not before the position. -/
theorem nextSite?_eq_some (h : i.nextSite? p = some q) : p ≤ q ∧ ∃ x ∈ i.sites, x.position = q := by
  obtain ⟨x, hx, rfl⟩ := Option.map_eq_some_iff.1 h
  exact ⟨by simpa using List.find?_some hx, x, List.mem_of_find?_eq_some hx, rfl⟩

/-- No site lies between a position and the next site. -/
theorem WellFormed.nextSite?_le (hi : i.WellFormed) (h : i.nextSite? p = some q) (hx : x ∈ i.sites)
    (hp : p ≤ x.position) :
    q ≤ x.position := by
  obtain ⟨y, hy, rfl⟩ := Option.map_eq_some_iff.1 h
  exact hi.find?_le hy hx (decide_eq_true hp)

/-- Without a next site, all sites lie before the position. -/
theorem lt_of_nextSite?_eq_none (h : i.nextSite? p = none) (hx : x ∈ i.sites) : x.position < p := by
  have := List.find?_eq_none.1 (Option.map_eq_none_iff.1 h) x hx
  simpa using this

/-- A site that is not before the position makes a next one. -/
theorem exists_nextSite? (hx : x ∈ i.sites) (hp : p ≤ x.position) : ∃ q, i.nextSite? p = some q := by
  cases h : i.nextSite? p with
  | none => exact absurd (lt_of_nextSite?_eq_none h hx) (not_lt.2 hp)
  | some q => exact ⟨q, rfl⟩

theorem WellFormed.firstSite?_le (hi : i.WellFormed) (h : i.firstSite? = some q) (hx : x ∈ i.sites) :
    q ≤ x.position := by
  obtain ⟨y, hy, rfl⟩ := Option.map_eq_some_iff.1 h
  obtain ⟨l, hl⟩ := List.head?_eq_some_iff.1 hy
  have hasc := hi.sites
  rw [Ascending, hl] at hasc
  rw [hl] at hx
  rcases List.mem_cons.1 hx with rfl | hx
  · exact le_rfl
  · exact le_of_lt ((List.pairwise_cons.1 hasc).1 x hx)

/-- Without a first site there are no sites. -/
theorem sites_of_firstSite? (h : i.firstSite? = none) : i.sites = [] :=
  List.head?_eq_none_iff.1 (Option.map_eq_none_iff.1 h)

/-- The first site that needs a register is a site that does. -/
theorem firstRegisterSite?_eq_some (h : i.firstRegisterSite? = some q) :
    ∃ x ∈ i.sites, x.memoryOk = false ∧ x.position = q := by
  obtain ⟨x, hx, rfl⟩ := Option.map_eq_some_iff.1 h
  exact ⟨x, List.mem_of_find?_eq_some hx, by simpa using List.find?_some hx, rfl⟩

/-- Sites before the first one that has to be in a register can be served from memory. -/
theorem WellFormed.le_of_firstRegisterSite? (hi : i.WellFormed) (hx : x ∈ i.sites) (hm : x.memoryOk = false) :
    ∃ q, i.firstRegisterSite? = some q ∧ q ≤ x.position := by
  have hP : (!x.memoryOk) = true := by rw [hm, Bool.not_false]
  cases hf : i.sites.find? (fun s => !s.memoryOk) with
  | none => exact absurd hP (List.find?_eq_none.1 hf x hx)
  | some y => exact ⟨y.position, by rw [firstRegisterSite?, hf, Option.map_some], hi.find?_le hf hx hP⟩

end Interval

/-! ## The entries of a table of horizons -/

namespace Conflicts

variable {c : Conflicts} {r : PhysReg} {h : Horizon} {e : PhysReg × Horizon}

/-- The best entry has the latest horizon. -/
theorem le_best? {best : PhysReg × Horizon} (h : c.best? = some best) (he : e ∈ c.entries) : e.2 ≤ best.2 := by
  rw [best?_eq_argmax] at h
  exact List.le_of_mem_argmax he h

/-- Every horizon of the table is a conflict of the given kind, or that of a register without conflicts. -/
def Sourced (S : PhysReg → Position → Prop) (c : Conflicts) : Prop :=
  ∀ r h, c.get? r = some h → h = .never ∨ ∃ p, h = .pos p ∧ S r p

/-- Without conflicts nothing has to be accounted for. -/
theorem sourced_none {S : PhysReg → Position → Prop} (l : List PhysReg) : Sourced S (.none l) := by
  intro r h hget
  obtain ⟨r', -, heq⟩ := List.mem_map.1 (mem_of_lookupBy hget)
  exact .inl (Prod.mk.inj heq).2.symm

/-- Recording a conflict of the given kind keeps the others. -/
theorem Sourced.add {S : PhysReg → Position → Prop} {p : Position} (hc : Sourced S c) (hp : S r p) :
    Sourced S (c.add r (.pos p)) := by
  intro r' h hget
  rw [get?_add] at hget
  split_ifs at hget with hr
  · obtain ⟨e, he, rfl⟩ := Option.map_eq_some_iff.1 hget
    split_ifs
    · exact .inr ⟨p, rfl, hr ▸ hp⟩
    · exact hr ▸ hc r e he
  · exact hc r' h hget

theorem Sourced.foldl {α : Type} {S : PhysReg → Position → Prop} {f : Conflicts → α → Conflicts} {l : List α}
    (hc : Sourced S c) (hf : ∀ c, ∀ a ∈ l, Sourced S c → Sourced S (f c a)) : Sourced S (l.foldl f c) := by
  induction l generalizing c with
  | nil => exact hc
  | cons a l ih => exact ih (hf c a List.mem_cons_self hc) fun c b hb => hf c b (List.mem_cons_of_mem a hb)

end Conflicts

namespace Scan

variable {lt : Lifetimes} {t : Target} {s : Scan} {i : Interval} {r : PhysReg} {o : Horizon} {p : Position}

/-- What a register may be needed for within an interval: the code needs it, or one of its owners is accessed. -/
def Need (lt : Lifetimes) (s : Scan) (i : Interval) (r : PhysReg) (p : Position) : Prop :=
  (∃ range, (r, range) ∈ lt.pinned ∧ range.firstMeeting i.range = some p) ∨
    ∃ m ∈ s.active ++ s.inactive, s.register? m = some r ∧ (s.interval m).nextSite? i.start = some p

/-- A register is needed nowhere, or where the code needs it or an owner is accessed. -/
theorem neededAt_cases (h : (neededAt lt t s i).get? r = some o) : o = .never ∨ ∃ p, o = .pos p ∧ Need lt s i r p := by
  have hpinned : Conflicts.Sourced (Need lt s i) (pinnedConflicts lt t i) := by
    rw [pinnedConflicts_eq]
    refine (Conflicts.sourced_none _).foldl fun c e he hc => ?_
    rw [addPinned]
    split
    · rename_i p hp
      exact hc.add (.inl ⟨e.2, he, hp⟩)
    · exact hc
  have hneeded : Conflicts.Sourced (Need lt s i) (neededAt lt t s i) := by
    refine hpinned.foldl fun c m hm hc => ?_
    rw [addOwner]
    split
    · rename_i hr _ hp
      exact hc.add (.inr ⟨m, hm, hr, hp⟩)
    · exact hc
  exact hneeded r o h

/-- A piece has a register and is accessed at a position that it covers. -/
def Uses (s : Scan) (m : Nat) (r : PhysReg) (p : Position) : Prop :=
  s.register? m = some r ∧ (s.interval m).covers p ∧ ∃ x ∈ (s.interval m).sites, x.position = p

/-- A register cannot be had at a position: the code needs it there, or a piece uses it there. -/
def Taken (lt : Lifetimes) (s : Scan) (r : PhysReg) (p : Position) : Prop :=
  (∃ range, (r, range) ∈ lt.pinned ∧ range.covers p) ∨ ∃ m, s.Uses m r p

/-- If the horizon chosen is not behind the start of the interval, then no horizon is. -/
theorem le_of_choose {c : Conflicts} (hc : s.choose i c = some (r, o)) (hi : i.start ≤ i.stop) (ho : o ≤ .pos i.start)
    {e : PhysReg × Horizon} (he : e ∈ c.entries) : e.2 ≤ .pos i.start := by
  obtain ⟨best, hbest, heq⟩ := Option.map_eq_some_iff.1 hc
  suffices h : o = best.2 from le_trans (Conflicts.le_best? hbest he) (h ▸ ho)
  rcases Option.getD_eq_iff.1 heq with hf | ⟨_, rfl⟩
  · obtain ⟨r', _, hr'⟩ := List.exists_of_findSome?_eq_some hf
    split at hr'
    · rename_i h' hget
      split_ifs at hr' with hcond
      obtain ⟨rfl, rfl⟩ := Prod.mk.inj (Option.some.inj hr')
      rcases Bool.or_eq_true_iff.1 hcond with hlasts | hsame
      · -- A horizon that lasts to the end of the interval is behind its start.
        cases h' with
        | never => exact absurd ho (not_le.2 Horizon.pos_lt_never)
        | pos q =>
          have hq : i.stop < q := of_decide_eq_true hlasts
          exact absurd (lt_of_lt_of_le hq (Horizon.pos_le_pos.1 ho)) (not_lt.2 hi)
      · exact of_decide_eq_true hsame
    · cases hr'
  · rfl

section Grounds

variable (hs : ∀ n, (s.interval n).WellFormed) (hp : ∀ e ∈ lt.pinned, e.2.WellFormed)

include hp in
/-- A register that is needed where an interval starts, or before, is taken there. -/
theorem taken_of_need (hi : i.Live) (hin : ∀ m, (s.interval m).Inside) (hneed : Need lt s i r p) (hle : p ≤ i.start) :
    Taken lt s r i.start := by
  rcases hneed with ⟨range, hrange, hmeet⟩ | ⟨m, -, hr, hnext⟩
  · have hspec := LiveRange.firstMeeting_spec (hp _ hrange) hi.range
    rw [hmeet] at hspec
    obtain rfl := le_antisymm hle (hi.start_le hspec.2.1)
    exact .inl ⟨range, hrange, hspec.1⟩
  · obtain ⟨hstart, x, hx, rfl⟩ := Interval.nextSite?_eq_some hnext
    have heq := le_antisymm hle hstart
    exact .inr ⟨m, hr, heq ▸ hin m x hx, x, hx, heq⟩

/-- What the verdict on an interval rests on. -/
def Grounds (lt : Lifetimes) (t : Target) (s : Scan) (i : Interval) : Verdict → Prop
  | .take _ => True
  | .takeUntil _ p => i.start < p
  | .wait o => (∀ p, o = .pos p → i.start < p) ∧ ((∀ m, (s.interval m).Inside) → i.Inside →
      ∀ x ∈ i.sites, x.memoryOk = false → (∀ p, o = .pos p → x.position < p) →
        x.position = i.start ∧ ∀ r ∈ t.allocatable, Taken lt s r i.start)
  | .evict r => (∀ m ∈ s.active ++ s.inactive, s.register? m = some r → ¬(s.interval m).range.Disjoint i.range →
      ∀ x ∈ (s.interval m).sites, x.position ≠ i.start) ∧
        ∀ range p, (r, range) ∈ lt.pinned → range.firstMeeting i.range = some p → i.start < p
  | .leave => t.allocatable = []

/-- What a verdict for a free register rests on. -/
theorem grounds_freeVerdict? {v : Verdict} (hv : freeVerdict? lt t s i = some v) : Grounds lt t s i v := by
  rw [freeVerdict?] at hv
  split at hv
  · cases hv
  · rename_i r h hc
    split_ifs at hv with hstart
    split at hv
    · obtain rfl := Option.some.inj hv
      trivial
    · rename_i p
      split_ifs at hv
      · obtain rfl := Option.some.inj hv
        trivial
      · obtain rfl := Option.some.inj hv
        exact Horizon.pos_lt_pos.1 (not_le.1 hstart)

include hp in
/-- A piece that waits for its next site because no register can be had at its start. -/
theorem grounds_wait_next (ht : t.allocatable.Nodup) (hi : i.Live) (hc : s.choose i (neededAt lt t s i) = some (r, o))
    (ho : o ≤ .pos i.start) : Grounds lt t s i (.wait (.ofOption (i.nextSite? i.start.next))) := by
  refine ⟨fun p hnext => ?_, fun hin hini x hx hm hlt => ?_⟩
  · have hnext := Interval.nextSite?_eq_some (Horizon.ofOption_eq_pos hnext)
    exact lt_of_lt_of_le (Position.lt_next _) hnext.1
  · have hstart : i.start ≤ x.position := hi.start_le (hini x hx)
    refine ⟨le_antisymm ?_ hstart, fun r' hr' => ?_⟩
    · -- A site behind the start is not before the next site.
      rcases lt_or_ge x.position i.start.next with hnext | hnext
      · exact Position.lt_next_iff.1 hnext
      · obtain ⟨q, hq⟩ := Interval.exists_nextSite? hx hnext
        exact absurd (hlt q (by rw [hq]; rfl)) (not_lt.2 (hi.toWellFormed.nextSite?_le hq hx hnext))
    · have hregisters : (neededAt lt t s i).registers = t.allocatable := registers_neededAt
      rw [← hregisters] at hr' ht
      obtain ⟨e, he, rfl⟩ := List.mem_map.1 hr'
      have hle := le_of_choose hc hi.start_le_stop ho he
      rcases neededAt_cases (lookupBy_of_mem ht he) with hnever | ⟨p, hpos, hneed⟩
      · rw [hnever] at hle
        exact absurd hle (not_le.2 Horizon.pos_lt_never)
      · rw [hpos] at hle
        exact taken_of_need hp hi hin hneed (Horizon.pos_le_pos.1 hle)

/-- A piece that waits for a site that has to be in a register. -/
theorem grounds_wait_register (hi : i.Live) (ho : .pos i.start < o)
    (hfirst : o < .ofOption i.firstSite? ∨ Horizon.ofOption i.firstSite? = o ∧ o < .ofOption i.firstRegisterSite?) :
    Grounds lt t s i (.wait (.ofOption i.firstRegisterSite?)) := by
  refine ⟨fun p hreg => ?_, fun _ _ x hx hm hlt => ?_⟩
  · obtain ⟨x, hx, -, rfl⟩ := Interval.firstRegisterSite?_eq_some (Horizon.ofOption_eq_pos hreg)
    have hle : Horizon.ofOption i.firstSite? ≤ .pos x.position := by
      cases hf : i.firstSite? with
      | none => rw [Interval.sites_of_firstSite? hf] at hx; cases hx
      | some q => exact Horizon.pos_le_pos.2 (hi.toWellFormed.firstSite?_le hf hx)
    rcases hfirst with hfirst | ⟨rfl, -⟩
    · exact Horizon.pos_lt_pos.1 (lt_of_lt_of_le (lt_trans ho hfirst) hle)
    · exact Horizon.pos_lt_pos.1 (lt_of_lt_of_le ho hle)
  · obtain ⟨q, hq, hle⟩ := hi.toWellFormed.le_of_firstRegisterSite? hx hm
    exact absurd (hlt q (by rw [hq]; rfl)) (not_lt.2 hle)

include hs in
/-- Owners that lose their register are not accessed where the interval starts. -/
theorem grounds_evict (ht : t.allocatable.Nodup) (hi : i.Live) (hc : s.choose i (neededAt lt t s i) = some (r, o))
    (ho : .pos i.start < o) : Grounds lt t s i (.evict r) := by
  have hregisters : (neededAt lt t s i).registers = t.allocatable := registers_neededAt
  have hget := get?_of_choose (hregisters ▸ ht) hc
  refine ⟨fun m hm hr hmeets x hx heq => ?_, fun range p hrange hmeet => ?_⟩
  · obtain ⟨q, hq⟩ := Interval.exists_nextSite? hx (le_of_eq heq.symm)
    obtain ⟨p, hmeet⟩ : ∃ p, (s.interval m).range.firstMeeting i.range = some p := by
      have hspec := LiveRange.firstMeeting_spec (hs m).range hi.range
      cases hf : (s.interval m).range.firstMeeting i.range with
      | none =>
        rw [hf] at hspec
        exact absurd hspec hmeets
      | some p => exact ⟨p, rfl⟩
    have hmost : (neededAt lt t s i).AtMost r (.pos q) := by
      refine Conflicts.atMost_foldl lowered_addOwner hm fun c => ?_
      rw [addOwner, hr, hmeet, hq]
      exact Conflicts.atMost_add_self
    have hle : q ≤ i.start := heq ▸ (hs m).nextSite?_le hq hx (le_of_eq heq.symm)
    exact absurd (lt_of_lt_of_le ho (hmost o hget)) (not_lt.2 (Horizon.pos_le_pos.2 hle))
  · have hmost : (neededAt lt t s i).AtMost r (.pos p) := by
      refine (Conflicts.lowered_foldl lowered_addOwner _).atMost _ _ ?_
      rw [pinnedConflicts_eq]
      refine Conflicts.atMost_foldl lowered_addPinned hrange fun c => ?_
      rw [addPinned, hmeet]
      exact Conflicts.atMost_add_self
    exact Horizon.pos_lt_pos.1 (lt_of_lt_of_le ho (hmost o hget))

include hs hp in
/-- Every verdict has its grounds. -/
theorem verdict_grounds (ht : t.allocatable.Nodup) (hi : i.Live) : Grounds lt t s i (verdict lt t s i) := by
  rw [verdict]
  cases hv : freeVerdict? lt t s i with
  | some v => exact grounds_freeVerdict? hv
  | none =>
    rw [Option.getD_none, blockedVerdict]
    split
    · rename_i hc
      exact registers_neededAt.symm.trans (registers_of_choose_eq_none hc)
    · rename_i r o hc
      dsimp only
      split_ifs with hstart hnever hwait
      · exact grounds_wait_next hp ht hi hc hstart
      · refine ⟨fun _ h => (by cases h), fun _ _ x hx => ?_⟩
        rw [Interval.sites_of_firstSite? (Horizon.ofOption_eq_never hnever)] at hx
        cases hx
      · exact grounds_wait_register hi (not_le.1 hstart) hwait
      · exact grounds_evict hs ht hi hc (not_le.1 hstart)

end Grounds

end Scan

end RegAlloc
