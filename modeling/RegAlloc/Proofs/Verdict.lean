import RegAlloc.Proofs.Tiling
import Mathlib.Data.List.MinMax

/-!
# What a verdict promises

The horizon that `Conflicts` holds for a register is never later than a conflict recorded for it (`Conflicts.AtMost`).
So a register that is chosen because it stays free has no owner, and is not needed by the code, anywhere in the range
that it is given for (`FreeOver`). `verdict_spec` says what each verdict promises; that there is no register at all is
a verdict only on targets without registers.
-/

namespace RegAlloc

/-- Horizons that are positions are ordered like them. -/
theorem Horizon.pos_lt_pos {p q : Position} : Horizon.pos p < .pos q ↔ p < q := decide_eq_true_iff

/-- Every position comes before `never`. -/
theorem Horizon.pos_lt_never {p : Position} : Horizon.pos p < .never := rfl

namespace Conflicts

variable {c d : Conflicts} {r r' : PhysReg} {h h' : Horizon}

/-- The registers that are listed. -/
def registers (c : Conflicts) : List PhysReg := c.entries.map Prod.fst

/-- Lowering an entry keeps the registers. -/
theorem map_fst_lower (entries : List (PhysReg × Horizon)) :
    (lower r h entries).map Prod.fst = entries.map Prod.fst := by
  induction entries with
  | nil => rfl
  | cons e rest ih =>
    rw [lower]
    by_cases he : e.1 = r
    · simp [he]
    · simp [he, ih]

/-- Recording a conflict keeps the registers. -/
@[simp] theorem registers_add : (c.add r h).registers = c.registers := map_fst_lower c.entries

/-- At first all given registers are listed. -/
@[simp] theorem registers_none (l : List PhysReg) : (Conflicts.none l).registers = l := by
  rw [registers, Conflicts.none, List.map_map]
  exact List.map_id l

/-- The register is not listed as usable after the horizon. -/
def AtMost (c : Conflicts) (r : PhysReg) (h : Horizon) : Prop := ∀ e, c.get? r = some e → e ≤ h

/-- A recorded conflict lowers the horizon of its register, and no other. -/
theorem get?_add : (c.add r h).get? r' =
    if r' = r then (c.get? r).map (fun e => if h < e then h else e) else c.get? r' := by
  obtain ⟨entries⟩ := c
  rw [get?, get?, get?, add]
  induction entries with
  | nil => simp [lower, lookupBy]
  | cons e rest ih =>
    rw [lower]
    by_cases he : e.1 = r
    · by_cases hr : r' = r
      · simp [he, hr, lookupBy_cons]
      · have hr' : ¬r = r' := fun heq => hr heq.symm
        simp [he, hr, hr', lookupBy_cons]
    · by_cases hr : r' = r
      · subst hr
        simpa [he, lookupBy_cons] using ih
      · simp only [he, if_false, lookupBy_cons, ih, hr]

/-- The second table is the first with conflicts recorded in it. -/
structure Lowered (c d : Conflicts) : Prop where
  registers : d.registers = c.registers
  atMost : ∀ r h, c.AtMost r h → d.AtMost r h

theorem Lowered.refl (c : Conflicts) : c.Lowered c := ⟨rfl, fun _ _ h => h⟩

theorem Lowered.trans {e : Conflicts} (hcd : c.Lowered d) (hde : d.Lowered e) : c.Lowered e :=
  ⟨hde.registers.trans hcd.registers, fun r h hc => hde.atMost r h (hcd.atMost r h hc)⟩

/-- A conflict that is recorded bounds the horizon. -/
theorem atMost_add_self : (c.add r h).AtMost r h := by
  intro e he
  rw [get?_add, if_pos rfl] at he
  obtain ⟨e', _, rfl⟩ := Option.map_eq_some_iff.1 he
  split_ifs with hlt
  · exact le_rfl
  · exact not_lt.1 hlt

/-- Recording a conflict lowers horizons, if anything. -/
theorem lowered_add : c.Lowered (c.add r h) := by
  refine ⟨registers_add, fun r' h' hc e he => ?_⟩
  rw [get?_add] at he
  split_ifs at he with hr
  · subst hr
    obtain ⟨e', he', rfl⟩ := Option.map_eq_some_iff.1 he
    have hle := hc e' he'
    split_ifs with hlt
    · exact le_trans (le_of_lt hlt) hle
    · exact hle
  · exact hc e he

theorem lowered_foldl {α : Type} {f : Conflicts → α → Conflicts} (hf : ∀ c a, Lowered c (f c a)) (l : List α) :
    c.Lowered (l.foldl f c) := by
  induction l generalizing c with
  | nil => exact .refl c
  | cons a l ih => exact (hf c a).trans ih

/-- A conflict that one step of a fold records is in its result. -/
theorem atMost_foldl {α : Type} {f : Conflicts → α → Conflicts} (hf : ∀ c a, Lowered c (f c a)) {l : List α} {a : α}
    (ha : a ∈ l) (hconflict : ∀ c, (f c a).AtMost r h) : (l.foldl f c).AtMost r h := by
  obtain ⟨l₁, l₂, rfl⟩ := List.append_of_mem ha
  rw [List.foldl_append, List.foldl_cons]
  exact (lowered_foldl hf l₂).atMost r h (hconflict _)

/-- The fold of `better` is the library's search for the first maximum. -/
theorem best?_eq_argmax : c.best? = c.entries.argmax Prod.snd := by
  rw [best?, List.argmax]
  congr 1
  funext best e
  cases best with
  | none => rfl
  | some b => simp only [better, List.argAux]

/-- The best entry is one of the entries. -/
theorem mem_of_best? {e : PhysReg × Horizon} (h : c.best? = some e) : e ∈ c.entries := by
  rw [best?_eq_argmax] at h
  exact List.argmax_mem h

/-- Only among no registers there is no best one. -/
theorem best?_eq_none (h : c.best? = .none) : c.registers = [] := by
  rw [best?_eq_argmax] at h
  rw [registers, List.argmax_eq_none.1 h, List.map_nil]

end Conflicts

namespace Scan

variable {lt : Lifetimes} {t : Target} {s : Scan} {i : Interval} {r : PhysReg} {h : Horizon}

/-- A register is chosen with the horizon that it is listed with. -/
theorem get?_of_choose {c : Conflicts} (hnodup : c.registers.Nodup) (hc : s.choose i c = some (r, h)) :
    c.get? r = some h := by
  obtain ⟨best, hbest, heq⟩ := Option.map_eq_some_iff.1 hc
  have hbest : c.get? best.1 = some best.2 := lookupBy_of_mem hnodup (Conflicts.mem_of_best? hbest)
  rcases Option.getD_eq_iff.1 heq with hf | ⟨_, rfl⟩
  · obtain ⟨r', _, hr'⟩ := List.exists_of_findSome?_eq_some hf
    split at hr'
    · rename_i h' hget
      split_ifs at hr'
      obtain ⟨rfl, rfl⟩ := Prod.mk.inj (Option.some.inj hr')
      exact hget
    · cases hr'
  · exact hbest

/-- A register that is chosen is one of those that are listed. -/
theorem mem_of_choose {c : Conflicts} (hnodup : c.registers.Nodup) (hc : s.choose i c = some (r, h)) :
    r ∈ c.registers :=
  List.mem_map.2 ⟨(r, h), mem_of_lookupBy (get?_of_choose hnodup hc), rfl⟩

/-- Only among no registers none is chosen. -/
theorem registers_of_choose_eq_none {c : Conflicts} (hc : s.choose i c = none) : c.registers = [] :=
  Conflicts.best?_eq_none (Option.map_eq_none_iff.1 hc)

theorem lowered_addActive (c : Conflicts) (n : Nat) : c.Lowered (s.addActive i c n) := by
  rw [addActive]
  split
  · exact Conflicts.lowered_add
  · exact .refl c

theorem lowered_addInactive (c : Conflicts) (n : Nat) : c.Lowered (s.addInactive i c n) := by
  rw [addInactive]
  split
  · exact Conflicts.lowered_add
  · exact .refl c

/-- An owner of a register lowers horizons. -/
theorem lowered_addOwner (c : Conflicts) (n : Nat) : c.Lowered (s.addOwner i c n) := by
  rw [addOwner]
  split
  · exact Conflicts.lowered_add
  · exact .refl c

/-- The conflict with a range where the code needs a register: the register is free until the two meet. -/
def addPinned (i : Interval) (c : Conflicts) (e : PhysReg × LiveRange) : Conflicts :=
  match e.2.firstMeeting i.range with
  | some p => c.add e.1 (.pos p)
  | none => c

/-- The positions where the code needs registers are recorded one register after the other. -/
theorem pinnedConflicts_eq : pinnedConflicts lt t i = lt.pinned.foldl (addPinned i) (.none t.allocatable) := rfl

/-- What the code needs lowers horizons. -/
theorem lowered_addPinned (c : Conflicts) (e : PhysReg × LiveRange) : c.Lowered (addPinned i c e) := by
  rw [addPinned]
  split
  · exact Conflicts.lowered_add
  · exact .refl c

/-- After recording what the code needs, the allocatable registers are listed. -/
theorem registers_pinnedConflicts : (pinnedConflicts lt t i).registers = t.allocatable :=
  (Conflicts.lowered_foldl lowered_addPinned lt.pinned).registers.trans (Conflicts.registers_none _)

/-- Recording the active pieces lowers horizons. -/
theorem lowered_active : (pinnedConflicts lt t i).Lowered (s.active.foldl (s.addActive i) (pinnedConflicts lt t i)) :=
  Conflicts.lowered_foldl lowered_addActive _

/-- Recording the inactive pieces lowers them further. -/
theorem lowered_inactive :
    (s.active.foldl (s.addActive i) (pinnedConflicts lt t i)).Lowered (freeUntil lt t s i) :=
  Conflicts.lowered_foldl lowered_addInactive _

/-- Horizons of free registers are known for the allocatable registers. -/
theorem registers_freeUntil : (freeUntil lt t s i).registers = t.allocatable :=
  (lowered_inactive.registers.trans lowered_active.registers).trans registers_pinnedConflicts

/-- Horizons of next uses are known for the allocatable registers. -/
theorem registers_neededAt : (neededAt lt t s i).registers = t.allocatable :=
  (Conflicts.lowered_foldl lowered_addOwner _).registers.trans registers_pinnedConflicts

/-- No active piece has the register, and over a set of positions neither an inactive piece nor the code needs it. -/
structure FreeOver (lt : Lifetimes) (s : Scan) (r : PhysReg) (ps : Position → Prop) : Prop where
  active : ∀ n ∈ s.active, s.register? n ≠ some r
  inactive : ∀ n ∈ s.inactive, s.register? n = some r → ∀ q, ps q → ¬(s.interval n).covers q
  pinned : ∀ range, (r, range) ∈ lt.pinned → ∀ q, ps q → ¬range.covers q

/-- What is free over some positions is free over fewer of them. -/
theorem FreeOver.mono {ps qs : Position → Prop} (hfree : FreeOver lt s r ps) (hsub : ∀ q, qs q → ps q) :
    FreeOver lt s r qs :=
  ⟨hfree.active, fun n hn hr q hq => hfree.inactive n hn hr q (hsub q hq),
    fun range hr q hq => hfree.pinned range hr q (hsub q hq)⟩

/-- A position that two ranges have in common is not before their first meeting. -/
theorem exists_firstMeeting {a b : LiveRange} {q : Position} (ha : a.WellFormed) (hb : b.WellFormed) (hqa : a.covers q)
    (hqb : b.covers q) : ∃ p, a.firstMeeting b = some p ∧ p ≤ q := by
  have hspec := LiveRange.firstMeeting_spec ha hb
  cases hm : a.firstMeeting b with
  | none =>
    rw [hm] at hspec
    exact absurd hqb (hspec q hqa)
  | some p =>
    rw [hm] at hspec
    exact ⟨p, rfl, hspec.2.2 q hqa hqb⟩

section Free

variable (ht : t.allocatable.Nodup) (hi : i.range.WellFormed) (hs : ∀ n, (s.interval n).range.WellFormed)
  (hp : ∀ e ∈ lt.pinned, e.2.WellFormed)

include hi hs in
/-- Where an inactive piece with the register meets the interval, the register is not free any more. -/
theorem atMost_of_inactive {n : Nat} {q : Position} (hn : n ∈ s.inactive) (hr : s.register? n = some r)
    (hqn : (s.interval n).covers q) (hqi : i.covers q) : ∃ p ≤ q, (freeUntil lt t s i).AtMost r (.pos p) := by
  obtain ⟨p, hmeet, hle⟩ := exists_firstMeeting (hs n) hi hqn hqi
  refine ⟨p, hle, Conflicts.atMost_foldl lowered_addInactive hn fun c => ?_⟩
  rw [addInactive, hr, hmeet]
  exact Conflicts.atMost_add_self

include hi hp in
/-- Where the code needs the register and the interval is live, the register is not free any more. -/
theorem atMost_of_pinned {range : LiveRange} {q : Position} (hr : (r, range) ∈ lt.pinned) (hqr : range.covers q)
    (hqi : i.covers q) : ∃ p ≤ q, (freeUntil lt t s i).AtMost r (.pos p) := by
  obtain ⟨p, hmeet, hle⟩ := exists_firstMeeting (hp _ hr) hi hqr hqi
  have hpinned : (pinnedConflicts lt t i).AtMost r (.pos p) := by
    rw [pinnedConflicts_eq]
    refine Conflicts.atMost_foldl lowered_addPinned hr fun c => ?_
    rw [addPinned, hmeet]
    exact Conflicts.atMost_add_self
  exact ⟨p, hle, lowered_inactive.atMost _ _ (lowered_active.atMost _ _ hpinned)⟩

/-- A register of an active piece is not free where the interval starts. -/
theorem atMost_of_active {n : Nat} (hn : n ∈ s.active) (hr : s.register? n = some r) :
    (freeUntil lt t s i).AtMost r (.pos i.start) := by
  refine lowered_inactive.atMost _ _ (Conflicts.atMost_foldl lowered_addActive hn fun c => ?_)
  rw [addActive, hr]
  exact Conflicts.atMost_add_self

include ht hi hs hp in
/-- A register chosen by how long it stays free is free up to its horizon. -/
theorem freeOver_of_choose (hc : s.choose i (freeUntil lt t s i) = some (r, h)) (hstart : ¬h ≤ .pos i.start) :
    r ∈ t.allocatable ∧ FreeOver lt s r (fun q => i.covers q ∧ .pos q < h) := by
  have hnodup : (freeUntil lt t s i).registers.Nodup := registers_freeUntil ▸ ht
  have hget := get?_of_choose hnodup hc
  have hnot : ∀ p q, p ≤ q → (freeUntil lt t s i).AtMost r (.pos p) → ¬Horizon.pos q < h := by
    intro p q hpq hmost hqh
    have hqp : Horizon.pos q < .pos p := lt_of_lt_of_le hqh (hmost h hget)
    exact absurd (Horizon.pos_lt_pos.1 hqp) (not_lt.2 hpq)
  refine ⟨registers_freeUntil ▸ mem_of_choose hnodup hc, ?_, ?_, ?_⟩
  · exact fun n hn hr => hstart (atMost_of_active hn hr h hget)
  · rintro n hn hr q ⟨hqi, hqh⟩ hqn
    obtain ⟨p, hpq, hmost⟩ := atMost_of_inactive hi hs hn hr hqn hqi
    exact hnot p q hpq hmost hqh
  · rintro range hr q ⟨hqi, hqh⟩ hqr
    obtain ⟨p, hpq, hmost⟩ := atMost_of_pinned hi hp hr hqr hqi
    exact hnot p q hpq hmost hqh

/-- What a verdict on an interval promises. -/
def Promised (lt : Lifetimes) (t : Target) (s : Scan) (i : Interval) : Verdict → Prop
  | .take r => r ∈ t.allocatable ∧ FreeOver lt s r (fun q => i.covers q)
  | .takeUntil r p => r ∈ t.allocatable ∧ FreeOver lt s r (fun q => i.covers q ∧ q < p)
  | .wait _ => True
  | .evict r => r ∈ t.allocatable
  | .leave => t.allocatable = []

include ht hp hs in
/-- What a verdict for a free register promises. -/
theorem promised_freeVerdict? (hlive : i.Live) {v : Verdict} (hv : freeVerdict? lt t s i = some v) :
    Promised lt t s i v := by
  rw [freeVerdict?] at hv
  split at hv
  · cases hv
  · rename_i r h hc
    split_ifs at hv with hstart
    obtain ⟨hr, hfree⟩ := freeOver_of_choose ht hlive.range hs hp hc hstart
    split at hv
    · obtain rfl := Option.some.inj hv
      exact ⟨hr, hfree.mono fun q hq => ⟨hq, Horizon.pos_lt_never⟩⟩
    · rename_i p
      split_ifs at hv with hstop
      · obtain rfl := Option.some.inj hv
        refine ⟨hr, hfree.mono fun q hq => ⟨hq, Horizon.pos_lt_pos.2 ?_⟩⟩
        exact lt_of_le_of_lt (hlive.le_stop hq) hstop
      · obtain rfl := Option.some.inj hv
        exact ⟨hr, hfree.mono fun q hq => ⟨hq.1, Horizon.pos_lt_pos.2 hq.2⟩⟩

include ht in
/-- What a verdict for a blocked register promises. -/
theorem promised_blockedVerdict : Promised lt t s i (blockedVerdict lt t s i) := by
  have hnodup : (neededAt lt t s i).registers.Nodup := registers_neededAt ▸ ht
  rw [blockedVerdict]
  split
  · rename_i hc
    exact registers_neededAt.symm.trans (registers_of_choose_eq_none hc)
  · rename_i r h hc
    dsimp only
    split_ifs
    · trivial
    · trivial
    · trivial
    · have hr := mem_of_choose hnodup hc
      rw [registers_neededAt] at hr
      exact hr

include ht hp hs in
/-- Every verdict keeps its promise. -/
theorem verdict_spec (hlive : i.Live) : Promised lt t s i (verdict lt t s i) := by
  rw [verdict]
  cases hv : freeVerdict? lt t s i with
  | none => exact promised_blockedVerdict ht
  | some v => exact promised_freeVerdict? ht hs hp hlive hv

end Free

end Scan

end RegAlloc
