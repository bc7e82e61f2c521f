import RegAlloc.Layout
import RegAlloc.Proofs.Allocation
import RegAlloc.Proofs.Notes

/-!
# Hints of a register to itself

An interval may hold the hint to share a physical register with its own register. Nothing follows from such a hint:
intervals that are the same without it (`Interval.unlinked`) are treated the same from the scan
(`Scan.complete_unlinked`) to the code of the function (`Layout.ofAllocation_unlinked`). Every function on the way
commutes with leaving the hints out.
-/

namespace RegAlloc

section Except

variable {ε α α' β β' : Type}

/-- Two computations that commute with a change of view at their seam commute with it as a whole. -/
theorem map_bind_of {x : Except ε α} {f : α → Except ε β} {g : α → α'} {h : β → β'} {f' : α' → Except ε β'}
    (hf : ∀ a, (f a).map h = f' (g a)) : (x >>= f).map h = x.map g >>= f' := by
  cases x with
  | error e => rfl
  | ok a => exact hf a

/-- A loop commutes with a change of view of its state if every step does. -/
theorem map_foldlM_of {g : α → β → Except ε α} {g' : α' → β → Except ε α'} {h : α → α'}
    (hg : ∀ a b, (g a b).map h = g' (h a) b) (l : List β) (a : α) : (l.foldlM g a).map h = l.foldlM g' (h a) := by
  induction l generalizing a with
  | nil => rfl
  | cons b l ih =>
    rw [List.foldlM_cons, List.foldlM_cons, ← hg]
    exact map_bind_of fun a => ih a

end Except

/-! ## Intervals -/

namespace Interval

variable {i j : Interval} {p : Position}

/-- The interval without the hint to share a physical register with its own register. -/
def unlinked (i : Interval) : Interval :=
  { i with
    startHints := i.startHints.filter (fun r => r ≠ .virt i.register)
    stopHints := i.stopHints.filter (fun r => r ≠ .virt i.register) }

@[simp] theorem unlinked_register (i : Interval) : i.unlinked.register = i.register := rfl

@[simp] theorem unlinked_range (i : Interval) : i.unlinked.range = i.range := rfl

@[simp] theorem unlinked_sites (i : Interval) : i.unlinked.sites = i.sites := rfl

@[simp] theorem unlinked_start (i : Interval) : i.unlinked.start = i.start := rfl

@[simp] theorem unlinked_stop (i : Interval) : i.unlinked.stop = i.stop := rfl

/-- Cutting an interval commutes with leaving out its hints to itself. -/
theorem splitBefore_unlinked (i : Interval) (p : Position) :
    i.unlinked.splitBefore p = (i.splitBefore p).map (fun e => (e.1.unlinked, e.2.unlinked)) := by
  rw [splitBefore, splitBefore]
  by_cases h : p ≤ i.start ∨ i.stop < p
  · rw [if_pos h, if_pos (show p ≤ i.unlinked.start ∨ i.unlinked.stop < p from h)]
    rfl
  · rw [if_neg h, if_neg (show ¬(p ≤ i.unlinked.start ∨ i.unlinked.stop < p) from h)]
    rfl

/-- Intervals of one register are joined the same without hints to it. -/
theorem join_unlinked (h : i.register = j.register) : (i.join j).unlinked = i.unlinked.join j.unlinked := by
  simp only [join, unlinked, h]

end Interval

/-- The interval of a register in the list without such hints is its interval without them. -/
theorem interval_map_unlinked (l : List Interval) (v : VirtReg) :
    Note.interval (l.map Interval.unlinked) v = (Note.interval l v).unlinked := by
  rw [Note.interval, Note.interval, List.find?_map]
  have hregister : (fun i : Interval => decide (i.register = v)) ∘ Interval.unlinked =
      fun i => decide (i.register = v) := rfl
  rw [hregister]
  cases l.find? (fun i => i.register = v) with
  | none => rfl
  | some i => rfl

/-- The lifetimes without hints of a register to itself. -/
def Lifetimes.unlinked (lt : Lifetimes) : Lifetimes := { lt with intervals := lt.intervals.map Interval.unlinked }

@[simp] theorem Lifetimes.unlinked_pinned (lt : Lifetimes) : lt.unlinked.pinned = lt.pinned := rfl

/-! ## Pieces -/

/-- The piece without hints of its register to itself. -/
def Piece.unlinked (x : Piece) : Piece := { x with interval := x.interval.unlinked }

/-- The split without hints of its register to itself. -/
def Split.unlinked (x : Split) : Split := { x with interval := x.interval.unlinked }

@[simp] theorem Split.unlinked_id (x : Split) : x.unlinked.id = x.id := rfl

@[simp] theorem Split.unlinked_register (x : Split) : x.unlinked.register = x.register := rfl

@[simp] theorem Split.unlinked_interval (x : Split) : x.unlinked.interval = x.interval.unlinked := rfl

/-- Changing one piece commutes with leaving the hints out, if the change does. -/
theorem map_modify_unlinked {g h : Piece → Piece} (hg : ∀ x, (g x).unlinked = h x.unlinked) (l : List Piece) (n : Nat) :
    (l.modify n g).map Piece.unlinked = (l.map Piece.unlinked).modify n h := by
  refine List.ext_getElem? fun k => ?_
  rw [List.getElem?_map, List.getElem?_modify, List.getElem?_modify, List.getElem?_map]
  cases l[k]? with
  | none => rfl
  | some x =>
    simp only [Option.map_some]
    split_ifs
    · exact congrArg some (hg x)
    · rfl

/-- Splits are placed by where they start, which hints do not tell. -/
theorem map_placeBy_unlinked (x : Split) (l : List Split) :
    (placeBy (fun y => y.interval.start) x l).map Split.unlinked =
      placeBy (fun y => y.interval.start) x.unlinked (l.map Split.unlinked) := by
  induction l with
  | nil => rfl
  | cons y l ih =>
    rw [placeBy, List.map_cons, placeBy]
    by_cases h : y.interval.start < x.interval.start
    · rw [if_pos h, if_pos (show y.unlinked.interval.start < x.unlinked.interval.start from h), List.map_cons, ih]
    · rw [if_neg h, if_neg (show ¬y.unlinked.interval.start < x.unlinked.interval.start from h)]
      rfl

namespace Scan

variable {lt : Lifetimes} {t : Target} {s : Scan} {i : Interval} {n : Nat} {r : PhysReg} {p : Position}

/-- The state without hints of a register to itself. -/
def unlinked (s : Scan) : Scan := { s with pieces := s.pieces.map Piece.unlinked }

/-- The interval of a piece is the same up to its hints to itself. -/
@[simp] theorem interval_unlinked (s : Scan) (n : Nat) : s.unlinked.interval n = (s.interval n).unlinked := by
  simp only [interval, unlinked, List.getElem?_map]
  cases s.pieces[n]? with
  | none => rfl
  | some x => rfl

/-- Which register a piece has does not depend on hints. -/
@[simp] theorem register?_unlinked (s : Scan) (n : Nat) : s.unlinked.register? n = s.register? n := by
  simp only [register?, unlinked, List.getElem?_map]
  cases s.pieces[n]? with
  | none => rfl
  | some x => rfl

/-- A change of a piece that does not look at hints commutes with leaving them out. -/
theorem modify_unlinked {g : Piece → Piece} (hg : ∀ x, (g x).unlinked = g x.unlinked) (s : Scan) (n : Nat) :
    (s.modify n g).unlinked = s.unlinked.modify n g := by
  simp only [unlinked, modify, map_modify_unlinked hg]

/-- The splits of a register are the same up to hints to itself. -/
theorem splits_unlinked (s : Scan) (v : VirtReg) : s.unlinked.splits v = (s.splits v).map Split.unlinked := by
  have hfold : ∀ l acc : List Split,
      (l.foldl (fun l x => placeBy (fun y => y.interval.start) x l) acc).map Split.unlinked =
        (l.map Split.unlinked).foldl (fun l x => placeBy (fun y => y.interval.start) x l)
          (acc.map Split.unlinked) := by
    intro l
    induction l with
    | nil => exact fun acc => rfl
    | cons x l ih =>
      intro acc
      rw [List.foldl_cons, ih, map_placeBy_unlinked]
      rfl
  rw [splits, splits, hfold]
  simp only [unlinked, List.zipIdx_map, List.filter_map, List.map_map]
  rfl

/-! ## Decisions -/

/-- What a hint stands for is read off registers and starts of splits. -/
theorem resolveHint_unlinked (pick : List Split → Option Split)
    (hpick : ∀ l : List Split, pick (l.map Split.unlinked) = (pick l).map Split.unlinked) (s : Scan) (i : Interval)
    (h : Register) :
    s.unlinked.resolveHint i.unlinked pick h = s.resolveHint i pick h := by
  cases h with
  | phys q => rfl
  | virt v =>
    simp only [resolveHint, splits_unlinked, hpick, Interval.unlinked_register]
    cases pick (s.splits v) with
    | none => rfl
    | some x => rfl

/-- A hint of a register to itself stands for nothing. -/
theorem filterMap_resolveHint (pick : List Split → Option Split) (hints : List Register) :
    (hints.filter (fun h => h ≠ .virt i.register)).filterMap (s.resolveHint i pick) =
      hints.filterMap (s.resolveHint i pick) := by
  induction hints with
  | nil => rfl
  | cons h hints ih =>
    by_cases hself : h = .virt i.register
    · have hnone : s.resolveHint i pick h = none := by simp [hself, resolveHint]
      rw [List.filter_cons_of_neg (by simp [hself]), List.filterMap_cons_none hnone, ih]
    · rw [List.filter_cons_of_pos (by simp [hself]), List.filterMap_cons, List.filterMap_cons, ih]

/-- An interval prefers the same registers without the hint to itself, which stands for nothing. -/
theorem preferred_unlinked (s : Scan) (i : Interval) : s.unlinked.preferred i.unlinked = s.preferred i := by
  have hlast := resolveHint_unlinked List.getLast? (fun l => List.getLast?_map) s i
  have hhead := resolveHint_unlinked List.head? (fun l => List.head?_map) s i
  simp only [preferred, funext hlast, funext hhead]
  simp only [Interval.unlinked, filterMap_resolveHint]

theorem choose_unlinked (s : Scan) (i : Interval) (c : Conflicts) : s.unlinked.choose i.unlinked c = s.choose i c := by
  rw [choose, choose, preferred_unlinked]
  rfl

/-- How long registers stay free does not depend on hints. -/
theorem freeUntil_unlinked (s : Scan) (i : Interval) :
    freeUntil lt.unlinked t s.unlinked i.unlinked = freeUntil lt t s i := by
  have hactive : s.unlinked.addActive i.unlinked = s.addActive i := by
    funext c n
    simp only [addActive, register?_unlinked, Interval.unlinked_start]
  have hinactive : s.unlinked.addInactive i.unlinked = s.addInactive i := by
    funext c n
    simp only [addInactive, register?_unlinked, interval_unlinked, Interval.unlinked_range]
  rw [freeUntil, freeUntil, hactive, hinactive]
  rfl

/-- Where registers are needed next does not depend on hints either. -/
theorem neededAt_unlinked (s : Scan) (i : Interval) :
    neededAt lt.unlinked t s.unlinked i.unlinked = neededAt lt t s i := by
  have howner : s.unlinked.addOwner i.unlinked = s.addOwner i := by
    funext c n
    simp only [addOwner, register?_unlinked, interval_unlinked, Interval.unlinked_range]
    rfl
  rw [neededAt, neededAt, howner]
  rfl

/-- The verdict on a piece is the same without hints of its register to itself. -/
theorem verdict_unlinked (s : Scan) (i : Interval) :
    s.unlinked.verdict lt.unlinked t i.unlinked = s.verdict lt t i := by
  have hfree : freeVerdict? lt.unlinked t s.unlinked i.unlinked = freeVerdict? lt t s i := by
    rw [freeVerdict?, freeVerdict?, freeUntil_unlinked, choose_unlinked]
    rfl
  have hblocked : blockedVerdict lt.unlinked t s.unlinked i.unlinked = blockedVerdict lt t s i := by
    rw [blockedVerdict, blockedVerdict, neededAt_unlinked, choose_unlinked]
    rfl
  rw [verdict, verdict, hfree, hblocked]

/-! ## Steps -/

/-- A piece is cut at the same positions. -/
theorem cut_unlinked (s : Scan) (n : Nat) (p : Position) : (s.cut n p).map unlinked = s.unlinked.cut n p := by
  rw [cut, cut, interval_unlinked, Interval.splitBefore_unlinked]
  refine map_bind_of fun e => ?_
  have hpieces : (s.pieces.modify n (fun x => { x with interval := e.1 }) ++ [(⟨e.2, none, false⟩ : Piece)]).map
    Piece.unlinked = (s.pieces.map Piece.unlinked).modify n (fun x => { x with interval := e.1.unlinked }) ++
        [⟨e.2.unlinked, none, false⟩] := by
    rw [List.map_append, map_modify_unlinked (h := fun x => { x with interval := e.1.unlinked }) (fun x => rfl)]
    rfl
  simp only [Except.map, pure, Except.pure, unlinked, hpieces, List.length_map]
  rfl

theorem spill_unlinked (s : Scan) (n : Nat) : (s.spill lt n).unlinked = s.unlinked.spill lt.unlinked n := by
  simp only [spill, interval_unlinked, Lifetimes.unlinked, interval_map_unlinked, Interval.unlinked_register,
    Interval.unlinked_start, Interval.unlinked_stop]
  rfl

/-- A piece is suspended up to the same position. -/
theorem suspend_unlinked (s : Scan) (n : Nat) (h : Horizon) :
    (s.suspend lt n h).map unlinked = s.unlinked.suspend lt.unlinked n h := by
  cases h with
  | never => exact congrArg Except.ok (spill_unlinked s n)
  | pos p =>
    simp only [suspend, interval_unlinked, Interval.unlinked_stop]
    split_ifs
    · exact congrArg Except.ok (spill_unlinked s n)
    · rw [cut_unlinked, spill_unlinked]

/-- A register is assigned, or found to be assigned already, in the same way. -/
theorem assign_unlinked (s : Scan) (n : Nat) (r : PhysReg) : (s.assign n r).map unlinked = s.unlinked.assign n r := by
  rw [assign, assign, register?_unlinked, interval_unlinked]
  cases s.register? n with
  | some q => rfl
  | none =>
    have hgiven : (s.modify n (fun x => { x with register := some r, listed := true })).unlinked =
        s.unlinked.modify n (fun x => { x with register := some r, listed := true }) :=
      modify_unlinked (g := fun x => { x with register := some r, listed := true }) (fun x => rfl) s n
    simp only [Except.map, ← hgiven, register?_unlinked]
    rfl

/-- The owner of a register is evicted in the same way. -/
theorem evictActive_unlinked (lt : Lifetimes) (p : Position) (s : Scan) (n : Nat) :
    (s.evictActive lt p n).map unlinked = s.unlinked.evictActive lt.unlinked p n := by
  rw [evictActive, evictActive, interval_unlinked, Interval.unlinked_start]
  split_ifs
  · exact suspend_unlinked s n _
  · have hfreed : (s.modify n (fun x => { x with register := none })).unlinked =
        s.unlinked.modify n (fun x => { x with register := none }) :=
      modify_unlinked (g := fun x => { x with register := none }) (fun x => rfl) s n
    simp only [suspend_unlinked, ← hfreed]
    rfl

/-- An inactive owner is evicted in the same way. -/
theorem evictInactive_unlinked (lt : Lifetimes) (n : Nat) (s : Scan) (m : Nat) :
    (s.evictInactive lt n m).map unlinked = s.unlinked.evictInactive lt.unlinked n m := by
  simp only [evictInactive, interval_unlinked, Interval.unlinked_range]
  cases (s.interval m).range.firstMeeting (s.interval n).range with
  | none => rfl
  | some p => exact suspend_unlinked s m _

theorem evict_unlinked (s : Scan) (n : Nat) (r : PhysReg) :
    (s.evict lt n r).map unlinked = s.unlinked.evict lt.unlinked n r := by
  simp only [evict, register?_unlinked, interval_unlinked, Interval.unlinked_start, Lifetimes.unlinked_pinned]
  have hactive := map_foldlM_of (evictActive_unlinked lt (s.interval n).start)
    (s.active.filter (fun m => s.register? m = some r)) s
  refine (map_bind_of (g := unlinked) fun s₁ => ?_).trans (congrArg (· >>= _) hactive)
  have hinactive :=
    map_foldlM_of (evictInactive_unlinked lt n) (s₁.inactive.filter (fun m => s₁.register? m = some r)) s₁
  simp only [register?_unlinked]
  refine (map_bind_of (g := unlinked) fun s₂ => ?_).trans (congrArg (· >>= _) hinactive)
  rw [← assign_unlinked]
  refine map_bind_of (g := unlinked) fun s₃ => ?_
  simp only [interval_unlinked, Interval.unlinked_range]
  cases (lookupBy r lt.pinned).bind (fun range => range.firstMeeting (s₃.interval n).range) with
  | none => rfl
  | some p => exact suspend_unlinked s₃ n _

theorem carryOut_unlinked (s : Scan) (n : Nat) (v : Verdict) :
    (s.carryOut lt n v).map unlinked = s.unlinked.carryOut lt.unlinked n v := by
  cases v with
  | take r => exact assign_unlinked s n r
  | takeUntil r p =>
    rw [carryOut, carryOut, ← suspend_unlinked]
    exact map_bind_of fun s₁ => assign_unlinked s₁ n r
  | wait h =>
    rw [carryOut, carryOut, ← suspend_unlinked]
    exact map_bind_of fun s₁ =>
      congrArg Except.ok (modify_unlinked (g := fun x => { x with listed := true }) (fun x => rfl) s₁ n)
  | evict r => exact evict_unlinked s n r
  | leave => rfl

/-- One step of the scan commutes with leaving the hints out. -/
theorem step_unlinked (s : Scan) : (s.step lt t).map unlinked = s.unlinked.step lt.unlinked t := by
  have hadvance : ∀ (s : Scan) p, (s.advance p).unlinked = s.unlinked.advance p := by
    intro s p
    have hcovers : s.unlinked.coversAt p = s.coversAt p := funext fun n => by
      simp only [coversAt, interval_unlinked]; rfl
    have hsleeps : s.unlinked.sleepsAt p = s.sleepsAt p := funext fun n => by
      simp only [sleepsAt, interval_unlinked]; rfl
    simp only [advance, hcovers, hsleeps]
    rfl
  have hqueue : s.unlinked.queue = s.queue := rfl
  rw [step, step, hqueue]
  cases h : s.queue with
  | nil => rfl
  | cons ticket rest =>
    have hvisit : ∀ (s : Scan) n, (s.visit lt t n).map unlinked = s.unlinked.visit lt.unlinked t n := by
      intro s n
      rw [visit, visit, carryOut_unlinked, interval_unlinked, Interval.unlinked_start, ← hadvance, interval_unlinked,
        verdict_unlinked]
    exact hvisit { s with queue := rest } ticket.piece

/-- Any number of steps commutes with leaving the hints out, by induction on their number. -/
theorem run_unlinked (steps : Nat) (s : Scan) :
    (run lt t steps s).map unlinked = run lt.unlinked t steps s.unlinked := by
  induction steps generalizing s with
  | zero => rfl
  | succ steps ih =>
    rw [run, run]
    have hqueue : s.unlinked.queue = s.queue := rfl
    rw [hqueue]
    split_ifs
    · rfl
    · rw [← step_unlinked]
      exact map_bind_of ih

/-- The scan decides the same without hints of a register to itself. -/
theorem complete_unlinked (lt : Lifetimes) (t : Target) : (complete lt t).map unlinked = complete lt.unlinked t := by
  have hbudget : budget lt.unlinked = budget lt := by simp only [budget, Lifetimes.unlinked, List.foldr_map]; rfl
  have hinitial : initial lt.unlinked = (initial lt).unlinked := by
    simp only [initial, unlinked, Lifetimes.unlinked, List.filter_map, List.map_map, List.zipIdx_map]
    rfl
  rw [complete, complete, run_unlinked, hbudget, hinitial]

end Scan

/-! ## Allocations -/

namespace Allocation

variable {lt : Lifetimes} {t : Target} {a : Allocation} {f : Function} {p : Position}

/-- The allocation without hints of a register to itself. -/
def unlinked (a : Allocation) : Allocation :=
  { a with splits := a.splits.map (fun e => (e.1, e.2.map Split.unlinked)) }

/-- Idle splits of one register are joined the same. -/
theorem joinIdle_unlinked {v : VirtReg} {l : List Split} {idle : Option Split} (hl : ∀ x ∈ l, x.interval.register = v)
    (hidle : ∀ x, idle = some x → x.interval.register = v) :
    (joinIdle idle l).map Split.unlinked = joinIdle (idle.map Split.unlinked) (l.map Split.unlinked) := by
  induction l generalizing idle with
  | nil => cases idle <;> rfl
  | cons x l ih =>
    have hrest : ∀ y ∈ l, y.interval.register = v := fun y hy => hl y (List.mem_cons_of_mem _ hy)
    have hx : x.interval.register = v := hl x List.mem_cons_self
    have hsites : x.unlinked.interval.hasSites = x.interval.hasSites := rfl
    unfold joinIdle
    simp only [List.map_cons, hsites]
    split_ifs
    · rw [List.map_append, List.map_cons, ih hrest (fun _ h => by cases h)]
      cases idle <;> rfl
    · cases idle with
      | none => exact ih hrest fun y hy => by rw [← Option.some.inj hy]; exact hx
      | some y =>
        have hy : y.interval.register = v := hidle y rfl
        refine (ih hrest fun z hz => by rw [← Option.some.inj hz]; exact hy).trans ?_
        simp only [Option.map_some, Split.unlinked, Interval.join_unlinked (hy.trans hx.symm)]

/-- The splits that the scan decided on are the same. -/
theorem splitsOf_unlinked (lt : Lifetimes) (s : Scan) :
    splitsOf lt.unlinked s.unlinked = (splitsOf lt s).map (fun e => (e.1, e.2.map Split.unlinked)) := by
  have hjoin : ∀ v, joinIdle none (s.unlinked.splits v) = (joinIdle none (s.splits v)).map Split.unlinked := fun v => by
    rw [joinIdle_unlinked (fun x hx => (Scan.mem_splits hx).2.2) (fun _ h => by cases h), Scan.splits_unlinked]
    rfl
  simp only [splitsOf, Lifetimes.unlinked, List.map_map, List.filter_map, Function.comp_def, Interval.unlinked_register,
    hjoin, List.isEmpty_map]

/-- Transfers follow from ranges, sites and registers of splits. -/
theorem transfers_unlinked (v : VirtReg) (slot : Nat) (l : List Split) :
    Transfer.ofSplits v slot (l.map Split.unlinked) = Transfer.ofSplits v slot l := by
  cases l with
  | nil => rfl
  | cons x l =>
    have hlater : (fun x => Transfer.ofLater v slot (Split.unlinked x)) = Transfer.ofLater v slot := rfl
    simp only [List.map_cons, Transfer.ofSplits, List.flatMap_map, hlater]
    rfl

/-- An allocation is made of the same transfers. -/
theorem ofSplits_unlinked (t : Target) (splits : List (VirtReg × List Split)) (slots : List (VirtReg × Nat)) :
    (ofSplits t splits slots).map unlinked =
      ofSplits t (splits.map (fun e => (e.1, e.2.map Split.unlinked))) slots := by
  rw [ofSplits, ofSplits, List.mapM_map]
  simp only [Function.comp_def, transfers_unlinked]
  generalize List.mapM (m := Except Error) _ splits = transfers
  cases transfers with
  | error e => rfl
  | ok l => rfl

/-- The allocation for lifetimes without such hints is the allocation without them. -/
theorem ofLifetimes_unlinked (lt : Lifetimes) (t : Target) :
    (ofLifetimes lt t).map unlinked = ofLifetimes lt.unlinked t := by
  rw [ofLifetimes, ofLifetimes, ← Scan.complete_unlinked]
  refine map_bind_of fun s => ?_
  rw [ofSplits_unlinked, splitsOf_unlinked]
  rfl

/-! ## Places -/

/-- A register has the same splits in the allocation. -/
theorem splitsFor_unlinked (a : Allocation) (v : VirtReg) :
    a.unlinked.splitsFor v = (a.splitsFor v).map Split.unlinked := by
  simp only [splitsFor, unlinked, lookupBy, List.find?_map, Option.map_map]
  have hkey : (fun e : VirtReg × List Split => decide (e.1 = v)) ∘
      (fun e : VirtReg × List Split => (e.1, e.2.map Split.unlinked)) = fun e => decide (e.1 = v) := rfl
  rw [hkey]
  cases a.splits.find? (fun e => e.1 = v) with
  | none => rfl
  | some e => rfl

@[simp] theorem hasRegister_unlinked (a : Allocation) (v : VirtReg) : a.unlinked.hasRegister v = a.hasRegister v := by
  rw [Bool.eq_iff_iff, hasRegister, hasRegister, lookupBy_isSome, lookupBy_isSome]
  simp only [unlinked, List.map_map]
  rfl

theorem splitAt?_unlinked (a : Allocation) (v : VirtReg) (p : Position) :
    a.unlinked.splitAt? v p = (a.splitAt? v p).map Split.unlinked := by
  rw [splitAt?, splitAt?, splitsFor_unlinked, List.find?_map]
  rfl

/-- A register is in the same physical register. -/
@[simp] theorem registerAt?_unlinked (a : Allocation) : a.unlinked.registerAt? = a.registerAt? := by
  funext r p
  cases r with
  | phys q => rfl
  | virt v =>
    simp only [registerAt?, splitAt?_unlinked]
    cases a.splitAt? v p with
    | none => rfl
    | some x => rfl

/-- A register is stored in the same place. -/
@[simp] theorem storage_unlinked (a : Allocation) : a.unlinked.storage = a.storage := by
  funext w r p
  simp only [storage, registerAt?_unlinked]
  rfl

/-- An operand is put in the same place. -/
@[simp] theorem place_unlinked (a : Allocation) : a.unlinked.place = a.place := by
  have haddress : a.unlinked.addressPart = a.addressPart := by
    funext p part
    simp only [addressPart, addressRegister, registerAt?_unlinked]
  funext p o
  simp only [place, storage_unlinked, haddress]

theorem placeBlocks_unlinked (f : Function) (a : Allocation) : placeBlocks f a.unlinked = placeBlocks f a := by
  have hinstruction : a.unlinked.placeInstruction = a.placeInstruction := by
    funext read write i
    cases i <;> simp only [placeInstruction, place_unlinked] <;> rfl
  have hnumbered : a.unlinked.placeNumbered = a.placeNumbered := by
    funext b e
    simp only [placeNumbered, hinstruction]
    rfl
  have hphi : placePhi f a.unlinked = placePhi f a := by
    funext b φ
    have hinput : placeInput f a.unlinked = placeInput f a := funext fun e => by simp only [placeInput, place_unlinked]
    simp only [placePhi, place_unlinked, hasRegister_unlinked, hinput]
  have hblock : placeBlock f a.unlinked = placeBlock f a := by
    funext b
    simp only [placeBlock, hnumbered, hphi]
    rfl
  rw [placeBlocks, placeBlocks, hblock]

end Allocation

/-- Code is laid out the same without hints of a register to itself. -/
theorem Layout.ofAllocation_unlinked (f : Function) (a : Allocation) :
    ofAllocation f a.unlinked = ofAllocation f a := by
  have hlive : ∀ p, a.unlinked.liveAt p = (a.liveAt p).map Split.unlinked := by
    intro p
    simp only [Allocation.liveAt, Allocation.splitAt?_unlinked, List.map_filterMap]
    simp only [Allocation.unlinked, List.filterMap_map]
    rfl
  have hmoves : edgeMoves f a.unlinked = edgeMoves f a := by
    funext placed pred succ
    rw [edgeMoves, edgeMoves, hlive, List.mapM_map]
    have hmove : edgeMove f a.unlinked placed pred succ ∘ Split.unlinked = edgeMove f a placed pred succ := by
      funext x
      simp only [Function.comp_def, edgeMove, Allocation.storage_unlinked, Split.unlinked_interval,
        Interval.unlinked_register]
    rw [hmove]
  have hpatches : patches f a.unlinked = patches f a := by
    funext placed
    have hfrom : patchesFrom f a.unlinked placed = patchesFrom f a placed := funext fun pred => by
      have hbranch : branchPatch f a.unlinked placed pred = branchPatch f a placed pred := funext fun succ => by
        simp only [branchPatch, hmoves]
      simp only [patchesFrom, hmoves, hbranch]
    rw [patches, patches, hfrom]
  rw [ofAllocation, ofAllocation, Allocation.placeBlocks_unlinked, hpatches]

end RegAlloc
