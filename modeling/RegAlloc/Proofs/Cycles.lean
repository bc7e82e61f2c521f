import Mathlib.Algebra.BigOperators.Finprod
import Mathlib.Data.List.Cycle
import Mathlib.Data.Set.Card
import Mathlib.Dynamics.PeriodicPts.Lemmas

/-!
# Cycles of a relation

`simpleCycles E` are the cycles, of two elements or more and each element once, along which `E` leads from every
element to the next. Where `E` is one to one, an element lies on one cycle at most (`eq_of_mem_simpleCycles`), and it
lies on one if `E` leads on from wherever it leads to (`exists_simpleCycle`). Taking an element out of a cycle, and
leading past it instead, shortens this cycle by one element and leaves all others as they are
(`Bypass.count_simpleCycles`).
-/

namespace RegAlloc

/-- The cycles of at least two elements in a graph with the edges `E`. -/
def simpleCycles {α : Type} (E : α → α → Prop) : Set (Cycle α) := {c | c.Nodup ∧ 2 ≤ c.length ∧ c.Chain E}

section Cycles

variable {α : Type} {E F : α → α → Prop} {a b u v w : α} {c d : Cycle α} {l m : List α}

/-- A finite graph has finitely many simple cycles. -/
theorem finite_simpleCycles [Finite α] (E : α → α → Prop) : (simpleCycles E).Finite := by
  classical
  have := Fintype.ofFinite α
  have hnodup : Finite {c : Cycle α // c.Nodup} := inferInstance
  exact (Set.finite_coe_iff.1 hnodup).subset fun c hc => hc.1

/-- A cycle can be written down from any of its elements. -/
theorem exists_cycle_cons (h : a ∈ c) : ∃ l : List α, c = ↑(a :: l) := by
  induction c using Quotient.inductionOn' with
  | _ l =>
    obtain ⟨s, t, rfl⟩ := List.append_of_mem (Cycle.mem_coe_iff.1 h)
    exact ⟨t ++ s, Cycle.coe_eq_coe.2 List.isRotated_append⟩

/-- A chain in one graph is a chain in another one that has its edges between the same points. -/
theorem chain_imp_of_mem (h : ∀ u ∈ c, ∀ v ∈ c, E u v → F u v) (hc : c.Chain E) : c.Chain F := by
  induction c using Cycle.induction_on with
  | nil => exact Cycle.Chain.nil F
  | cons a l _ =>
    rw [Cycle.chain_coe_cons] at hc ⊢
    have hmem : ∀ u ∈ a :: (l ++ [a]), u ∈ (↑(a :: l) : Cycle α) := by simp [or_comm]
    exact hc.imp_of_mem_imp fun u v hu hv => h u (hmem u hu) v (hmem v hv)

/-- From every element of a cycle an edge leads on. -/
theorem exists_next (hc : c.Chain E) (h : a ∈ c) : ∃ w ∈ c, E a w := by
  obtain ⟨l, rfl⟩ := exists_cycle_cons h
  rw [Cycle.chain_coe_cons] at hc
  cases l with
  | nil => exact ⟨a, h, (List.isChain_cons_cons.1 hc).1⟩
  | cons w l => exact ⟨w, by simp, (List.isChain_cons_cons.1 hc).1⟩

/-- To every element of a cycle an edge leads from another one. -/
theorem exists_previous (hc : c ∈ simpleCycles E) (h : a ∈ c) : ∃ u ∈ c, u ≠ a ∧ E u a := by
  obtain ⟨l, rfl⟩ := exists_cycle_cons h
  obtain ⟨hnd, hlen, hchain⟩ := hc
  have hl : l ≠ [] := by
    rintro rfl
    simp at hlen
  obtain ⟨s, u, rfl⟩ := (List.eq_nil_or_concat' l).resolve_left hl
  rw [Cycle.nodup_coe_iff, List.nodup_cons] at hnd
  have hu : u ∈ s ++ [u] := List.mem_append_right s List.mem_cons_self
  refine ⟨u, Cycle.mem_coe_iff.2 (List.mem_cons_of_mem a hu), fun heq => hnd.1 (heq ▸ hu), ?_⟩
  rw [Cycle.chain_coe_cons, List.append_assoc] at hchain
  exact (List.isChain_cons_append_cons_cons.1 hchain).2.1

/-- Two paths with the same ends are equal, if they do not pass through their last element and every element leads to
one other only. -/
theorem path_unique (hE : ∀ u v w, E u v → E u w → v = w) (hl : List.IsChain E (u :: (l ++ [a])))
    (hm : List.IsChain E (u :: (m ++ [a]))) (hal : a ∉ l) (ham : a ∉ m) : l = m := by
  induction l generalizing u m with
  | nil =>
    cases m with
    | nil => rfl
    | cons v m =>
      have hv := hE _ _ _ (List.isChain_cons_cons.1 hl).1 (List.isChain_cons_cons.1 hm).1
      exact absurd (hv ▸ List.mem_cons_self) ham
  | cons w l ih =>
    obtain ⟨huw, hl⟩ := List.isChain_cons_cons.1 hl
    cases m with
    | nil =>
      have hw := hE _ _ _ huw (List.isChain_cons_cons.1 hm).1
      exact absurd (hw ▸ List.mem_cons_self) hal
    | cons v m =>
      obtain ⟨huv, hm⟩ := List.isChain_cons_cons.1 hm
      obtain rfl := hE _ _ _ huw huv
      rw [ih hl hm (fun h => hal (List.mem_cons_of_mem _ h)) (fun h => ham (List.mem_cons_of_mem _ h))]

/-- Where every element leads to one other only, cycles with a common element are equal. -/
theorem eq_of_mem_simpleCycles (hE : ∀ u v w, E u v → E u w → v = w) (hc : c ∈ simpleCycles E) (hd : d ∈ simpleCycles E)
    (hac : a ∈ c) (had : a ∈ d) : c = d := by
  obtain ⟨l, rfl⟩ := exists_cycle_cons hac
  obtain ⟨m, rfl⟩ := exists_cycle_cons had
  obtain ⟨hlnd, -, hl⟩ := hc
  obtain ⟨hmnd, -, hm⟩ := hd
  rw [Cycle.nodup_coe_iff, List.nodup_cons] at hlnd hmnd
  rw [path_unique hE hl hm hlnd.1 hmnd.1]

/-- Where edges to one element come from one element, and lead on, every edge lies on a cycle. -/
theorem exists_simpleCycle [Finite α] (hE : ∀ u v w, E u w → E v w → u = v) (hirrefl : ∀ u, ¬E u u)
    (hon : ∀ u v, E u v → ∃ w, E v w) (h : E a b) : ∃ c ∈ simpleCycles E, a ∈ c := by
  classical
  -- Follow the edges, and stand still where there is none.
  let step : α → α := fun u => if h : ∃ v, E u v then h.choose else u
  have hstep : ∀ {u}, (∃ v, E u v) → E u (step u) := by
    intro u hu
    simp only [step, dif_pos hu]
    exact hu.choose_spec
  have hstand : ∀ {u}, (¬∃ v, E u v) → step u = u := fun hu => dif_neg hu
  have hinj : Function.Injective step := by
    intro u v heq
    by_cases hu : ∃ w, E u w <;> by_cases hv : ∃ w, E v w
    · exact hE u v _ (hstep hu) (heq ▸ hstep hv)
    · exact absurd (hon u v (hstand hv ▸ heq ▸ hstep hu)) hv
    · exact absurd (hon v u (hstand hu ▸ heq ▸ hstep hv)) hu
    · rwa [hstand hu, hstand hv] at heq
  have hperiodic := hinj.mem_periodicPts a
  have hedge : ∀ n, E (step^[n] a) (step^[n + 1] a) := by
    intro n
    rw [Function.iterate_succ_apply']
    apply hstep
    induction n with
    | zero => exact ⟨b, h⟩
    | succ n ih =>
      rw [Function.iterate_succ_apply']
      exact hon _ _ (hstep ih)
  refine ⟨Function.periodicOrbit step a, ⟨Function.nodup_periodicOrbit, ?_, ?_⟩,
    Function.self_mem_periodicOrbit hperiodic⟩
  · rw [Function.periodicOrbit_length]
    have hpos := Function.minimalPeriod_pos_of_mem_periodicPts hperiodic
    have hne : Function.minimalPeriod step a ≠ 1 := by
      intro hone
      have hfixed : step a = a := Function.minimalPeriod_eq_one_iff_isFixedPt.1 hone
      have hloop := hedge 0
      rw [Function.iterate_one, Function.iterate_zero, id_eq, hfixed] at hloop
      exact hirrefl a hloop
    omega
  · exact (Function.periodicOrbit_chain' E hperiodic).2 hedge

/-- The cycles through an element and those that pass it by. -/
theorem simpleCycles_eq_insert (hE : ∀ u v w, E u v → E u w → v = w) (hc : c ∈ simpleCycles E) (ha : a ∈ c) :
    simpleCycles E = insert c {d ∈ simpleCycles E | a ∉ d} := by
  ext d
  constructor
  · intro hd
    by_cases had : a ∈ d
    · exact .inl (eq_of_mem_simpleCycles hE hd hc had ha)
    · exact .inr ⟨hd, had⟩
  · rintro (rfl | hd)
    · exact hc
    · exact hd.1

/-- `E` is one to one and leads from `a` to `b`. `F` leads from `a` to where `E` leads from `b`, and otherwise as
`E`. -/
structure Bypass (E F : α → α → Prop) (a b : α) : Prop where
  out : ∀ u v w, E u v → E u w → v = w
  into : ∀ u v w, E u w → E v w → u = v
  edge : E a b
  edges : ∀ u v, F u v ↔ (u = a ∧ v ≠ a ∧ E b v) ∨ (u ≠ a ∧ u ≠ b ∧ E u v)

namespace Bypass

/-- After the bypass every point still has one way out. -/
theorem out_right (h : Bypass E F a b) : ∀ u v w, F u v → F u w → v = w := by
  intro u v w huv huw
  rcases (h.edges u v).1 huv with ⟨rfl, -, hv⟩ | ⟨hua, -, hv⟩
  · rcases (h.edges u w).1 huw with ⟨-, -, hw⟩ | ⟨hua, -⟩
    · exact h.out _ _ _ hv hw
    · exact absurd rfl hua
  · rcases (h.edges u w).1 huw with ⟨rfl, -⟩ | ⟨-, -, hw⟩
    · exact absurd rfl hua
    · exact h.out _ _ _ hv hw

/-- The cycles that pass `a` by stay as they are. -/
theorem others (h : Bypass E F a b) : {c ∈ simpleCycles F | a ∉ c} = {c ∈ simpleCycles E | a ∉ c} := by
  ext c
  constructor
  · rintro ⟨⟨hnd, hlen, hc⟩, ha⟩
    refine ⟨⟨hnd, hlen, chain_imp_of_mem (fun u hu v _ huv => ?_) hc⟩, ha⟩
    rcases (h.edges u v).1 huv with ⟨rfl, -⟩ | ⟨-, -, huv⟩
    · exact absurd hu ha
    · exact huv
  · rintro ⟨⟨hnd, hlen, hc⟩, ha⟩
    have hb : b ∉ c := by
      intro hb
      obtain ⟨u, hu, -, hub⟩ := exists_previous ⟨hnd, hlen, hc⟩ hb
      exact ha (h.into _ _ _ hub h.edge ▸ hu)
    refine ⟨⟨hnd, hlen, chain_imp_of_mem (fun u hu v _ huv => ?_) hc⟩, ha⟩
    exact (h.edges u v).2 (.inr ⟨fun heq => ha (heq ▸ hu), fun heq => hb (heq ▸ hu), huv⟩)

/-- A cycle through `a` goes on to `b`. -/
theorem exists_cons_cons (h : Bypass E F a b) (hc : c ∈ simpleCycles E) (ha : a ∈ c) :
    ∃ l : List α, c = ↑(a :: b :: l) := by
  obtain ⟨l, rfl⟩ := exists_cycle_cons ha
  obtain ⟨-, hlen, hc⟩ := hc
  cases l with
  | nil => simp at hlen
  | cons w l =>
    obtain rfl := h.out _ _ _ h.edge (List.isChain_cons_cons.1 hc).1
    exact ⟨l, rfl⟩

/-- If the cycle consists of `a` and `b` alone, nothing is left of it. -/
theorem notMem_of_edge (h : Bypass E F a b) (hba : E b a) (hc : c ∈ simpleCycles F) : a ∉ c := by
  intro ha
  obtain ⟨w, -, haw⟩ := exists_next hc.2.2 ha
  rcases (h.edges a w).1 haw with ⟨-, hwa, hbw⟩ | ⟨haa, -⟩
  · exact hwa (h.out _ _ _ hbw hba)
  · exact haa rfl

/-- A longer cycle is left without `b`. -/
theorem mem_simpleCycles (h : Bypass E F a b) (hc : ↑(a :: b :: w :: l) ∈ simpleCycles E) :
    ↑(a :: w :: l) ∈ simpleCycles F := by
  obtain ⟨hnd, -, hchain⟩ := hc
  rw [Cycle.nodup_coe_iff] at hnd
  obtain ⟨-, hchain⟩ := List.isChain_cons_cons.1 hchain
  obtain ⟨hbw, hchain⟩ := List.isChain_cons_cons.1 hchain
  obtain ⟨ha, hnd'⟩ := List.nodup_cons.1 hnd
  have hb : b ∉ w :: (l ++ [a]) := by
    intro hb
    rw [← List.cons_append] at hb
    rcases List.mem_append.1 hb with hb | hb
    · exact (List.nodup_cons.1 hnd').1 hb
    · exact ha (List.mem_singleton.1 hb ▸ List.mem_cons_self)
  have hwa : w ≠ a := fun heq => ha (heq ▸ List.mem_cons_of_mem b List.mem_cons_self)
  refine ⟨?_, by simp, ?_⟩
  · rw [Cycle.nodup_coe_iff]
    exact hnd.sublist (.cons_cons a (List.sublist_cons_self b _))
  · refine List.isChain_cons_cons.2 ⟨(h.edges a w).2 (.inl ⟨rfl, hwa, hbw⟩),
      hchain.imp_of_mem_imp fun u v hu hv huv => ?_⟩
    refine (h.edges u v).2 (.inr ⟨?_, fun hub => hb (hub ▸ hu), huv⟩)
    -- `a` leads to `b` only, which is not on the rest of the cycle.
    rintro rfl
    exact hb (h.out _ _ _ h.edge huv ▸ hv)

/-- What becomes of the cycles: the one through `a` and `b` is shorter by one element, and gone if it had no others. -/
theorem count_simpleCycles [Finite α] (h : Bypass E F a b) (hcycle : ∃ c ∈ simpleCycles E, a ∈ c) :
    (∑ᶠ c ∈ simpleCycles E, (c.length - 1)) = (∑ᶠ c ∈ simpleCycles F, (c.length - 1)) + 1 ∧
      (E b a → (simpleCycles E).ncard = (simpleCycles F).ncard + 1) ∧
      (¬E b a → (simpleCycles E).ncard = (simpleCycles F).ncard) := by
  obtain ⟨c, hc, ha⟩ := hcycle
  obtain ⟨l, rfl⟩ := h.exists_cons_cons hc ha
  have hEs := simpleCycles_eq_insert h.out hc ha
  have hfin : {d ∈ simpleCycles E | a ∉ d}.Finite := (finite_simpleCycles E).subset fun d hd => hd.1
  have hnot : ∀ {m : List α}, (↑(a :: m) : Cycle α) ∉ {d ∈ simpleCycles E | a ∉ d} := fun hm => hm.2 (by simp)
  rw [hEs, finsum_mem_insert _ hnot hfin, Set.ncard_insert_of_notMem hnot hfin]
  cases l with
  | nil =>
    have hba : E b a := (List.isChain_cons_cons.1 (List.isChain_cons_cons.1 hc.2.2).2).1
    have hFs : simpleCycles F = {d ∈ simpleCycles E | a ∉ d} := by
      rw [← h.others]
      exact (Set.sep_eq_self_iff_mem_true.2 fun d hd => h.notMem_of_edge hba hd).symm
    rw [hFs]
    exact ⟨Nat.add_comm _ _, fun _ => rfl, fun hnba => absurd hba hnba⟩
  | cons w l =>
    have hF := h.mem_simpleCycles hc
    have hFs := simpleCycles_eq_insert h.out_right hF (a := a) (by simp)
    rw [h.others] at hFs
    rw [hFs, finsum_mem_insert _ hnot hfin, Set.ncard_insert_of_notMem hnot hfin]
    refine ⟨?_, fun hba => ?_, fun _ => rfl⟩
    · simp only [Cycle.length_coe, List.length_cons]
      omega
    · -- `b` leads to the next element of the cycle, which is not `a`.
      have hbw := (List.isChain_cons_cons.1 (List.isChain_cons_cons.1 hc.2.2).2).1
      have hnd := Cycle.nodup_coe_iff.1 hc.1
      simp [h.out _ _ _ hba hbw] at hnd

end Bypass

/-- Edges can be left out if they are on no cycle. -/
theorem simpleCycles_eq_of_imp (hF : ∀ u v, F u v → E u v) (hE : ∀ c ∈ simpleCycles E, ∀ u v, v ∈ c → E u v → F u v) :
    simpleCycles F = simpleCycles E := by
  ext c
  constructor
  · rintro ⟨hnd, hlen, hc⟩
    exact ⟨hnd, hlen, hc.imp hF⟩
  · intro hc
    exact ⟨hc.1, hc.2.1, chain_imp_of_mem (fun u _ v hv huv => hE c hc u v hv huv) hc.2.2⟩

/-- An edge to an element that leads nowhere is on no cycle. -/
theorem simpleCycles_eq_of_dead_end (hb : ∀ v, ¬E b v) (hF : ∀ u v, F u v ↔ E u v ∧ v ≠ b) :
    simpleCycles F = simpleCycles E := by
  refine simpleCycles_eq_of_imp (fun u v huv => ((hF u v).1 huv).1) fun c hc u v hv huv => (hF u v).2 ⟨huv, ?_⟩
  rintro rfl
  obtain ⟨w, -, hw⟩ := exists_next hc.2.2 hv
  exact hb w hw

/-- An edge from an element to itself is on no cycle, if no other edge leads there. -/
theorem simpleCycles_eq_of_loops (hE : ∀ u v w, E u w → E v w → u = v) (hF : ∀ u v, F u v ↔ E u v ∧ u ≠ v) :
    simpleCycles F = simpleCycles E := by
  refine simpleCycles_eq_of_imp (fun u v huv => ((hF u v).1 huv).1) fun c hc u v hv huv => (hF u v).2 ⟨huv, ?_⟩
  rintro rfl
  obtain ⟨w, -, hwu, hw⟩ := exists_previous hc hv
  exact hwu (hE _ _ _ hw huv)

theorem simpleCycles_eq_empty (hE : ∀ u v, ¬E u v) : simpleCycles E = ∅ := by
  rw [Set.eq_empty_iff_forall_notMem]
  rintro c ⟨-, hlen, hc⟩
  induction c using Cycle.induction_on with
  | nil => simp at hlen
  | cons a l _ =>
    obtain ⟨w, -, hw⟩ := exists_next (a := a) hc (by simp)
    exact hE a w hw

end Cycles

end RegAlloc
