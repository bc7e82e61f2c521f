import RegAlloc.Compile
import Mathlib.Order.Defs.LinearOrder
import Mathlib.Order.RelIso.Basic
import Mathlib.Order.WithBot
import Mathlib.Data.List.Pairwise
import Mathlib.Data.List.Nodup
import Mathlib.Data.List.Perm.Basic

/-!
# Orders and ordered lists

Positions are ordered by block and then by slot: a linear order, in which the slots of a block follow each other
without gaps (`Position.lt_next_iff`). The keys of the library's ordered lists, registers and horizons among them, are
strictly and totally ordered, and then `insertBy` and `placeBy` keep a list in order, and hold what was there before
and what was put in.
-/

namespace RegAlloc

namespace Position

/-- The order of positions, in numbers. -/
theorem lt_def {p q : Position} :
    p < q ↔ @LT.lt Nat _ p.block q.block ∨ @Eq Nat p.block q.block ∧ p.slot < q.slot :=
  Iff.rfl

/-- The order with equality, in numbers. -/
theorem le_def {p q : Position} :
    p ≤ q ↔ @LT.lt Nat _ p.block q.block ∨ @Eq Nat p.block q.block ∧ p.slot ≤ q.slot :=
  Iff.rfl

/-- Positions are equal if block and slot are. -/
theorem eq_def {p q : Position} : p = q ↔ @Eq Nat p.block q.block ∧ p.slot = q.slot := by
  cases p
  cases q
  simp

instance : LinearOrder Position where
  le := (· ≤ ·)
  lt := (· < ·)
  le_refl p := le_def.2 (by omega)
  le_trans p q r hpq hqr := by
    rw [le_def] at *
    omega
  lt_iff_le_not_ge p q := by
    rw [le_def, le_def, lt_def]
    omega
  le_antisymm p q hpq hqp := by
    rw [le_def] at *
    rw [eq_def]
    omega
  le_total p q := by
    rw [le_def, le_def]
    omega
  toDecidableLE := inferInstance
  toDecidableLT := inferInstance
  toDecidableEq := inferInstance

@[simp] theorem next_block (p : Position) : p.next.block = p.block := rfl

@[simp] theorem next_slot (p : Position) : p.next.slot = p.slot + 1 := rfl

theorem lt_next (p : Position) : p < p.next := lt_def.2 (by simp)

/-- Nothing lies between a position and the next slot of its block. -/
theorem lt_next_iff {p q : Position} : q < p.next ↔ q ≤ p := by
  rw [lt_def, le_def, next_block, next_slot]
  omega

/-- In a block, the positions from the next slot on are the later ones. -/
theorem next_le_iff {p q : Position} (h : @Eq Nat p.block q.block) : p.next ≤ q ↔ p < q := by
  rw [le_def, lt_def, next_block, next_slot]
  omega

/-- The later of two positions is their least upper bound. -/
theorem later_le_iff {p q x : Position} : p.later q ≤ x ↔ p ≤ x ∧ q ≤ x := by
  unfold later
  split
  · rename_i h
    exact ⟨fun hq => ⟨le_trans (le_of_lt h) hq, hq⟩, And.right⟩
  · rename_i h
    exact ⟨fun hp => ⟨hp, le_trans (not_lt.1 h) hp⟩, And.left⟩

end Position

/-- Widths are told apart by their rank. -/
theorem Width.rank_inj {w w' : Width} (h : w.rank = w'.rank) : w = w' := by
  cases w <;> cases w' <;> first | rfl | cases h

/-- Physical registers are told apart by their number. -/
theorem PhysReg.index_inj {r s : PhysReg} (h : r.index = s.index) : r = s := by
  cases r <;> cases s <;> first | rfl | cases h

/-- The list of all registers has them all. -/
theorem PhysReg.mem_all (r : PhysReg) : r ∈ PhysReg.all := by cases r <;> decide

/-- Virtual registers are told apart by the number that orders them, which is made of number and width. -/
theorem VirtReg.code_inj {v w : VirtReg} (h : v.code = w.code) : v = w := by
  have hb : ∀ x : Width, x.rank < 4 := by intro x; cases x <;> decide
  have h1 := hb v.width
  have h2 := hb w.width
  simp only [VirtReg.code] at h
  have hid : v.id = w.id := by omega
  have hw : v.width = w.width := Width.rank_inj (by omega)
  cases v
  cases w
  simp only at hid hw
  rw [hid, hw]

instance : IsStrictTotalOrder VirtReg (· < ·) :=
  RelEmbedding.isStrictTotalOrder (s := fun m n : Nat => m < n) ⟨⟨VirtReg.code, fun _ _ => VirtReg.code_inj⟩, Iff.rfl⟩

instance : IsStrictTotalOrder PhysReg (· < ·) :=
  RelEmbedding.isStrictTotalOrder (s := fun m n : Nat => m < n) ⟨⟨PhysReg.index, fun _ _ => PhysReg.index_inj⟩, Iff.rfl⟩

namespace Horizon

/-- Horizons are the positions with a last one added. -/
def toWithTop : Horizon → WithTop Position
  | .pos p => p
  | .never => ⊤

/-- Horizons are told apart by their position, or its absence. -/
theorem toWithTop_injective : Function.Injective toWithTop := by
  intro x y h
  cases x <;> cases y <;> simp_all [toWithTop]

/-- The order of horizons is that of positions with a last one added. -/
theorem toWithTop_lt_toWithTop {x y : Horizon} : x.toWithTop < y.toWithTop ↔ x < y := by
  have hlt : x < y ↔ x.before y = true := Iff.rfl
  rw [hlt]
  cases x <;> cases y <;> simp [toWithTop, before]

theorem toWithTop_le_toWithTop {x y : Horizon} : x.toWithTop ≤ y.toWithTop ↔ x ≤ y := by
  have hle : x ≤ y ↔ y.before x = false := Iff.rfl
  rw [hle]
  cases x <;> cases y <;> simp [toWithTop, before]

instance : LinearOrder Horizon where
  le := (· ≤ ·)
  lt := (· < ·)
  le_refl x := toWithTop_le_toWithTop.1 le_rfl
  le_trans x y z hxy hyz :=
    toWithTop_le_toWithTop.1 ((toWithTop_le_toWithTop.2 hxy).trans (toWithTop_le_toWithTop.2 hyz))
  lt_iff_le_not_ge x y := by
    rw [← toWithTop_lt_toWithTop, ← toWithTop_le_toWithTop, ← toWithTop_le_toWithTop]
    exact lt_iff_le_not_ge
  le_antisymm x y hxy hyx :=
    toWithTop_injective (le_antisymm (toWithTop_le_toWithTop.2 hxy) (toWithTop_le_toWithTop.2 hyx))
  le_total x y := (le_total x.toWithTop y.toWithTop).imp toWithTop_le_toWithTop.1 toWithTop_le_toWithTop.1
  toDecidableLE := inferInstance
  toDecidableLT := inferInstance
  toDecidableEq := inferInstance

end Horizon

/-- A list in strictly increasing order of a key: a set, or a map. -/
def Ascending {α κ : Type} [LT κ] (key : α → κ) (l : List α) : Prop := l.Pairwise (fun x y => key x < key y)

section Ordered

variable {α κ : Type} [LT κ] [DecidableLT κ] [DecidableEq κ] {key : α → κ} {a : α} {l : List α}

theorem mem_of_mem_insertBy {x : α} (h : x ∈ insertBy key a l) : x = a ∨ x ∈ l := by
  induction l with
  | nil => exact .inl (List.mem_singleton.1 h)
  | cons b rest ih =>
    rw [insertBy] at h
    split_ifs at h
    · exact (List.mem_cons.1 h)
    · rcases List.mem_cons.1 h with h | h
      · exact .inl h
      · exact .inr (List.mem_cons_of_mem _ h)
    · rcases List.mem_cons.1 h with h | h
      · exact .inr (h ▸ List.mem_cons_self)
      · exact (ih h).imp_right (List.mem_cons_of_mem _)

/-- Inserting several elements puts in nothing else. -/
theorem mem_of_mem_insertAllBy {base : List α} {x : α} (h : x ∈ insertAllBy key l base) : x ∈ l ∨ x ∈ base := by
  induction l generalizing base with
  | nil => exact .inr h
  | cons y l ih =>
    rcases ih h with h | h
    · exact .inl (List.mem_cons_of_mem y h)
    · rcases mem_of_mem_insertBy h with rfl | h
      · exact .inl List.mem_cons_self
      · exact .inr h

/-- An element whose key is new is added to the list. -/
theorem insertBy_perm (h : ∀ b ∈ l, key a ≠ key b) : (insertBy key a l).Perm (a :: l) := by
  induction l with
  | nil => exact .refl _
  | cons b rest ih =>
    rw [insertBy]
    split_ifs with hlt heq
    · exact .refl _
    · exact absurd heq (h b List.mem_cons_self)
    · exact ((ih (fun c hc => h c (List.mem_cons_of_mem _ hc))).cons b).trans (.swap a b rest)

theorem ascending_insertBy [IsStrictTotalOrder κ (· < ·)] (h : Ascending key l) : Ascending key (insertBy key a l) := by
  induction l with
  | nil => exact List.pairwise_singleton _ _
  | cons b rest ih =>
    obtain ⟨hb, hrest⟩ := List.pairwise_cons.1 h
    rw [insertBy]
    split_ifs with hlt heq
    · refine List.pairwise_cons.2 ⟨fun x hx => ?_, h⟩
      rcases List.mem_cons.1 hx with rfl | hx
      · exact hlt
      · exact trans_of (· < ·) hlt (hb x hx)
    · exact List.pairwise_cons.2 ⟨fun x hx => heq ▸ hb x hx, hrest⟩
    · refine List.pairwise_cons.2 ⟨fun x hx => ?_, ih hrest⟩
      rcases mem_of_mem_insertBy hx with rfl | hx
      · rcases trichotomous_of (· < ·) (key x) (key b) with h' | h' | h'
        · exact absurd h' hlt
        · exact absurd h' heq
        · exact h'
      · exact hb x hx

/-- Elements whose keys are new and different are added to the list. -/
theorem insertAllBy_perm {base : List α} (h : ((l ++ base).map key).Nodup) :
    (insertAllBy key l base).Perm (l ++ base) := by
  induction l generalizing base with
  | nil => exact .refl _
  | cons b rest ih =>
    have hperm : (insertBy key b base).Perm (b :: base) := by
      refine insertBy_perm fun c hc heq => ?_
      rw [List.cons_append, List.map_cons, List.nodup_cons] at h
      exact h.1 (heq ▸ List.mem_map_of_mem (List.mem_append_right _ hc))
    have hall : (rest ++ insertBy key b base).Perm (b :: rest ++ base) :=
      (hperm.append_left rest).trans List.perm_middle
    exact (ih ((hall.map key).nodup_iff.2 h)).trans hall

/-- Inserting several elements keeps the order. -/
theorem ascending_insertAllBy [IsStrictTotalOrder κ (· < ·)] {base : List α} (h : Ascending key base) :
    Ascending key (insertAllBy key l base) := by
  induction l generalizing base with
  | nil => exact h
  | cons b rest ih => exact ih (ascending_insertBy h)

omit [DecidableEq κ] in
theorem placeBy_perm : (placeBy key a l).Perm (a :: l) := by
  induction l with
  | nil => exact .refl _
  | cons b rest ih =>
    rw [placeBy]
    split_ifs
    · exact (ih.cons b).trans (.swap a b rest)
    · exact .refl _

omit [DecidableEq κ] in
/-- Placing an element keeps a list in order, where equal keys are allowed. -/
theorem placeBy_ordered [IsStrictTotalOrder κ (· < ·)] (h : l.Pairwise (fun x y => ¬key y < key x)) :
    (placeBy key a l).Pairwise (fun x y => ¬key y < key x) := by
  induction l with
  | nil => exact List.pairwise_singleton _ _
  | cons b rest ih =>
    obtain ⟨hb, hrest⟩ := List.pairwise_cons.1 h
    rw [placeBy]
    split_ifs with hlt
    · refine List.pairwise_cons.2 ⟨fun x hx => ?_, ih hrest⟩
      rcases List.mem_cons.1 (placeBy_perm.mem_iff.1 hx) with rfl | hx
      · exact asymm_of (· < ·) hlt
      · exact hb x hx
    · refine List.pairwise_cons.2 ⟨fun x hx => ?_, h⟩
      rcases List.mem_cons.1 hx with rfl | hx
      · exact hlt
      · intro hxa
        rcases trichotomous_of (· < ·) (key b) (key a) with h' | h' | h'
        · exact hlt h'
        · exact hb x hx (h' ▸ hxa)
        · exact hb x hx (trans_of (· < ·) hxa h')

omit [DecidableLT κ] [DecidableEq κ] in
/-- In a list in strict order no key occurs twice. -/
theorem Ascending.nodup_keys [IsStrictTotalOrder κ (· < ·)] (h : Ascending key l) : (l.map key).Nodup :=
  List.pairwise_map.2 (h.imp ne_of_irrefl)

end Ordered

section Lookup

variable {κ β : Type} [DecidableEq κ] {k : κ} {b : β} {entries : List (κ × β)}

/-- Looking up a key goes through the entries one by one. -/
theorem lookupBy_cons (k : κ) (e : κ × β) (rest : List (κ × β)) :
    lookupBy k (e :: rest) = if e.1 = k then some e.2 else lookupBy k rest := by
  by_cases he : e.1 = k <;> simp [lookupBy, he]

theorem mem_of_lookupBy (h : lookupBy k entries = some b) : (k, b) ∈ entries := by
  obtain ⟨e, he, rfl⟩ := Option.map_eq_some_iff.1 h
  have hk : e.1 = k := by simpa using List.find?_some he
  exact hk ▸ List.mem_of_find?_eq_some he

/-- If no key occurs twice, every entry is found. -/
theorem lookupBy_of_mem (hnodup : (entries.map Prod.fst).Nodup) (h : (k, b) ∈ entries) :
    lookupBy k entries = some b := by
  induction entries with
  | nil => cases h
  | cons e rest ih =>
    rw [List.map_cons, List.nodup_cons] at hnodup
    rcases List.mem_cons.1 h with rfl | h
    · simp [lookupBy]
    · have hne : e.1 ≠ k := fun heq => hnodup.1 (heq ▸ List.mem_map_of_mem (f := Prod.fst) h)
      have hrest := ih hnodup.2 h
      simpa [lookupBy, List.find?_cons, hne] using hrest

/-- A key is found if it is the key of an entry. -/
theorem lookupBy_isSome : (lookupBy k entries).isSome ↔ k ∈ entries.map Prod.fst := by
  simp [lookupBy, List.mem_map]

end Lookup

/-- The elements of a list have different numbers. -/
theorem nodup_numbers {α : Type} (l : List α) : (l.zipIdx.map Prod.snd).Nodup := by
  rw [List.zipIdx_map_snd]
  exact List.nodup_range'

end RegAlloc
