import RegAlloc.Scan.Run

/-!
# Allocations

An `Allocation` says which splits every register was divided into, which register each split has, which stack slot each
register that is in memory anywhere has, and where values are moved between registers and their slots.

The transfers of a register follow from its splits in order. The slot is written after the last write of the first
split, and after the last write of each later split that has a register. A later split that has a register is loaded
where it starts, unless it starts with a write, or at the start of a block, where the moves on the edges fill it.
Splits without a register access the slot itself, so the slot is up to date after the first write to it.
-/

namespace RegAlloc

/-- The direction of a transfer. -/
inductive TransferKind where
  /-- From the register to the slot, after a write. -/
  | spill
  /-- From the slot to the register, before a read. -/
  | reload
  deriving DecidableEq, Repr

/-- A move between a split's register and the stack slot. -/
structure Transfer where
  kind : TransferKind
  register : VirtReg
  /-- The number of the split. -/
  split : Nat
  /-- The register of the split. -/
  home : PhysReg
  /-- The slot of the virtual register. -/
  slot : Nat
  deriving DecidableEq, Repr

namespace Transfer

/-- Spills come before reloads. -/
def rank (x : Transfer) : Nat :=
  match x.kind with
  | .spill => 0
  | .reload => 1

/-- Transfers at one position are made by their kind, then by register, then by split. -/
instance : LT Transfer := ⟨fun a b =>
  a.rank < b.rank ∨ a.rank = b.rank ∧ (a.register < b.register ∨ a.register = b.register ∧ a.split < b.split)⟩

instance : DecidableLT Transfer := fun a b =>
  inferInstanceAs (Decidable (a.rank < b.rank ∨ a.rank = b.rank ∧
    (a.register < b.register ∨ a.register = b.register ∧ a.split < b.split)))

/-- The transfer as it is written in messages. -/
def text (x : Transfer) : String :=
  (match x.kind with
  | .spill => "Spill "
  | .reload => "Reload ") ++ x.register.text ++ " (" ++ toString x.split ++ ")"

/-- The transfers of a split that is not the first of its register. -/
def ofLater (v : VirtReg) (slot : Nat) (x : Split) : List (Position × Transfer) :=
  match x.register with
  | none => []
  | some r =>
    let start := x.interval.start
    (if start.slot ≠ 0 ∧ ¬(start.isWrite ∧ x.interval.firstSite? = some start) then
        [(start, ⟨.reload, v, x.id, r, slot⟩)]
      else []) ++
      (x.interval.lastDef?.map (fun p => (p, (⟨.spill, v, x.id, r, slot⟩ : Transfer)))).toList

/-- The transfers of a register with a slot. Its first split has to hold a write. -/
def ofSplits (v : VirtReg) (slot : Nat) : List Split → Except Error (List (Position × Transfer))
  | [] => .ok []
  | first :: rest =>
    match first.interval.lastDef? with
    | none => .error (.missingDefinition v)
    | some p =>
      .ok ((first.register.map (fun r => (p, (⟨.spill, v, first.id, r, slot⟩ : Transfer)))).toList ++
        rest.flatMap (ofLater v slot))

/-- Add a transfer to a table of transfers by position. -/
def insert (table : List (Position × List Transfer)) (e : Position × Transfer) : List (Position × List Transfer) :=
  insertBy (·.1) (e.1, insertBy id e.2 ((lookupBy e.1 table).getD [])) table

end Transfer

/-- Registers, splits, stack slots and transfers of a function. -/
structure Allocation where
  target : Target
  /-- The splits of each register, in order. -/
  splits : List (VirtReg × List Split)
  slots : List (VirtReg × Nat)
  transfers : List (Position × List Transfer)
  deriving DecidableEq, Repr

namespace Allocation

/-- The allocation with the given splits and slots. -/
def ofSplits (t : Target) (splits : List (VirtReg × List Split)) (slots : List (VirtReg × Nat)) :
    Except Error Allocation := do
  let transfers ← splits.mapM (fun e =>
    match lookupBy e.1 slots with
    | some slot => Transfer.ofSplits e.1 slot e.2
    | none => .ok [])
  return ⟨t, splits, slots, transfers.flatten.foldl Transfer.insert []⟩

/-- Join neighbouring splits of a register that hold no site; what they are joined to stays in memory. `idle` is what
the splits seen last were joined to. -/
def joinIdle (idle : Option Split) : List Split → List Split
  | [] => idle.toList
  | x :: rest =>
    if x.interval.hasSites then idle.toList ++ x :: joinIdle none rest
    else
      match idle with
      | none => joinIdle (some { x with register := none }) rest
      | some y => joinIdle (some { y with interval := y.interval.join x.interval }) rest

/-- The splits of all registers that the scan decided on. -/
def splitsOf (lt : Lifetimes) (s : Scan) : List (VirtReg × List Split) :=
  (lt.intervals.map (fun i => (i.register, joinIdle none (s.splits i.register)))).filter (fun e => !e.2.isEmpty)

/-- Give registers to the intervals of a function. -/
def ofLifetimes (lt : Lifetimes) (t : Target) : Except Error Allocation := do
  let s ← Scan.complete lt t
  ofSplits t (splitsOf lt s) s.slots.slots

/-- The interval of a piece, which has to be among those given. -/
def pieceInterval (intervals : List Interval) (n : Nat) : Except Error Interval :=
  match intervals[n]? with
  | some i => .ok i
  | none => .error (.unknownPiece n)

/-- The register of a piece, if it has one; the piece has to be among those given. -/
def pieceRegister (registers : List (Option PhysReg)) (n : Nat) : Except Error (Option PhysReg) :=
  match registers[n]? with
  | some r => .ok r
  | none => .error (.unknownPiece n)

/-- The split of a number, among pieces given as intervals and registers. -/
def pieceAt (intervals : List Interval) (registers : List (Option PhysReg)) (n : Nat) : Except Error Split := do
  let i ← pieceInterval intervals n
  let r ← pieceRegister registers n
  return ⟨n, i, r⟩

/-- The splits of a register given by their numbers. -/
def splitsAt (intervals : List Interval) (registers : List (Option PhysReg)) (numbers : List Nat) :
    Except Error (List Split) := numbers.mapM (pieceAt intervals registers)

/-- Check a split that is not the first of a register with a slot. Without a register it makes no transfer, and its
interval is not asked for. -/
def checkLater (intervals : List Interval) (registers : List (Option PhysReg)) (n : Nat) : Except Error Unit := do
  match ← pieceRegister registers n with
  | some _ => discard (pieceInterval intervals n)
  | none => return ()

/-- Check the splits of a register with a slot, as far as they make transfers. The first has to hold a write, whether
or not its register is known. -/
def checkSlot (intervals : List Interval) (registers : List (Option PhysReg)) (v : VirtReg) :
    List Nat → Except Error Unit
  | [] => .ok ()
  | n :: rest => do
    let first ← pieceInterval intervals n
    if first.lastDef?.isNone then .error (.missingDefinition v)
    else
      discard (pieceRegister registers n)
      rest.forM (checkLater intervals registers)

/-- The allocation whose splits are given by their numbers among pieces. Registers with slots are checked, one after
the other, before all splits are looked up. -/
def ofNumbers (t : Target) (intervals : List Interval) (registers : List (Option PhysReg))
    (numbers : List (VirtReg × List Nat)) (slots : List (VirtReg × Nat)) : Except Error Allocation := do
  let numbers := insertAllBy (·.1) numbers []
  let slots := insertAllBy (·.1) slots []
  numbers.forM (fun e => if (lookupBy e.1 slots).isSome then checkSlot intervals registers e.1 e.2 else .ok ())
  ofSplits t (← numbers.mapM (fun e => return (e.1, ← splitsAt intervals registers e.2))) slots

/-- The splits of a register. -/
def splitsFor (a : Allocation) (v : VirtReg) : List Split := (lookupBy v a.splits).getD []

/-- Whether a register is live anywhere. -/
def hasRegister (a : Allocation) (v : VirtReg) : Bool := (lookupBy v a.splits).isSome

/-- The split of a register that covers a position. -/
def splitAt? (a : Allocation) (v : VirtReg) (p : Position) : Option Split :=
  (a.splitsFor v).find? (fun x => x.interval.covers p)

/-- The physical register that a register has at a position. -/
def registerAt? (a : Allocation) (r : Register) (p : Position) : Option PhysReg :=
  match r with
  | .phys q => some q
  | .virt v => (a.splitAt? v p).bind (·.register)

/-- The splits that cover a position, ordered by register. -/
def liveAt (a : Allocation) (p : Position) : List Split := a.splits.filterMap (fun e => a.splitAt? e.1 p)

/-- The stack slot of a register. -/
def slot? (a : Allocation) (v : VirtReg) : Option Nat := lookupBy v a.slots

/-- The memory cell of a stack slot. Slots lie below the frame base, the first one next to it. -/
def slotCell (a : Allocation) (slot : Nat) (width : Width) : Operand :=
  .mem width (.offset (.phys a.target.frameBase) (-((slot + 1) * a.target.slotSize : Nat)))

/-- The memory cell of a register's stack slot. -/
def slotOf? (a : Allocation) (v : VirtReg) (width : Width) : Option Operand :=
  (a.slot? v).map (fun slot => a.slotCell slot width)

/-- Where the value of a register is at a position: in its physical register, or else in its stack slot. -/
def storage (a : Allocation) (width : Width) (r : Register) (p : Position) : Except Error Operand :=
  match r with
  | .phys q => .ok (.phys width q)
  | .virt v =>
    match a.registerAt? r p with
    | some q => .ok (.phys width q)
    | none =>
      match a.slotOf? v width with
      | some cell => .ok cell
      | none => .error (.missingLocation v p)

/-- The transfers at a position. -/
def transfersAt (a : Allocation) (p : Position) : List Transfer := (lookupBy p a.transfers).getD []

/-- The number of transfers of a kind. -/
def count (a : Allocation) (kind : TransferKind) : Nat :=
  (a.transfers.flatMap (·.2)).countP (fun x => x.kind = kind)

/-- The number of stack slots, given or not, up to the last one given. -/
def slotCount (a : Allocation) : Nat :=
  match (a.slots.map (·.2)).max? with
  | some slot => slot + 1
  | none => 0

/-- The number of splits of all registers. -/
def splitCount (a : Allocation) : Nat := (a.splits.flatMap (·.2)).length

/-- The bytes of a frame of so many slots: whole groups of slots that make up the frame alignment. -/
def frameBytes (t : Target) (slots : Nat) : Nat :=
  let group := max (t.frameAlignment / t.slotSize) 1
  (slots + group - 1) / group * group * t.slotSize

/-- The size of the frame, as an exact number. Where a 32-bit word is made of it, the word holds it only if it is less
than `UInt32.size`. -/
def frameSize (a : Allocation) : Except Error Nat :=
  if a.target.slotSize = 0 then .error .zeroSlotSize else .ok (frameBytes a.target a.slotCount)

end Allocation

end RegAlloc
