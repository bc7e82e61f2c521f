import RegAlloc.Compile
import RegAlloc.Proofs.Layout

/-!
# Compiled code does what its function does

The run of a function and the run of its code are followed side by side. `Matches` says where the one is when the
other is before an instruction of a block, and that their machines agree. One step of the function is some steps of
the code, at least one (`matches_step`), so whatever can be seen of a run of the function can be seen of a run of the
code. Since both machines are deterministic and their calls only grow, the converse follows (`shows_iff`): neither run
makes calls, faults, returns or goes on forever unless the other does.
-/

namespace RegAlloc

open Machine Layout

/-! ## Steps of a function -/

namespace Function

variable {f : Function} {t : Target} {size : Nat} {answer : List Call → PhysReg → Word} {b s : BlockId} {blk : Block}
  {k : Nat} {m m' : Machine} {i : Instruction}

/-- The function goes on with the next instruction. -/
theorem step_exec (hb : f.block? b = some blk) (hi : blk.code[k]? = some i)
    (hm : m.execIn t size (t.world answer) i = some m') :
    f.step t size answer ⟨.running, b, k, m⟩ = ⟨.running, b, k + 1, m'⟩ := by
  simp only [step, hb, hi, hm]

/-- The function faults where an instruction does. -/
theorem step_fault (hb : f.block? b = some blk) (hi : blk.code[k]? = some i)
    (hm : m.execIn t size (t.world answer) i = none) :
    f.step t size answer ⟨.running, b, k, m⟩ = ⟨.faulted, b, k, m⟩ := by
  simp only [step, hb, hi, hm]

/-- On an edge, the phis of the successor choose. -/
theorem step_edge (hb : f.block? b = some blk) (hs : blk.exit.next? m = some s) :
    f.step t size answer ⟨.running, b, blk.code.length, m⟩ = ⟨.running, s, 0, m.choose (f.phis s) b⟩ := by
  simp only [step, hb, List.getElem?_length, hs]

/-- Without a successor the function returns. -/
theorem step_ret (hb : f.block? b = some blk) (hs : blk.exit.next? m = none) :
    f.step t size answer ⟨.running, b, blk.code.length, m⟩ = ⟨.returned, b, blk.code.length, m⟩ := by
  simp only [step, hb, List.getElem?_length, hs]

end Function

namespace Exit

/-- Where control goes depends on the flags only. -/
theorem next?_congr {m m' : Machine} (h : m'.flags = m.flags) (e : Exit) : e.next? m' = e.next? m := by
  cases e with
  | branch relation yes no => simp only [next?, h]
  | _ => rfl

end Exit

/-! ## Where the two runs are -/

namespace Layout

variable {a : Allocation} {b : BlockId} {blk : Block} {codes : List (List Instruction)} {k : Nat} {i : Instruction}

/-- The code from instruction `k` of a block on, where `codes` is the code of the single instructions of the block. -/
def codeAt (f : Function) (a : Allocation) (placed : List PlacedBlock) (ps : List Patch) (b : BlockId) (blk : Block)
    (codes : List (List Instruction)) (k : Nat) : List Instruction :=
  (codes.drop k).flatten ++ (a.transferCodeAt (blk.stop b) ++ (added ps b false ++ (exitCode f b blk.exit ++
    codeFrom f ps placed (b + 1))))

/-- The code of an instruction, and what stands after it. -/
theorem codeAt_eq (f : Function) (placed : List PlacedBlock) (ps : List Patch)
    (hcodes : blk.code.zipIdx.mapM (a.placeNumbered b) = .ok codes) (hi : blk.code[k]? = some i) :
    ∃ c, a.placeNumbered b (i, k) = .ok c ∧
      codeAt f a placed ps b blk codes k = c ++ codeAt f a placed ps b blk codes (k + 1) := by
  have hzip : blk.code.zipIdx[k]? = some (i, k) := by rw [List.getElem?_zipIdx, hi, Option.map_some, Nat.zero_add]
  obtain ⟨c, hc, hplace⟩ := getElem?_mapM hcodes hzip
  obtain ⟨hlt, hget⟩ := List.getElem?_eq_some_iff.1 hc
  refine ⟨c, hplace, ?_⟩
  rw [codeAt, List.drop_eq_getElem_cons hlt, hget, List.flatten_cons, List.append_assoc, codeAt]

/-- The code at the end of a block. -/
theorem codeAt_length (f : Function) (placed : List PlacedBlock) (ps : List Patch)
    (hcodes : blk.code.zipIdx.mapM (a.placeNumbered b) = .ok codes) :
    codeAt f a placed ps b blk codes blk.code.length = a.transferCodeAt (blk.stop b) ++ (added ps b false ++
      (exitCode f b blk.exit ++ codeFrom f ps placed (b + 1))) := by
  have hlen : codes.length = blk.code.length := by rw [← (mapM_eq_ok hcodes).length_eq, List.length_zipIdx]
  rw [codeAt, ← hlen, List.drop_length, List.flatten_nil, List.nil_append]

end Layout

/-- A run of a function and a run of its code that began on the machine `m₀`. -/
inductive Matches (f : Function) (t : Target) (a : Allocation) (size : Nat) (placed : List PlacedBlock)
  (ps : List Patch) (code : List Instruction) (m₀ : Machine) : Function.State → Code.State → Prop where
  /-- Both are at the beginning. -/
  | start : Matches f t a size placed ps code m₀ ⟨.running, 0, 0, m₀⟩ ⟨.running, 0, m₀⟩
  /-- Both are before an instruction of a block or at its end, and there is a frame. -/
  | inside {b : BlockId} {k pc : Nat} {blk : Block} {codes : List (List Instruction)} {sm tm : Machine}
    (hb : f.block? b = some blk) (hcodes : blk.code.zipIdx.mapM (a.placeNumbered b) = .ok codes)
    (hpc : code.drop pc = codeAt f a placed ps b blk codes k) (hk : k ≤ blk.code.length) (hentered : b = 0 → k ≠ 0)
    (hret : blk.exit = .ret → k ≠ blk.code.length) (h : a.Agree f t size m₀ b k ⟨b, 2 * k⟩ sm tm) :
    Matches f t a size placed ps code m₀ ⟨.running, b, k, sm⟩ ⟨.running, pc, tm⟩
  /-- Both are about to return, and the frame is gone. -/
  | left {b : BlockId} {pc : Nat} {blk : Block} {codes : List (List Instruction)} {sm tm : Machine}
    (hb : f.block? b = some blk) (hret : blk.exit = .ret)
    (hcodes : blk.code.zipIdx.mapM (a.placeNumbered b) = .ok codes)
    (hpc : code.drop pc = codeAt f a placed ps b blk codes blk.code.length)
    (hsource : SameFrame t.frameBase t.stackPointer m₀ sm) (htarget : SameFrame t.frameBase t.stackPointer m₀ tm)
    (hcalls : tm.calls = sm.calls) :
    Matches f t a size placed ps code m₀ ⟨.running, b, blk.code.length, sm⟩ ⟨.running, pc, tm⟩
  | returned {b : BlockId} {k pc : Nat} {sm tm : Machine} (hsource : SameFrame t.frameBase t.stackPointer m₀ sm)
      (htarget : SameFrame t.frameBase t.stackPointer m₀ tm) (hcalls : tm.calls = sm.calls) :
      Matches f t a size placed ps code m₀ ⟨.returned, b, k, sm⟩ ⟨.returned, pc, tm⟩
  | faulted {b : BlockId} {k pc : Nat} {sm tm : Machine} (hcalls : tm.calls = sm.calls) :
      Matches f t a size placed ps code m₀ ⟨.faulted, b, k, sm⟩ ⟨.faulted, pc, tm⟩

namespace Allocation.Suits

variable {f : Function} {t : Target} {a : Allocation} {size : Nat} {placed : List PlacedBlock} {ps : List Patch}
  {code rest : List Instruction} {m₀ sm tm : Machine} {b s : BlockId} {blk next : Block}
  {codes : List (List Instruction)} {k pc : Nat}
  {i : Instruction}

/-- **The beginning.** The first step of the function sets up the frame. -/
theorem matches_enter (ha : a.Suits f t size) (hl : Laid f a placed ps code) (answer : List Call → PhysReg → Word) :
    ∃ c, Code.Advances code (t.world answer) ⟨.running, 0, m₀⟩ c ∧
      Matches f t a size placed ps code m₀ (f.step t size answer ⟨.running, 0, 0, m₀⟩) c := by
  obtain ⟨blk, hb, hi⟩ := ha.regular.enter
  obtain ⟨codes, hcodes, hcode⟩ := hl.codeFrom_eq hb
  have hentry : Position.entry 0 ≤ .writeAt 0 0 := Position.le_def.2 (.inr ⟨rfl, Nat.zero_le _⟩)
  rw [hl.added_start ha.regular.once, ha.transferCodeAt_eq_nil hentry, List.nil_append, List.nil_append] at hcode
  obtain ⟨c, hplace, hat⟩ := codeAt_eq f placed ps hcodes hi
  obtain ⟨hlabel, hpc⟩ := Code.advances_label (w := t.world answer) (hl.code_eq ▸ hcode : code.drop 0 = _) m₀
  obtain ⟨hrun, hagree⟩ := ha.enter answer m₀ hplace
  obtain ⟨pc, hleads, hpc⟩ := Code.leads_execAll (hpc.trans hat) hrun
  refine ⟨_, hlabel.leads hleads, ?_⟩
  rw [Function.step_exec hb hi rfl]
  refine .inside hb hcodes hpc ?_ (fun _ => Nat.one_ne_zero) (fun hret hlen => ?_) hagree
  · exact (List.getElem?_eq_some_iff.1 hi).1
  · -- The last instruction of a block that returns is not `enter`.
    have hlast := (ha.regular.block 0 blk hb).leave hret
    rw [List.getLast?_eq_getElem?, ← hlen, hi] at hlast
    cases hlast

/-- **Instructions.** A step inside a block is the code of an instruction. -/
theorem matches_instruction (ha : a.Suits f t size) (hl : Laid f a placed ps code) (answer : List Call → PhysReg → Word)
    (hb : f.block? b = some blk) (hcodes : blk.code.zipIdx.mapM (a.placeNumbered b) = .ok codes)
    (hpc : code.drop pc = codeAt f a placed ps b blk codes k) (hi : blk.code[k]? = some i) (hentered : b = 0 → k ≠ 0)
    (h : a.Agree f t size m₀ b k ⟨b, 2 * k⟩ sm tm) :
    ∃ c, Code.Advances code (t.world answer) ⟨.running, pc, tm⟩ c ∧
      Matches f t a size placed ps code m₀ (f.step t size answer ⟨.running, b, k, sm⟩) c := by
  obtain ⟨c, hplace, hat⟩ := codeAt_eq f placed ps hcodes hi
  rw [hat] at hpc
  have hlt : k < blk.code.length := (List.getElem?_eq_some_iff.1 hi).1
  have hne := (straight_placeNumbered (hl.straight blk (List.mem_of_getElem? hb) i (List.mem_of_getElem? hi)) hplace).1
  rcases (ha.regular.block b blk hb).code k i hi with hord | ⟨-, hfirst, hzero⟩ | ⟨rfl, hlast, hret⟩
  · have hexec : sm.execIn t size (t.world answer) i = sm.exec (t.world answer) i := by
      apply execIn_eq_exec
      · rintro rfl
        cases hord
      · rintro rfl
        cases hord
    obtain ⟨hfault, hfollows⟩ := h.instruction ha answer hb hi hord hplace
    cases hsm : sm.exec (t.world answer) i with
    | none =>
      obtain ⟨pre, j, post, tm', rfl, hpre, hj, hnone, hcalls⟩ := hfault hsm
      rw [List.append_assoc, List.cons_append] at hpc
      obtain ⟨pc', hadvances⟩ := Code.advances_fault hpc hpre hj hnone
      rw [Function.step_fault hb hi (hexec.trans hsm)]
      exact ⟨_, hadvances, .faulted hcalls⟩
    | some sm' =>
      obtain ⟨tm', hrun, hagree⟩ := hfollows sm' hsm
      obtain ⟨pc', hadvances, hpc⟩ := Code.advances_execAll hpc hne hrun
      rw [Function.step_exec hb hi (hexec.trans hsm)]
      refine ⟨_, hadvances, .inside hb hcodes hpc hlt (fun _ => Nat.succ_ne_zero k) (fun hret hlen => ?_) hagree⟩
      -- The last instruction of a block that returns is `leave`.
      have hlast := (ha.regular.block b blk hb).leave hret
      rw [List.getLast?_eq_getElem?, ← hlen, Nat.add_sub_cancel, hi] at hlast
      obtain rfl := Option.some.inj hlast
      cases hord
  · exact absurd hzero (hentered hfirst)
  · obtain ⟨tm', hrun, htarget, hcalls⟩ := h.leave ha answer hplace
    obtain ⟨pc', hadvances, hpc⟩ := Code.advances_execAll hpc hne hrun
    rw [Function.step_exec hb hi rfl]
    rw [hlast] at hpc ⊢
    exact ⟨_, hadvances, .left hb hret hcodes hpc (h.source.leave ha.apart) htarget hcalls⟩

/-- **Edges.** A step to another block is made up of the transfers at the end of the block, the moves of the edge, and
the transfers at the start of the other block. -/
theorem matches_edge (ha : a.Suits f t size) (hl : Laid f a placed ps code) (answer : List Call → PhysReg → Word)
    (hb : f.block? b = some blk) (hcodes : blk.code.zipIdx.mapM (a.placeNumbered b) = .ok codes)
    (hpc : code.drop pc = codeAt f a placed ps b blk codes blk.code.length)
    (h : a.Agree f t size m₀ b blk.code.length ⟨b, 2 * blk.code.length⟩ sm tm) (hs : blk.exit.next? sm = some s)
    (hnext : f.block? s = some next) :
    ∃ c, Code.Advances code (t.world answer) ⟨.running, pc, tm⟩ c ∧
      Matches f t a size placed ps code m₀ (f.step t size answer ⟨.running, b, blk.code.length, sm⟩) c := by
  have hsucc : s ∈ f.successors b := Function.successors_eq hb ▸ Exit.mem_successors_of_next? hs
  have hzero : s ≠ 0 := fun heq => ha.regular.once b (heq ▸ hsucc)
  rw [codeAt_length f placed ps hcodes] at hpc
  obtain ⟨tm₁, hrun₁, h₁⟩ := h.read ha answer
  obtain ⟨pc₁, hleads₁, hpc₁⟩ := Code.leads_execAll hpc hrun₁
  obtain ⟨moves, hmoves, hmakes⟩ := hl.edge hsucc
  -- The moves are made before the jumps or after them.
  obtain ⟨tm₂, tm₃, hend, hflags, hstart, harrived⟩ :
      ∃ tm₂ tm₃, tm₁.execAll (t.world answer) (added ps b false) = some tm₂ ∧ tm₂.flags = sm.flags ∧
        tm₂.execAll (t.world answer) (added ps s true) = some tm₃ ∧
        a.Arrived f t size m₀ s (sm.choose next.phis b) tm₃ := by
    rcases hmakes with ⟨hmakes, hnil⟩ | ⟨hnil, hmakes⟩
    · obtain ⟨tm₂, hrun, harrived⟩ := h₁.moves ha answer hl.blocks hb hsucc hnext hmoves hmakes
      exact ⟨tm₂, tm₂, hrun, harrived.flags, by rw [hnil, execAll], harrived⟩
    · obtain ⟨tm₃, hrun, harrived⟩ := h₁.moves ha answer hl.blocks hb hsucc hnext hmoves hmakes
      exact ⟨tm₁, tm₃, by rw [hnil, execAll], h₁.flags, hrun, harrived⟩
  obtain ⟨pc₂, hleads₂, hpc₂⟩ := Code.leads_execAll hpc₁ hend
  obtain ⟨pc₃, hjumps, hpc₃⟩ := hl.exit (w := t.world answer) hpc₂ ((Exit.next?_congr hflags _).trans hs) hnext
  obtain ⟨codes', hcodes', hcode⟩ := hl.codeFrom_eq hnext
  obtain ⟨hlabel, hpc₄⟩ := Code.advances_label (w := t.world answer) (hpc₃.trans hcode) tm₂
  obtain ⟨pc₅, hleads₅, hpc₅⟩ := Code.leads_execAll hpc₄ hstart
  obtain ⟨tm₄, hrun₄, hagree⟩ := harrived.agree ha answer hzero
  obtain ⟨pc₆, hleads₆, hpc₆⟩ := Code.leads_execAll hpc₅ hrun₄
  refine ⟨_, ((hleads₁.trans hleads₂).trans hjumps.leads).advances (hlabel.leads (hleads₅.trans hleads₆)), ?_⟩
  have hphis : f.phis s = next.phis := by rw [Function.phis, hnext, Option.map_some, Option.getD_some]
  rw [Function.step_edge hb hs, hphis]
  refine .inside hnext hcodes' hpc₆ (Nat.zero_le _) (fun heq => absurd heq hzero) (fun hret hlen => ?_) hagree
  have hlast := (ha.regular.block s next hnext).leave hret
  rw [List.length_eq_zero_iff.1 hlen.symm] at hlast
  cases hlast

/-- **Returns.** -/
theorem matches_ret (ha : a.Suits f t size) (hl : Laid f a placed ps code) (answer : List Call → PhysReg → Word)
    (hb : f.block? b = some blk) (hret : blk.exit = .ret)
    (hcodes : blk.code.zipIdx.mapM (a.placeNumbered b) = .ok codes)
    (hpc : code.drop pc = codeAt f a placed ps b blk codes blk.code.length)
    (hsource : SameFrame t.frameBase t.stackPointer m₀ sm) (htarget : SameFrame t.frameBase t.stackPointer m₀ tm)
    (hcalls : tm.calls = sm.calls) :
    ∃ c, Code.Advances code (t.world answer) ⟨.running, pc, tm⟩ c ∧
      Matches f t a size placed ps code m₀ (f.step t size answer ⟨.running, b, blk.code.length, sm⟩) c := by
  have hsucc : f.successors b = [] := by rw [Function.successors_eq hb, hret, Exit.successors]
  rw [codeAt_length f placed ps hcodes, hl.added_end hsucc, List.nil_append, hret, exitCode] at hpc
  obtain ⟨tm', hrun, hframe, hcalls'⟩ := ha.run_transfers_apart answer tm (blk.stop b)
  obtain ⟨pc', hleads, hpc⟩ := Code.leads_execAll hpc hrun
  rw [Function.step_ret hb (hret ▸ rfl)]
  exact ⟨_, hleads.advances ⟨0, Code.step_ret hpc⟩, .returned hsource (htarget.trans hframe) (hcalls'.trans hcalls)⟩

/-- **One step.** A step of a function is some steps of its code. -/
theorem matches_step (ha : a.Suits f t size) (hl : Laid f a placed ps code) (hclosed : f.Closed)
    (answer : List Call → PhysReg → Word) {s : Function.State} {c : Code.State}
    (h : Matches f t a size placed ps code m₀ s c) :
    ∃ c', Code.Advances code (t.world answer) c c' ∧
      Matches f t a size placed ps code m₀ (f.step t size answer s) c' := by
  cases h with
  | start => exact ha.matches_enter hl answer
  | @inside b k pc blk codes sm tm hb hcodes hpc hk hentered hret h =>
    cases hi : blk.code[k]? with
    | some i => exact ha.matches_instruction hl answer hb hcodes hpc hi hentered h
    | none =>
      obtain rfl : k = blk.code.length := Nat.le_antisymm hk (List.getElem?_eq_none_iff.1 hi)
      cases hs : blk.exit.next? sm with
      | none => exact absurd rfl (hret (Exit.ret_of_next? hs))
      | some s =>
        have hsucc : s ∈ f.successors b := Function.successors_eq hb ▸ Exit.mem_successors_of_next? hs
        obtain ⟨next, hnext⟩ := Function.exists_block_of_lt (hclosed b s (List.mem_append_left _ hsucc))
        exact ha.matches_edge hl answer hb hcodes hpc h hs hnext
  | left hb hret hcodes hpc hsource htarget hcalls =>
    exact ha.matches_ret hl answer hb hret hcodes hpc hsource htarget hcalls
  | returned hsource htarget hcalls => exact ⟨_, ⟨0, rfl⟩, .returned hsource htarget hcalls⟩
  | faulted hcalls => exact ⟨_, ⟨0, rfl⟩, .faulted hcalls⟩

end Allocation.Suits

/-! ## What can be seen of a run -/

/-- What can be seen of a run: how far it has come, the calls it has made and, once it has returned, the words in the
two registers that hold the frame. -/
structure Observation where
  status : Status
  calls : List Call
  frame : Option (Word × Word)
  deriving DecidableEq

/-- The words in the registers that hold the frame. -/
def Machine.frame (m : Machine) (t : Target) : Word × Word :=
  (m.regs (.phys t.frameBase), m.regs (.phys t.stackPointer))

/-- What can be seen of a run that is on a machine. -/
def observe (t : Target) (status : Status) (m : Machine) : Observation :=
  ⟨status, m.calls, if status = .returned then some (m.frame t) else none⟩

/-- The run of a function that begins on a machine, after so many steps. -/
def Function.after (f : Function) (t : Target) (size : Nat) (answer : List Call → PhysReg → Word) (m : Machine)
    (n : Nat) : State :=
  f.run t size answer n (start m)

/-- The run of code that begins on a machine, after so many steps. -/
def Code.after (code : List Instruction) (t : Target) (answer : List Call → PhysReg → Word) (m : Machine) (n : Nat) :
    State :=
  run code (t.world answer) n (start m)

/-- Something can be seen of the run of a function that begins on a machine. -/
def Function.Shows (f : Function) (t : Target) (size : Nat) (answer : List Call → PhysReg → Word) (m : Machine)
    (o : Observation) : Prop :=
  ∃ n, observe t (f.after t size answer m n).status (f.after t size answer m n).machine = o

/-- Something can be seen of the run of code that begins on a machine. -/
def Code.Shows (code : List Instruction) (t : Target) (answer : List Call → PhysReg → Word) (m : Machine)
    (o : Observation) : Prop :=
  ∃ n, observe t (after code t answer m n).status (after code t answer m n).machine = o

/-- One step more is taken from where the others lead. -/
theorem Function.after_succ (f : Function) (t : Target) (size : Nat) (answer : List Call → PhysReg → Word)
    (m : Machine) (n : Nat) :
    f.after t size answer m (n + 1) = f.step t size answer (f.after t size answer m n) := rfl

/-- Steps of the code can be counted in two parts. -/
theorem Code.after_add (code : List Instruction) (t : Target) (answer : List Call → PhysReg → Word) (m : Machine)
    (n k : Nat) :
    after code t answer m (n + k) = run code (t.world answer) n (after code t answer m k) :=
  run_add code (t.world answer) n k (start m)

/-- The calls of a run after so many steps are the first ones of those after more steps. -/
theorem Code.calls_after (code : List Instruction) (t : Target) (answer : List Call → PhysReg → Word) (m : Machine)
    {n k : Nat} (h : n ≤ k) : (after code t answer m n).machine.calls <+: (after code t answer m k).machine.calls := by
  rw [← Nat.sub_add_cancel h, after_add]
  exact calls_run code (t.world answer) (k - n) _

/-- A run that has stopped shows nothing new. -/
theorem Code.after_of_stopped {code : List Instruction} {t : Target} {answer : List Call → PhysReg → Word}
    {m : Machine} {n k : Nat} (h : n ≤ k) (hn : (after code t answer m n).status ≠ .running) :
    after code t answer m k = after code t answer m n := by
  rw [← Nat.sub_add_cancel h, after_add, run_of_stopped hn]

/-- While a run goes on, its calls are seen and its frame is not. -/
theorem observe_of_running {t : Target} {status : Status} {m : Machine} (h : status = .running) :
    observe t status m = ⟨.running, m.calls, none⟩ := by
  rw [observe, h, if_neg nofun]

/-- Machines with the same frame are seen with the same frame. -/
theorem frame_eq {t : Target} {m m' : Machine} (h : SameFrame t.frameBase t.stackPointer m m') :
    m'.frame t = m.frame t :=
  Prod.ext h.1 h.2

namespace Matches

variable {f : Function} {t : Target} {a : Allocation} {size : Nat} {placed : List PlacedBlock} {ps : List Patch}
  {code : List Instruction} {m₀ : Machine} {s : Function.State} {c : Code.State}

/-- The same can be seen of two runs that match. -/
theorem observe_eq (h : Matches f t a size placed ps code m₀ s c) :
    observe t c.status c.machine = observe t s.status s.machine := by
  cases h with
  | start => rfl
  | inside hb hcodes hpc hk hentered hret h => rw [observe_of_running rfl, observe_of_running rfl, h.calls]
  | left hb hret hcodes hpc hsource htarget hcalls => rw [observe_of_running rfl, observe_of_running rfl, hcalls]
  | returned hsource htarget hcalls => simp only [observe, hcalls, frame_eq hsource, frame_eq htarget]
  | faulted hcalls => rw [observe, observe, hcalls, if_neg nofun, if_neg nofun]

/-- Runs that match are both going on, have both returned or have both faulted. -/
theorem status_eq (h : Matches f t a size placed ps code m₀ s c) : c.status = s.status :=
  congrArg Observation.status h.observe_eq

/-- Runs that match have made the same calls. -/
theorem calls_eq (h : Matches f t a size placed ps code m₀ s c) : c.machine.calls = s.machine.calls :=
  congrArg Observation.calls h.observe_eq

/-- A run that has returned has the frame of the caller back. -/
theorem frame_of_returned (h : Matches f t a size placed ps code m₀ s c) (hs : s.status = .returned) :
    s.machine.frame t = m₀.frame t := by
  cases h with
  | returned hsource htarget hcalls => exact frame_eq hsource
  | _ => cases hs

end Matches

namespace Allocation.Suits

variable {f : Function} {t : Target} {a : Allocation} {size : Nat} {placed : List PlacedBlock} {ps : List Patch}
  {code : List Instruction} (ha : a.Suits f t size) (hl : Laid f a placed ps code) (hclosed : f.Closed)
  (answer : List Call → PhysReg → Word) (m : Machine)

include ha hl hclosed

/-- **A run.** However far the function has come, its code comes there too. -/
theorem matches_run (n : Nat) :
    ∃ k, Matches f t a size placed ps code m (f.after t size answer m n) (Code.after code t answer m k) := by
  induction n with
  | zero => exact ⟨0, .start⟩
  | succ n ih =>
    obtain ⟨k, h⟩ := ih
    obtain ⟨_, ⟨j, rfl⟩, h⟩ := ha.matches_step hl hclosed answer h
    exact ⟨j + 1 + k, Code.after_add .. ▸ h⟩

/-- However far the code has come, it is between two places where it matches the function before and after a step. -/
theorem matches_around (k : Nat) : ∃ n k₁ k₂, k₁ ≤ k ∧ k < k₂ ∧
    Matches f t a size placed ps code m (f.after t size answer m n) (Code.after code t answer m k₁) ∧
    Matches f t a size placed ps code m (f.after t size answer m (n + 1)) (Code.after code t answer m k₂) := by
  have hstep : ∀ {n k}, Matches f t a size placed ps code m (f.after t size answer m n) (Code.after code t answer m k) →
      ∃ k', k < k' ∧
        Matches f t a size placed ps code m (f.after t size answer m (n + 1)) (Code.after code t answer m k') := by
    intro n k h
    obtain ⟨_, ⟨j, rfl⟩, h⟩ := ha.matches_step hl hclosed answer h
    exact ⟨j + 1 + k, by omega, Code.after_add .. ▸ h⟩
  induction k with
  | zero =>
    have hstart :
        Matches f t a size placed ps code m (f.after t size answer m 0) (Code.after code t answer m 0) := .start
    obtain ⟨k₂, hlt, h⟩ := hstep hstart
    exact ⟨0, 0, k₂, Nat.le_refl 0, hlt, hstart, h⟩
  | succ k ih =>
    obtain ⟨n, k₁, k₂, hle, hlt, h₁, h₂⟩ := ih
    by_cases hk : k + 1 < k₂
    · exact ⟨n, k₁, k₂, Nat.le_succ_of_le hle, hk, h₁, h₂⟩
    · obtain ⟨k₃, hlt₃, h₃⟩ := hstep h₂
      exact ⟨n + 1, k₂, k₃, Nat.not_lt.1 hk, by omega, h₂, h₃⟩

/-- The same can be seen of the run of a function and of that of its code. -/
theorem shows_iff (o : Observation) : f.Shows t size answer m o ↔ Code.Shows code t answer m o := by
  constructor
  · rintro ⟨n, rfl⟩
    obtain ⟨k, h⟩ := ha.matches_run hl hclosed answer m n
    exact ⟨k, h.observe_eq⟩
  · rintro ⟨k, rfl⟩
    obtain ⟨n, k₁, k₂, hle, hlt, h₁, h₂⟩ := ha.matches_around hl hclosed answer m k
    have hcalls₁ := h₁.calls_eq ▸ Code.calls_after code t answer m hle
    have hcalls₂ := h₂.calls_eq ▸ Code.calls_after code t answer m (Nat.le_of_lt hlt)
    by_cases hrunning : (Code.after code t answer m k).status = .running
    · have hstatus : (f.after t size answer m n).status = .running := by
        by_contra hne
        rw [Code.after_of_stopped hle (h₁.status_eq ▸ hne), h₁.status_eq] at hrunning
        exact hne hrunning
      -- The code has made the calls that the function has made before the step, or those after it.
      have hbefore : (Code.after code t answer m k).machine.calls <+: (f.after t size answer m n).machine.calls →
          ∃ n, observe t (f.after t size answer m n).status (f.after t size answer m n).machine =
            observe t (Code.after code t answer m k).status (Code.after code t answer m k).machine := fun hprefix => by
        refine ⟨n, ?_⟩
        rw [observe_of_running hstatus, observe_of_running hrunning, hcalls₁.eq_of_length_le hprefix.length_le]
      have hstep := f.calls_step t size answer (f.after t size answer m n)
      rw [← Function.after_succ] at hstep
      rcases hstep with hsame | ⟨⟨c, hcall⟩, hgoes⟩
      · exact hbefore (hsame ▸ hcalls₂)
      · rcases List.prefix_concat_iff.1 (hcall ▸ hcalls₂) with hafter | hprefix
        · refine ⟨n + 1, ?_⟩
          rw [observe_of_running (hgoes.trans hstatus), observe_of_running hrunning, hafter, hcall]
        · exact hbefore hprefix
    · have hstopped := Code.after_of_stopped (Nat.le_of_lt hlt) hrunning
      exact ⟨n + 1, by rw [← hstopped, h₂.observe_eq]⟩

end Allocation.Suits

/-! ## Compiled functions -/

/-- What a function that was compiled was made into. -/
theorem compile_eq_ok {f : Function} {t : Target} {c : Compiled} (h : compile f t = .ok c) :
    t.validate = .ok () ∧ f.Closed ∧ ∃ a layout, Allocation.ofLifetimes (Lifetimes.compute f t) t = .ok a ∧
      Layout.ofAllocation f a = .ok layout ∧ c.code = layout.code ∧ a.frameSize = .ok c.stats.frameSize := by
  obtain ⟨_, hvalid, h⟩ := bind_eq_ok h
  obtain ⟨lt, hlt, h⟩ := bind_eq_ok h
  obtain ⟨a, ha, h⟩ := bind_eq_ok h
  obtain ⟨layout, hlayout, h⟩ := bind_eq_ok h
  obtain ⟨size, hsize, h⟩ := bind_eq_ok h
  obtain rfl := Except.ok.inj h
  rw [Lifetimes.ofFunction] at hlt
  cases hstray : f.strayBlock? with
  | some b =>
    rw [hstray] at hlt
    cases hlt
  | none =>
    rw [hstray] at hlt
    obtain rfl := Except.ok.inj hlt
    exact ⟨hvalid, Function.closed_of_strayBlock? hstray, a, layout, ha, hlayout, rfl, hsize⟩

/-- The code of a plain function is laid out. -/
theorem Function.Plain.exists_laid {f : Function} {t : Target} {a : Allocation} {layout : Layout} (hf : f.Plain t)
    (h : Layout.ofAllocation f a = .ok layout) : ∃ placed ps, Laid f a placed ps layout.code := by
  refine Layout.exists_laid (fun blk hblk i hi => ?_) hf.labels h
  obtain ⟨b, hb⟩ := List.getElem?_of_mem hblk
  obtain ⟨k, hk⟩ := List.getElem?_of_mem hi
  rcases (hf.block b blk hb).code k i hk with hord | ⟨rfl, -⟩ | ⟨rfl, -⟩
  · cases i with
    | jmp | jcc | label | ret => cases hord
    | _ => rfl
  · rfl
  · rfl

/-- The code does what the function does, whatever machine it begins on and whatever calls leave behind: it makes the
same calls with the same arguments, it faults or goes on forever where the function does, and it returns where the
function does, with the frame of the caller. -/
structure Compiled.Implements (c : Compiled) (f : Function) (t : Target) : Prop where
  shows : ∀ answer m o, f.Shows t c.stats.frameSize answer m o ↔ Code.Shows c.code t answer m o
  frame : ∀ answer m calls frame, Code.Shows c.code t answer m ⟨.returned, calls, frame⟩ → frame = some (m.frame t)

/-- **Compiling preserves meaning.** The code that a regular function is compiled to does what the function does. -/
theorem compile_preserves {f : Function} {t : Target} {c : Compiled} (hf : f.Regular t) (htop : t.stackPointer = .sp)
    (hapart : t.frameBase ≠ t.stackPointer) (hc : compile f t = .ok c) (hsize : c.stats.frameSize < UInt32.size) :
    c.Implements f t := by
  obtain ⟨hvalid, hclosed, a, layout, ha, hlayout, hcode, hframe⟩ := compile_eq_ok hc
  obtain ⟨placed, ps, hl⟩ := hf.exists_laid hlayout
  have hfits : c.stats.frameSize + 16 < UInt64.size := by
    simp only [UInt32.size, UInt64.size] at hsize ⊢
    omega
  have hsuits : a.Suits f t c.stats.frameSize :=
    ⟨hf, ⟨hf.width, Target.valid_of_validate hvalid, ha⟩, htop, hapart, hframe, hfits⟩
  have hshows : ∀ answer m o, f.Shows t c.stats.frameSize answer m o ↔ Code.Shows c.code t answer m o :=
    fun answer m o => hcode ▸ hsuits.shows_iff hl hclosed answer m o
  refine ⟨hshows, fun answer m calls frame h => ?_⟩
  obtain ⟨n, hn⟩ := (hshows answer m _).2 h
  obtain ⟨k, hmatches⟩ := hsuits.matches_run hl hclosed answer m n
  have hstatus : (f.after t c.stats.frameSize answer m n).status = .returned := congrArg Observation.status hn
  have hseen := congrArg Observation.frame hn
  rw [observe, hstatus, if_pos rfl, hmatches.frame_of_returned hstatus] at hseen
  exact hseen.symm

/-- A loop that shows the numbers from three down to one. -/
def tally : Function :=
  let reg : Nat → Operand := fun n => .reg .quad (.virt ⟨n, .quad⟩)
  let argument : Operand := .phys .quad .di
  ⟨"tally",
    [⟨"start", [], [.enter, .mov (.imm .quad 3) (reg 0)], .goto 1, []⟩,
      ⟨"header", [⟨reg 1, [(0, reg 0), (2, reg 2)]⟩], [.compare .cmp (.imm .quad 0) (reg 1)],
        .branch .equal 3 2, [1, 2]⟩,
      ⟨"body", [],
        [.mov (reg 1) argument, .call "show" [argument], .mov (reg 1) (reg 2), .arith .sub (.imm .quad 1) (reg 2)],
        .goto 1, []⟩,
      ⟨"end", [], [.leave], .ret, []⟩]⟩

/-- The example is plain for all targets for which its blocks are. -/
theorem tally_plain (t : Target) (ht : ∀ e ∈ tally.blocks.zipIdx, e.1.Plain t e.2) : tally.Plain t :=
  Function.plain_of_check (Function.proper_of_check (by decide) (by decide) (by decide) (by decide)) (by decide)
    ⟨_, rfl, rfl⟩ ht (by decide) (by decide)

/-- With a single register the number is in the frame while it is shown. -/
theorem compile_preserves_tally :
    tally.Regular (.withAllocatable [.b]) ∧ (Target.withAllocatable [.b]).stackPointer = .sp ∧ PhysReg.bp ≠ .sp ∧
      ∃ c, compile tally (.withAllocatable [.b]) = .ok c ∧ c.stats.frameSize < UInt32.size ∧
        c.Implements tally (.withAllocatable [.b]) := by
  have hregular : tally.Regular (.withAllocatable [.b]) :=
    Function.regular_of_check (tally_plain _ (by decide)) (by decide) (by decide) (by decide)
  exact ⟨hregular, rfl, by decide, _, rfl, by decide, compile_preserves hregular rfl (by decide) rfl (by decide)⟩

/-! ## Functions that disturb their frame -/

/-- If a function and its code have made different calls, the code does something else. -/
theorem Compiled.not_implements {c : Compiled} {f : Function} {t : Target} (answer : List Call → PhysReg → Word)
    (m : Machine) (n k : Nat)
    (h : ¬(f.after t c.stats.frameSize answer m n).machine.calls <+: (Code.after c.code t answer m k).machine.calls)
    (h' : ¬(Code.after c.code t answer m k).machine.calls <+: (f.after t c.stats.frameSize answer m n).machine.calls) :
    ¬c.Implements f t := by
  intro himp
  obtain ⟨j, hj⟩ := (himp.shows answer m _).1 ⟨n, rfl⟩
  have hcalls :
      (Code.after c.code t answer m j).machine.calls = (f.after t c.stats.frameSize answer m n).machine.calls :=
    congrArg Observation.calls hj
  rcases Nat.le_total j k with hle | hle
  · exact h (hcalls ▸ Code.calls_after c.code t answer m hle)
  · exact h' (hcalls ▸ Code.calls_after c.code t answer m hle)

/-- A machine that holds nothing but the top of the stack. -/
def blank : Machine := ⟨fun r => if r = .phys .sp then 4096 else 0, fun _ => 0, (0, 0), []⟩

/-- The first block is the header of a loop, and shows what a register holds that calls overwrite. -/
def revisited : Function :=
  let reg : Operand := .reg .quad (.virt ⟨0, .quad⟩)
  ⟨"revisited",
    [⟨"start", [], [.enter, .call "show" [.phys .quad .di], .mov (.imm .quad 7) reg, .compare .cmp reg reg],
      .goto 0, [0]⟩]⟩

/-- The base of the frame is overwritten while a value is in the frame. -/
def unframed : Function :=
  let reg : Operand := .reg .quad (.virt ⟨0, .quad⟩)
  let argument : Operand := .phys .quad .di
  ⟨"unframed",
    [⟨"start", [], [.enter, .mov (.imm .quad 1) reg, .mov (.imm .quad 0) (.phys .quad .bp), .call "tick" [],
      .mov reg argument, .call "show" [argument], .leave], .ret, []⟩]⟩

/-- The first block shows what a phi of it gives, which has nothing to choose from. -/
def unfed : Function :=
  let reg : Operand := .reg .quad (.virt ⟨0, .quad⟩)
  let argument : Operand := .phys .quad .di
  ⟨"unfed",
    [⟨"start", [⟨reg, []⟩], [.enter, .mov reg argument, .call "show" [argument], .leave], .ret, []⟩]⟩

/-- While the only register for values is taken, a value is copied from one place in the frame to another. -/
def carried : Function :=
  let reg : Nat → Operand := fun n => .reg .quad (.virt ⟨n, .quad⟩)
  let argument : Operand := .phys .quad .di
  ⟨"carried",
    [⟨"start", [],
      [.enter, .mov (.imm .quad 1) (reg 0), .mov (.imm .quad 2) (reg 1), .mov (.imm .quad 7) (.phys .quad .b),
      .mov (reg 0) (reg 2), .compare .cmp (.imm .quad 7) (.phys .quad .b), .mov (reg 1) argument,
      .call "show" [argument], .mov (reg 2) argument, .call "show" [argument], .leave], .ret, []⟩]⟩

/-- A target on which one register is both the base and the top of the frame. -/
def folded : Target := { Target.withAllocatable [.b] with frameBase := .sp }

/-- A target that has the top of its frame in a register by which the machine does not push and pop. -/
def aside : Target :=
  { Target.withAllocatable [.b] with stackPointer := .r12, callerSaved := PhysReg.general.erase .r12 }

/-- It is not enough that a function is plain. The code does something else if control comes back to the first block,
since a value may have been put into a register that the block reads; if the first block has a phi, which chooses
nothing; or if the function overwrites the base of its frame. Nor is it enough that it is regular. The code does
something else if the target does not tell the base of a frame from its top, since then the caller does not get its
frame back; or if it does not have the top of the frame in `%rsp`, since then a word that is pushed may land on a
slot. -/
theorem compile_disturbed :
    (revisited.Plain (.withAllocatable [.di, .b]) ∧ ∃ c, compile revisited (.withAllocatable [.di, .b]) = .ok c ∧
        ¬c.Implements revisited (.withAllocatable [.di, .b])) ∧
      (unfed.Plain (.withAllocatable [.b]) ∧ ∃ c, compile unfed (.withAllocatable [.b]) = .ok c ∧
        ¬c.Implements unfed (.withAllocatable [.b])) ∧
      (unframed.Plain (.withAllocatable [.b]) ∧ ∃ c, compile unframed (.withAllocatable [.b]) = .ok c ∧
        ¬c.Implements unframed (.withAllocatable [.b])) ∧
      (tally.Regular folded ∧ folded.stackPointer = .sp ∧
        ∃ c, compile tally folded = .ok c ∧ ¬c.Implements tally folded) ∧
      carried.Regular aside ∧ aside.frameBase ≠ aside.stackPointer ∧
        ∃ c, compile carried aside = .ok c ∧ ¬c.Implements carried aside := by
  have hrevisited : revisited.Plain (.withAllocatable [.di, .b]) :=
    Function.plain_of_check (Function.proper_of_check (by decide) (by decide) (by decide) (by decide)) (by decide)
      ⟨_, rfl, rfl⟩ (by decide) (by decide) (by decide)
  have hunfed : unfed.Plain (.withAllocatable [.b]) :=
    Function.plain_of_check (Function.proper_of_check (by decide) (by decide) (by decide) (by decide)) (by decide)
      ⟨_, rfl, rfl⟩ (by decide) (by decide) (by decide)
  have hunframed : unframed.Plain (.withAllocatable [.b]) :=
    Function.plain_of_check (Function.proper_of_check (by decide) (by decide) (by decide) (by decide)) (by decide)
      ⟨_, rfl, rfl⟩ (by decide) (by decide) (by decide)
  have hcarried : carried.Plain aside :=
    Function.plain_of_check (Function.proper_of_check (by decide) (by decide) (by decide) (by decide)) (by decide)
      ⟨_, rfl, rfl⟩ (by decide) (by decide) (by decide)
  refine ⟨⟨hrevisited, _, rfl, ?_⟩, ⟨hunfed, _, rfl, ?_⟩, ⟨hunframed, _, rfl, ?_⟩,
    ⟨Function.regular_of_check (tally_plain folded (by decide)) (by decide) (by decide) (by decide), rfl, _, rfl,
      fun himp => ?_⟩,
    Function.regular_of_check hcarried (by decide) (by decide) (by decide), by decide, _, rfl, ?_⟩
  · exact Compiled.not_implements (fun _ _ => 0) blank 7 14 (by decide +kernel) (by decide +kernel)
  · exact Compiled.not_implements (fun _ _ => 0) (blank.setReg (.virt ⟨0, .quad⟩) 1) 3 6 (by decide +kernel)
      (by decide +kernel)
  · exact Compiled.not_implements (fun _ _ => 0) blank 6 20 (by decide +kernel) (by decide +kernel)
  · have hframe := himp.frame (fun _ _ => 0) blank [⟨"show", [3]⟩, ⟨"show", [2]⟩, ⟨"show", [1]⟩] (some (0, 0))
      ⟨60, by decide +kernel⟩
    exact absurd hframe (by decide)
  · -- The stack of the machine and the frame begin at the same place.
    exact Compiled.not_implements (fun _ _ => 0) (blank.setReg (.phys .r12) 4096) 8 15 (by decide +kernel)
      (by decide +kernel)

end RegAlloc
