import RegAlloc.Proofs.Instructions
import Mathlib.Logic.Relation

/-!
# Runs of code

What a run of flat code does over several steps. A run is at `rest` if that is the code from its next instruction on;
code without jumps is run from its beginning to its end as `Machine.execAll` says (`run_execAll`), and where there is
nothing but jumps, control goes from place to place on a machine that stays as it is (`Jumps`). The calls of a run
only grow, by one call a step at most, and a run that has stopped stays as it is.
-/

namespace RegAlloc

/-- Code that goes on with what stands after it. -/
def Straight (code : List Instruction) : Prop := ∀ i ∈ code, i.isControl = false

theorem straight_nil : Straight [] := List.forall_mem_nil _

/-- An instruction before straight code keeps it straight, unless it jumps. -/
theorem Straight.cons {i : Instruction} {code : List Instruction} (h : Straight code) (hi : i.isControl = false) :
    Straight (i :: code) :=
  List.forall_mem_cons.2 ⟨hi, h⟩

/-- Straight code can be put one after the other. -/
theorem Straight.append {code code' : List Instruction} (h : Straight code) (h' : Straight code') :
    Straight (code ++ code') :=
  List.forall_mem_append.2 ⟨h, h'⟩

/-- An instruction that may send control elsewhere. -/
def Instruction.isJump : Instruction → Bool
  | .jmp _ | .jcc _ _ => true
  | _ => false

/-- A relation and its negation do not hold at the same time. -/
theorem Relation.holds_negated (relation : Relation) (sides : Word × Word) :
    relation.negated.holds sides = !relation.holds sides := by
  cases relation <;> simp [negated, holds, BitVec.sle_eq_not_slt, bne]

namespace Machine

variable {w : World} {m m' : Machine} {i : Instruction}

theorem calls_set (m : Machine) (c : Content) (x : Word) : (m.set c x).calls = m.calls := by cases c <;> rfl

theorem calls_put {o : Operand} {x : Word} (h : m.put o x = some m') : m'.calls = m.calls := by
  obtain ⟨-, rfl⟩ := put_eq_some.1 h
  exact calls_set m o.content x

/-- An instruction makes one call or none. -/
theorem calls_exec (h : m.exec w i = some m') : m'.calls = m.calls ∨ ∃ c, m'.calls = m.calls ++ [c] := by
  cases i with
  | arith op left right => exact .inl (calls_put h)
  | compare op left right =>
    obtain rfl := Option.some.inj h
    exact .inl rfl
  | mov src dest =>
    simp only [exec] at h
    split_ifs at h
    exact .inl (calls_put h)
  | neg operand => exact .inl (calls_put h)
  | setcc relation output => exact .inl (calls_put h)
  | cqto width =>
    obtain rfl := Option.some.inj h
    exact .inl rfl
  | idiv divisor =>
    obtain ⟨_, -, h⟩ := Option.bind_eq_some_iff.1 h
    obtain rfl := Option.some.inj h
    exact .inl rfl
  | call callee arguments =>
    obtain rfl := Option.some.inj h
    exact .inr ⟨_, rfl⟩
  | push operand =>
    obtain rfl := Option.some.inj h
    exact .inl rfl
  | pop operand =>
    have hput : (m.popped w).put operand (m.memory (m.regs (.phys w.stackPointer))) = some m' := h
    have hcalls : m'.calls = (m.popped w).calls := calls_put hput
    exact .inl hcalls
  | xchg left right =>
    obtain ⟨_, hleft, hright⟩ := Option.bind_eq_some_iff.1 h
    exact .inl ((calls_put hright).trans (calls_put hleft))
  | enter | leave | jmp | jcc | label | ret => cases h

/-- What the machine carries out is no jump. -/
theorem isControl_of_exec (h : m.exec w i = some m') : i.isControl = false := by
  cases i with
  | jmp | jcc | label | ret => cases h
  | _ => rfl

variable {t : Target} {size : Nat}

/-- Other than the instructions for the frame are carried out by the machine itself. -/
theorem execIn_eq_exec (henter : i ≠ .enter) (hleave : i ≠ .leave) : m.execIn t size w i = m.exec w i := by
  cases i with
  | enter => exact absurd rfl henter
  | leave => exact absurd rfl hleave
  | _ => rfl

/-- One instruction makes at most one call. -/
theorem calls_execIn (h : m.execIn t size w i = some m') : m'.calls = m.calls ∨ ∃ c, m'.calls = m.calls ++ [c] := by
  by_cases henter : i = .enter
  · obtain rfl := Option.some.inj (henter ▸ h)
    exact .inl rfl
  by_cases hleave : i = .leave
  · obtain rfl := Option.some.inj (hleave ▸ h)
    exact .inl rfl
  · exact calls_exec (execIn_eq_exec henter hleave ▸ h)

end Machine

namespace Code

variable {code rest seg : List Instruction} {w : World} {s s' s'' : State} {pc n k : Nat} {m m' : Machine}
  {i : Instruction}

theorem run_add (code : List Instruction) (w : World) (n k : Nat) (s : State) :
    run code w (n + k) s = run code w n (run code w k s) := by
  induction n with
  | zero => rw [Nat.zero_add, run]
  | succ n ih => rw [Nat.succ_add, run, run, ih]

/-- A run of one step more begins with a step. -/
theorem run_succ (code : List Instruction) (w : World) (n : Nat) (s : State) :
    run code w (n + 1) s = run code w n (step code w s) :=
  run_add code w n 1 s

/-- A run that has stopped stays as it is. -/
theorem run_of_stopped (h : s.status ≠ .running) (n : Nat) : run code w n s = s := by
  have hstep : step code w s = s := by
    cases hs : s.status with
    | running => exact absurd hs h
    | returned => simp only [step, hs]
    | faulted => simp only [step, hs]
  induction n with
  | zero => rfl
  | succ n ih => rw [run, ih, hstep]

/-- The code from a number on begins with the instruction of that number. -/
theorem getElem?_of_drop (h : code.drop pc = i :: rest) : code[pc]? = some i :=
  by rw [← List.head?_drop, h, List.head?_cons]

/-- After a part of the code comes the rest. -/
theorem drop_append_length (h : code.drop pc = seg ++ rest) : code.drop (pc + seg.length) = rest := by
  rw [← List.drop_drop, h, List.drop_left]

/-- The code goes on with the next instruction. -/
theorem step_exec (h : code.drop pc = i :: rest) (hm : m.exec w i = some m') :
    step code w ⟨.running, pc, m⟩ = ⟨.running, pc + 1, m'⟩ := by
  have hi := Machine.isControl_of_exec hm
  simp only [step, getElem?_of_drop h]
  cases i with
  | jmp | jcc | label | ret => cases hi
  | _ => simp only [hm]

/-- The code faults where an instruction does. -/
theorem step_fault (h : code.drop pc = i :: rest) (hi : i.isControl = false) (hm : m.exec w i = none) :
    step code w ⟨.running, pc, m⟩ = ⟨.faulted, pc, m⟩ := by
  simp only [step, getElem?_of_drop h]
  cases i with
  | jmp | jcc | label | ret => cases hi
  | _ => simp only [hm]

theorem step_label {name : String} (h : code.drop pc = .label name :: rest) :
    step code w ⟨.running, pc, m⟩ = ⟨.running, pc + 1, m⟩ := by
  simp only [step, getElem?_of_drop h]

theorem step_ret (h : code.drop pc = .ret :: rest) : step code w ⟨.running, pc, m⟩ = ⟨.returned, pc, m⟩ := by
  simp only [step, getElem?_of_drop h]

theorem step_jmp {name : String} (h : code.drop pc = .jmp name :: rest) :
    step code w ⟨.running, pc, m⟩ = jump code name ⟨.running, pc, m⟩ := by
  simp only [step, getElem?_of_drop h]

/-- A conditional jump goes to its label if the relation holds, and on otherwise. -/
theorem step_jcc {relation : Relation} {name : String} (h : code.drop pc = .jcc relation name :: rest) :
    step code w ⟨.running, pc, m⟩ =
      if relation.holds m.flags then jump code name ⟨.running, pc, m⟩ else ⟨.running, pc + 1, m⟩ := by
  simp only [step, getElem?_of_drop h]

/-- Code without jumps is run from its beginning to its end. -/
theorem run_execAll (h : code.drop pc = seg ++ rest) (hm : m.execAll w seg = some m') :
    run code w seg.length ⟨.running, pc, m⟩ = ⟨.running, pc + seg.length, m'⟩ := by
  induction seg generalizing pc m with
  | nil =>
    obtain rfl := Option.some.inj hm
    rfl
  | cons i seg ih =>
    obtain ⟨m₁, hi, hm⟩ := Option.bind_eq_some_iff.1 hm
    have htail : code.drop (pc + 1) = seg ++ rest :=
      drop_append_length (show code.drop pc = [i] ++ (seg ++ rest) from h)
    rw [List.length_cons, run_succ, step_exec h hi, ih htail hm, Nat.add_assoc, Nat.add_comm 1]

/-- Code that faults on the way is run up to the instruction that faults. -/
theorem run_fault (h : code.drop pc = seg ++ i :: rest) (hm : m.execAll w seg = some m') (hi : i.isControl = false)
    (hfault : m'.exec w i = none) :
    run code w (seg.length + 1) ⟨.running, pc, m⟩ = ⟨.faulted, pc + seg.length, m'⟩ := by
  rw [run, run_execAll h hm, step_fault (drop_append_length h) hi hfault]

/-- A run comes from a state to another one. -/
def Leads (code : List Instruction) (w : World) (s s' : State) : Prop := ∃ n, run code w n s = s'

/-- A run comes from a state to another one, in one step at least. -/
def Advances (code : List Instruction) (w : World) (s s' : State) : Prop := ∃ n, run code w (n + 1) s = s'

theorem Leads.trans (h : Leads code w s s') (h' : Leads code w s' s'') : Leads code w s s'' := by
  obtain ⟨n, rfl⟩ := h
  obtain ⟨k, rfl⟩ := h'
  exact ⟨k + n, run_add code w k n s⟩

/-- Steps can be followed by at least one. -/
theorem Leads.advances (h : Leads code w s s') (h' : Advances code w s' s'') : Advances code w s s'' := by
  obtain ⟨n, rfl⟩ := h
  obtain ⟨k, rfl⟩ := h'
  exact ⟨k + n, by rw [Nat.add_right_comm, run_add]⟩

/-- At least one step can be followed by more. -/
theorem Advances.leads (h : Advances code w s s') (h' : Leads code w s' s'') : Advances code w s s'' := by
  obtain ⟨n, rfl⟩ := h
  obtain ⟨k, rfl⟩ := h'
  exact ⟨k + n, run_add code w k (n + 1) s⟩

/-- Code without jumps leads to where it leads when it is carried out by itself. -/
theorem leads_execAll (h : code.drop pc = seg ++ rest) (hm : m.execAll w seg = some m') :
    ∃ pc', Leads code w ⟨.running, pc, m⟩ ⟨.running, pc', m'⟩ ∧ code.drop pc' = rest :=
  ⟨_, ⟨_, run_execAll h hm⟩, drop_append_length h⟩

/-- If there is any of it, at least one step is made. -/
theorem advances_execAll (h : code.drop pc = seg ++ rest) (hseg : seg ≠ []) (hm : m.execAll w seg = some m') :
    ∃ pc', Advances code w ⟨.running, pc, m⟩ ⟨.running, pc', m'⟩ ∧ code.drop pc' = rest := by
  obtain ⟨i, seg, rfl⟩ := List.exists_cons_of_ne_nil hseg
  exact ⟨_, ⟨_, run_execAll h hm⟩, drop_append_length h⟩

/-- Where an instruction after such code faults, the run faults. -/
theorem advances_fault (h : code.drop pc = seg ++ i :: rest) (hm : m.execAll w seg = some m') (hi : i.isControl = false)
    (hfault : m'.exec w i = none) : ∃ pc', Advances code w ⟨.running, pc, m⟩ ⟨.faulted, pc', m'⟩ :=
  ⟨_, _, run_fault h hm hi hfault⟩

theorem advances_label {name : String} (h : code.drop pc = .label name :: rest) (m : Machine) :
    Advances code w ⟨.running, pc, m⟩ ⟨.running, pc + 1, m⟩ ∧ code.drop (pc + 1) = rest :=
  ⟨⟨0, step_label h⟩, drop_append_length (show code.drop pc = [_] ++ rest from h)⟩

/-- The instruction at one place of the code is a jump. Taken or not, it leads to the other place, and changes nothing
else. -/
structure Hop (code : List Instruction) (w : World) (m : Machine) (pc pc' : Nat) : Prop where
  jump : ∃ i, code[pc]? = some i ∧ i.isJump
  step : step code w ⟨.running, pc, m⟩ = ⟨.running, pc', m⟩

/-- Control comes from one place of the code to another one by jumps alone. -/
def Jumps (code : List Instruction) (w : World) (m : Machine) : Nat → Nat → Prop := Relation.ReflTransGen (Hop code w m)

/-- Jumps change nothing but the place in the code. -/
theorem Jumps.leads {pc' : Nat} (h : Jumps code w m pc pc') : Leads code w ⟨.running, pc, m⟩ ⟨.running, pc', m⟩ := by
  induction h with
  | refl => exact ⟨0, rfl⟩
  | tail _ hop ih => exact ih.trans ⟨1, hop.step⟩

theorem hop_jmp {name : String} {pc' : Nat} (h : code.drop pc = .jmp name :: rest)
    (hjump : jump code name ⟨.running, pc, m⟩ = ⟨.running, pc', m⟩) : Hop code w m pc pc' :=
  ⟨⟨_, getElem?_of_drop h, rfl⟩, (step_jmp h).trans hjump⟩

/-- A conditional jump whose relation holds is taken. -/
theorem hop_jcc {relation : Relation} {name : String} {pc' : Nat} (h : code.drop pc = .jcc relation name :: rest)
    (hholds : relation.holds m.flags) (hjump : jump code name ⟨.running, pc, m⟩ = ⟨.running, pc', m⟩) :
    Hop code w m pc pc' :=
  ⟨⟨_, getElem?_of_drop h, rfl⟩, (step_jcc h).trans ((if_pos hholds).trans hjump)⟩

/-- A conditional jump whose relation does not hold is passed. -/
theorem hop_past {relation : Relation} {name : String} (h : code.drop pc = .jcc relation name :: rest)
    (hholds : ¬relation.holds m.flags) : Hop code w m pc (pc + 1) :=
  ⟨⟨_, getElem?_of_drop h, rfl⟩, (step_jcc h).trans (if_neg hholds)⟩

/-- A step makes one call or none. -/
theorem calls_step (code : List Instruction) (w : World) (s : State) :
    (step code w s).machine.calls = s.machine.calls ∨ ∃ c, (step code w s).machine.calls = s.machine.calls ++ [c] := by
  have hjump : ∀ name, (jump code name s).machine = s.machine := by
    intro name
    rw [jump]
    split <;> rfl
  rw [step]
  split
  · exact .inl rfl
  · exact .inl rfl
  · split
    · exact .inl rfl
    · exact .inl rfl
    · exact .inl (congrArg Machine.calls (hjump _))
    · split_ifs
      · exact .inl (congrArg Machine.calls (hjump _))
      · exact .inl rfl
    · exact .inl rfl
    · split
      · exact Machine.calls_exec (by assumption)
      · exact .inl rfl

/-- Calls that were made are never forgotten. -/
theorem calls_run (code : List Instruction) (w : World) (n : Nat) (s : State) :
    s.machine.calls <+: (run code w n s).machine.calls := by
  induction n with
  | zero => exact List.prefix_refl _
  | succ n ih =>
    rw [run]
    rcases calls_step code w (run code w n s) with h | ⟨c, h⟩
    · exact h ▸ ih
    · exact h ▸ ih.trans (List.prefix_append _ _)

end Code

namespace Function

/-- A step makes one call or none, and the run goes on if it makes one. -/
theorem calls_step (f : Function) (t : Target) (size : Nat) (answer : List Call → PhysReg → Word) (s : State) :
    (f.step t size answer s).machine.calls = s.machine.calls ∨
      (∃ c, (f.step t size answer s).machine.calls = s.machine.calls ++ [c]) ∧
      (f.step t size answer s).status = s.status := by
  rw [step]
  split
  · exact .inl rfl
  · exact .inl rfl
  · split
    · exact .inl rfl
    · split
      · split
        · rename_i hm
          exact (Machine.calls_execIn hm).imp_right fun hc => ⟨hc, rfl⟩
        · exact .inl rfl
      · split
        · exact .inl rfl
        · exact .inl rfl

end Function

end RegAlloc
