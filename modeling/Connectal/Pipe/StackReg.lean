import Mathlib.Data.BitVec
import Mathlib.Data.List.Basic
import Mathlib.Logic.Function.Basic

/-! `mkStackReg`, a call stack whose top two frames are registers and whose other frames are in
block memories. One cycle of the clock is one step; the memories answer a read in the next cycle.
The memories and registers of the program counter, of the arguments and of the variables are always
used together, so a frame has the three parts. -/
namespace Connectal.Stack

/-- What the stack keeps of one call. -/
structure Frame (PC Args Vars : Type) where
  pc : PC
  args : Args
  vars : Vars
  deriving DecidableEq

structure StackReg (addressBits : Nat) (PC Args Vars : Type) where
  stack : BitVec addressBits → Frame PC Args Vars
  /-- The answer of the memories to the read of the last cycle. -/
  response : Option (Frame PC Args Vars)
  top : Frame PC Args Vars
  next : Frame PC Args Vars
  fp : BitVec addressBits
  returningd1 : Bool

/-- What the surroundings do in one cycle. The registers may be written in any combination. -/
inductive Op (PC Args Vars : Type) where
  | docall (jumpto returnto : PC) (args : Args) (vars : Vars)
  | doreturn
  | nextpc (jumpto : PC)
  | write (pc : Option PC) (args : Option Args) (vars : Option Vars)

/-- The wire `calling`. -/
def Op.calling {PC Args Vars : Type} : Op PC Args Vars → Bool
  | .docall .. => true
  | _ => false

/-- The wire `returning`. -/
def Op.returning {PC Args Vars : Type} : Op PC Args Vars → Bool
  | .doreturn => true
  | _ => false

variable {addressBits : Nat} {PC Args Vars : Type}

namespace StackReg

/-- The registers that have an initial value get it; the others hold anything. -/
def powerUp (initialpc : PC) (args : Args) (vars : Vars) (next : Frame PC Args Vars)
    (stack : BitVec addressBits → Frame PC Args Vars) : StackReg addressBits PC Args Vars :=
  ⟨stack, none, ⟨initialpc, args, vars⟩, next, 0, false⟩

def docall (jumpto returnto : PC) (args : Args) (vars : Vars) (s : StackReg addressBits PC Args Vars) :
    StackReg addressBits PC Args Vars :=
  { s with
    fp := if s.fp + 1 ≤ BitVec.allOnes addressBits then s.fp + 1 else BitVec.allOnes addressBits
    stack := if s.returningd1 then s.stack else Function.update s.stack s.fp s.next
    next := ⟨returnto, s.top.args, vars⟩
    top := ⟨jumpto, args, vars⟩ }

def doreturn (s : StackReg addressBits PC Args Vars) : StackReg addressBits PC Args Vars :=
  { s with
    fp := if 0 ≤ s.fp - 1 then s.fp - 1 else 0
    response := some (s.stack (s.fp - 1))
    top := if s.returningd1 then s.top else s.next }

def write (pc : Option PC) (args : Option Args) (vars : Option Vars) (s : StackReg addressBits PC Args Vars) :
    StackReg addressBits PC Args Vars :=
  { s with top := ⟨pc.getD s.top.pc, args.getD s.top.args, vars.getD s.top.vars⟩ }

/-- The rules `poppc`, `popargs` and `popvars`, which see the wires of the cycle. -/
def pop (calling returning : Bool) (v : Frame PC Args Vars) (s : StackReg addressBits PC Args Vars) :
    StackReg addressBits PC Args Vars :=
  { s with next := if calling then s.next else v, top := if returning then v else s.top }

def perform (s : StackReg addressBits PC Args Vars) : Op PC Args Vars → StackReg addressBits PC Args Vars
  | .docall jumpto returnto args vars => s.docall jumpto returnto args vars
  | .doreturn => s.doreturn
  | .nextpc jumpto => s.write (some jumpto) none none
  | .write pc args vars => s.write pc args vars

/-- One cycle: the methods, the pop rules if an answer has come, and `returning_delay`. -/
def cycle (s : StackReg addressBits PC Args Vars) (op : Op PC Args Vars) : StackReg addressBits PC Args Vars :=
  let called := { s with response := none }.perform op
  let popped := match s.response with
    | none => called
    | some v => called.pop op.calling op.returning v
  { popped with returningd1 := op.returning }

end StackReg

/-- A call stack: the frame of the present call and the saved frames, the most recent one first. -/
structure CallStack (PC Args Vars : Type) where
  current : Frame PC Args Vars
  saved : List (Frame PC Args Vars)

/-- One cycle of the call stack. There is no return without a call, and no call that would make
the stack deeper than `limit`. -/
def CallStack.cycle (limit : Nat) (c : CallStack PC Args Vars) :
    Op PC Args Vars → Option (CallStack PC Args Vars)
  | .docall jumpto returnto args vars =>
    if c.saved.length < limit then
      some ⟨⟨jumpto, args, vars⟩, ⟨returnto, c.current.args, vars⟩ :: c.saved⟩
    else none
  | .doreturn =>
    match c.saved with
    | [] => none
    | f :: rest => some ⟨f, rest⟩
  | .nextpc jumpto => some { c with current := { c.current with pc := jumpto } }
  | .write pc args vars => some { c with
      current := ⟨pc.getD c.current.pc, args.getD c.current.args, vars.getD c.current.vars⟩ }

variable {s : StackReg addressBits PC Args Vars} {c c' : CallStack PC Args Vars}

/-- The `i`-th most recent frame is at the address `fp - i`. In the cycle after a return the most
recent frame is on its way from the memory, and otherwise it is in `next` instead. -/
structure Represents (s : StackReg addressBits PC Args Vars) (c : CallStack PC Args Vars) : Prop where
  depth : s.fp.toNat = c.saved.length
  top : s.top = c.current
  response : s.response = if s.returningd1 then some (s.stack s.fp) else none
  next : s.returningd1 = false → ∀ f ∈ c.saved[0]?, s.next = f
  saved : ∀ i f, c.saved[i]? = some f → 0 < i ∨ s.returningd1 = true →
    s.stack (BitVec.ofNat addressBits (c.saved.length - i)) = f

namespace Represents

theorem fp_eq (h : Represents s c) : s.fp = BitVec.ofNat addressBits c.saved.length := by
  rw [← h.depth, BitVec.ofNat_toNat, BitVec.setWidth_eq]

/-- The most recent frame is where the next cycle looks for it. -/
theorem recent {f : Frame PC Args Vars} {rest : List (Frame PC Args Vars)} (h : Represents s c)
    (hSaved : c.saved = f :: rest) :
    s.returningd1 = true ∧ s.response = some f ∨ s.returningd1 = false ∧ s.response = none ∧ s.next = f := by
  have hResponse := h.response
  cases hReturned : s.returningd1 with
  | true =>
    rw [hReturned, if_pos rfl, h.fp_eq] at hResponse
    exact .inl ⟨rfl, hResponse.trans (congrArg some (h.saved 0 f (by rw [hSaved]; rfl) (.inr hReturned)))⟩
  | false =>
    rw [hReturned] at hResponse
    exact .inr ⟨rfl, hResponse, h.next hReturned f (by rw [hSaved]; rfl)⟩

theorem toNat_one (h : 1 < 2 ^ addressBits) : (1 : BitVec addressBits).toNat = 1 := by
  simp [Nat.mod_eq_of_lt h]

theorem docall {jumpto returnto : PC} {args : Args} {vars : Vars} (h : Represents s c)
    (hRoom : c.saved.length < 2 ^ addressBits - 1) :
    Represents (s.cycle (.docall jumpto returnto args vars))
      ⟨⟨jumpto, args, vars⟩, ⟨returnto, c.current.args, vars⟩ :: c.saved⟩ := by
  have hDepth := h.depth
  -- a call hides the answer from the registers
  have hCycle : s.cycle (.docall jumpto returnto args vars) =
      { s.docall jumpto returnto args vars with response := none, returningd1 := false } := by
    unfold StackReg.cycle
    cases s.response <;> rfl
  rw [hCycle]
  refine ⟨?_, rfl, rfl, fun _ f hf => ?_, fun i f hi hPlace => ?_⟩
  · have hMax : s.fp + 1 ≤ BitVec.allOnes addressBits := by
      rw [BitVec.le_def, BitVec.toNat_allOnes]
      exact Nat.le_sub_one_of_lt (s.fp + 1).isLt
    show (if _ then s.fp + 1 else _).toNat = c.saved.length + 1
    rw [if_pos hMax, BitVec.toNat_add, hDepth, toNat_one (by omega)]
    exact Nat.mod_eq_of_lt (by omega)
  · rw [← Option.some.inj hf, ← h.top]
    rfl
  · obtain ⟨i, rfl⟩ : ∃ j, i = j + 1 := ⟨i - 1, by simp at hPlace; omega⟩
    rw [List.getElem?_cons_succ] at hi
    have hLt := (List.getElem_of_getElem? hi).1
    show (if s.returningd1 then s.stack else Function.update s.stack s.fp s.next)
      (BitVec.ofNat addressBits (c.saved.length + 1 - (i + 1))) = f
    rw [Nat.add_sub_add_right]
    cases hReturned : s.returningd1 with
    | true => exact h.saved i f hi (.inr hReturned)
    | false =>
      rw [if_neg Bool.false_ne_true]
      rcases Nat.eq_zero_or_pos i with rfl | hPos
      · rw [Nat.sub_zero, ← h.fp_eq, Function.update_self]
        exact h.next hReturned f hi
      · rw [Function.update_of_ne]
        · exact h.saved i f hi (.inl hPos)
        · rw [h.fp_eq, ne_eq, ← BitVec.toNat_inj, BitVec.toNat_ofNat, BitVec.toNat_ofNat,
            Nat.mod_eq_of_lt (by omega), Nat.mod_eq_of_lt (by omega)]
          omega

theorem doreturn {f : Frame PC Args Vars} {rest : List (Frame PC Args Vars)} (h : Represents s c)
    (hSaved : c.saved = f :: rest) : Represents (s.cycle .doreturn) ⟨f, rest⟩ := by
  have hDepth := h.depth
  rw [hSaved, List.length_cons] at hDepth
  have hFp : (s.fp - 1).toNat = rest.length := by
    have hOne : (1 : BitVec addressBits).toNat = 1 := toNat_one (by omega)
    rw [BitVec.toNat_sub_of_le (by rw [BitVec.le_def, hOne]; omega), hDepth, hOne, Nat.add_sub_cancel]
  have hCycle : ∃ next, s.cycle .doreturn = ⟨s.stack, some (s.stack (s.fp - 1)), f, next, s.fp - 1, true⟩ := by
    unfold StackReg.cycle
    rcases h.recent hSaved with ⟨hReturned, hResponse⟩ | ⟨hReturned, hResponse, hNext⟩
    · simp [hResponse, StackReg.perform, StackReg.doreturn, StackReg.pop, Op.returning]
    · simp [hResponse, StackReg.perform, StackReg.doreturn, hReturned, hNext, Op.returning]
  obtain ⟨next, hCycle⟩ := hCycle
  rw [hCycle]
  refine ⟨hFp, rfl, rfl, fun hNot => (by cases hNot), fun i g hi _ => ?_⟩
  have hAddress : rest.length - i = c.saved.length - (i + 1) := by
    rw [hSaved, List.length_cons, Nat.add_sub_add_right]
  rw [hAddress]
  exact h.saved (i + 1) g (by rw [hSaved]; exact hi) (.inl (Nat.succ_pos i))

theorem write (pc : Option PC) (args : Option Args) (vars : Option Vars) (h : Represents s c) :
    Represents (s.cycle (.write pc args vars))
      { c with current := ⟨pc.getD c.current.pc, args.getD c.current.args, vars.getD c.current.vars⟩ } := by
  have hCycle : ∃ next, s.cycle (.write pc args vars) =
        ⟨s.stack, none, ⟨pc.getD s.top.pc, args.getD s.top.args, vars.getD s.top.vars⟩, next, s.fp, false⟩ ∧
      ∀ f ∈ c.saved[0]?, next = f := by
    unfold StackReg.cycle
    cases hSaved : c.saved with
    | nil => cases s.response <;> exact ⟨_, rfl, fun f hf => by cases hf⟩
    | cons f rest =>
      rcases h.recent hSaved with ⟨-, hResponse⟩ | ⟨-, hResponse, hNext⟩
      · rw [hResponse]
        exact ⟨_, rfl, fun g hg => Option.some.inj hg⟩
      · rw [hResponse]
        exact ⟨_, rfl, fun g hg => hNext.trans (Option.some.inj hg)⟩
  obtain ⟨next, hCycle, hNext⟩ := hCycle
  rw [hCycle, ← h.top]
  refine ⟨h.depth, rfl, rfl, fun _ => hNext, fun i f hi hPlace => h.saved i f hi (.inl ?_)⟩
  simpa using hPlace

theorem cycle {op : Op PC Args Vars} (h : Represents s c) (hOp : c.cycle (2 ^ addressBits - 1) op = some c') :
    Represents (s.cycle op) c' := by
  cases op with
  | docall jumpto returnto args vars =>
    simp only [CallStack.cycle, Option.ite_none_right_eq_some, Option.some.injEq] at hOp
    obtain ⟨hRoom, rfl⟩ := hOp
    exact h.docall hRoom
  | doreturn =>
    cases hSaved : c.saved with
    | nil => simp [CallStack.cycle, hSaved] at hOp
    | cons f rest =>
      simp only [CallStack.cycle, hSaved, Option.some.injEq] at hOp
      exact hOp ▸ h.doreturn hSaved
  | nextpc jumpto => exact Option.some.inj hOp ▸ h.write (some jumpto) none none
  | write pc args vars => exact Option.some.inj hOp ▸ h.write pc args vars

end Represents

/-- However calls, returns, jumps and writes follow each other, the registers are those of the call
stack in every cycle, as long as the stack has room for the calls and a call for every return. -/
theorem stackReg_is_call_stack {ops : List (Op PC Args Vars)} {initialpc : PC} {args : Args} {vars : Vars}
    {next : Frame PC Args Vars} {stack : BitVec addressBits → Frame PC Args Vars}
    (hOps : ops.foldlM (CallStack.cycle (2 ^ addressBits - 1)) ⟨⟨initialpc, args, vars⟩, []⟩ = some c) :
    (ops.foldl StackReg.cycle (.powerUp initialpc args vars next stack)).top = c.current := by
  suffices hRun : ∀ (ops : List (Op PC Args Vars)) (s : StackReg addressBits PC Args Vars)
      (c c' : CallStack PC Args Vars), Represents s c →
      ops.foldlM (CallStack.cycle (2 ^ addressBits - 1)) c = some c' →
      Represents (ops.foldl StackReg.cycle s) c' from
    (hRun ops _ _ _ ⟨rfl, rfl, rfl, fun _ f hf => (by cases hf), fun i f hi => (by cases hi)⟩ hOps).top
  intro ops
  induction ops with
  | nil => exact fun s c c' h hOps => Option.some.inj hOps ▸ h
  | cons op ops ih =>
    intro s c c' h hOps
    rw [List.foldlM_cons, Option.bind_eq_bind, Option.bind_eq_some_iff] at hOps
    obtain ⟨d, hOp, hOps⟩ := hOps
    exact ih _ _ _ (h.cycle hOp) hOps

/-- Three calls, two returns in a row, a call directly after them, and a return. -/
theorem stackReg_is_call_stack_back_to_back :
    (([.docall 10 11 1 2, .docall 20 21 3 4, .docall 30 31 5 6, .doreturn, .doreturn, .docall 40 41 7 8,
      .doreturn] : List (Op Nat Nat Nat)).foldl StackReg.cycle
        (.powerUp 0 0 0 ⟨0, 0, 0⟩ fun _ : BitVec 2 => ⟨0, 0, 0⟩)).top = ⟨41, 1, 8⟩ :=
  stackReg_is_call_stack (c := ⟨⟨41, 1, 8⟩, [⟨11, 0, 2⟩]⟩) rfl

end Connectal.Stack
