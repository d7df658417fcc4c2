import Connectal.Rules.Machine
import Connectal.Layout.Lanes
import Connectal.Rules.Bram
import Mathlib.Data.Nat.Log
import Mathlib.Data.Nat.ModEq

/-! `mkUGBramFifos` of `MemUtils.bsv`: several queues of one depth in one block memory.
The queues are not guarded; whoever uses them keeps account of what is in them. For such users
they are independent queues, whatever their number and depth. -/
namespace Connectal.Engine

open Rules

/-- The bits of an address in the memory of all queues. -/
def buffAddrSz (numFifos fifoDepth : Nat) : Nat := Nat.clog 2 (fifoDepth * numFifos)

abbrev Addr (numFifos fifoDepth : Nat) := BitVec (buffAddrSz numFifos fifoDepth)

/-- The pointers of every queue and the memory. Port 0 reads and rewrites the oldest
items, port 1 appends. -/
structure UGBramFifos (numFifos fifoDepth : Nat) (α : Type) where
  head : Fin numFifos → Addr numFifos fifoDepth
  tail : Fin numFifos → Addr numFifos fifoDepth
  buff : Bram (Addr numFifos fifoDepth) α 3

namespace UGBramFifos

variable {n depth : Nat} {α : Type}

/-- The pointer behind `p` in queue `idx`, computed with one bit more than an address has. -/
def next (idx : Fin n) (p : Addr n depth) : Addr n depth :=
  let nt := p.setWidth (1 + buffAddrSz n depth) + 1#_
  let li := (BitVec.ofNat _ idx + 1#_) * BitVec.ofNat _ depth
  let rs := (BitVec.ofNat _ idx + 0#_) * BitVec.ofNat _ depth
  (if nt ≥ li then rs else nt).setWidth _

def enq (idx : Fin n) (v : α) (f : UGBramFifos n depth α) : Option (UGBramFifos n depth α) := do
  let buff ← f.buff.write 1 (f.tail idx) v
  pure { f with buff, tail := Function.update f.tail idx (next idx (f.tail idx)) }

def firstReq (idx : Fin n) (f : UGBramFifos n depth α) : Option (UGBramFifos n depth α) := do
  let buff ← f.buff.read 0 (f.head idx)
  pure { f with buff }

def firstResp (f : UGBramFifos n depth α) : Option (α × UGBramFifos n depth α) := do
  let (v, buff) ← f.buff.get 0
  pure (v, { f with buff })

def deq (idx : Fin n) (f : UGBramFifos n depth α) : UGBramFifos n depth α :=
  { f with head := Function.update f.head idx (next idx (f.head idx)) }

def updHead (idx : Fin n) (v : α) (f : UGBramFifos n depth α) : Option (UGBramFifos n depth α) := do
  let buff ← f.buff.write 0 (f.head idx) v
  pure { f with buff }

/-- The memory after power-up is unspecified. -/
def powerUp (mem : Addr n depth → α) : UGBramFifos n depth α :=
  ⟨fun i => BitVec.ofNat _ (i * depth), fun i => BitVec.ofNat _ (i * depth), Bram.powerUp mem⟩

/-- The `k` items from place `p` of queue `idx` on. -/
def itemsFrom (idx : Fin n) (mem : Addr n depth → α) : Nat → Addr n depth → List α
  | 0, _ => []
  | k + 1, p => mem p :: itemsFrom idx mem k (next idx p)

/-- The oldest `k` items of a queue. -/
def contents (f : UGBramFifos n depth α) (idx : Fin n) (k : Nat) : List α := itemsFrom idx f.buff.mem k (f.head idx)

inductive Action (n : Nat) (α : Type) where
  | enq (idx : Fin n) (v : α)
  | firstReq (idx : Fin n)
  | firstResp
  | deq (idx : Fin n)
  | updHead (idx : Fin n) (v : α)

/-- A call, with the answer of `first_resp`. -/
abbrev Event (n : Nat) (α : Type) := Action n α × Option α

def fire (action : Action n α) (f : UGBramFifos n depth α) :
    Option (UGBramFifos n depth α × List (Event n α)) :=
  match action with
  | .enq idx v => (f.enq idx v).map (·, [(action, none)])
  | .firstReq idx => (f.firstReq idx).map (·, [(action, none)])
  | .firstResp => f.firstResp.map fun (v, f') => (f', [(action, some v)])
  | .deq idx => some (f.deq idx, [(action, none)])
  | .updHead idx v => (f.updHead idx v).map (·, [(action, none)])

def machine (n depth : Nat) (α : Type) : Machine (UGBramFifos n depth α) (Action n α) (Event n α) :=
  ⟨fun f => ∃ mem, f = powerUp mem, fire⟩

/-! ### What they stand for -/

/-- Independent queues, and the items that were asked for, in the order of the requests. -/
structure Queues (n : Nat) (α : Type) where
  items : Fin n → List α
  asked : List α

def Queues.see (q : Queues n α) : Action n α → Queues n α
  | .enq idx v => { q with items := Function.update q.items idx (q.items idx ++ [v]) }
  | .firstReq idx => { q with asked := q.asked ++ (q.items idx).head?.toList }
  | .firstResp => q
  | .deq idx => { q with items := Function.update q.items idx (q.items idx).tail }
  | .updHead idx v => { q with items := Function.update q.items idx (v :: (q.items idx).tail) }

def seen (trace : List (Event n α)) : Queues n α := trace.foldl (fun q e => q.see e.1) ⟨fun _ => [], []⟩

/-- The answers of `first_resp`. -/
def given (trace : List (Event n α)) : List α := trace.filterMap Prod.snd

/-- The callers put at most `depth` items into a queue and do not ask for what is not there. -/
def careful : Machine.Contract (UGBramFifos n depth α) (Action n α) (Event n α)
  | trace, _, .enq idx _ => ((seen trace).items idx).length < depth
  | trace, _, .firstReq idx | trace, _, .deq idx | trace, _, .updHead idx _ => (seen trace).items idx ≠ []
  | _, _, .firstResp => True

/-! ### The queues in the memory -/

/-- The address `o` places behind the start of queue `idx`. -/
def slot (idx : Fin n) (o : Nat) : Addr n depth := BitVec.ofNat _ (idx * depth + o % depth)

theorem end_le (idx : Fin n) : idx * depth + depth ≤ 2 ^ buffAddrSz n depth :=
  calc idx * depth + depth = (idx + 1) * depth := (Nat.succ_mul _ _).symm
    _ ≤ depth * n := by rw [Nat.mul_comm depth]; exact Nat.mul_le_mul_right _ idx.isLt
    _ ≤ 2 ^ buffAddrSz n depth := Nat.le_pow_clog (by decide) _

theorem toNat_slot (hPos : 0 < depth) (idx : Fin n) (o : Nat) :
    (slot idx o : Addr n depth).toNat = idx * depth + o % depth := by
  have hEnd := @end_le n depth idx
  have hLess := Nat.mod_lt o hPos
  rw [slot, BitVec.toNat_ofNat, Nat.mod_eq_of_lt (by omega)]

theorem toNat_bound {w k : Nat} (h : k * depth < 2 ^ w) :
    (BitVec.ofNat w k * BitVec.ofNat w depth).toNat = k * depth := by
  rw [BitVec.toNat_mul, BitVec.toNat_ofNat, BitVec.toNat_ofNat, ← Nat.mul_mod, Nat.mod_eq_of_lt h]

/-- The pointers go through the places of their queue one by one and never leave them. -/
theorem next_slot (hPos : 0 < depth) (idx : Fin n) (o : Nat) :
    next idx (slot idx o : Addr n depth) = slot idx (o + 1) := by
  have hEnd := @end_le n depth idx
  have hLess := Nat.mod_lt o hPos
  have hWide : 2 ^ (1 + buffAddrSz n depth) = 2 * 2 ^ buffAddrSz n depth := by rw [Nat.pow_add, Nat.pow_one]
  have hOne : (1#(1 + buffAddrSz n depth)).toNat = 1 := BitVec.toNat_one (Nat.lt_add_right _ Nat.one_pos)
  have hPointer : ((slot idx o : Addr n depth).setWidth (1 + buffAddrSz n depth)).toNat =
      idx * depth + o % depth :=
    (BitVec.toNat_setWidth_of_le (Nat.le_add_left _ _)).trans (toNat_slot hPos idx o)
  have hNt := BitVec.toNat_add_of_lt (show _ + (1#(1 + buffAddrSz n depth)).toNat < _ by rw [hPointer, hOne]; omega)
  rw [hPointer, hOne] at hNt
  have hLi := @toNat_bound depth (1 + buffAddrSz n depth) (idx + 1) (by rw [Nat.succ_mul]; omega)
  have hRs := @toNat_bound depth (1 + buffAddrSz n depth) idx (by omega)
  rw [BitVec.ofNat_add, Nat.succ_mul] at hLi
  refine BitVec.eq_of_toNat_eq ?_
  rw [toNat_slot hPos, ← Nat.mod_add_mod, Layout.succ_mod_eq hLess]
  simp only [next, BitVec.add_zero, ge_iff_le, BitVec.le_def, hLi, hNt, BitVec.toNat_setWidth]
  split_ifs with hWrap hEdge hEdge
  · rw [hRs, Nat.mod_eq_of_lt (by omega), Nat.add_zero]
  · omega
  · omega
  · rw [hNt, Nat.mod_eq_of_lt (by omega), Nat.add_assoc]

theorem slot_inj {idx idx' : Fin n} {o o' : Nat} (hPos : 0 < depth)
    (h : (slot idx o : Addr n depth) = slot idx' o') : idx = idx' ∧ o % depth = o' % depth := by
  have hLess := Nat.mod_lt o hPos
  have hLess' := Nat.mod_lt o' hPos
  have hEq := congrArg BitVec.toNat h
  rw [toNat_slot hPos, toNat_slot hPos] at hEq
  have hDiv := congrArg (· / depth) hEq
  have hMod := congrArg (· % depth) hEq
  simp only [Nat.mul_comm _ depth, Nat.mul_add_div hPos, Nat.mul_add_mod, Nat.mod_mod,
    Nat.div_eq_of_lt hLess, Nat.div_eq_of_lt hLess'] at hDiv hMod
  exact ⟨Fin.ext (by omega), hMod⟩

theorem slot_ne {idx : Fin n} {o m m' : Nat} (hm : m < depth) (hm' : m' < depth) (hNe : m ≠ m') :
    (slot idx (o + m) : Addr n depth) ≠ slot idx (o + m') := by
  intro h
  have hMod : o + m ≡ o + m' [MOD depth] := (slot_inj (Nat.zero_lt_of_lt hm) h).2
  exact hNe (Nat.ModEq.eq_of_lt_of_lt (Nat.ModEq.add_left_cancel' o hMod) hm hm')

/-- The items are in the memory from place `o` on, between the two pointers. -/
structure Ring (mem : Addr n depth → α) (idx : Fin n) (head tail : Addr n depth) (o : Nat)
    (items : List α) : Prop where
  head : head = slot idx o
  tail : tail = slot idx (o + items.length)
  bound : items.length ≤ depth
  stored : ∀ m x, items[m]? = some x → mem (slot idx (o + m)) = x

/-- The queues hold `queues`, and the answers to `firstReq` are `answers`. -/
structure Holds (f : UGBramFifos n depth α) (queues : Fin n → List α) (answers : List α) : Prop where
  rings : ∀ i : Fin n, ∃ o, Ring f.buff.mem i (f.head i) (f.tail i) o (queues i)
  answers : (f.buff.out 0).items = answers
  quiet : (f.buff.out 1).items = []

theorem powerUp_holds (mem : Addr n depth → α) : Holds (powerUp mem : UGBramFifos n depth α) (fun _ => []) [] := by
  refine ⟨fun i => ⟨0, ?_, ?_, Nat.zero_le _, by simp⟩, rfl, rfl⟩
  · simp [slot, powerUp]
  · simp [slot, powerUp]

variable {f f' : UGBramFifos n depth α} {queues : Fin n → List α} {answers : List α} {i : Fin n} {v x : α}
  {rest : List α}

section

variable (h : Holds f queues answers)

include h

/-- One queue changes, and with it only its own places in the memory. -/
theorem Holds.change {head tail : Fin n → Addr n depth} {buff : Bram (Addr n depth) α 3} {o : Nat} {items : List α} (hOut : buff.out = f.buff.out)
    (hMem : ∀ addr, (∀ a, addr ≠ slot i a) → buff.mem addr = f.buff.mem addr)
    (hHead : ∀ j ≠ i, head j = f.head j) (hTail : ∀ j ≠ i, tail j = f.tail j)
    (hRing : Ring buff.mem i (head i) (tail i) o items) :
    Holds (⟨head, tail, buff⟩ : UGBramFifos n depth α) (Function.update queues i items) answers := by
  refine ⟨fun j => ?_, (congrArg (fun out => (out 0).items) hOut).trans h.answers,
    (congrArg (fun out => (out 1).items) hOut).trans h.quiet⟩
  by_cases hj : j = i
  · subst hj
    exact ⟨o, by rw [Function.update_self]; exact hRing⟩
  · obtain ⟨o', hRing'⟩ := h.rings j
    refine ⟨o', ?_⟩
    rw [Function.update_of_ne hj]
    refine ⟨(hHead j hj).trans hRing'.head, (hTail j hj).trans hRing'.tail, hRing'.bound, fun m x hx => ?_⟩
    refine (hMem _ fun a hEq => hj ?_).trans (hRing'.stored m x hx)
    have hm := (List.getElem_of_getElem? hx).1
    exact (slot_inj (Nat.lt_of_lt_of_le (Nat.zero_lt_of_lt hm) hRing'.bound) hEq).1

theorem Holds.enq (hRoom : (queues i).length < depth) (hEnq : f.enq i v = some f') :
    Holds f' (Function.update queues i (queues i ++ [v])) answers := by
  simp only [UGBramFifos.enq, firing, Bram.write_eq_some] at hEnq
  obtain ⟨_, ⟨-, rfl⟩, rfl⟩ := hEnq
  obtain ⟨o, hRing⟩ := h.rings i
  refine h.change (o := o) rfl (fun addr hAddr => Function.update_of_ne ?_ _ _) (fun _ _ => rfl)
    (fun j hj => Function.update_of_ne hj _ _) ⟨hRing.head, ?_, ?_, fun m x hx => ?_⟩
  · rw [hRing.tail]
    exact hAddr _
  · rw [Function.update_self, hRing.tail, next_slot (Nat.zero_lt_of_lt hRoom), List.length_append]
    rfl
  · rw [List.length_append]
    exact hRoom
  · change Function.update f.buff.mem (f.tail i) v _ = x
    rw [hRing.tail]
    rcases Nat.lt_or_ge m (queues i).length with hOld | hNew
    · rw [List.getElem?_append_left hOld] at hx
      rw [Function.update_of_ne (slot_ne (Nat.lt_trans hOld hRoom) hRoom (Nat.ne_of_lt hOld))]
      exact hRing.stored m x hx
    · obtain ⟨hLess, -⟩ := List.getElem_of_getElem? hx
      rw [List.length_append] at hLess
      obtain rfl : m = (queues i).length := Nat.le_antisymm (Nat.le_of_lt_succ hLess) hNew
      rw [List.getElem?_concat_length, Option.some.injEq] at hx
      rw [Function.update_self]
      exact hx

theorem Holds.deq (hItems : queues i = x :: rest) :
    Holds (f.deq i) (Function.update queues i rest) answers := by
  obtain ⟨o, hRing⟩ := h.rings i
  have hBound := hRing.bound
  rw [hItems, List.length_cons] at hBound
  have hPos : 0 < depth := Nat.zero_lt_of_lt hBound
  refine h.change (o := o + 1) rfl (fun _ _ => rfl) (fun j hj => Function.update_of_ne hj _ _) (fun _ _ => rfl)
    ⟨?_, ?_, ?_, fun m y hy => ?_⟩
  · rw [Function.update_self, hRing.head, next_slot hPos]
  · rw [hRing.tail, hItems, List.length_cons, Nat.add_right_comm]
    rfl
  · exact Nat.le_of_succ_le hBound
  · rw [Nat.add_right_comm]
    exact hRing.stored (m + 1) y (by rw [hItems]; exact hy)

theorem Holds.updHead (hItems : queues i = x :: rest)
    (hUpd : f.updHead i v = some f') : Holds f' (Function.update queues i (v :: rest)) answers := by
  simp only [UGBramFifos.updHead, firing, Bram.write_eq_some] at hUpd
  obtain ⟨_, ⟨-, rfl⟩, rfl⟩ := hUpd
  obtain ⟨o, hRing⟩ := h.rings i
  have hBound := hRing.bound
  rw [hItems, List.length_cons] at hBound
  refine h.change (o := o) rfl (fun addr hAddr => Function.update_of_ne ?_ _ _) (fun _ _ => rfl) (fun _ _ => rfl)
    ⟨hRing.head, ?_, hBound, fun m y hy => ?_⟩
  · rw [hRing.head]
    exact hAddr o
  · rw [hRing.tail, hItems]
    rfl
  · change Function.update f.buff.mem (f.head i) v _ = y
    rw [hRing.head]
    cases m with
    | zero =>
      rw [List.getElem?_cons_zero, Option.some.injEq] at hy
      rw [Nat.add_zero, Function.update_self]
      exact hy
    | succ m =>
      have hm := (List.getElem_of_getElem? hy).1
      rw [List.length_cons] at hm
      have hNe : (slot i (o + (m + 1)) : Addr n depth) ≠ slot i o :=
        @slot_ne n depth i o (m + 1) 0 (by omega) (by omega) (Nat.succ_ne_zero m)
      rw [Function.update_of_ne hNe]
      exact hRing.stored (m + 1) y (by rw [hItems]; exact hy)

theorem Holds.firstReq (hItems : queues i = x :: rest)
    (hReq : f.firstReq i = some f') : Holds f' queues (answers ++ [x]) := by
  simp only [UGBramFifos.firstReq, firing, Bram.read_eq_some] at hReq
  obtain ⟨_, ⟨-, q, hq, rfl⟩, rfl⟩ := hReq
  obtain ⟨o, hRing⟩ := h.rings i
  have hHead : f.buff.mem (f.head i) = x := by
    rw [hRing.head]
    exact hRing.stored 0 x (by rw [hItems]; rfl)
  refine ⟨h.rings, ?_, h.quiet⟩
  change (Function.update f.buff.out 0 q 0).items = _
  rw [Function.update_self, hq, h.answers, hHead]

theorem Holds.firstResp (hResp : f.firstResp = some (v, f')) :
    ∃ later, answers = v :: later ∧ Holds f' queues later := by
  simp only [UGBramFifos.firstResp, firing, Bram.get_eq_some] at hResp
  obtain ⟨_, _, ⟨q, hq, rfl⟩, rfl, rfl⟩ := hResp
  refine ⟨q.items, h.answers.symm.trans hq, h.rings, ?_, h.quiet⟩
  change (Function.update f.buff.out 0 q 0).items = _
  rw [Function.update_self]

end

theorem Holds.exists_firstResp (h : Holds f queues (v :: answers)) :
    ∃ f', fire .firstResp f = some (f', [(.firstResp, some v)]) := by
  obtain ⟨q, hDeq, -⟩ := Fifo.exists_deq h.answers
  simp [fire, UGBramFifos.firstResp, Bram.get, hDeq]

theorem Holds.ready (h : Holds f queues answers) (hRoom : answers.length < 3) {action : Action n α}
    (hOther : action ≠ .firstResp) : ∃ f', fire action f = some (f', [(action, none)]) := by
  have hQuiet : (f.buff.out 1).items.length < 3 := by rw [h.quiet]; exact Nat.succ_pos 2
  rw [← h.answers] at hRoom
  cases action with
  | enq | updHead => simp [fire, UGBramFifos.enq, UGBramFifos.updHead, Bram.write, hRoom, hQuiet]
  | firstReq idx =>
    obtain ⟨q, hEnq, -⟩ := Fifo.exists_enq hRoom (f.buff.mem (f.head idx))
    simp [fire, UGBramFifos.firstReq, Bram.read, hEnq]
  | firstResp => exact absurd rfl hOther
  | deq idx => exact ⟨_, rfl⟩

/-! ### Runs -/

/-- The memory has all items of the queues, and the answers come in the order of the requests. -/
def Inv (trace : List (Event n α)) (f : UGBramFifos n depth α) : Prop :=
  ∃ waiting, Holds f (seen trace).items waiting ∧ (seen trace).asked = given trace ++ waiting

variable {trace events : List (Event n α)} {action : Action n α}

theorem seen_append : seen (trace ++ events) = events.foldl (fun q e => q.see e.1) (seen trace) := List.foldl_append

theorem Inv.step (h : Inv trace f) (hOk : careful trace f action) (hFire : fire action f = some (f', events)) :
    Inv (trace ++ events) f' := by
  obtain ⟨waiting, hHolds, hAsked⟩ := h
  rw [Inv, seen_append]
  cases action
  all_goals simp only [fire, firing] at hFire
  case enq idx v =>
    obtain ⟨_, hEnq, rfl, rfl⟩ := hFire
    exact ⟨waiting, hHolds.enq hOk hEnq, by simpa [given, Queues.see] using hAsked⟩
  case firstReq idx =>
    obtain ⟨_, hReq, rfl, rfl⟩ := hFire
    obtain ⟨x, rest, hItems⟩ := List.exists_cons_of_ne_nil hOk
    refine ⟨waiting ++ [x], hHolds.firstReq hItems hReq, ?_⟩
    simp [Queues.see, hItems, hAsked, given]
  case firstResp =>
    obtain ⟨v, _, hResp, rfl, rfl⟩ := hFire
    obtain ⟨later, rfl, hHolds'⟩ := hHolds.firstResp hResp
    exact ⟨later, hHolds', by simpa [given, Queues.see] using hAsked⟩
  case deq idx =>
    obtain ⟨rfl, rfl⟩ := hFire
    obtain ⟨x, rest, hItems⟩ := List.exists_cons_of_ne_nil hOk
    refine ⟨waiting, ?_, by simpa [given, Queues.see] using hAsked⟩
    simpa [Queues.see, hItems] using hHolds.deq hItems
  case updHead idx v =>
    obtain ⟨_, hUpd, rfl, rfl⟩ := hFire
    obtain ⟨x, rest, hItems⟩ := List.exists_cons_of_ne_nil hOk
    refine ⟨waiting, ?_, by simpa [given, Queues.see] using hAsked⟩
    simpa [Queues.see, hItems] using hHolds.updHead hItems hUpd

theorem run_inv (run : (machine n depth α).Run careful f trace) : Inv trace f := by
  refine run.invariant Inv ?_ fun _ _ _ _ _ => Inv.step
  rintro _ ⟨mem, rfl⟩
  exact ⟨[], powerUp_holds mem, rfl⟩

theorem Ring.itemsFrom_eq {mem : Addr n depth → α} {head tail : Addr n depth} {o : Nat} {items : List α}
    (h : Ring mem i head tail o items) : itemsFrom i mem items.length head = items := by
  obtain ⟨rfl, -, hBound, hStored⟩ := h
  induction items generalizing o with
  | nil => rfl
  | cons x rest ih =>
    rw [List.length_cons] at hBound
    rw [List.length_cons, itemsFrom, next_slot (Nat.zero_lt_of_lt hBound), ← hStored 0 x rfl]
    refine congrArg (_ :: ·) (@ih (o + 1) (Nat.le_of_succ_le hBound) fun m y hy => ?_)
    rw [Nat.add_right_comm]
    exact hStored (m + 1) y hy

/-- The queue that an action is about. -/
def Action.queue : Action n α → Option (Fin n)
  | .enq idx _ | .firstReq idx | .deq idx | .updHead idx _ => some idx
  | .firstResp => none

/-- What `mkUGBramFifos` does for its callers. -/
structure Independent (trace : List (Event n α)) (f : UGBramFifos n depth α) : Prop where
  contents : ∀ idx, f.contents idx ((seen trace).items idx).length = (seen trace).items idx
  answers : given trace <+: (seen trace).asked
  answered : ∀ v later, (seen trace).asked = given trace ++ v :: later →
    ∃ f', fire .firstResp f = some (f', [(.firstResp, some v)])
  ready : (seen trace).asked.length < (given trace).length + 3 → ∀ action, action ≠ .firstResp →
    ∃ f', fire action f = some (f', [(action, none)])

theorem Inv.independent (h : Inv trace f) : Independent trace f := by
  obtain ⟨waiting, hHolds, hAsked⟩ := h
  refine ⟨fun idx => ?_, ⟨waiting, hAsked.symm⟩, fun v later hNext => ?_, fun hFew action hOther => ?_⟩
  · obtain ⟨o, hRing⟩ := hHolds.rings idx
    exact hRing.itemsFrom_eq
  · obtain rfl : waiting = v :: later := List.append_cancel_left (hAsked.symm.trans hNext)
    exact hHolds.exists_firstResp
  · rw [hAsked, List.length_append] at hFew
    exact hHolds.ready (Nat.lt_of_add_lt_add_left hFew) hOther

theorem seen_other {idx : Fin n} (hFire : fire action f = some (f', events)) (hOther : action.queue ≠ some idx) :
    (seen (trace ++ events)).items idx = (seen trace).items idx := by
  rw [seen_append]
  cases action with
  | enq j v | firstReq j | firstResp | deq j | updHead j v =>
    simp only [fire, firing] at hFire
    casesm* _ ∧ _, ∃ _, _
    subst_vars
    first | rfl | exact Function.update_of_ne (fun hEq => hOther (congrArg some hEq.symm)) _ _

theorem fifos_are_queues (run : (machine n depth α).Run careful f trace) :
    Independent trace f ∧ ∀ action f' events, careful trace f action → fire action f = some (f', events) →
      ∀ idx, action.queue ≠ some idx →
        f'.contents idx ((seen trace).items idx).length = f.contents idx ((seen trace).items idx).length := by
  have h := run_inv run
  refine ⟨h.independent, fun action f' events hOk hFire idx hOther => ?_⟩
  have hNext := (h.step hOk hFire).independent.contents idx
  rw [seen_other hFire hOther] at hNext
  exact hNext.trans (h.independent.contents idx).symm

instance (trace : List (Event n α)) (f : UGBramFifos n depth α) [DecidableEq α] :
    (action : Action n α) → Decidable (careful trace f action)
  | .enq idx _ => inferInstanceAs (Decidable (((seen trace).items idx).length < depth))
  | .firstReq idx | .deq idx | .updHead idx _ => inferInstanceAs (Decidable ((seen trace).items idx ≠ []))
  | .firstResp => .isTrue trivial

/-- Three queues of three items: the last one is filled, emptied by one item and filled again over the
end of its places, while the head of the second one is rewritten. -/
theorem fifos_are_queues_three_of_three : ∃ (f : UGBramFifos 3 3 Bool) (trace : List (Event 3 Bool)),
    (machine 3 3 Bool).Run careful f trace ∧ f.tail 2 = 7 ∧ given trace = [true, false] ∧ Independent trace f := by
  obtain ⟨f, trace, run, hEnd⟩ := Machine.exists_run (show ((machine 3 3 Bool).exec careful
    [.enq 2 true, .enq 2 false, .enq 2 true, .enq 1 true, .firstReq 2, .updHead 1 false, .deq 2, .enq 2 false,
      .firstReq 1, .firstResp, .firstResp] (powerUp fun _ => false, [])).map (fun c => (c.1.tail 2, given c.2)) =
        some (7, [true, false]) by decide +kernel) ⟨_, rfl⟩
  obtain ⟨hTail, hGiven⟩ := Prod.mk.inj hEnd
  exact ⟨f, trace, run, hTail, hGiven, (fifos_are_queues run).1⟩

end UGBramFifos
end Connectal.Engine
