import Connectal.Rules.Network
import Mathlib.Data.Nat.Log

/-! The pipelined funnels of `Pipe.bsv`: `mkFunnelPipesPipelined` merges `k` pipes into
one, and `mkUnFunnelPipesPipelined` distributes one pipe to `k` pipes. Both are trees of
queues; a stage of the tree decides `bpc` bits of the index of the pipe. A tree for one
pipe has no stage at all. -/
namespace Connectal.Pipe

open Rules

/-- The bits of an index. -/
def logk (k : Nat) : Nat := Nat.clog 2 k

/-- The stages of a tree that decides `b` bits in each of them. -/
def treeStages (k b : Nat) : Nat := (logk k + b - 1) / b

/-- The bits that stage `j` decides. -/
def treeBits (k b j : Nat) : Nat := if j = treeStages k b - 1 then logk k - j * b else b

/-- The top bits of the shifted index, which stage `j` compares with the number of an output. -/
def treeTopBits (k b j idx : Nat) : Nat := idx * 2 ^ (j * b) % 2 ^ logk k / 2 ^ (logk k - b)

section Geometry

variable {k b : Nat}

theorem lt_two_pow_logk (c : Fin k) : c.val < 2 ^ logk k :=
  Nat.lt_of_lt_of_le c.isLt (Nat.le_pow_clog (by decide) k)

theorem logk_le (hb : 1 ≤ b) : logk k ≤ treeStages k b * b := by
  have hDiv := Nat.lt_div_mul_add (a := logk k + b - 1) hb
  unfold treeStages
  omega

theorem lt_logk {j : Nat} (hb : 1 ≤ b) (hj : j < treeStages k b) : j * b < logk k := by
  have hDiv := (Nat.le_div_iff_mul_le hb).mp hj
  rw [Nat.succ_mul] at hDiv
  omega

theorem bits_eq {j : Nat} (hb : 1 ≤ b) (hj : j < treeStages k b) : treeBits k b j = min b (logk k - j * b) := by
  have hLess := lt_logk hb hj
  unfold treeBits
  split
  · next hLast =>
    -- the last stage decides what is left
    have hAll := logk_le (k := k) hb
    rw [show treeStages k b = j + 1 by omega, Nat.succ_mul] at hAll
    omega
  · next hMore =>
    have hNext := lt_logk hb (show j + 1 < treeStages k b by omega)
    rw [Nat.succ_mul] at hNext
    omega

theorem left_add_bits {j : Nat} (hb : 1 ≤ b) (hj : j < treeStages k b) :
    logk k - (j + 1) * b + treeBits k b j = logk k - j * b := by
  rw [bits_eq hb hj, Nat.succ_mul]
  omega

/-- The comparison of a stage finds the output on the way to the index. -/
theorem topBits_eq {j : Nat} (hb : 1 ≤ b) (hBits : b ≤ logk k) (hj : j < treeStages k b) (idx l : Nat) :
    treeTopBits k b j idx = l * 2 ^ (b - treeBits k b j) ↔
      2 ^ treeBits k b j * (idx / 2 ^ (logk k - j * b)) + l = idx / 2 ^ (logk k - (j + 1) * b) := by
  have hLess := lt_logk hb hj
  obtain ⟨A, hA⟩ : ∃ A, logk k = A + j * b := ⟨logk k - j * b, by omega⟩
  have hLeft : logk k - j * b = A := by omega
  have hDecided := left_add_bits hb hj
  have hNext : logk k - (j + 1) * b = A - treeBits k b j := by omega
  have hBit : treeBits k b j ≤ A := by omega
  -- what is left of the index when the earlier stages have decided their bits
  have hShift : idx * 2 ^ (j * b) % 2 ^ logk k = idx % 2 ^ A * 2 ^ (j * b) := by
    rw [hA, Nat.pow_add, Nat.mul_mod_mul_right]
  have hTop : treeTopBits k b j idx = idx % 2 ^ A / 2 ^ (A - treeBits k b j) * 2 ^ (b - treeBits k b j) := by
    rw [treeTopBits, hShift]
    rcases Nat.le_total b A with hFull | hPart
    · have hEq : treeBits k b j = b := by rw [bits_eq hb hj, hLeft]; exact Nat.min_eq_left hFull
      rw [hEq, Nat.sub_self, Nat.pow_zero, Nat.mul_one, show logk k - b = A - b + j * b by omega,
        Nat.pow_add, Nat.mul_div_mul_right _ _ (Nat.two_pow_pos _)]
    · have hEq : treeBits k b j = A := by rw [bits_eq hb hj, hLeft]; exact Nat.min_eq_right hPart
      rw [hEq, Nat.sub_self, Nat.pow_zero, Nat.div_one, show j * b = b - A + (logk k - b) by omega, Nat.pow_add,
        ← Nat.mul_assoc, Nat.mul_div_cancel _ (Nat.two_pow_pos _)]
  have hSplit : idx / 2 ^ (A - treeBits k b j) =
      2 ^ treeBits k b j * (idx / 2 ^ A) + idx % 2 ^ A / 2 ^ (A - treeBits k b j) := by
    have hPow : 2 ^ A = 2 ^ (A - treeBits k b j) * 2 ^ treeBits k b j := by rw [← Nat.pow_add, Nat.sub_add_cancel hBit]
    conv_lhs => rw [← Nat.div_add_mod idx (2 ^ A), hPow, Nat.mul_assoc]
    rw [Nat.mul_add_div (Nat.two_pow_pos _), ← hPow]
  rw [hTop, Nat.mul_left_inj (Nat.two_pow_pos _).ne', hNext, hLeft, hSplit]
  omega

end Geometry

/-! ### What enters and what leaves a tree -/

/-- A value enters at or for pipe `c`, and leaves. -/
inductive Event (k : Nat) (V : Type) where
  | entered (c : Fin k) (v : V)
  | left (c : Fin k) (v : V)

namespace Event

variable {k : Nat} {V : Type}

def entered? : Event k V → Option (Fin k × V)
  | .entered c v => some (c, v)
  | .left _ _ => none

def left? : Event k V → Option (Fin k × V)
  | .entered _ _ => none
  | .left c v => some (c, v)

/-- The values that entered at or for a pipe. -/
def ins (trace : List (Event k V)) (c : Fin k) : List V := mine c (trace.filterMap entered?)

def outs (trace : List (Event k V)) (c : Fin k) : List V := mine c (trace.filterMap left?)

end Event

section Traffic

open Event Network

variable {k L : Nat} {V : Type} {pos : Fin k → Fin (L + 1) → Fin k} {items items' : Fin (L + 1) × Fin k → List (Fin k × V)}
  {trace : List (Event k V)} {c : Fin k} {v : V}

/-- Every item is on its way, and what entered has left or is on the way, in order. -/
structure Traffic (pos : Fin k → Fin (L + 1) → Fin k) (trace : List (Event k V))
    (items : Fin (L + 1) × Fin k → List (Fin k × V)) : Prop where
  routed : Routed pos Prod.fst items
  account : ∀ c, ins trace c = outs trace c ++ (carried Prod.fst c (levelPath (pos c)) items).map Prod.snd

namespace Traffic

theorem nil (pos : Fin k → Fin (L + 1) → Fin k) : Traffic pos ([] : List (Event k V)) fun _ => [] :=
  ⟨fun _ _ hx => (List.not_mem_nil hx).elim, fun c => by simp [ins, outs, carried]⟩

section

variable (h : Traffic pos trace items)

include h

theorem enter (c : Fin k) (v : V) :
    Traffic pos (trace ++ [.entered c v]) (Function.update items (0, pos c 0) (items (0, pos c 0) ++ [(c, v)])) := by
  refine ⟨h.routed.enq rfl, fun j => ?_⟩
  have hAccount := h.account j
  rw [carried_levelPath_enq Prod.fst j (pos j) items fun hj : c = j => hj ▸ rfl]
  simp only [ins, outs, counting, entered?, left?, mine_append, mine_singleton, List.map_append] at hAccount ⊢
  rw [hAccount, List.append_assoc]
  split <;> rfl

theorem move {r : Fin L} (hMoved : Moved pos Prod.fst r items items') : Traffic pos trace items' := by
  refine ⟨h.routed.moved hMoved, fun j => ?_⟩
  rw [hMoved.carried fun _ hj => hj]
  exact h.account j

theorem leave {i : Fin k} {rest : List (Fin k × V)} (hItems : items (Fin.last L, i) = (c, v) :: rest) :
    Traffic pos (trace ++ [.left c v]) (Function.update items (Fin.last L, i) rest) := by
  have hPos : pos c (Fin.last L) = i := h.routed.head hItems
  refine ⟨h.routed.deq hItems, fun j => ?_⟩
  have hAccount := h.account j
  rw [carried_levelPath_deq Prod.fst j (pos j) hItems fun hj : c = j => hj ▸ hPos] at hAccount
  simp only [ins, outs, counting, entered?, left?, mine_append, mine_singleton, List.map_append] at hAccount ⊢
  rw [hAccount, List.append_assoc]
  split <;> rfl

end

/-- How far the items have to go. -/
def togo (items : Fin (L + 1) × Fin k → List (Fin k × V)) : Nat := weight (fun a => L + 1 - a.1.val) items

theorem togo_move {r : Fin L} (hMoved : Moved pos Prod.fst r items items') : togo items' < togo items := by
  refine hMoved.weight fun i j => ?_
  have hr := r.isLt
  simp only [Fin.val_succ, Fin.val_castSucc]
  omega

theorem togo_leave {i : Fin k} {x : Fin k × V} {rest : List (Fin k × V)} (hItems : items (Fin.last L, i) = x :: rest) :
    togo (Function.update items (Fin.last L, i) rest) < togo items := by
  have hDeq := weight_deq (w := fun a : Fin (L + 1) × Fin k => L + 1 - a.1.val) hItems
  simp only [Fin.val_last] at hDeq
  unfold togo
  omega

end Traffic

/-- In order, without loss: at every pipe a prefix of what entered for it has left, and some
continuation without further input lets all of it leave. -/
def Delivers {State Action : Type} (M : Machine State Action (Event k V)) (s : State) (trace : List (Event k V)) : Prop :=
  (∀ c, outs trace c <+: ins trace c) ∧ ∃ s' trace', M.Continues (fun _ _ _ => True) (s, trace) (s', trace') ∧
    ins trace' = ins trace ∧ outs trace' = ins trace'

/-- A tree delivers, if an item at the last level can leave and an item with nothing in front
of it can move on. -/
theorem delivers_of_advances {State Action : Type} {M : Machine State Action (Event k V)}
    (pos : Fin k → Fin (L + 1) → Fin k) (net : State → Fin (L + 1) × Fin k → List (Fin k × V)) (hInit : ∀ s, M.init s → net s = fun _ => [])
    (hStep : ∀ trace s action s' events, Traffic pos trace (net s) → M.fire action s = some (s', events) →
      Traffic pos (trace ++ events) (net s'))
    (hOut : ∀ trace s, Traffic pos trace (net s) → (∃ i, net s (Fin.last L, i) ≠ []) →
      ∃ action s' c v, M.fire action s = some (s', [.left c v]) ∧ Traffic.togo (net s') < Traffic.togo (net s))
    (hMove : ∀ trace s (r : Fin L) x rest, Traffic pos trace (net s) →
      net s (r.castSucc, pos x.1 r.castSucc) = x :: rest → net s (r.succ, pos x.1 r.succ) = [] →
      ∃ action s', M.fire action s = some (s', []) ∧ Traffic.togo (net s') < Traffic.togo (net s))
    {s : State} (run : M.Run (fun _ _ _ => True) s trace) : Delivers M s trace := by
  have hInv {s : State} {trace : List (Event k V)} (run : M.Run (fun _ _ _ => True) s trace) : Traffic pos trace (net s) :=
    run.invariant (fun trace s => Traffic pos trace (net s)) (fun s hs => hInit s hs ▸ Traffic.nil pos)
      fun trace s action s' events h _ hFire => hStep trace s action s' events h hFire
  refine ⟨fun c => (hInv run).account c ▸ List.prefix_append _ _, ?_⟩
  have hAdvance : ∀ trace' s', Traffic pos trace' (net s') → trace'.filterMap entered? = trace.filterMap entered? →
      (∀ a, net s' a = []) ∨ M.Advances (fun _ _ _ => True) entered? (fun _ s => Traffic.togo (net s)) trace' s' := by
    intro trace' s' h _
    by_cases hSome : ∃ a, net s' a ≠ []
    · rcases h.routed.exists_free hSome with hLast | ⟨r, x, rest, hItems, hNext⟩
      · obtain ⟨action, s'', c, v, hFire, hLess⟩ := hOut trace' s' h hLast
        exact .inr ⟨action, s'', _, trivial, hFire, rfl, hLess⟩
      · obtain ⟨action, s'', hFire, hLess⟩ := hMove trace' s' r x rest h hItems hNext
        exact .inr ⟨action, s'', _, trivial, hFire, rfl, hLess⟩
    · simp only [not_exists, not_not] at hSome
      exact .inl hSome
  obtain ⟨s', trace', path, hSame, hEmpty⟩ := Machine.exists_drained (fun _ s => Traffic.togo (net s))
    (fun trace s action s' events (h : Traffic pos trace (net s)) _ hFire => hStep trace s action s' events h hFire)
    hAdvance (hInv run)
  refine ⟨s', trace', path, funext fun c => congrArg (mine c) hSame, funext fun c => ?_⟩
  have hAll := (hInv (run.continue path)).account c
  have hNone : carried Prod.fst c (levelPath (pos c)) (net s') = [] :=
    List.flatMap_eq_nil_iff.mpr fun a _ => by rw [hEmpty]; rfl
  rw [hNone, List.map_nil, List.append_nil] at hAll
  exact hAll.symm

end Traffic

/-! ### Merging -/

section Funnel

variable {k b : Nat} {α V : Type} {d : Nat}

/-- The inputs have a depth of their own. -/
def funnelTreeCap (k b d : Nat) (a : Fin (treeStages k b + 1) × Fin k) : Nat := if a.1.val = 0 then d else 2

/-- The queues of the inputs and those of the stages, the output last. -/
abbrev FunnelTree (k b d : Nat) (α : Type) := Network α (funnelTreeCap k b d)

namespace FunnelTree

/-- The queue behind queue `i` of a stage. -/
def parent (b : Nat) (i : Fin k) : Fin k := ⟨i / 2 ^ b, Nat.lt_of_le_of_lt (Nat.div_le_self _ _) i.isLt⟩

/-- The connection of a queue to the next stage. Stages are counted from the inputs. -/
def xfer (r : Fin (treeStages k b)) (i : Fin k) (net : FunnelTree k b d α) : Option (FunnelTree k b d α) := do
  guard (i.val < 2 ^ ((treeStages k b - r) * b))
  net.moveIf (fun _ => True) (r.castSucc, i) (r.succ, parent b i)

inductive Action (k b : Nat) (V : Type) where
  | put (i : Fin k) (v : V)
  | xfer (r : Fin (treeStages k b)) (i : Fin k)
  | get

/-- The values of input `i` are shown with this index, which is not in the queues of the source. -/
def fire [NeZero k] : Action k b V → FunnelTree k b d (Fin k × V) → Option (FunnelTree k b d (Fin k × V) × List (Event k V))
  | .put i v, net => do
      let net ← net.enq (0, i) (i, v)
      pure (net, [.entered i v])
  | .xfer r i, net => do
      let net ← xfer r i net
      pure (net, [])
  | .get, net => do
      let ((i, v), net) ← net.deq (Fin.last _, 0)
      pure (net, [.left i v])

def machine (k b d : Nat) (V : Type) [NeZero k] :
    Machine (FunnelTree k b d (Fin k × V)) (Action k b V) (Event k V) :=
  ⟨fun net => net = Network.empty, fire⟩

/-- The queue at stage `r` for what came in at `c`. -/
def pos (c : Fin k) (r : Fin (treeStages k b + 1)) : Fin k :=
  ⟨c / 2 ^ (r.val * b), Nat.lt_of_le_of_lt (Nat.div_le_self _ _) c.isLt⟩

theorem pos_zero (c : Fin k) : pos (b := b) c 0 = c := by
  apply Fin.ext
  simp [pos]

theorem pos_succ (c : Fin k) (r : Fin (treeStages k b)) : pos c r.succ = parent b (pos c r.castSucc) := by
  apply Fin.ext
  simp only [pos, parent, Fin.val_succ, Fin.val_castSucc]
  rw [Nat.div_div_eq_div_mul, ← Nat.pow_add, Nat.succ_mul]

theorem pos_last [NeZero k] (hb : 1 ≤ b) (c : Fin k) : pos (b := b) c (Fin.last _) = 0 := by
  apply Fin.ext
  refine Nat.div_eq_of_lt (Nat.lt_of_lt_of_le (lt_two_pow_logk c) ?_)
  exact Nat.pow_le_pow_right (by decide) (logk_le hb)

/-- What came in somewhere is connected to the next stage. -/
theorem pos_lt (hb : 1 ≤ b) (c : Fin k) (r : Fin (treeStages k b)) :
    (pos c r.castSucc).val < 2 ^ ((treeStages k b - r) * b) := by
  refine Nat.div_lt_of_lt_mul ?_
  rw [← Nat.pow_add, Fin.val_castSucc, ← Nat.add_mul, Nat.add_sub_cancel' (Nat.le_of_lt r.isLt)]
  exact Nat.lt_of_lt_of_le (lt_two_pow_logk c) (Nat.pow_le_pow_right (by decide) (logk_le hb))

variable {net net' : FunnelTree k b d (Fin k × V)} {r : Fin (treeStages k b)} {i : Fin k}

/-- What moves stays on the way from the input that it belongs to. -/
theorem xfer_moved (h : Network.Routed pos Prod.fst net.items) (hMove : xfer r i net = some net') :
    Network.Moved pos Prod.fst r net.items net'.items := by
  simp only [xfer, firing, Network.moveIf_eq_some (Network.castSucc_ne_succ r _ _)] at hMove
  obtain ⟨-, c, v, rest, hItems, -, -, hNet'⟩ := hMove
  have hx : pos c r.castSucc = i := h.head hItems
  subst hx
  rw [← pos_succ] at hNet'
  exact ⟨(c, v), rest, hItems, hNet'⟩

theorem exists_xfer (hb : 1 ≤ b) {x : Fin k × V} {rest : List (Fin k × V)}
    (hItems : net.items (r.castSucc, pos x.1 r.castSucc) = x :: rest)
    (hNext : net.items (r.succ, pos x.1 r.succ) = []) : ∃ net', xfer r (pos x.1 r.castSucc) net = some net' := by
  rw [pos_succ] at hNext
  have hCap : funnelTreeCap k b d (r.succ, parent b (pos x.1 r.castSucc)) = 2 := if_neg (Nat.succ_ne_zero _)
  obtain ⟨net', hMove⟩ := Network.exists_moveIf (p := fun _ => True)
    (Network.castSucc_ne_succ r (pos x.1 r.castSucc) (parent b (pos x.1 r.castSucc))) hItems trivial
    (by rw [hNext, hCap]; exact Nat.two_pos)
  refine ⟨net', ?_⟩
  simp only [xfer, guard, if_pos (pos_lt hb x.1 r), Option.bind_eq_bind]
  exact hMove

theorem delivers [NeZero k] (hb : 1 ≤ b) {trace : List (Event k V)}
    (run : (machine k b d V).Run (fun _ _ _ => True) net trace) : Delivers (machine k b d V) net trace := by
  refine delivers_of_advances pos (fun net => net.items) (fun _ hs => hs ▸ rfl) ?_ ?_ ?_ run
  · intro trace net action net' events h hFire
    cases action with
    | put i v =>
      simp only [machine, fire, firing, Network.enq_eq_some] at hFire
      obtain ⟨_, ⟨-, hNet⟩, rfl, rfl⟩ := hFire
      rw [hNet]
      have hEnter := h.enter i v
      rwa [pos_zero] at hEnter
    | xfer r i =>
      simp only [machine, fire, firing] at hFire
      obtain ⟨_, hMove, rfl, rfl⟩ := hFire
      rw [List.append_nil]
      exact h.move (xfer_moved h.routed hMove)
    | get =>
      simp only [machine, fire, firing, Network.deq_eq_some] at hFire
      obtain ⟨c, v, _, ⟨rest, hItems, hNet⟩, rfl, rfl⟩ := hFire
      rw [hNet]
      exact h.leave hItems
  · rintro trace net h ⟨i, hItems⟩
    obtain ⟨⟨c, v⟩, rest, hx⟩ := List.exists_cons_of_ne_nil hItems
    -- everything at the last stage is in the queue of the output
    obtain rfl : 0 = i := (pos_last hb c).symm.trans (h.routed.head hx)
    obtain ⟨net', hDeq⟩ := Network.exists_deq hx
    refine ⟨.get, net', c, v, by simp only [machine, fire, hDeq, some_bind]; rfl, ?_⟩
    obtain ⟨rest', hx', hNet⟩ := Network.deq_eq_some.mp hDeq
    rw [hNet]
    exact Traffic.togo_leave hx'
  · intro trace net r x rest h hItems hNext
    obtain ⟨net', hMove⟩ := exists_xfer hb hItems hNext
    exact ⟨.xfer r (pos x.1 r.castSucc), net', by simp only [machine, fire, hMove, some_bind]; rfl,
      Traffic.togo_move (xfer_moved h.routed hMove)⟩

end FunnelTree
end Funnel

/-! ### Distributing -/

section UnFunnel

variable {k b : Nat} {α V : Type} {d : Nat}

/-- The queue in front of the tree has a depth of its own. -/
def unFunnelTreeCap (k b d : Nat) (a : Fin (treeStages k b + 1) × Fin k) : Nat := if a.1.val = 0 then d else 2

/-- The queue in front of the tree and the queues of the stages, the outputs last. Every item
keeps its index; the tree shifts the index to the left by the bits that are decided. -/
abbrev UnFunnelTree (k b d : Nat) (α : Type) := Network α (unFunnelTreeCap k b d)

namespace UnFunnelTree

/-- Stage `j` moves an item from its queue `i` to its output `l`. -/
def xfer (dest : α → Fin k) (j : Fin (treeStages k b)) (i : Fin k) (l : Nat) (net : UnFunnelTree k b d α) :
    Option (UnFunnelTree k b d α) :=
  if h : i.val < 2 ^ (j * b) ∧ l < 2 ^ treeBits k b j ∧ 2 ^ treeBits k b j * i + l < k then
    net.moveIf (fun x => treeTopBits k b j (dest x) = l * 2 ^ (b - treeBits k b j))
      (j.castSucc, i) (j.succ, ⟨2 ^ treeBits k b j * i + l, h.2.2⟩)
  else none

inductive Action (k b : Nat) (V : Type) where
  | put (idx : Fin k) (v : V)
  | xfer (j : Fin (treeStages k b)) (i : Fin k) (l : Nat)
  | get (i : Fin k)

def fire [NeZero k] : Action k b V → UnFunnelTree k b d (Fin k × V) → Option (UnFunnelTree k b d (Fin k × V) × List (Event k V))
  | .put idx v, net => do
      let net ← net.enq (0, 0) (idx, v)
      pure (net, [.entered idx v])
  | .xfer j i l, net => do
      let net ← xfer Prod.fst j i l net
      pure (net, [])
  | .get i, net => do
      let ((_, v), net) ← net.deq (Fin.last _, i)
      pure (net, [.left i v])

def machine (k b d : Nat) (V : Type) [NeZero k] :
    Machine (UnFunnelTree k b d (Fin k × V)) (Action k b V) (Event k V) :=
  ⟨fun net => net = Network.empty, fire⟩

/-- The queue at stage `r` for what goes to `c`. -/
def pos (c : Fin k) (r : Fin (treeStages k b + 1)) : Fin k :=
  ⟨c / 2 ^ (logk k - r.val * b), Nat.lt_of_le_of_lt (Nat.div_le_self _ _) c.isLt⟩

theorem pos_zero [NeZero k] (c : Fin k) : pos (b := b) c 0 = 0 := by
  apply Fin.ext
  simp only [pos, Fin.val_zero, Nat.zero_mul, Nat.sub_zero]
  exact Nat.div_eq_of_lt (lt_two_pow_logk c)

theorem pos_last (hb : 1 ≤ b) (c : Fin k) : pos (b := b) c (Fin.last _) = c := by
  apply Fin.ext
  simp only [pos, Fin.val_last, Nat.sub_eq_zero_of_le (logk_le hb), Nat.pow_zero, Nat.div_one]

theorem pos_lt (hb : 1 ≤ b) (c : Fin k) (j : Fin (treeStages k b)) : (pos c j.castSucc).val < 2 ^ (j * b) := by
  refine Nat.div_lt_of_lt_mul ?_
  rw [← Nat.pow_add, Fin.val_castSucc, Nat.sub_add_cancel (Nat.le_of_lt (lt_logk hb j.isLt))]
  exact lt_two_pow_logk c

theorem exists_output (hb : 1 ≤ b) (c : Fin k) (j : Fin (treeStages k b)) : ∃ l, l < 2 ^ treeBits k b j ∧
    2 ^ treeBits k b j * (pos c j.castSucc).val + l = (pos c j.succ).val := by
  refine ⟨pos c j.succ % 2 ^ treeBits k b j, Nat.mod_lt _ (Nat.two_pow_pos _), ?_⟩
  have hPos : (pos c j.castSucc).val = pos c j.succ / 2 ^ treeBits k b j := by
    simp only [pos, Fin.val_castSucc, Fin.val_succ]
    rw [Nat.div_div_eq_div_mul, ← Nat.pow_add, left_add_bits hb j.isLt]
  rw [hPos, Nat.div_add_mod]

variable {net net' : UnFunnelTree k b d (Fin k × V)} {j : Fin (treeStages k b)} {i : Fin k} {l : Nat}

/-- What a stage moves stays on the way to its index. -/
theorem xfer_moved (hb : 1 ≤ b) (hBits : b ≤ logk k) (h : Network.Routed pos Prod.fst net.items)
    (hMove : xfer Prod.fst j i l net = some net') : Network.Moved pos Prod.fst j net.items net'.items := by
  unfold xfer at hMove
  split at hMove
  · next hGuard =>
    obtain ⟨x, rest, hItems, hTest, -, hNet'⟩ :=
      (Network.moveIf_eq_some (Network.castSucc_ne_succ j i ⟨_, hGuard.2.2⟩)).mp hMove
    have hx : pos x.1 j.castSucc = i := h.head hItems
    subst hx
    have hNext : (⟨_, hGuard.2.2⟩ : Fin k) = pos x.1 j.succ := Fin.ext ((topBits_eq hb hBits j.isLt x.1 l).mp hTest)
    rw [hNext] at hNet'
    exact ⟨x, rest, hItems, hNet'⟩
  · cases hMove

theorem exists_xfer (hb : 1 ≤ b) (hBits : b ≤ logk k) {x : Fin k × V} {rest : List (Fin k × V)}
    (hItems : net.items (j.castSucc, pos x.1 j.castSucc) = x :: rest)
    (hNext : net.items (j.succ, pos x.1 j.succ) = []) : ∃ i l net', xfer Prod.fst j i l net = some net' := by
  obtain ⟨l, hl, hOutput⟩ := exists_output hb x.1 j
  have hGuard : (pos x.1 j.castSucc).val < 2 ^ (j * b) ∧ l < 2 ^ treeBits k b j ∧
      2 ^ treeBits k b j * (pos x.1 j.castSucc).val + l < k :=
    ⟨pos_lt hb x.1 j, hl, hOutput ▸ (pos x.1 j.succ).isLt⟩
  have hTarget : (⟨_, hGuard.2.2⟩ : Fin k) = pos x.1 j.succ := Fin.ext hOutput
  have hCap : unFunnelTreeCap k b d (j.succ, pos x.1 j.succ) = 2 := if_neg (Nat.succ_ne_zero _)
  obtain ⟨net', hMove⟩ := Network.exists_moveIf
    (p := fun x => treeTopBits k b j x.1 = l * 2 ^ (b - treeBits k b j))
    (Network.castSucc_ne_succ j _ (pos x.1 j.succ)) hItems
    ((topBits_eq hb hBits j.isLt x.1 l).mpr hOutput) (by rw [hNext, hCap]; exact Nat.two_pos)
  refine ⟨pos x.1 j.castSucc, l, net', ?_⟩
  unfold xfer
  rw [dif_pos hGuard, hTarget]
  exact hMove

theorem delivers [NeZero k] (hb : 1 ≤ b) (hBits : b ≤ logk k) {trace : List (Event k V)}
    (run : (machine k b d V).Run (fun _ _ _ => True) net trace) : Delivers (machine k b d V) net trace := by
  refine delivers_of_advances pos (fun net => net.items) (fun _ hs => hs ▸ rfl) ?_ ?_ ?_ run
  · intro trace net action net' events h hFire
    cases action with
    | put idx v =>
      simp only [machine, fire, firing, Network.enq_eq_some] at hFire
      obtain ⟨_, ⟨-, hNet⟩, rfl, rfl⟩ := hFire
      rw [hNet]
      have hEnter := h.enter idx v
      rwa [pos_zero] at hEnter
    | xfer j i l =>
      simp only [machine, fire, firing] at hFire
      obtain ⟨_, hMove, rfl, rfl⟩ := hFire
      rw [List.append_nil]
      exact h.move (xfer_moved hb hBits h.routed hMove)
    | get i =>
      simp only [machine, fire, firing, Network.deq_eq_some] at hFire
      obtain ⟨c, v, _, ⟨rest, hItems, hNet⟩, rfl, rfl⟩ := hFire
      obtain rfl : c = i := (pos_last hb c).symm.trans (h.routed.head hItems)
      rw [hNet]
      exact h.leave hItems
  · rintro trace net h ⟨i, hItems⟩
    obtain ⟨⟨c, v⟩, rest, hx⟩ := List.exists_cons_of_ne_nil hItems
    obtain ⟨net', hDeq⟩ := Network.exists_deq hx
    refine ⟨.get i, net', i, v, by simp only [machine, fire, hDeq, some_bind]; rfl, ?_⟩
    obtain ⟨rest', hx', hNet⟩ := Network.deq_eq_some.mp hDeq
    rw [hNet]
    exact Traffic.togo_leave hx'
  · intro trace net j x rest h hItems hNext
    obtain ⟨i, l, net', hMove⟩ := exists_xfer hb hBits hItems hNext
    exact ⟨.xfer j i l, net', by simp only [machine, fire, hMove, some_bind]; rfl,
      Traffic.togo_move (xfer_moved hb hBits h.routed hMove)⟩

end UnFunnelTree
end UnFunnel

/-- Both trees deliver, for every number of pipes and every number of bits in a stage. -/
theorem funnel_trees_deliver {k b : Nat} [NeZero k] (hb : 1 ≤ b) (hBits : b ≤ logk k) (d : Nat) (V : Type) :
    (∀ net trace, (UnFunnelTree.machine k b d V).Run (fun _ _ _ => True) net trace →
      Delivers (UnFunnelTree.machine k b d V) net trace) ∧
    ∀ net trace, (FunnelTree.machine k b d V).Run (fun _ _ _ => True) net trace →
      Delivers (FunnelTree.machine k b d V) net trace :=
  ⟨fun _ _ => UnFunnelTree.delivers hb hBits, fun _ _ => FunnelTree.delivers hb⟩

/-- Five pipes and two bits in a stage: the second stage decides one bit. -/
theorem funnel_trees_deliver_five : treeStages 5 2 = 2 ∧
    (∀ net trace, (UnFunnelTree.machine 5 2 1 Bool).Run (fun _ _ _ => True) net trace →
      Delivers (UnFunnelTree.machine 5 2 1 Bool) net trace) ∧
    ∀ net trace, (FunnelTree.machine 5 2 1 Bool).Run (fun _ _ _ => True) net trace →
      Delivers (FunnelTree.machine 5 2 1 Bool) net trace :=
  ⟨by decide +kernel, funnel_trees_deliver (by decide) (by decide +kernel) 1 Bool⟩

end Connectal.Pipe
