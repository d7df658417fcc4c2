import Connectal.Pcie.Fimo
import Mathlib.Data.Nat.Log

/-! The positions of `mkMIFO` of `MIFO.bsv` in the widths of their registers, for any number of
queues. The sum of a position and a count is computed in the width of a count. -/
namespace Connectal.Pcie

open Layout Rules MifoEvent
open Mifo (rotateBy write)

/-- An unsigned number that can count up to `n`. -/
abbrev LUInt (n : Nat) : Type := BitVec (Nat.clog 2 (n + 1))

structure MIFO (n : Nat) (α : Type) where
  inFifo : Fifo ((Fin n → α) × (Fin n → Bool)) 2
  fifos : Fin n → Fifo α 4
  inPos : BitVec (Nat.clog 2 n)
  outPos : BitVec (Nat.clog 2 n)

namespace MIFO

variable {n out : Nat} [NeZero n] {α : Type}

/-- The index of a queue. -/
def queue {w : Nat} (i : BitVec w) : Fin n := Fin.ofNat n i.toNat

/-- `(extend(pos) + count) % i_max_in`. -/
def ahead (pos : BitVec (Nat.clog 2 n)) (count : LUInt n) : LUInt n := (pos.setWidth _ + count) % BitVec.ofNat _ n

def enq (count : LUInt n) (data : Fin n → α) (m : MIFO n α) : Option (MIFO n α) := do
  let we : Fin n → Bool := fun i => i < count.toNat
  let inFifo ← m.inFifo.enq (rotateBy data (queue m.inPos), rotateBy we (queue m.inPos))
  pure { m with inFifo, inPos := (ahead m.inPos count).setWidth _ }

def tofifos (m : MIFO n α) : Option (MIFO n α) := do
  let (e, inFifo) ← m.inFifo.deq
  guard (∀ i, e.2 i = true → (m.fifos i).items.length < 4)
  pure { m with inFifo, fifos := write m.fifos e }

/-- `deqReadyInternal`: the first queues from `outPos` on are not empty. -/
def deqReady (out : Nat) (m : MIFO n α) : Bool :=
  let rot : LUInt n := BitVec.ofNat _ n - m.outPos.setWidth _
  ((List.finRange n).take out).all
    (rotateBy (fun i => !(m.fifos i).items.isEmpty) (queue (rot.setWidth (Nat.clog 2 n))))

/-- The queue that an item of the next ones comes from. -/
def source (m : MIFO n α) (i : Nat) : Fin n := queue (ahead m.outPos (BitVec.ofNat _ i))

def first (out : Nat) (m : MIFO n α) : Option (Fin out → α) :=
  if h : ∀ i : Fin out, (m.fifos (m.source i)).items ≠ [] then some fun i => (m.fifos (m.source i)).items.head (h i)
  else none

def deq (out : Nat) (m : MIFO n α) : Option ((Fin out → α) × MIFO n α) := do
  guard (m.deqReady out = true)
  let items ← m.first out
  pure (items, { m with
    fifos := fun i =>
      if ∃ k : Fin out, m.source k = i then ((m.fifos i).deq.map (·.2)).getD (m.fifos i) else m.fifos i
    outPos := (ahead m.outPos (BitVec.ofNat _ out)).setWidth _ })

inductive Action (n : Nat) (α : Type) where
  | enq (count : LUInt n) (data : Fin n → α)
  | tofifos
  | deq

def fire (out : Nat) : Action n α → MIFO n α → Option (MIFO n α × List (MifoEvent α))
  | .enq count data, m => do
      let m ← m.enq count data
      pure (m, [.enq ((List.ofFn data).take count.toNat)])
  | .tofifos, m => do
      let m ← m.tofifos
      pure (m, [.tofifos])
  | .deq, m => do
      let (items, m) ← m.deq out
      pure (m, [.deq (List.ofFn items)])

def fresh : MIFO n α := ⟨.empty, fun _ => .empty, 0, 0⟩

def machine (n out : Nat) [NeZero n] (α : Type) : Machine (MIFO n α) (Action n α) (MifoEvent α) :=
  ⟨fun m => m = fresh, fire out⟩

/-- A count is at most the length of the vector, and the sums fit the width of a count. -/
def Fits (out : Nat) : Machine.Contract (MIFO n α) (Action n α) (MifoEvent α)
  | _, m, .enq count _ => count.toNat ≤ n ∧ m.inPos.toNat + count.toNat < 2 ^ Nat.clog 2 (n + 1)
  | _, m, .deq => m.outPos.toNat + out < 2 ^ Nat.clog 2 (n + 1)
  | _, _, .tofifos => True

instance (trace : List (MifoEvent α)) (m : MIFO n α) : (action : Action n α) → Decidable (Fits out trace m action)
  | .enq _ _ => inferInstanceAs (Decidable (_ ∧ _))
  | .deq => inferInstanceAs (Decidable (_ < _))
  | .tofifos => .isTrue trivial

/-- Without a carry out of the sum, a position moves on by the count. -/
theorem toNat_ahead {pos : BitVec (Nat.clog 2 n)} {count : LUInt n}
    (hFits : pos.toNat + count.toNat < 2 ^ Nat.clog 2 (n + 1)) :
    ((ahead pos count).setWidth (Nat.clog 2 n)).toNat = (pos.toNat + count.toNat) % n := by
  have hn : n < 2 ^ Nat.clog 2 (n + 1) := Nat.le_pow_clog (by decide) (n + 1)
  have hLess : (pos.toNat + count.toNat) % n < 2 ^ Nat.clog 2 n :=
    Nat.lt_of_lt_of_le (Nat.mod_lt _ (Nat.pos_of_neZero n)) (Nat.le_pow_clog (by decide) n)
  rw [ahead, BitVec.toNat_setWidth, BitVec.toNat_umod, BitVec.toNat_add, BitVec.toNat_setWidth, BitVec.toNat_ofNat,
    Nat.mod_eq_of_lt (Nat.lt_of_le_of_lt (Nat.le_add_right ..) hFits), Nat.mod_eq_of_lt hFits, Nat.mod_eq_of_lt hn,
    Nat.mod_eq_of_lt hLess]

variable {m m' : MIFO n α} {trace events : List (MifoEvent α)} {action : Action n α}

/-- The positions are where the items that went in and came out have left them. -/
structure Positions (trace : List (MifoEvent α)) (m : MIFO n α) : Prop where
  inPos : m.inPos.toNat = (enqueued trace).length % n
  outPos : m.outPos.toNat = (delivered trace).length % n

attribute [local simp] enqueued chunksIn chunk List.filterMap_cons delivered

theorem Positions.step (h : Positions trace m) (hOk : Fits out trace m action)
    (hFire : fire out action m = some (m', events)) : Positions (trace ++ events) m' := by
  cases action with
  | enq count data =>
    simp only [fire, enq, firing] at hFire
    obtain ⟨_, ⟨q, -, rfl⟩, rfl, rfl⟩ := hFire
    refine ⟨?_, by simpa using h.outPos⟩
    rw [toNat_ahead hOk.2, h.inPos, Nat.mod_add_mod]
    simp [hOk.1]
  | tofifos =>
    simp only [fire, tofifos, firing] at hFire
    obtain ⟨_, ⟨_, _, _, -, -, rfl⟩, rfl, rfl⟩ := hFire
    exact ⟨by simpa using h.inPos, by simpa using h.outPos⟩
  | deq =>
    simp only [fire, deq, firing] at hFire
    obtain ⟨items, _, ⟨-, _, -, rfl, rfl⟩, rfl, rfl⟩ := hFire
    have hOut : (BitVec.ofNat (Nat.clog 2 (n + 1)) out).toNat = out := by
      rw [BitVec.toNat_ofNat, Nat.mod_eq_of_lt (Nat.lt_of_le_of_lt (Nat.le_add_left ..) hOk)]
    refine ⟨by simpa using h.inPos, ?_⟩
    rw [toNat_ahead (by rw [hOut]; exact hOk), hOut, h.outPos, Nat.mod_add_mod]
    simp

/-- Where the sums fit, the positions are the numbers of items that went in and came out, and
stay below the number of queues. -/
theorem positions_follow_items (run : (machine n out α).Run (Fits out) m trace) :
    m.inPos.toNat = (enqueued trace).length % n ∧ m.inPos.toNat < n ∧
      m.outPos.toNat = (delivered trace).length % n ∧ m.outPos.toNat < n := by
  have h : Positions trace m := run.invariant Positions (fun _ hm => hm ▸ ⟨by simp [fresh], by simp [fresh]⟩)
    fun _ _ _ _ _ => Positions.step
  have hn := Nat.pos_of_neZero n
  exact ⟨h.inPos, h.inPos ▸ Nat.mod_lt _ hn, h.outPos, h.outPos ▸ Nat.mod_lt _ hn⟩

/-- With three queues, two items, one taken out, and then one more. -/
theorem positions_follow_items_three_queues : ∃ (m : MIFO 3 Nat) (trace : List (MifoEvent Nat)),
    (machine 3 1 Nat).Run (Fits 1) m trace ∧ enqueued trace = [0, 1, 0] ∧ delivered trace = [0] ∧
      m.inPos.toNat = (enqueued trace).length % 3 := by
  obtain ⟨m, trace, run, hEnd⟩ := Machine.exists_run (show ((machine 3 1 Nat).exec (Fits 1)
      [.enq 2 fun i => i, .tofifos, .deq, .enq 1 fun i => i] (fresh, [])).map
        (fun c => (enqueued c.2, delivered c.2)) = some ([0, 1, 0], [0]) by decide +kernel) rfl
  obtain ⟨hIn, hOut⟩ := Prod.mk.inj hEnd
  exact ⟨m, trace, run, hIn, hOut, (positions_follow_items run).1⟩

/-- With three queues, two items and then three: the sum of 2 and 3 is 1 in two bits. -/
theorem position_is_lost : ∃ (m : MIFO 3 Nat) (trace : List (MifoEvent Nat)),
    (machine 3 1 Nat).Run (fun _ _ _ => True) m trace ∧ trace = [.enq [0, 1], .enq [0, 1, 2]] ∧
      m.inPos.toNat = 1 ∧ (enqueued trace).length % 3 = 2 := by
  obtain ⟨m, trace, run, hEnd⟩ := Machine.exists_run (show ((machine 3 1 Nat).exec (fun _ _ _ => True)
      [.enq 2 fun i => i, .enq 3 fun i => i] (fresh, [])).map (fun c => (c.2, c.1.inPos.toNat)) =
        some ([.enq [0, 1], .enq [0, 1, 2]], 1) by decide +kernel) rfl
  obtain ⟨rfl, hPos⟩ := Prod.mk.inj hEnd
  exact ⟨m, _, run, rfl, hPos, rfl⟩

end MIFO
end Connectal.Pcie
