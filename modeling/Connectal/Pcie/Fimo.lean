import Connectal.Pcie.Mifo

/-! The runs of `mkMIFO`, which takes any number of items at once and hands out a fixed
number, and of `mkFIMO` of `MIFO.bsv`, which takes a fixed number and hands out any number. -/
namespace Connectal.Pcie

open Layout Rules

/-- What happens at either module: items are put in, one entry of the input queue goes to the
parallel queues, and items are handed out. -/
inductive MifoEvent (α : Type) where
  | enq (chunk : List α)
  | tofifos
  | deq (items : List α)
  deriving DecidableEq

namespace MifoEvent

variable {α : Type} {trace : List (MifoEvent α)} {held : List α} {chunks : List (List α)}

def chunk : MifoEvent α → Option (List α)
  | .enq chunk => some chunk
  | _ => none

/-- The groups of items that were put in. -/
def chunksIn (trace : List (MifoEvent α)) : List (List α) := trace.filterMap chunk

/-- The entries that went to the parallel queues. -/
def moved (trace : List (MifoEvent α)) : Nat := trace.countP fun
  | .tofifos => true
  | _ => false

def enqueued (trace : List (MifoEvent α)) : List α := (chunksIn trace).flatten

def transferred (trace : List (MifoEvent α)) : List α := ((chunksIn trace).take (moved trace)).flatten

def delivered (trace : List (MifoEvent α)) : List α := trace.flatMap fun
  | .deq items => items
  | _ => []

/-- What the parallel queues and the input queue hold is what has not been handed out. -/
structure Account (trace : List (MifoEvent α)) (held : List α) (chunks : List (List α)) : Prop where
  out : transferred trace = delivered trace ++ held
  waiting : (chunksIn trace).drop (moved trace) = chunks
  moved : moved trace ≤ (chunksIn trace).length

namespace Account

theorem nil : Account ([] : List (MifoEvent α)) [] [] := ⟨rfl, rfl, Nat.le_refl _⟩

theorem enq (h : Account trace held chunks) (chunk : List α) :
    Account (trace ++ [.enq chunk]) held (chunks ++ [chunk]) := by
  have hIn : chunksIn (trace ++ [.enq chunk]) = chunksIn trace ++ [chunk] := List.filterMap_append
  have hMoved : MifoEvent.moved (trace ++ [.enq chunk]) = MifoEvent.moved trace := List.countP_append
  refine ⟨?_, ?_, ?_⟩
  · rw [transferred, hIn, hMoved, List.take_append_of_le_length h.moved, delivered, List.flatMap_append]
    exact h.out.trans (congrArg (· ++ held) (List.append_nil _).symm)
  · rw [hIn, hMoved, List.drop_append_of_le_length h.moved, h.waiting]
  · rw [hIn, hMoved, List.length_append]
    exact Nat.le_add_right_of_le h.moved

theorem tofifos {chunk : List α} (h : Account trace held (chunk :: chunks)) :
    Account (trace ++ [.tofifos]) (held ++ chunk) chunks := by
  have hIn : chunksIn (trace ++ [.tofifos]) = chunksIn trace :=
    List.filterMap_append.trans (List.append_nil _)
  have hMoved : MifoEvent.moved (trace ++ [.tofifos]) = MifoEvent.moved trace + 1 := List.countP_append
  have hLess : MifoEvent.moved trace < (chunksIn trace).length := by
    have hLength := congrArg List.length h.waiting
    rw [List.length_drop, List.length_cons] at hLength
    omega
  have hHead := h.waiting
  rw [List.drop_eq_getElem_cons hLess] at hHead
  obtain ⟨hChunk, hRest⟩ := List.cons.inj hHead
  refine ⟨?_, ?_, ?_⟩
  · rw [transferred, hIn, hMoved, ← List.take_append_getElem hLess, List.flatten_append, hChunk, List.flatten_singleton,
      delivered, List.flatMap_append, ← List.append_assoc]
    exact congrArg (· ++ chunk) (h.out.trans (congrArg (· ++ held) (List.append_nil _).symm))
  · rw [hIn, hMoved]
    exact hRest
  · rw [hIn, hMoved]
    exact hLess

theorem deq {items : List α} (h : Account trace (items ++ held) chunks) :
    Account (trace ++ [.deq items]) held chunks := by
  have hIn : chunksIn (trace ++ [.deq items]) = chunksIn trace :=
    List.filterMap_append.trans (List.append_nil _)
  have hMoved : MifoEvent.moved (trace ++ [.deq items]) = MifoEvent.moved trace := List.countP_append
  refine ⟨?_, ?_, ?_⟩
  · rw [transferred, hIn, hMoved, delivered, List.flatMap_append, List.flatMap_singleton, List.append_assoc]
    exact h.out
  · rw [hIn, hMoved]
    exact h.waiting
  · rw [hIn, hMoved]
    exact h.moved

theorem enqueued_eq (h : Account trace held chunks) :
    enqueued trace = delivered trace ++ (held ++ chunks.flatten) := by
  rw [enqueued, ← List.take_append_drop (MifoEvent.moved trace) (chunksIn trace), List.flatten_append, h.waiting,
    ← List.append_assoc, ← h.out]
  rfl

theorem delivered_prefix (h : Account trace held chunks) : delivered trace <+: enqueued trace :=
  h.enqueued_eq ▸ List.prefix_append _ _

end Account
end MifoEvent

open MifoEvent

/-! ### Any number in, a fixed number out -/

namespace Mifo

variable {n out : Nat} {α : Type} {m m' : Mifo n α} {held : List α} {chunks : List (List α)}

/-- `deqReadyInternal`: the first queues from `outPos` on are not empty. -/
def deqReady (out : Nat) (m : Mifo n α) : Prop :=
  ∀ k : Fin n, k.val < out → rotateBy (fun i => !(m.fifos i).items.isEmpty)
    ⟨(n - m.outPos) % n, Nat.mod_lt _ m.outPos.pos⟩ k = true

theorem distance_sub (p k : Fin n) : distance n ((n - p) % n) k = (p + k) % n := by
  have hp := p.isLt
  unfold distance
  rcases Nat.eq_zero_or_pos p.val with hZero | hPos
  · rw [hZero, Nat.sub_zero, Nat.mod_self, Nat.sub_zero, Nat.add_mod_right, Nat.zero_add]
  · have hLess : n - p.val < n := by omega
    rw [Nat.mod_eq_of_lt hLess, show k.val + n - (n - p) = p + k by omega]

theorem Parts.deqReady_iff (h : m.Parts held chunks) (hOut : out ≤ n) : m.deqReady out ↔ out ≤ held.length := by
  have hHead (k : Nat) (hk : k < n) : (m.fifos (behind m.outPos k)).items.head? = held[k]? := by
    rw [h.striped]
    exact lane_next m.outPos.isLt hk held
  have hQueue (k : Fin n) : (⟨distance n ((n - m.outPos) % n) k, distance_lt k.pos _ _⟩ : Fin n) =
      behind m.outPos k := Fin.ext (distance_sub m.outPos k)
  constructor
  · intro hReady
    by_contra hLess
    have hk : held.length < n := by omega
    have hFull := hReady ⟨held.length, hk⟩ (Nat.lt_of_not_le hLess)
    have hNone := hHead held.length hk
    rw [List.getElem?_eq_none (Nat.le_refl _), List.head?_eq_none_iff] at hNone
    rw [rotateBy, hQueue ⟨held.length, hk⟩, hNone] at hFull
    cases hFull
  · intro hEnough k hk
    have hSome := hHead k k.isLt
    rw [List.getElem?_eq_getElem (Nat.lt_of_lt_of_le hk hEnough)] at hSome
    rw [rotateBy, hQueue k]
    cases hItems : (m.fifos (behind m.outPos k)).items with
    | nil => rw [hItems] at hSome; cases hSome
    | cons => rfl

inductive Action (n : Nat) (α : Type) where
  | enq (count : Nat) (data : Fin n → α)
  | tofifos
  | deq

def fire (out : Nat) : Action n α → Mifo n α → Option (Mifo n α × List (MifoEvent α))
  | .enq count data, m => do
      let m ← m.enq count data
      pure (m, [.enq ((List.ofFn data).take count)])
  | .tofifos, m => do
      let m ← m.tofifos
      pure (m, [.tofifos])
  | .deq, m => do
      let (items, m) ← m.deq out
      pure (m, [.deq items])

def machine (hn : 0 < n) (out : Nat) : Machine (Mifo n α) (Action n α) (MifoEvent α) :=
  ⟨fun m => m = fresh hn, fire out⟩

/-- A count is at most the length of the vector. -/
def counted : Machine.Contract (Mifo n α) (Action n α) (MifoEvent α)
  | _, _, .enq count _ => count ≤ n
  | _, _, _ => True

instance (trace : List (MifoEvent α)) (m : Mifo n α) : (action : Action n α) → Decidable (counted trace m action)
  | .enq count _ => inferInstanceAs (Decidable (count ≤ n))
  | .tofifos | .deq => .isTrue trivial

theorem run_account {hn : 0 < n} (hOut : out ≤ n) {trace : List (MifoEvent α)}
    (run : (machine hn out).Run counted m trace) : ∃ held chunks, Account trace held chunks ∧ m.Parts held chunks := by
  refine run.invariant (fun trace m => ∃ held chunks, Account trace held chunks ∧ m.Parts held chunks) ?_ ?_
  · rintro _ rfl
    exact ⟨[], [], .nil, Flow.fresh hn⟩
  · rintro trace m action m' events ⟨held, chunks, hAccount, hParts⟩ hOk hFire
    cases action
    all_goals simp only [machine, fire, firing] at hFire
    case enq count data =>
      obtain ⟨_, hEnq, rfl, rfl⟩ := hFire
      exact ⟨held, _, hAccount.enq _, hParts.enq hOk hEnq⟩
    case tofifos =>
      obtain ⟨_, hMove, rfl, rfl⟩ := hFire
      obtain ⟨chunk, rest, rfl, hParts'⟩ := hParts.tofifos hMove
      exact ⟨held ++ chunk, rest, hAccount.tofifos, hParts'⟩
    case deq =>
      obtain ⟨items, _, hDeq, rfl, rfl⟩ := hFire
      obtain ⟨-, rest, rfl, hParts'⟩ := hParts.deq hOut hDeq
      exact ⟨rest, chunks, hAccount.deq, hParts'⟩

theorem mifo_is_queue {k : Nat} (hOut : out ≤ 2 ^ k) {m : Mifo (2 ^ k) α} {trace : List (MifoEvent α)}
    (run : (machine (Nat.two_pow_pos k) out).Run counted m trace) :
    delivered trace <+: enqueued trace ∧
      (m.deqReady out ↔ (delivered trace).length + out ≤ (transferred trace).length) := by
  obtain ⟨held, chunks, hAccount, hParts⟩ := run_account hOut run
  refine ⟨hAccount.delivered_prefix, ?_⟩
  rw [hParts.deqReady_iff hOut, hAccount.out, List.length_append, Nat.add_le_add_iff_left]

/-- Three and then two items go in, and three come out. -/
theorem mifo_is_queue_three_of_five : ∃ (m : Mifo (2 ^ 2) Nat) (trace : List (MifoEvent Nat)),
    (machine (Nat.two_pow_pos 2) 3).Run counted m trace ∧ delivered trace = [0, 1, 2] ∧
      delivered trace <+: enqueued trace ∧
      (m.deqReady 3 ↔ (delivered trace).length + 3 ≤ (transferred trace).length) := by
  obtain ⟨m, trace, run, hEnd⟩ := Machine.exists_run (show ((machine (Nat.two_pow_pos 2) 3).exec counted
      [.enq 3 fun i => i.val, .tofifos, .enq 2 fun i => i.val + 3, .deq, .tofifos]
      (fresh (Nat.two_pow_pos 2), [])).map (fun c => delivered c.2) = some [0, 1, 2] by decide +kernel) rfl
  exact ⟨m, trace, run, hEnd, mifo_is_queue (by decide) run⟩

end Mifo

/-! ### A fixed number in, any number out -/

/-- The lanes beyond the `n_in` items of an input vector are undefined in the source; here the
caller chooses them. -/
structure Fimo (n : Nat) (α : Type) where
  inFifo : Fifo ((Fin n → α) × (Fin n → Bool)) 2
  fifos : Fin n → Fifo α 2
  inPos : Fin n
  outPos : Fin n

namespace Fimo

open Mifo (behind rotateBy write read Flow)

variable {n nIn out : Nat} {α : Type} {s s' : Fimo n α} {trace events : List (MifoEvent α)}

def fresh (hn : 0 < n) : Fimo n α := ⟨.empty, fun _ => .empty, ⟨0, hn⟩, ⟨0, hn⟩⟩

def enq (nIn : Nat) (wdata : Fin n → α) (s : Fimo n α) : Option (Fimo n α) := do
  let we : Fin n → Bool := fun i => i < nIn
  let inFifo ← s.inFifo.enq (rotateBy wdata s.inPos, rotateBy we s.inPos)
  pure { s with inFifo, inPos := behind s.inPos nIn }

def tofifos (s : Fimo n α) : Option (Fimo n α) := do
  let (e, inFifo) ← s.inFifo.deq
  guard (∀ i, e.2 i = true → (s.fifos i).items.length < 2)
  pure { s with inFifo, fifos := write s.fifos e }

/-- `first` and `deq` of the pipe `out[nOut]`. The next position is `max_out` places on, whatever
the number of items that are taken. -/
def deq (nOut : Nat) (s : Fimo n α) : Option (List α × Fimo n α) := do
  let items ← (List.range nOut).mapM fun k => (s.fifos (behind s.outPos k)).items.head?
  pure (items, { s with fifos := read nOut s.outPos s.fifos, outPos := behind s.outPos n })

inductive Action (n : Nat) (α : Type) where
  | enq (wdata : Fin n → α)
  | tofifos
  | deq (nOut : Nat)

def fire (nIn : Nat) : Action n α → Fimo n α → Option (Fimo n α × List (MifoEvent α))
  | .enq wdata, s => do
      let s ← s.enq nIn wdata
      pure (s, [.enq ((List.ofFn wdata).take nIn)])
  | .tofifos, s => do
      let s ← s.tofifos
      pure (s, [.tofifos])
  | .deq nOut, s => do
      let (items, s) ← s.deq nOut
      pure (s, [.deq items])

def machine (hn : 0 < n) (nIn : Nat) : Machine (Fimo n α) (Action n α) (MifoEvent α) :=
  ⟨fun s => s = fresh hn, fire nIn⟩

/-- Items are taken from the pipes `out[1]` to `out[max_out]`. -/
def anyOut : Machine.Contract (Fimo n α) (Action n α) (MifoEvent α)
  | _, _, .deq nOut => 1 ≤ nOut ∧ nOut ≤ n
  | _, _, _ => True

instance (trace : List (MifoEvent α)) (s : Fimo n α) : (action : Action n α) → Decidable (anyOut trace s action)
  | .deq nOut => inferInstanceAs (Decidable (1 ≤ nOut ∧ nOut ≤ n))
  | .tofifos | .enq _ => .isTrue trivial

/-- Two items are taken, and then two again: the position has not moved, so the third and the
fourth item stay behind. -/
theorem fimo_skips : ∃ (s : Fimo (2 ^ 2) Nat) (trace : List (MifoEvent Nat)),
    (machine (Nat.two_pow_pos 2) 4).Run anyOut s trace ∧ enqueued trace = [0, 1, 2, 3, 4, 5, 6, 7] ∧
      delivered trace = [0, 1, 4, 5] ∧ ¬ delivered trace <+: enqueued trace := by
  obtain ⟨s, trace, run, hEnd⟩ := Machine.exists_run (show ((machine (Nat.two_pow_pos 2) 4).exec anyOut
      [.enq fun i => i.val, .tofifos, .deq 2, .enq fun i => i.val + 4, .tofifos, .deq 2]
      (fresh (Nat.two_pow_pos 2), [])).map (fun c => (enqueued c.2, delivered c.2)) =
        some ([0, 1, 2, 3, 4, 5, 6, 7], [0, 1, 4, 5]) by decide +kernel) rfl
  obtain ⟨hIn, hOut⟩ := Prod.mk.inj hEnd
  refine ⟨s, trace, run, hIn, hOut, ?_⟩
  rw [hIn, hOut]
  decide

/-- Items are only taken from the pipe `out[max_out]`. -/
def wholeOut : Machine.Contract (Fimo n α) (Action n α) (MifoEvent α)
  | _, _, .deq nOut => nOut = n
  | _, _, _ => True

instance (trace : List (MifoEvent α)) (s : Fimo n α) : (action : Action n α) → Decidable (wholeOut trace s action)
  | .deq nOut => inferInstanceAs (Decidable (nOut = n))
  | .tofifos | .enq _ => .isTrue trivial

/-- The items that are in the module, and those that were handed out. -/
def Inv (trace : List (MifoEvent α)) (s : Fimo n α) : Prop :=
  ∃ held chunks, Account trace held chunks ∧ Flow s.inFifo s.fifos s.inPos s.outPos held chunks

theorem Inv.step (hIn : nIn ≤ n) {action : Action n α} (h : Inv trace s) (hOk : wholeOut trace s action)
    (hFire : fire nIn action s = some (s', events)) : Inv (trace ++ events) s' := by
  obtain ⟨held, chunks, hAccount, hFlow⟩ := h
  cases action with
  | enq wdata =>
    simp only [fire, enq, firing] at hFire
    obtain ⟨_, ⟨q, ⟨-, hq⟩, rfl⟩, rfl, rfl⟩ := hFire
    exact ⟨held, _, hAccount.enq _, hFlow.enq hIn hq⟩
  | tofifos =>
    simp only [fire, tofifos, firing] at hFire
    obtain ⟨_, ⟨_, _, q, hq, hRoom, rfl⟩, rfl, rfl⟩ := hFire
    obtain ⟨chunk, rest, rfl, hFlow'⟩ := hFlow.tofifos hq hRoom
    exact ⟨held ++ chunk, rest, hAccount.tofifos, hFlow'⟩
  | deq nOut =>
    obtain rfl : nOut = n := hOk
    simp only [fire, deq, firing] at hFire
    obtain ⟨_, _, ⟨_, hHeads, rfl, rfl⟩, rfl, rfl⟩ := hFire
    obtain ⟨hEnough, rfl⟩ := (hFlow.striped.heads (Nat.le_refl _)).mp hHeads
    refine ⟨held.drop nOut, chunks, ?_, hFlow.deq (Nat.le_refl _) hEnough⟩
    exact Account.deq (by rwa [List.take_append_drop])

theorem run_inv {hn : 0 < n} (hIn : nIn ≤ n) (run : (machine hn nIn).Run wholeOut s trace) : Inv trace s :=
  run.invariant Inv (fun _ hs => ⟨[], [], .nil, hs ▸ Flow.fresh hn⟩) fun _ _ _ _ _ h hOk hFire => h.step hIn hOk hFire

/-- What is left to be done. -/
def rank (trace : List (MifoEvent α)) (s : Fimo n α) : Nat :=
  (enqueued trace).length - (delivered trace).length + s.inFifo.items.length

/-- There is less than a whole output vector left, or the module can advance. -/
theorem Inv.advances {hn : 0 < n} (h : Inv trace s) : (enqueued trace).length < (delivered trace).length + n ∨
    (machine hn nIn).Advances wholeOut MifoEvent.chunk rank trace s := by
  refine (Nat.lt_or_ge _ _).imp_right fun hMore => ?_
  obtain ⟨held, chunks, hAccount, hFlow⟩ := h
  have hTotal := congrArg List.length hAccount.enqueued_eq
  rw [List.length_append] at hTotal
  rcases hFlow.moves (Nat.le_refl n) (.inr (by omega)) with hEnough | ⟨⟨e, es, hes⟩, hRoom⟩
  · have hHeads : ((List.range n).mapM fun k => (s.fifos (behind s.outPos k)).items.head?) = some (held.take n) :=
      (hFlow.striped.heads (Nat.le_refl n)).mpr ⟨hEnough, rfl⟩
    refine ⟨.deq n, _, [.deq (held.take n)], rfl, by simp only [machine, fire, deq, hHeads]; rfl, rfl, ?_⟩
    have hOut : (delivered (trace ++ [.deq (held.take n)])).length = (delivered trace).length + n := by
      rw [delivered, List.flatMap_append, List.flatMap_singleton, List.length_append, List.length_take_of_le hEnough]
      rfl
    have hSame : enqueued (trace ++ [.deq (held.take n)]) = enqueued trace :=
      congrArg List.flatten (List.filterMap_append.trans (List.append_nil _))
    simp only [rank, hOut, hSame]
    omega
  · obtain ⟨q, hDeq, hq⟩ := Fifo.exists_deq hes
    have hGuard : ∀ i, e.2 i = true → (s.fifos i).items.length < 2 := fun i _ => hRoom i
    refine ⟨.tofifos, _, [.tofifos], trivial, by
      simp only [machine, fire, tofifos, hDeq, some_bind, guard, if_pos hGuard]
      rfl, rfl, ?_⟩
    have hSame : enqueued (trace ++ [.tofifos]) = enqueued trace :=
      congrArg List.flatten (List.filterMap_append.trans (List.append_nil _))
    have hOut : delivered (trace ++ [.tofifos]) = delivered trace :=
      List.flatMap_append.trans (List.append_nil _)
    simp only [rank, hSame, hOut, hes, hq, List.length_cons]
    omega

/-- If all items are taken from the pipe `out[max_out]`, they come out in order, and all of them
can come out, except for fewer than `max_out` items at the end. -/
theorem fimo_is_queue {k : Nat} (hIn : nIn ≤ 2 ^ k) {s : Fimo (2 ^ k) α}
    (run : (machine (Nat.two_pow_pos k) nIn).Run wholeOut s trace) :
    delivered trace <+: enqueued trace ∧
      ∃ s' trace', (machine (Nat.two_pow_pos k) nIn).Continues wholeOut (s, trace) (s', trace') ∧
        enqueued trace' = enqueued trace ∧ delivered trace' <+: enqueued trace' ∧
        (enqueued trace).length < (delivered trace').length + 2 ^ k := by
  have h := run_inv hIn run
  refine ⟨?_, ?_⟩
  · obtain ⟨held, chunks, hAccount, -⟩ := h
    exact hAccount.delivered_prefix
  · obtain ⟨s', trace', path, hSame, hEnd⟩ := Machine.exists_drained rank
      (fun _ _ _ _ _ h hOk hFire => Inv.step hIn h hOk hFire) (fun trace' s' h' _ => h'.advances) h
    have hEnqueued : enqueued trace' = enqueued trace := congrArg List.flatten hSame
    obtain ⟨held, chunks, hAccount, -⟩ := run_inv hIn (run.continue path)
    exact ⟨s', trace', path, hEnqueued, hAccount.delivered_prefix, hEnqueued ▸ hEnd⟩

/-- Three items go in twice, and four of them come out. -/
theorem fimo_is_queue_four_of_six : ∃ (s : Fimo (2 ^ 2) Nat) (trace : List (MifoEvent Nat)),
    (machine (Nat.two_pow_pos 2) 3).Run wholeOut s trace ∧ delivered trace = [0, 1, 2, 3] ∧
      delivered trace <+: enqueued trace ∧
      ∃ s' trace', (machine (Nat.two_pow_pos 2) 3).Continues wholeOut (s, trace) (s', trace') ∧
        enqueued trace' = enqueued trace ∧ delivered trace' <+: enqueued trace' ∧
        (enqueued trace).length < (delivered trace').length + 2 ^ 2 := by
  obtain ⟨s, trace, run, hEnd⟩ := Machine.exists_run (show ((machine (Nat.two_pow_pos 2) 3).exec wholeOut
      [.enq fun i => i.val, .tofifos, .enq fun i => i.val + 3, .tofifos, .deq 4]
      (fresh (Nat.two_pow_pos 2), [])).map (fun c => delivered c.2) = some [0, 1, 2, 3] by decide +kernel) rfl
  exact ⟨s, trace, run, hEnd, fimo_is_queue (by decide) run⟩

end Fimo
end Connectal.Pcie
