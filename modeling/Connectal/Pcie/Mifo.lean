import Connectal.Layout.Lanes
import Connectal.Rules.Batch
import Connectal.Rules.Machine

/-! `mkMIFO` of `MIFO.bsv`: a queue that takes up to `n` items at once and hands out a
fixed number of them. The items are dealt out to `n` queues in turn. -/
namespace Connectal.Pcie

open Layout Rules

/-- The four input queues of the module are filled and emptied together, and only the
values and their write enables are used. -/
structure Mifo (n : Nat) (α : Type) where
  inFifo : Fifo ((Fin n → α) × (Fin n → Bool)) 2
  fifos : Fin n → Fifo α 4
  inPos : Fin n
  outPos : Fin n

namespace Mifo

variable {n : Nat} {α β : Type}

/-- The position `k` places behind `p`. -/
def behind (p : Fin n) (k : Nat) : Fin n := ⟨(p + k) % n, Nat.mod_lt _ p.pos⟩

/-- Move every element `k` places up. -/
def rotateBy (v : Fin n → β) (k : Fin n) : Fin n → β := fun i =>
  v ⟨distance n k i, distance_lt k.pos k i⟩

def fresh (hn : 0 < n) : Mifo n α := ⟨.empty, fun _ => .empty, ⟨0, hn⟩, ⟨0, hn⟩⟩

def enqReady (m : Mifo n α) : Prop := m.inFifo.items.length < 2

instance (m : Mifo n α) : Decidable m.enqReady := inferInstanceAs (Decidable (_ < _))

def enq (count : Nat) (data : Fin n → α) (m : Mifo n α) : Option (Mifo n α) := do
  let we : Fin n → Bool := fun i => i < count
  let inFifo ← m.inFifo.enq (rotateBy data m.inPos, rotateBy we m.inPos)
  pure { m with inFifo, inPos := behind m.inPos count }

def tofifos (m : Mifo n α) : Option (Mifo n α) := do
  let ((values, we), inFifo) ← m.inFifo.deq
  guard (∀ i, we i = true → (m.fifos i).items.length < 4)
  pure { m with
    inFifo
    fifos := fun i => ((m.fifos i).enqIf (we i) (values i)).getD (m.fifos i) }

/-- The first items, if all of them are there. -/
def first (out : Nat) (m : Mifo n α) : Option (List α) :=
  (List.range out).mapM fun k => (m.fifos (behind m.outPos k)).items.head?

def deq (out : Nat) (m : Mifo n α) : Option (List α × Mifo n α) := do
  let items ← m.first out
  pure (items, { m with
    fifos := fun i =>
      if (List.range out).any (fun k => behind m.outPos k = i) then
        ((m.fifos i).deq.map (·.2)).getD (m.fifos i)
      else m.fifos i
    outPos := behind m.outPos out })

/-- An entry of the input queue holds a few items from position `p` on. -/
structure Entry (p : Nat) (chunk : List α) (e : (Fin n → α) × (Fin n → Bool)) : Prop where
  short : chunk.length ≤ n
  enabled : ∀ i : Fin n, e.2 i = true ↔ distance n p i < chunk.length
  value : ∀ i : Fin n, distance n p i < chunk.length → chunk[distance n p i]? = some (e.1 i)

def Entries (p : Nat) : List (List α) → List ((Fin n → α) × (Fin n → Bool)) → Prop
  | [], [] => True
  | chunk :: chunks, e :: es => Entry p chunk e ∧ Entries ((p + chunk.length) % n) chunks es
  | _, _ => False

/-- The module is a queue with these items. -/
structure Holds (m : Mifo n α) (items : List α) : Prop where
  parts : ∃ held chunks, items = held ++ chunks.flatten ∧
    (∀ i : Fin n, (m.fifos i).items = lane n i m.outPos held) ∧
    Entries ((m.outPos + held.length) % n) chunks m.inFifo.items
  inPos : m.inPos.val = (m.outPos + items.length) % n

variable {e : (Fin n → α) × (Fin n → Bool)}

theorem entries_concat {p : Nat} {chunks : List (List α)} {es : List ((Fin n → α) × (Fin n → Bool))}
    {chunk : List α} (h : Entries p chunks es) (hp : p < n)
    (he : Entry ((p + chunks.flatten.length) % n) chunk e) : Entries p (chunks ++ [chunk]) (es ++ [e]) := by
  induction chunks generalizing p es with
  | nil =>
    cases es with
    | nil =>
      rw [List.flatten_nil, List.length_nil, Nat.add_zero, Nat.mod_eq_of_lt hp] at he
      exact ⟨he, trivial⟩
    | cons e es => exact h.elim
  | cons c cs ih =>
    cases es with
    | nil => exact h.elim
    | cons e es =>
      refine ⟨h.1, ih h.2 (Nat.mod_lt _ (by omega)) ?_⟩
      rw [Nat.mod_add_mod, Nat.add_assoc, ← List.length_append]
      exact he

/-! ### Queues that are filled and emptied in turn -/

section Striped

variable {d : Nat} {fifos : Fin n → Fifo α d} {p : Fin n} {held xs : List α} {out : Nat}

/-- The queues hold these items, dealt out from `p` on. -/
def Striped (fifos : Fin n → Fifo α d) (p : Fin n) (held : List α) : Prop :=
  ∀ i, (fifos i).items = lane n i p held

/-- Every enabled queue takes its value, if it has room. -/
def write (fifos : Fin n → Fifo α d) (e : (Fin n → α) × (Fin n → Bool)) : Fin n → Fifo α d := fun i =>
  ((fifos i).enqIf (e.2 i) (e.1 i)).getD (fifos i)

/-- The `out` queues from `p` on lose their first item. -/
def read (out : Nat) (p : Fin n) (fifos : Fin n → Fifo α d) : Fin n → Fifo α d := fun i =>
  if (List.range out).any (fun k => behind p k = i) then ((fifos i).deq.map (·.2)).getD (fifos i) else fifos i

theorem Striped.write {chunk : List α} (h : Striped fifos p held)
    (hEntry : Entry ((p + held.length) % n) chunk e) (hRoom : ∀ i, e.2 i = true → (fifos i).items.length < d) :
    Striped (write fifos e) p (held ++ chunk) := by
  intro i
  obtain ⟨r, hr⟩ : ∃ r, (fifos i).enqIf (e.2 i) (e.1 i) = some r := by
    rw [Fifo.enqIf]
    split
    · next hOn => exact (Fifo.exists_enq (hRoom i hOn) _).imp fun _ hr => hr.1
    · exact ⟨_, rfl⟩
  have hItems := (Fifo.enqIf_eq_some.mp hr).2
  show (((fifos i).enqIf (e.2 i) (e.1 i)).getD (fifos i)).items = _
  rw [hr, Option.getD_some, hItems, h i, lane_append _ _ p.isLt,
    lane_short i.isLt (Nat.mod_lt _ i.pos) hEntry.short]
  congr 1
  split
  · next hOn => rw [hEntry.value i ((hEntry.enabled i).mp hOn)]; rfl
  · next hOff =>
    rw [List.getElem?_eq_none (Nat.le_of_not_lt fun hLt => hOff ((hEntry.enabled i).mpr hLt))]
    rfl

theorem any_behind (hOut : out ≤ n) (p i : Fin n) :
    (List.range out).any (fun k => behind p k = i) = true ↔ distance n p i < out := by
  simp only [List.any_eq_true, List.mem_range, decide_eq_true_eq]
  constructor
  · rintro ⟨k, hk, rfl⟩
    rwa [behind, distance_add p.isLt (Nat.lt_of_lt_of_le hk hOut)]
  · exact fun h => ⟨_, h, Fin.ext (add_distance i.isLt p.isLt)⟩

theorem Striped.read (h : Striped fifos p held) (hOut : out ≤ n) (hEnough : out ≤ held.length) :
    Striped (read out p fifos) (behind p out) (held.drop out) := by
  intro i
  have hTake : (held.take out).length = out := List.length_take_of_le hEnough
  have hSplit := h i
  rw [← List.take_append_drop out held, lane_append _ _ p.isLt,
    lane_short i.isLt p.isLt (Nat.le_trans (Nat.le_of_eq hTake) hOut), hTake] at hSplit
  show (if _ then _ else fifos i : Fifo α d).items = lane n i ((p + out) % n) _
  by_cases hi : distance n p i < out
  · rw [if_pos ((any_behind hOut _ _).mpr hi)]
    rw [List.getElem?_eq_getElem (hTake.symm ▸ hi), Option.toList_some, List.singleton_append] at hSplit
    obtain ⟨r, hDeq, hr⟩ := Fifo.exists_deq hSplit
    rw [hDeq, Option.map_some, Option.getD_some, hr]
  · rw [if_neg fun hAny => hi ((any_behind hOut _ _).mp hAny), hSplit,
      List.getElem?_eq_none (hTake.symm ▸ Nat.le_of_not_lt hi)]
    rfl

/-- The first items of the next queues are the first items that are held. -/
theorem Striped.heads (h : Striped fifos p held) (hOut : out ≤ n) :
    ((List.range out).mapM fun k => (fifos (behind p k)).items.head?) = some xs ↔
      out ≤ held.length ∧ xs = held.take out := by
  refine mapM_range_eq_some fun k hk => ?_
  rw [h]
  exact lane_next p.isLt (Nat.lt_of_lt_of_le hk hOut) held

theorem Striped.short (h : Striped fifos p held) (hLess : held.length < n) (i : Fin n) :
    (fifos i).items.length < 2 := by
  rw [h, lane_short i.isLt p.isLt (Nat.le_of_lt hLess)]
  cases held[distance n p i]? <;> simp

end Striped

/-! ### The module as a queue -/

/-- The items in the queues and those that wait in front of them. -/
structure Flow {d : Nat} (inFifo : Fifo ((Fin n → α) × (Fin n → Bool)) 2) (fifos : Fin n → Fifo α d)
    (inPos outPos : Fin n) (held : List α) (chunks : List (List α)) : Prop where
  striped : Striped fifos outPos held
  entries : Entries ((outPos + held.length) % n) chunks inFifo.items
  inPos : inPos.val = (outPos + (held ++ chunks.flatten).length) % n

variable {count : Nat}

theorem entry_enq (hCount : count ≤ n) (data : Fin n → α) (p : Fin n) :
    Entry p ((List.ofFn data).take count) (rotateBy data p, rotateBy (fun i => decide (i.val < count)) p) := by
  have hLength : ((List.ofFn data).take count).length = count := by simp [hCount]
  refine ⟨by rw [hLength]; exact hCount, fun i => ?_, fun i hi => ?_⟩
  · rw [hLength]
    exact decide_eq_true_iff
  · rw [hLength] at hi
    rw [List.getElem?_take_of_lt hi, List.getElem?_ofFn, dif_pos (distance_lt p.pos _ _)]
    rfl

variable {data : Fin n → α}

namespace Flow

variable {d : Nat} {inFifo q : Fifo ((Fin n → α) × (Fin n → Bool)) 2} {fifos : Fin n → Fifo α d}
  {inPos outPos : Fin n} {held : List α} {chunks : List (List α)} {out : Nat}

theorem fresh (hn : 0 < n) : Flow .empty (fun _ => .empty : Fin n → Fifo α d) ⟨0, hn⟩ ⟨0, hn⟩ [] [] :=
  ⟨fun _ => rfl, trivial, (Nat.zero_mod n).symm⟩

variable (h : Flow inFifo fifos inPos outPos held chunks)

include h

theorem enq (hCount : count ≤ n)
    (hq : q.items = inFifo.items ++ [(rotateBy data inPos, rotateBy (fun i => decide (i.val < count)) inPos)]) :
    Flow q fifos (behind inPos count) outPos held (chunks ++ [(List.ofFn data).take count]) := by
  refine ⟨h.striped, ?_, ?_⟩
  · rw [hq]
    refine entries_concat h.entries (Nat.mod_lt _ outPos.pos) ?_
    rw [Nat.mod_add_mod, Nat.add_assoc, ← List.length_append, ← h.inPos]
    exact entry_enq hCount data inPos
  · have hTotal : (held ++ (chunks ++ [(List.ofFn data).take count]).flatten).length =
        (held ++ chunks.flatten).length + count := by
      rw [List.flatten_append, List.flatten_singleton, ← List.append_assoc, List.length_append]
      simp [hCount]
    show (inPos + count) % n = (outPos + _) % n
    rw [h.inPos, Nat.mod_add_mod, hTotal, Nat.add_assoc]

theorem tofifos
    (hq : inFifo.items = e :: q.items) (hRoom : ∀ i, e.2 i = true → (fifos i).items.length < d) :
    ∃ chunk rest, chunks = chunk :: rest ∧ Flow q (write fifos e) inPos outPos (held ++ chunk) rest := by
  have hEntries := h.entries
  rw [hq] at hEntries
  cases chunks with
  | nil => exact hEntries.elim
  | cons chunk chunks =>
    refine ⟨chunk, chunks, rfl, h.striped.write hEntries.1 hRoom, ?_, ?_⟩
    · rw [List.length_append, ← Nat.add_assoc, ← Nat.mod_add_mod]
      exact hEntries.2
    · rw [List.append_assoc, ← List.flatten_cons]
      exact h.inPos

theorem deq (hOut : out ≤ n) (hEnough : out ≤ held.length) :
    Flow inFifo (read out outPos fifos) inPos (behind outPos out) (held.drop out) chunks := by
  refine ⟨h.striped.read hOut hEnough, ?_, ?_⟩
  · show Entries (((outPos + out) % n + _) % n) chunks inFifo.items
    rw [Nat.mod_add_mod, List.length_drop, show outPos + out + (held.length - out) = outPos + held.length by omega]
    exact h.entries
  · show inPos.val = ((outPos + out) % n + _) % n
    rw [h.inPos, Nat.mod_add_mod, List.length_append, List.length_append, List.length_drop,
      show outPos + out + (held.length - out + chunks.flatten.length) =
        outPos + (held.length + chunks.flatten.length) by omega]

/-- If something waits or enough is there, enough is in the queues, or all queues have room
for what waits. -/
theorem moves (hOut : out ≤ n)
    (hSome : inFifo.items ≠ [] ∨ out ≤ (held ++ chunks.flatten).length) :
    out ≤ held.length ∨ (∃ e es, inFifo.items = e :: es) ∧ ∀ i, (fifos i).items.length < 2 := by
  rcases Nat.lt_or_ge held.length out with hShort | hEnough
  · refine .inr ⟨List.exists_cons_of_ne_nil (hSome.elim id fun hLong hNil => ?_),
      h.striped.short (Nat.lt_of_lt_of_le hShort hOut)⟩
    have hEntries := h.entries
    rw [hNil] at hEntries
    cases chunks with
    | nil => rw [List.flatten_nil, List.append_nil] at hLong; omega
    | cons => exact hEntries.elim
  · exact .inl hEnough

end Flow

variable {m m' : Mifo n α} {items held : List α} {chunks : List (List α)}

/-- The items of the module. -/
def Parts (m : Mifo n α) (held : List α) (chunks : List (List α)) : Prop :=
  Flow m.inFifo m.fifos m.inPos m.outPos held chunks

theorem holds_iff : m.Holds items ↔ ∃ held chunks, items = held ++ chunks.flatten ∧ m.Parts held chunks := by
  constructor
  · rintro ⟨⟨held, chunks, rfl, hLanes, hEntries⟩, hPos⟩
    exact ⟨held, chunks, rfl, hLanes, hEntries, hPos⟩
  · rintro ⟨held, chunks, rfl, h⟩
    exact ⟨⟨held, chunks, rfl, h.striped, h.entries⟩, h.inPos⟩

theorem Parts.enq (h : m.Parts held chunks) (hCount : count ≤ n)
    (hEnq : m.enq count data = some m') : m'.Parts held (chunks ++ [(List.ofFn data).take count]) := by
  simp only [Mifo.enq, firing] at hEnq
  obtain ⟨q, ⟨-, hq⟩, rfl⟩ := hEnq
  exact Flow.enq h hCount hq

theorem Parts.tofifos (h : m.Parts held chunks) (hMove : m.tofifos = some m') :
    ∃ chunk rest, chunks = chunk :: rest ∧ m'.Parts (held ++ chunk) rest := by
  simp only [Mifo.tofifos, firing] at hMove
  obtain ⟨values, we, q, hq, hRoom, rfl⟩ := hMove
  exact Flow.tofifos h hq hRoom

variable {out : Nat} {xs : List α}

theorem first_eq_some (h : m.Parts held chunks) (hOut : out ≤ n) :
    m.first out = some xs ↔ out ≤ held.length ∧ xs = held.take out := h.striped.heads hOut

theorem Parts.deq (h : m.Parts held chunks) (hOut : out ≤ n) (hDeq : m.deq out = some (xs, m')) :
    xs.length = out ∧ ∃ rest, held = xs ++ rest ∧ m'.Parts rest chunks := by
  simp only [Mifo.deq, firing] at hDeq
  obtain ⟨ys, hFirst, rfl, rfl⟩ := hDeq
  obtain ⟨hLength, rfl⟩ := (first_eq_some h hOut).mp hFirst
  exact ⟨List.length_take_of_le hLength, held.drop out, (List.take_append_drop _ _).symm, Flow.deq h hOut hLength⟩

theorem fresh_holds (hn : 0 < n) : (fresh hn : Mifo n α).Holds [] :=
  holds_iff.mpr ⟨[], [], rfl, Flow.fresh hn⟩

theorem Holds.enq (h : m.Holds items) (hCount : count ≤ n)
    (hEnq : m.enq count data = some m') : m'.Holds (items ++ (List.ofFn data).take count) := by
  obtain ⟨held, chunks, rfl, hParts⟩ := holds_iff.mp h
  refine holds_iff.mpr ⟨held, _, ?_, hParts.enq hCount hEnq⟩
  rw [List.flatten_append, List.flatten_singleton, List.append_assoc]

theorem Holds.tofifos (h : m.Holds items) (hMove : m.tofifos = some m') : m'.Holds items := by
  obtain ⟨held, chunks, rfl, hParts⟩ := holds_iff.mp h
  obtain ⟨chunk, rest, rfl, hParts'⟩ := hParts.tofifos hMove
  refine holds_iff.mpr ⟨held ++ chunk, rest, ?_, hParts'⟩
  rw [List.flatten_cons, List.append_assoc]

theorem Holds.deq (h : m.Holds items) (hOut : out ≤ n) (hDeq : m.deq out = some (xs, m')) :
    xs.length = out ∧ ∃ rest, items = xs ++ rest ∧ m'.Holds rest := by
  obtain ⟨held, chunks, rfl, hParts⟩ := holds_iff.mp h
  obtain ⟨hLength, rest, rfl, hParts'⟩ := hParts.deq hOut hDeq
  exact ⟨hLength, rest ++ chunks.flatten, List.append_assoc .., holds_iff.mpr ⟨rest, chunks, rfl, hParts'⟩⟩

/-- A module with something to move or enough to hand out is not stuck. -/
theorem Holds.moves (h : m.Holds items) (hOut : out ≤ n) (hSome : m.inFifo.items ≠ [] ∨ out ≤ items.length) :
    (∃ xs m', m.deq out = some (xs, m')) ∨ ∃ m', m.tofifos = some m' := by
  obtain ⟨held, chunks, rfl, hParts⟩ := holds_iff.mp h
  rcases Flow.moves hParts hOut hSome with hEnough | ⟨⟨e, es, hes⟩, hRoom⟩
  · have hFirst := (first_eq_some hParts hOut).mpr ⟨hEnough, rfl⟩
    exact .inl ⟨_, _, by simp only [Mifo.deq, hFirst, some_bind]; rfl⟩
  · obtain ⟨q, hDeq, -⟩ := Fifo.exists_deq hes
    refine .inr ⟨{ m with inFifo := q, fifos := write m.fifos e }, ?_⟩
    have hGuard : ∀ i, e.2 i = true → (m.fifos i).items.length < 4 := fun i _ =>
      Nat.lt_of_lt_of_le (hRoom i) (by decide)
    simp only [Mifo.tofifos, hDeq, some_bind, guard, if_pos hGuard]
    rfl

/-- Entries that wait are moved if there is not enough to hand out. -/
theorem Holds.exists_tofifos (h : m.Holds items) (hOut : out ≤ n) (hFew : items.length < out)
    (hWaits : m.inFifo.items ≠ []) : ∃ m', m.tofifos = some m' := by
  refine (h.moves hOut (.inl hWaits)).resolve_left ?_
  rintro ⟨xs, m', hDeq⟩
  obtain ⟨rfl, rest, rfl, -⟩ := h.deq hOut hDeq
  rw [List.length_append] at hFew
  omega

/-! How the operations change the number of waiting entries. -/

theorem length_tofifos (h : m.tofifos = some m') : m.inFifo.items.length = m'.inFifo.items.length + 1 := by
  simp only [Mifo.tofifos, firing] at h
  obtain ⟨_, _, q, hq, _, -, rfl⟩ := h
  rw [hq, List.length_cons]

theorem length_deq (h : m.deq out = some (xs, m')) : m'.inFifo.items.length = m.inFifo.items.length := by
  simp only [Mifo.deq, firing] at h
  obtain ⟨_, -, -, rfl⟩ := h
  rfl

theorem exists_enq (h : m.enqReady) (count : Nat) (data : Fin n → α) :
    ∃ m', m.enq count data = some m' ∧ m'.inFifo.items.length = m.inFifo.items.length + 1 := by
  obtain ⟨q, hEnq, hq⟩ := Fifo.exists_enq h
    (rotateBy data m.inPos, rotateBy (fun i => decide (i.val < count)) m.inPos)
  refine ⟨{ m with inFifo := q, inPos := behind m.inPos count }, ?_, ?_⟩
  · simp only [Mifo.enq, hEnq, some_bind]
    rfl
  · show q.items.length = _
    rw [hq, List.length_append, List.length_singleton]

end Mifo
end Connectal.Pcie
