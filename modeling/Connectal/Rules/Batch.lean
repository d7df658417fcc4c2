import Connectal.Rules.Fifo

/-! Queues that take or hand out several items, or none, in one action. -/
namespace Rules.Fifo

variable {α : Type*} {depth : Nat}

/-- Append several items; the queue must have room for all of them. -/
def enqAll (q : Fifo α depth) (xs : List α) : Option (Fifo α depth) :=
  if h : q.items.length + xs.length ≤ depth then some ⟨q.items ++ xs, by simpa using h⟩ else none

/-- Remove the `n` oldest items; all of them must be there. -/
def deqN (q : Fifo α depth) (n : Nat) : Option (List α × Fifo α depth) :=
  if n ≤ q.items.length then
    some (q.items.take n, ⟨q.items.drop n, by have := q.bound; rw [List.length_drop]; omega⟩)
  else none

/-- Append an item in one branch of a rule. -/
def enqIf (c : Prop) [Decidable c] (q : Fifo α depth) (x : α) : Option (Fifo α depth) :=
  if c then q.enq x else some q

variable {q r : Fifo α depth}

@[simp] theorem enqIf_eq_some {c : Prop} [Decidable c] {x : α} :
    q.enqIf c x = some r ↔ (c → q.items.length < depth) ∧ r.items = q.items ++ if c then [x] else [] := by
  unfold enqIf
  split
  · next h => simp [h]
  · next h =>
    rw [List.append_nil, Option.some.injEq]
    exact ⟨fun hr => ⟨fun hc => (h hc).elim, hr ▸ rfl⟩, fun hr => Fifo.ext hr.2.symm⟩

/-- Remove the oldest item in one branch of a rule. -/
def deqIf (c : Prop) [Decidable c] (q : Fifo α depth) : Option (Fifo α depth) :=
  if c then q.deq.map (·.2) else some q

theorem deqIf_eq_some {c : Prop} [Decidable c] :
    q.deqIf c = some r ↔ (c → ∃ x, q.items = x :: r.items) ∧ (¬c → r = q) := by
  unfold deqIf
  split
  · next h => simp [h, Prod.exists]
  · next h => simp [h, eq_comm]

@[simp] theorem enqAll_eq_some {xs : List α} :
    q.enqAll xs = some r ↔ q.items.length + xs.length ≤ depth ∧ r.items = q.items ++ xs := by
  unfold enqAll
  split
  · next h =>
    refine ⟨fun hr => ⟨h, ?_⟩, fun hr => congrArg some (Fifo.ext hr.2.symm)⟩
    cases hr
    rfl
  · next h => simp [h]

@[simp] theorem deqN_eq_some {n : Nat} {xs : List α} :
    q.deqN n = some (xs, r) ↔ xs.length = n ∧ q.items = xs ++ r.items := by
  unfold deqN
  split
  · next h =>
    rw [Option.some.injEq, Prod.mk.injEq]
    constructor
    · rintro ⟨rfl, rfl⟩
      exact ⟨List.length_take_of_le h, (List.take_append_drop n q.items).symm⟩
    · rintro ⟨rfl, hItems⟩
      refine ⟨?_, Fifo.ext ?_⟩
      · rw [hItems, List.take_left]
      · show q.items.drop xs.length = r.items
        rw [hItems, List.drop_left]
  · next h =>
    refine ⟨fun hr => (by cases hr), ?_⟩
    rintro ⟨hLength, hItems⟩
    refine (h ?_).elim
    rw [hItems, List.length_append, hLength]
    exact Nat.le_add_right ..

theorem exists_enqIf (c : Prop) [Decidable c] (h : q.items.length < depth) (x : α) :
    ∃ r, q.enqIf c x = some r ∧ r.items.length ≤ q.items.length + 1 := by
  unfold enqIf
  split
  · obtain ⟨r, hEnq, hr⟩ := exists_enq h x
    exact ⟨r, hEnq, by rw [hr, List.length_append]; exact Nat.le_refl _⟩
  · exact ⟨q, rfl, Nat.le_succ _⟩

theorem exists_deqIf (c : Prop) [Decidable c] (h : q.items ≠ []) : ∃ r, q.deqIf c = some r := by
  obtain ⟨x, rest, hItems⟩ := List.exists_cons_of_ne_nil h
  obtain ⟨r, hDeq, -⟩ := exists_deq hItems
  unfold deqIf
  split
  · exact ⟨r, by rw [hDeq]; rfl⟩
  · exact ⟨q, rfl⟩

theorem exists_enqAll (xs : List α) (h : q.items.length + xs.length ≤ depth) :
    ∃ r, q.enqAll xs = some r ∧ r.items = q.items ++ xs :=
  ⟨⟨q.items ++ xs, by simpa using h⟩, by simp [h], rfl⟩

theorem exists_deqN {xs rest : List α} (h : q.items = xs ++ rest) :
    ∃ r, q.deqN xs.length = some (xs, r) ∧ r.items = rest :=
  ⟨⟨rest, by have := q.bound; rw [h, List.length_append] at this; omega⟩, by simp [h], rfl⟩

end Rules.Fifo
