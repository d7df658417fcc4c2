import Mathlib.Algebra.Ring.Nat
import Mathlib.Data.List.Basic
import Mathlib.Data.Option.Basic

/-! Bounded first-in first-out queues. A queue carries the bound on its own
length, so a full queue that accepted one more item cannot be written down. -/
namespace Rules

/-! Numerals of small index types find these. -/

instance neZero_one : NeZero 1 := ⟨by decide⟩

instance neZero_two : NeZero 2 := ⟨by decide⟩

instance neZero_four : NeZero 4 := ⟨by decide⟩

/-- A queue of at most `depth` items, oldest first. -/
structure Fifo (α : Type*) (depth : Nat) where
  items : List α
  bound : items.length ≤ depth

namespace Fifo

variable {α : Type*} {depth : Nat} {q r : Fifo α depth}

@[ext] theorem ext (h : q.items = r.items) : q = r := by
  cases q
  cases r
  cases h
  rfl

instance [DecidableEq α] : DecidableEq (Fifo α depth) := fun q r =>
  decidable_of_iff (q.items = r.items) ⟨Fifo.ext, congrArg Fifo.items⟩

/-- The queue after reset. -/
def empty : Fifo α depth := ⟨[], Nat.zero_le _⟩

@[simp] theorem empty_items : (empty : Fifo α depth).items = [] := rfl

/-- Append an item; the method is not ready on a full queue. -/
def enq (q : Fifo α depth) (x : α) : Option (Fifo α depth) :=
  if h : q.items.length < depth then some ⟨q.items ++ [x], by rw [List.length_append]; exact h⟩ else none

/-- Remove the oldest item; the method is not ready on an empty queue. -/
def deq (q : Fifo α depth) : Option (α × Fifo α depth) :=
  match h : q.items with
  | [] => none
  | x :: rest => some (x, ⟨rest, by have := q.bound; simp only [h, List.length_cons] at this; omega⟩)

@[simp] theorem enq_eq_some {x : α} :
    q.enq x = some r ↔ q.items.length < depth ∧ r.items = q.items ++ [x] := by
  unfold enq
  split
  · next h =>
    refine ⟨fun hr => ⟨h, ?_⟩, fun hr => congrArg some (Fifo.ext hr.2.symm)⟩
    cases hr
    rfl
  · next h => simp [h]

@[simp] theorem deq_eq_some {x : α} : q.deq = some (x, r) ↔ q.items = x :: r.items := by
  unfold deq
  split
  · next h => simp [h]
  · next y rest h =>
    simp only [Option.some.injEq, Prod.mk.injEq, h, List.cons.injEq]
    exact ⟨fun hr => ⟨hr.1, congrArg Fifo.items hr.2⟩, fun hr => ⟨hr.1, Fifo.ext hr.2⟩⟩

theorem exists_enq (h : q.items.length < depth) (x : α) : ∃ r, q.enq x = some r ∧ r.items = q.items ++ [x] :=
  ⟨⟨q.items ++ [x], by simp; omega⟩, by simp [h], rfl⟩

theorem exists_enq_nil {q : Fifo α (depth + 1)} (h : q.items = []) (x : α) :
    ∃ r, q.enq x = some r ∧ r.items = q.items ++ [x] :=
  exists_enq (by rw [h]; exact Nat.succ_pos depth) x

theorem exists_deq {x : α} {rest : List α} (h : q.items = x :: rest) :
    ∃ r, q.deq = some (x, r) ∧ r.items = rest :=
  ⟨⟨rest, by have := q.bound; simp only [h, List.length_cons] at this; omega⟩, by simp [h], rfl⟩

theorem exists_deq_of_ne_nil (h : q.items ≠ []) : ∃ x r, q.deq = some (x, r) ∧ q.items = x :: r.items := by
  obtain ⟨x, rest, hItems⟩ := List.exists_cons_of_ne_nil h
  obtain ⟨r, hDeq, rfl⟩ := exists_deq hItems
  exact ⟨x, r, hDeq, hItems⟩

end Fifo
end Rules
