import Mathlib.Algebra.BigOperators.Fin
import Connectal.Rules.Fifo

/-! Banks of like components, one of which an action changes. -/
namespace Rules

variable {ι α : Type*} [DecidableEq ι]

section Updates

variable {β γ : Type*} {bank : ι → β} {i : ι} {x : β}

theorem append_update (f : β → List α) {xs : List α} (h : f x = f (bank i) ++ xs) (j : ι) :
    f (Function.update bank i x j) = f (bank j) ++ if i = j then xs else [] := by
  by_cases hj : i = j
  · subst hj
    rw [Function.update_self, if_pos rfl, h]
  · rw [Function.update_of_ne (Ne.symm hj), if_neg hj, List.append_nil]

theorem update_append (f : β → List α) {xs : List α} (h : f (bank i) = xs ++ f x) (j : ι) :
    f (bank j) = (if i = j then xs else []) ++ f (Function.update bank i x j) := by
  by_cases hj : i = j
  · subst hj
    rw [Function.update_self, if_pos rfl, h]
  · rw [Function.update_of_ne (Ne.symm hj), if_neg hj, List.nil_append]

theorem update_same (f : β → γ) (h : f x = f (bank i)) (j : ι) : f (Function.update bank i x j) = f (bank j) := by
  by_cases hj : j = i
  · rw [hj, Function.update_self, h]
  · rw [Function.update_of_ne hj]

/-- One component of each bank changes. -/
theorem update_rel {R : β → γ → Prop} {bank' : ι → γ} {y : γ} (h : ∀ j, R (bank j) (bank' j)) (hNew : R x y)
    (j : ι) : R (Function.update bank i x j) (Function.update bank' i y j) := by
  by_cases hj : j = i
  · rwa [hj, Function.update_self, Function.update_self]
  · rw [Function.update_of_ne hj, Function.update_of_ne hj]
    exact h j

end Updates

section Queues

variable {depth : Nat} {bank : ι → Fifo α depth} {i : ι} {q : Fifo α depth} {x : α} {xs : List α}

theorem items_update_enq (h : q.items = (bank i).items ++ xs) (j : ι) :
    (Function.update bank i q j).items = (bank j).items ++ if i = j then xs else [] :=
  append_update Fifo.items h j

theorem items_update_deq (h : (bank i).items = x :: q.items) (j : ι) :
    (bank j).items = (if i = j then [x] else []) ++ (Function.update bank i q j).items :=
  update_append Fifo.items (show (bank i).items = [x] ++ q.items from h) j

end Queues

section Addressed

/-- What a list of addressed items holds for one component. -/
def mine (i : ι) (items : List (ι × α)) : List α := items.filterMap fun x => if x.1 = i then some x.2 else none

variable {i : ι}

@[simp] theorem mine_nil : mine i ([] : List (ι × α)) = [] := rfl

@[simp] theorem mine_append (l m : List (ι × α)) : mine i (l ++ m) = mine i l ++ mine i m := List.filterMap_append

theorem mine_cons (x : ι × α) (l : List (ι × α)) : mine i (x :: l) = (if x.1 = i then [x.2] else []) ++ mine i l := by
  by_cases h : x.1 = i <;> simp [mine, h]

@[simp] theorem mine_singleton (j : ι) (x : α) : mine i [(j, x)] = if j = i then [x] else [] := by
  rw [mine_cons, mine_nil, List.append_nil]

end Addressed

theorem sum_update [Fintype ι] (measure : ι → α → Nat) (bank : ι → α) (i : ι) (x : α) :
    ∑ j, measure j (Function.update bank i x j) + measure i (bank i) = ∑ j, measure j (bank j) + measure i x := by
  rw [← Finset.add_sum_erase _ _ (Finset.mem_univ i),
    ← Finset.add_sum_erase _ (fun j => measure j (bank j)) (Finset.mem_univ i), Function.update_self]
  have hOthers : ∀ j ∈ Finset.univ.erase i, measure j (Function.update bank i x j) = measure j (bank j) := by
    intro j hj
    rw [Function.update_of_ne (Finset.ne_of_mem_erase hj)]
  rw [Finset.sum_congr rfl hOthers]
  omega

end Rules
