import Connectal.Rules.Bank
import Connectal.Rules.Machine
import Mathlib.Data.Finset.Max

/-! Networks of bounded queues. Items of one class travel along one path of the
network; items of several classes may share a queue. Whatever the items of the
other classes do, the items of a class stay in order. -/
namespace Rules

/-- One queue for every node, with a capacity of its own. -/
structure Network {Node : Type} (α : Type) (cap : Node → Nat) where
  items : Node → List α
  bound : ∀ a, (items a).length ≤ cap a

namespace Network

variable {Node α : Type} {cap : Node → Nat}

@[ext] theorem ext {net net' : Network α cap} (h : net.items = net'.items) : net = net' := by
  cases net
  cases net'
  cases h
  rfl

def empty : Network α cap := ⟨fun _ => [], fun _ => Nat.zero_le _⟩

section Operations

variable [DecidableEq Node]

/-- Append an item at a node. -/
def enq (net : Network α cap) (a : Node) (x : α) : Option (Network α cap) :=
  if h : (net.items a).length < cap a then
    some ⟨Function.update net.items a (net.items a ++ [x]), by
      intro b
      by_cases hb : b = a
      · subst hb
        rw [Function.update_self, List.length_append]
        exact h
      · rw [Function.update_of_ne hb]
        exact net.bound b⟩
  else none

/-- Remove the oldest item of a node. -/
def deq (net : Network α cap) (a : Node) : Option (α × Network α cap) :=
  (net.items a).head?.map fun x => (x, ⟨Function.update net.items a (net.items a).tail, by
    intro b
    by_cases hb : b = a
    · subst hb
      rw [Function.update_self, List.length_tail]
      exact Nat.le_trans (Nat.sub_le _ _) (net.bound b)
    · rw [Function.update_of_ne hb]
      exact net.bound b⟩)

/-- Move the oldest item of node `a` to node `b`, if it is one that `p` admits. -/
def moveIf (p : α → Prop) [DecidablePred p] (a b : Node) (net : Network α cap) : Option (Network α cap) := do
  let (x, net) ← net.deq a
  guard (p x)
  net.enq b x

variable {net net' : Network α cap} {a b : Node} {x : α} {rest : List α}

@[simp] theorem enq_eq_some : net.enq a x = some net' ↔
    (net.items a).length < cap a ∧ net'.items = Function.update net.items a (net.items a ++ [x]) := by
  unfold enq
  split
  · next h =>
    refine ⟨fun hr => ⟨h, ?_⟩, fun hr => congrArg some (Network.ext hr.2.symm)⟩
    cases hr
    rfl
  · next h => simp [h]

@[simp] theorem deq_eq_some : net.deq a = some (x, net') ↔
    ∃ rest, net.items a = x :: rest ∧ net'.items = Function.update net.items a rest := by
  simp only [deq, Option.map_eq_some_iff, List.head?_eq_some_iff, Prod.mk.injEq]
  constructor
  · rintro ⟨x, ⟨rest, hItems⟩, rfl, rfl⟩
    exact ⟨rest, hItems, congrArg (fun l : List α => Function.update net.items a l.tail) hItems⟩
  · rintro ⟨rest, hItems, hNet⟩
    refine ⟨x, ⟨rest, hItems⟩, rfl, Network.ext ?_⟩
    exact (congrArg (fun l : List α => Function.update net.items a l.tail) hItems).trans hNet.symm

theorem exists_enq (h : (net.items a).length < cap a) (x : α) : ∃ net', net.enq a x = some net' :=
  ⟨⟨Function.update net.items a (net.items a ++ [x]), _⟩, by unfold enq; rw [dif_pos h]⟩

theorem exists_deq (h : net.items a = x :: rest) : ∃ net', net.deq a = some (x, net') := by
  have hHead : (net.items a).head? = some x := by rw [h]; rfl
  exact ⟨_, by rw [deq, hHead]; rfl⟩

theorem moveIf_eq_some {p : α → Prop} [DecidablePred p] (hNe : a ≠ b) : moveIf p a b net = some net' ↔
    ∃ x rest, net.items a = x :: rest ∧ p x ∧ (net.items b).length < cap b ∧
      net'.items = Function.update (Function.update net.items a rest) b (net.items b ++ [x]) := by
  simp only [moveIf, firing, deq_eq_some, enq_eq_some]
  constructor
  · rintro ⟨x, net₁, ⟨rest, hItems, hNet₁⟩, hp, hRoom, hNet'⟩
    rw [hNet₁, Function.update_of_ne hNe.symm] at hRoom hNet'
    exact ⟨x, rest, hItems, hp, hRoom, hNet'⟩
  · rintro ⟨x, rest, hItems, hp, hRoom, hNet'⟩
    obtain ⟨net₁, hDeq⟩ := exists_deq hItems
    obtain ⟨rest', hItems', hNet₁⟩ := deq_eq_some.mp hDeq
    obtain ⟨-, rfl⟩ := List.cons.inj (hItems.symm.trans hItems')
    refine ⟨x, net₁, ⟨rest, hItems, hNet₁⟩, hp, ?_⟩
    rw [hNet₁, Function.update_of_ne hNe.symm]
    exact ⟨hRoom, hNet'⟩

theorem exists_moveIf {p : α → Prop} [DecidablePred p] (hNe : a ≠ b) (hItems : net.items a = x :: rest) (hp : p x)
    (hRoom : (net.items b).length < cap b) : ∃ net', moveIf p a b net = some net' := by
  obtain ⟨net₁, hDeq⟩ := exists_deq hItems
  obtain ⟨rest', -, hNet₁⟩ := deq_eq_some.mp hDeq
  have hSame : net₁.items b = net.items b := by rw [hNet₁, Function.update_of_ne hNe.symm]
  obtain ⟨net', hEnq⟩ := exists_enq (hSame ▸ hRoom) x
  refine ⟨net', ?_⟩
  simp only [moveIf, hDeq, some_bind, guard, if_pos hp]
  exact hEnq

end Operations

section Classes

variable {C : Type} [DecidableEq C] (cls : α → C) (c : C) {items : Node → List α}
  {path front back : List Node} {a b : Node} {x : α} {rest : List α}

/-- The items of a class at the nodes of a path, which is listed from the exit to the entry. -/
def carried (path : List Node) (items : Node → List α) : List α :=
  path.flatMap fun a => (items a).filter fun x => cls x = c

variable {cls c}

theorem carried_append : carried cls c (front ++ back) items = carried cls c front items ++ carried cls c back items :=
  List.flatMap_append

theorem carried_congr {items' : Node → List α}
    (h : ∀ a ∈ path, (items a).filter (fun x => cls x = c) = (items' a).filter fun x => cls x = c) :
    carried cls c path items = carried cls c path items' :=
  List.flatMap_congr h

variable [DecidableEq Node]

theorem carried_update_notMem (h : a ∉ path) (xs : List α) :
    carried cls c path (Function.update items a xs) = carried cls c path items := by
  refine carried_congr fun b hb => ?_
  rw [Function.update_of_ne]
  rintro rfl
  exact h hb

theorem carried_enq_other (h : cls x ≠ c) :
    carried cls c path (Function.update items a (items a ++ [x])) = carried cls c path items := by
  refine carried_congr fun b _ => ?_
  by_cases hb : b = a
  · subst hb
    rw [Function.update_self, List.filter_append]
    simp [h]
  · rw [Function.update_of_ne hb]

theorem carried_deq_other (h : cls x ≠ c) (hItems : items a = x :: rest) :
    carried cls c path (Function.update items a rest) = carried cls c path items := by
  refine carried_congr fun b _ => ?_
  by_cases hb : b = a
  · subst hb
    rw [Function.update_self, hItems]
    simp [h]
  · rw [Function.update_of_ne hb]

theorem carried_enq (h : cls x = c) (hPath : path = front ++ [a]) (hNew : a ∉ front) :
    carried cls c path (Function.update items a (items a ++ [x])) = carried cls c path items ++ [x] := by
  subst hPath
  rw [carried_append, carried_update_notMem hNew, carried_append, List.append_assoc]
  simp [carried, h]

theorem carried_deq (h : cls x = c) (hItems : items a = x :: rest) (hPath : path = a :: back) (hNew : a ∉ back) :
    carried cls c path items = x :: carried cls c path (Function.update items a rest) := by
  have hBack : carried cls c back (Function.update items a rest) = carried cls c back items :=
    carried_update_notMem hNew rest
  subst hPath
  have hSplit (items : Node → List α) : carried cls c (a :: back) items =
      (items a).filter (fun x => cls x = c) ++ carried cls c back items := List.flatMap_cons
  rw [hSplit, hSplit, hBack, Function.update_self, hItems]
  simp [h]

/-- An item that moves to the next node keeps its place among the items of its class. -/
theorem carried_move (hItems : items a = x :: rest)
    (hPath : cls x = c → ∃ front back, path = front ++ b :: a :: back ∧ a ∉ front ∧ b ∉ front ∧
      a ∉ back ∧ b ∉ back) (hNe : a ≠ b) :
    carried cls c path (Function.update (Function.update items a rest) b (items b ++ [x])) =
      carried cls c path items := by
  have hKeep : Function.update items a rest b = items b := Function.update_of_ne hNe.symm rest items
  by_cases hx : cls x = c
  · obtain ⟨front, back, rfl, haf, hbf, hab, hbb⟩ := hPath hx
    have hSplit (items : Node → List α) : carried cls c (front ++ b :: a :: back) items =
        carried cls c front items ++ ((items b).filter (fun x => cls x = c) ++
          ((items a).filter (fun x => cls x = c) ++ carried cls c back items)) := by
      rw [carried_append]
      rfl
    rw [hSplit, hSplit, carried_update_notMem hbf, carried_update_notMem haf, carried_update_notMem hbb,
      carried_update_notMem hab, Function.update_self, Function.update_of_ne hNe, Function.update_self, hItems]
    simp [hx]
  · rw [← hKeep, carried_enq_other hx, carried_deq_other hx hItems]

end Classes

section Levels

variable {ι : Type} {L : Nat}

/-- The path of a class that has one node at every level, from the last level to the first. -/
def levelPath (pos : Fin (L + 1) → ι) : List (Fin (L + 1) × ι) :=
  ((List.finRange (L + 1)).map fun r => (r, pos r)).reverse

variable {pos : Fin (L + 1) → ι}

theorem levelPath_move (pos : Fin (L + 1) → ι) (r : Fin L) : ∃ front back,
    levelPath pos = front ++ (r.succ, pos r.succ) :: (r.castSucc, pos r.castSucc) :: back ∧
      (∀ a ∈ front, r.val + 1 < a.1.val) ∧ ∀ a ∈ back, a.1.val < r.val := by
  have hLength : ((List.finRange (L + 1)).map fun r => (r, pos r)).length = L + 1 := by simp
  have hr := r.isLt
  refine ⟨(((List.finRange (L + 1)).map fun r => (r, pos r)).drop (r + 2)).reverse,
    (((List.finRange (L + 1)).map fun r => (r, pos r)).take r).reverse, ?_, ?_, ?_⟩
  · rw [levelPath]
    conv_lhs => rw [← List.take_append_drop r.val ((List.finRange (L + 1)).map fun r => (r, pos r))]
    rw [List.drop_eq_getElem_cons (by omega), List.drop_eq_getElem_cons (by omega)]
    simp
    exact ⟨⟨rfl, rfl⟩, rfl, rfl⟩
  · intro a ha
    obtain ⟨j, hj, rfl⟩ := List.mem_iff_getElem.mp (List.mem_reverse.mp ha)
    simp
    omega
  · intro a ha
    obtain ⟨j, hj, rfl⟩ := List.mem_take_iff_getElem.mp (List.mem_reverse.mp ha)
    simp
    omega

theorem levelPath_entry (pos : Fin (L + 1) → ι) : ∃ front, levelPath pos = front ++ [(0, pos 0)] ∧ ∀ a ∈ front, 0 < a.1.val := by
  refine ⟨((List.finRange L).map fun r => (r.succ, pos r.succ)).reverse, ?_, ?_⟩
  · rw [levelPath, List.finRange_succ, List.map_cons, List.reverse_cons, List.map_map]
    rfl
  · intro a ha
    obtain ⟨r, -, rfl⟩ := List.mem_map.mp (List.mem_reverse.mp ha)
    exact Nat.succ_pos _

theorem levelPath_exit (pos : Fin (L + 1) → ι) : ∃ back, levelPath pos = (Fin.last L, pos (Fin.last L)) :: back ∧
    ∀ a ∈ back, a.1.val < L := by
  refine ⟨((List.finRange L).map fun r => (r.castSucc, pos r.castSucc)).reverse, ?_, ?_⟩
  · rw [levelPath, List.finRange_succ_last, List.map_append, List.reverse_append, List.map_map]
    rfl
  · intro a ha
    obtain ⟨r, -, rfl⟩ := List.mem_map.mp (List.mem_reverse.mp ha)
    exact r.isLt

variable {α C : Type} [DecidableEq C] [DecidableEq ι] {cls : α → C} {c : C}
  {items : Fin (L + 1) × ι → List α} {x : α} {rest : List α}

/-- An item of a class moves on by one level. -/
theorem carried_levelPath_move {r : Fin L} {i j : ι} (hItems : items (r.castSucc, i) = x :: rest)
    (hPath : cls x = c → pos r.castSucc = i ∧ pos r.succ = j) :
    carried cls c (levelPath pos) (Function.update (Function.update items (r.castSucc, i) rest) (r.succ, j)
      (items (r.succ, j) ++ [x])) = carried cls c (levelPath pos) items := by
  refine carried_move hItems (fun hx => ?_) fun hEq => ?_
  · obtain ⟨rfl, rfl⟩ := hPath hx
    obtain ⟨front, back, hSplit, hFront, hBack⟩ := levelPath_move pos r
    refine ⟨front, back, hSplit, fun h => ?_, fun h => ?_, fun h => ?_, fun h => ?_⟩
    · have hLess : r.val + 1 < r.val := hFront _ h
      omega
    · exact Nat.lt_irrefl (r.val + 1) (hFront _ h)
    · exact Nat.lt_irrefl r.val (hBack _ h)
    · have hLess : r.val + 1 < r.val := hBack _ h
      omega
  · have := congrArg (fun a => a.1.val) hEq
    simp at this

theorem carried_levelPath_enq (cls : α → C) (c : C) (pos : Fin (L + 1) → ι) (items : Fin (L + 1) × ι → List α)
    {i : ι} (hPath : cls x = c → pos 0 = i) :
    carried cls c (levelPath pos) (Function.update items (0, i) (items (0, i) ++ [x])) =
      carried cls c (levelPath pos) items ++ if cls x = c then [x] else [] := by
  by_cases hx : cls x = c
  · obtain rfl := hPath hx
    obtain ⟨front, hSplit, hFront⟩ := levelPath_entry pos
    rw [if_pos hx]
    exact carried_enq hx hSplit fun h => Nat.lt_irrefl 0 (hFront _ h)
  · rw [if_neg hx, List.append_nil, carried_enq_other hx]

theorem carried_levelPath_deq (cls : α → C) (c : C) (pos : Fin (L + 1) → ι) {i : ι}
    (hItems : items (Fin.last L, i) = x :: rest) (hPath : cls x = c → pos (Fin.last L) = i) :
    carried cls c (levelPath pos) items = (if cls x = c then [x] else []) ++
      carried cls c (levelPath pos) (Function.update items (Fin.last L, i) rest) := by
  by_cases hx : cls x = c
  · obtain rfl := hPath hx
    obtain ⟨back, hSplit, hBack⟩ := levelPath_exit pos
    rw [if_pos hx, carried_deq hx hItems hSplit fun h => Nat.lt_irrefl L (hBack _ h)]
    rfl
  · rw [if_neg hx, List.nil_append, carried_deq_other hx hItems]

end Levels

section Weight

variable [Fintype Node] [DecidableEq Node]

/-- The total of a weight for every item, by the node where it is. -/
def weight (w : Node → Nat) (items : Node → List α) : Nat := ∑ a, w a * (items a).length

variable {w : Node → Nat} {items : Node → List α} {a : Node} {x : α} {rest : List α}

theorem weight_update (w : Node → Nat) (items : Node → List α) (a : Node) (xs : List α) :
    weight w (Function.update items a xs) + w a * (items a).length = weight w items + w a * xs.length :=
  sum_update (fun a l => w a * l.length) items a xs

theorem weight_enq (w : Node → Nat) (items : Node → List α) (a : Node) (x : α) : weight w (Function.update items a (items a ++ [x])) = weight w items + w a := by
  have h := weight_update w items a (items a ++ [x])
  rw [List.length_append, List.length_singleton, Nat.mul_add, Nat.mul_one] at h
  omega

theorem weight_deq (hItems : items a = x :: rest) :
    weight w (Function.update items a rest) + w a = weight w items := by
  have h := weight_update w items a rest
  rw [hItems, List.length_cons, Nat.mul_add, Nat.mul_one] at h
  omega

omit [DecidableEq Node] in
/-- Among the nodes with an item there is one that is farthest along. -/
theorem exists_farthest (items : Node → List α) (level : Node → Nat) {p : Node → Prop}
    (h : ∃ a, p a ∧ items a ≠ []) :
    ∃ a, p a ∧ items a ≠ [] ∧ ∀ b, p b → level a < level b → items b = [] := by
  classical
  obtain ⟨a, ha, hMax⟩ := Finset.exists_max_image
    (Finset.univ.filter fun a => p a ∧ items a ≠ []) level
    (by obtain ⟨a, ha⟩ := h; exact ⟨a, by simpa using ha⟩)
  obtain ⟨hp, hItems⟩ := (Finset.mem_filter.mp ha).2
  refine ⟨a, hp, hItems, fun b hb hLess => ?_⟩
  by_contra hSome
  have := hMax b (Finset.mem_filter.mpr ⟨Finset.mem_univ b, hb, hSome⟩)
  omega

end Weight

section Routes

variable {ι κ α : Type} {L : Nat} [DecidableEq ι] (pos : κ → Fin (L + 1) → ι) (key : α → κ)

/-- Every item is on the path of its key, which has one node at every level. -/
def Routed (items : Fin (L + 1) × ι → List α) : Prop := ∀ a, ∀ x ∈ items a, pos (key x) a.1 = a.2

/-- The oldest item of a node of level `r` moves on to the next node of its path. -/
def Moved (r : Fin L) (items items' : Fin (L + 1) × ι → List α) : Prop :=
  ∃ x rest, items (r.castSucc, pos (key x) r.castSucc) = x :: rest ∧
    items' = Function.update (Function.update items (r.castSucc, pos (key x) r.castSucc) rest)
      (r.succ, pos (key x) r.succ) (items (r.succ, pos (key x) r.succ) ++ [x])

variable {pos key} {items items' : Fin (L + 1) × ι → List α} {a : Fin (L + 1) × ι} {x : α} {rest : List α}
  {r : Fin L}

omit [DecidableEq ι] in
theorem castSucc_ne_succ (r : Fin L) (i j : ι) : (r.castSucc, i) ≠ (r.succ, j) :=
  fun h => Nat.succ_ne_self r.val (congrArg (fun a => a.1.val) h).symm

namespace Routed

theorem update {xs : List α} (h : Routed pos key items) (hNew : ∀ x ∈ xs, pos (key x) a.1 = a.2) :
    Routed pos key (Function.update items a xs) := by
  intro b y hy
  by_cases hb : b = a
  · subst hb
    rw [Function.update_self] at hy
    exact hNew y hy
  · rw [Function.update_of_ne hb] at hy
    exact h b y hy

theorem enq (h : Routed pos key items) (hPos : pos (key x) a.1 = a.2) :
    Routed pos key (Function.update items a (items a ++ [x])) := by
  refine h.update fun y hy => ?_
  rcases List.mem_append.mp hy with hOld | hNew
  · exact h a y hOld
  · rw [List.mem_singleton.mp hNew]
    exact hPos

theorem deq (h : Routed pos key items) (hItems : items a = x :: rest) :
    Routed pos key (Function.update items a rest) := by
  refine h.update fun y hy => h a y ?_
  rw [hItems]
  exact List.mem_cons_of_mem _ hy

omit [DecidableEq ι] in
theorem head (h : Routed pos key items) (hItems : items a = x :: rest) : pos (key x) a.1 = a.2 :=
  h a x (by rw [hItems]; exact List.mem_cons_self)

theorem moved (h : Routed pos key items) (hMoved : Moved pos key r items items') : Routed pos key items' := by
  obtain ⟨x, rest, hItems, rfl⟩ := hMoved
  have hKeep := Function.update_of_ne (castSucc_ne_succ r (pos (key x) r.castSucc) (pos (key x) r.succ)).symm rest items
  rw [← hKeep]
  exact (h.deq hItems).enq rfl

omit [DecidableEq ι] in
/-- If some item is not at the last level, there is one with nothing at the next level,
or before the last level. -/
theorem exists_ready [Fintype ι] (h : Routed pos key items) (hSome : ∃ a, a.1.val < L ∧ items a ≠ []) :
    ∃ (r : Fin L) (x : α) (rest : List α), items (r.castSucc, pos (key x) r.castSucc) = x :: rest ∧
      (items (r.succ, pos (key x) r.succ) = [] ∨ r.succ = Fin.last L) := by
  obtain ⟨⟨r, i⟩, hr, hItems, hEmpty⟩ := exists_farthest items (fun a => a.1.val)
    (p := fun a => a.1.val < L) hSome
  obtain ⟨x, rest, hx⟩ := List.exists_cons_of_ne_nil hItems
  have hPos : pos (key x) r = i := h.head hx
  subst hPos
  refine ⟨⟨r, hr⟩, x, rest, hx, ?_⟩
  rcases Nat.lt_or_ge (r.val + 1) L with hMore | hLast
  · exact .inl (hEmpty (Fin.succ ⟨r, hr⟩, _) hMore (Nat.lt_succ_self r.val))
  · exact .inr (Fin.ext (Nat.le_antisymm hr hLast))

omit [DecidableEq ι] in
/-- If there is some item, there is one at the last level, or one with nothing in front of it. -/
theorem exists_free [Fintype ι] (h : Routed pos key items) (hSome : ∃ a, items a ≠ []) :
    (∃ i, items (Fin.last L, i) ≠ []) ∨ ∃ (r : Fin L) (x : α) (rest : List α),
      items (r.castSucc, pos (key x) r.castSucc) = x :: rest ∧ items (r.succ, pos (key x) r.succ) = [] := by
  by_cases hLast : ∃ i, items (Fin.last L, i) ≠ []
  · exact .inl hLast
  · have hEmpty : ∀ i, items (Fin.last L, i) = [] := by simpa using hLast
    obtain ⟨⟨r, i⟩, hItems⟩ := hSome
    have hLevel : r.val < L := by
      refine Nat.lt_of_le_of_ne (Nat.le_of_lt_succ r.isLt) fun hEq => hItems ?_
      rw [show r = Fin.last L from Fin.ext hEq]
      exact hEmpty i
    obtain ⟨r, x, rest, hx, hNext⟩ := h.exists_ready ⟨(r, i), hLevel, hItems⟩
    refine .inr ⟨r, x, rest, hx, ?_⟩
    rcases hNext with hNext | hNext
    · exact hNext
    · rw [hNext]
      exact hEmpty _

end Routed

/-- An item that moves on keeps its place among the items of its class. -/
theorem Moved.carried {C : Type} [DecidableEq C] {cls : α → C} {c : C} {s : κ} (h : Moved pos key r items items')
    (hClass : ∀ x, cls x = c → key x = s) :
    carried cls c (levelPath (pos s)) items' = carried cls c (levelPath (pos s)) items := by
  obtain ⟨x, rest, hItems, rfl⟩ := h
  refine carried_levelPath_move hItems fun hc => ?_
  rw [hClass x hc]
  exact ⟨rfl, rfl⟩

theorem Moved.weight [Fintype ι] {w : Fin (L + 1) × ι → Nat} (h : Moved pos key r items items')
    (hw : ∀ i j, w (r.succ, j) < w (r.castSucc, i)) : weight w items' < weight w items := by
  obtain ⟨x, rest, hItems, rfl⟩ := h
  have hDeq := weight_deq (w := w) hItems
  have hKeep := Function.update_of_ne (castSucc_ne_succ r (pos (key x) r.castSucc) (pos (key x) r.succ)).symm rest items
  have hEnq := weight_enq w (Function.update items (r.castSucc, pos (key x) r.castSucc) rest)
    (r.succ, pos (key x) r.succ) x
  rw [hKeep] at hEnq
  have hLess := hw (pos (key x) r.castSucc) (pos (key x) r.succ)
  omega

end Routes

end Network
end Rules
