import Mathlib.Data.List.Range
import Mathlib.Data.Nat.Find

/-! Occurrences of a word in a text. Words and texts are read through pointers, with
their lengths apart. -/
namespace Layout

variable {α : Type*}

/-- The first `k` characters of a word stand in the text from position `s` on. -/
def Agrees (x t : Nat → α) (s k : Nat) : Prop := ∀ a < k, x a = t (s + a)

/-- The word of length `m` occurs at position `s` of the text of length `n`. -/
def OccursAt (x : Nat → α) (m : Nat) (t : Nat → α) (n s : Nat) : Prop := s + m ≤ n ∧ Agrees x t s m

/-- The first `b` of the first `k` characters of a word are also the last ones. -/
def Border (x : Nat → α) (k b : Nat) : Prop := b < k ∧ Agrees x x (k - b) b

section Decidable

variable [DecidableEq α] (x t : Nat → α)

instance (s k : Nat) : Decidable (Agrees x t s k) :=
  inferInstanceAs (Decidable (∀ a < k, x a = t (s + a)))

instance (m n s : Nat) : Decidable (OccursAt x m t n s) :=
  inferInstanceAs (Decidable (s + m ≤ n ∧ Agrees x t s m))

instance (k b : Nat) : Decidable (Border x k b) :=
  inferInstanceAs (Decidable (b < k ∧ Agrees x x (k - b) b))

end Decidable

variable {x t : Nat → α} {s k m n : Nat}

theorem agrees_zero : Agrees x t s 0 := fun _ h => absurd h (Nat.not_lt_zero _)

theorem Agrees.succ (h : Agrees x t s k) (hNext : x k = t (s + k)) : Agrees x t s (k + 1) := by
  intro a ha
  rcases Nat.lt_succ_iff_lt_or_eq.mp ha with ha | rfl
  · exact h a ha
  · exact hNext

/-- Two overlapping copies of a word give a border of it. -/
theorem Agrees.border {d : Nat} (h : Agrees x t s k) (h' : Agrees x t (s + d) m) (hd : 0 < d)
    (hdk : d ≤ k) (hm : k - d ≤ m) : Border x k (k - d) := by
  refine ⟨by omega, fun a ha => ?_⟩
  have hLeft := h' a (by omega)
  have hRight := h (d + a) (by omega)
  rw [hLeft, Nat.sub_sub_self hdk, hRight, Nat.add_assoc]

/-- No border is longer. -/
def LongestBorder (x : Nat → α) (k b : Nat) : Prop := Border x k b ∧ ∀ b' < k, Border x k b' → b' ≤ b

instance [DecidableEq α] (x : Nat → α) (k b : Nat) : Decidable (LongestBorder x k b) :=
  inferInstanceAs (Decidable (Border x k b ∧ ∀ b' < k, Border x k b' → b' ≤ b))

section Failure

variable {b b' : Nat}

theorem Border.trans (h : Border x k b) (h' : Border x b b') : Border x k b' := by
  have hLt := h.1
  have hLt' := h'.1
  refine ⟨by omega, fun a ha => ?_⟩
  rw [h'.2 a ha, h.2 (b - b' + a) (by omega)]
  congr 1
  omega

theorem Border.of_lt (h : Border x k b) (h' : Border x k b') (hLess : b' < b) : Border x b b' := by
  have hLt := h.1
  refine ⟨hLess, fun a ha => ?_⟩
  rw [h'.2 a ha, h.2 (b - b' + a) (by omega)]
  congr 1
  omega

theorem border_zero (hk : 0 < k) : Border x k 0 := ⟨hk, agrees_zero⟩

theorem border_succ : Border x (k + 1) (b + 1) ↔ Border x k b ∧ x b = x k := by
  rw [Border, Border, Nat.add_sub_add_right]
  constructor
  · rintro ⟨hLt, h⟩
    refine ⟨⟨by omega, fun a ha => h a (by omega)⟩, ?_⟩
    rw [h b (Nat.lt_succ_self b), Nat.sub_add_cancel (by omega)]
  · rintro ⟨⟨hLt, h⟩, hNext⟩
    exact ⟨by omega, Agrees.succ h (by rwa [Nat.sub_add_cancel (by omega)])⟩

variable [DecidableEq α]

/-- One more than the length of the longest border of the first `k` characters; 0 for no characters,
which have no border. -/
def failure (x : Nat → α) (k : Nat) : Nat := Nat.findGreatest (fun n => 0 < n ∧ Border x k (n - 1)) k

theorem failure_le (x : Nat → α) (k : Nat) : failure x k ≤ k := Nat.findGreatest_le k

theorem border_failure (h : 0 < failure x k) : Border x k (failure x k - 1) :=
  (Nat.findGreatest_of_ne_zero rfl (Nat.ne_of_gt h)).2

theorem Border.lt_failure (h : Border x k b) : b < failure x k := Nat.le_findGreatest h.1 ⟨b.succ_pos, h⟩

theorem longestBorder_failure (hk : 0 < k) : LongestBorder x k (failure x k - 1) :=
  ⟨border_failure (border_zero hk).lt_failure, fun _ _ h => Nat.le_sub_one_of_lt h.lt_failure⟩

/-- A candidate for the border of `k + 1` characters: `n` is 0 or one more than the length of a border
of `k` characters, and no border of `k + 1` characters is longer than `n`. -/
structure Candidate (x : Nat → α) (k n : Nat) : Prop where
  border : 0 < n → Border x k (n - 1)
  longest : ∀ b, Border x (k + 1) b → b ≤ n

theorem candidate_failure (x : Nat → α) (k : Nat) : Candidate x k (failure x k) where
  border := border_failure
  longest
    | 0, _ => Nat.zero_le _
    | _ + 1, h => (border_succ.mp h).1.lt_failure

/-- A candidate that does not go on with the next character is followed by the one below it. -/
theorem Candidate.below (h : Candidate x k n) (hPos : 0 < n) (hDiffer : x k ≠ x (n - 1)) :
    Candidate x k (failure x (n - 1)) := by
  refine ⟨fun hBelow => (h.border hPos).trans (border_failure hBelow), fun b hb => ?_⟩
  cases b with
  | zero => exact Nat.zero_le _
  | succ b =>
    obtain ⟨hBorder, hSame⟩ := border_succ.mp hb
    have hLe := h.longest _ hb
    have hNe : b ≠ n - 1 := by
      rintro rfl
      exact hDiffer hSame.symm
    exact ((h.border hPos).of_lt hBorder (by omega)).lt_failure

theorem Candidate.failure_succ (h : Candidate x k n) (hSame : 0 < n → x k = x (n - 1)) :
    failure x (k + 1) = n + 1 := by
  have hBorder : Border x (k + 1) n := by
    cases n with
    | zero => exact border_zero k.succ_pos
    | succ n => exact border_succ.mpr ⟨h.border n.succ_pos, (hSame n.succ_pos).symm⟩
  refine Nat.le_antisymm ?_ hBorder.lt_failure
  have hLongest := h.longest _ (border_failure (Nat.zero_lt_of_lt hBorder.lt_failure))
  omega

end Failure

/-- The positions that satisfy `P`, read from left to right, where reading goes on `m`
positions after each hit. -/
def greedy (P : Nat → Prop) [DecidablePred P] (m : Nat) (resume : Nat) : List Nat → List Nat
  | [] => []
  | s :: rest =>
    if resume ≤ s ∧ P s then s :: greedy P m (s + m) rest else greedy P m resume rest

/-- What is found from position `s` on. -/
def greedyFrom (P : Nat → Prop) [DecidablePred P] (m n s : Nat) : List Nat :=
  greedy P m s (List.range' s (n - s))

section Greedy

variable {P : Nat → Prop} [DecidablePred P]

theorem range'_cons (hs : s < n) : List.range' s (n - s) = s :: List.range' (s + 1) (n - (s + 1)) := by
  obtain ⟨d, rfl⟩ := Nat.exists_eq_add_of_lt hs
  rw [show s + d + 1 - s = d + 1 by omega, show s + d + 1 - (s + 1) = d by omega, List.range'_succ]

theorem greedy_eq_greedyFrom {resume : Nat} (h : s ≤ resume) :
    greedy P m resume (List.range' s (n - s)) = greedyFrom P m n resume := by
  obtain ⟨d, rfl⟩ := Nat.exists_eq_add_of_le h
  induction d generalizing s with
  | zero => rfl
  | succ d ih =>
    by_cases hs : s < n
    · rw [range'_cons hs, greedy, if_neg (by omega)]
      have hRest := ih (s := s + 1) (by omega)
      rwa [show s + 1 + d = s + (d + 1) by omega] at hRest
    · rw [greedyFrom, Nat.sub_eq_zero_of_le (by omega), Nat.sub_eq_zero_of_le (by omega)]
      rfl

theorem greedyFrom_hit (hs : s < n) (h : P s) (hm : 0 < m) :
    greedyFrom P m n s = s :: greedyFrom P m n (s + m) := by
  rw [greedyFrom, range'_cons hs, greedy, if_pos ⟨Nat.le_refl s, h⟩, greedy_eq_greedyFrom (by omega)]

theorem greedy_resume {resume : Nat} {positions : List Nat}
    (h : ∀ p ∈ positions, s ≤ p ∧ resume ≤ p) :
    greedy P m s positions = greedy P m resume positions := by
  induction positions with
  | nil => rfl
  | cons p rest ih =>
    have hp := h p List.mem_cons_self
    rw [greedy, greedy, ih fun q hq => h q (List.mem_cons_of_mem _ hq)]
    simp only [hp.1, hp.2]

theorem greedyFrom_miss (h : ¬ P s) : greedyFrom P m n s = greedyFrom P m n (s + 1) := by
  by_cases hs : s < n
  · rw [greedyFrom, range'_cons hs, greedy, if_neg fun hit => h hit.2]
    exact greedy_resume fun p hp => by
      have := List.mem_range'_1.mp hp
      omega
  · rw [greedyFrom, greedyFrom, Nat.sub_eq_zero_of_le (by omega), Nat.sub_eq_zero_of_le (by omega)]
    rfl

theorem greedyFrom_skip {d : Nat} (h : ∀ p, s ≤ p → p < s + d → ¬ P p) :
    greedyFrom P m n s = greedyFrom P m n (s + d) := by
  induction d generalizing s with
  | zero => rfl
  | succ d ih =>
    rw [greedyFrom_miss (h s (Nat.le_refl s) (by omega)),
      ih fun p hp hp' => h p (by omega) (by omega)]
    congr 1
    omega

theorem greedyFrom_end (h : ∀ p, s ≤ p → p < n → ¬ P p) : greedyFrom P m n s = [] := by
  have hSkip : greedyFrom P m n s = greedyFrom P m n (s + (n - s)) :=
    greedyFrom_skip fun p hp hp' => h p hp (by omega)
  rw [hSkip, greedyFrom, show n - (s + (n - s)) = 0 by omega]
  rfl

theorem greedyFrom_ne_nil {p : Nat} (hs : s ≤ p) (hp : p < n) (h : P p) (hm : 0 < m) :
    greedyFrom P m n s ≠ [] := by
  obtain ⟨d, rfl⟩ := Nat.exists_eq_add_of_le hs
  induction d generalizing s with
  | zero =>
    rw [Nat.add_zero] at hp h
    rw [greedyFrom_hit hp h hm]
    exact List.cons_ne_nil _ _
  | succ d ih =>
    by_cases hHere : P s
    · rw [greedyFrom_hit (Nat.lt_of_le_of_lt hs hp) hHere hm]
      exact List.cons_ne_nil _ _
    · rw [greedyFrom_miss hHere]
      have hLater : s + 1 + d = s + (d + 1) := by omega
      exact ih (by omega) (by omega) (by rwa [hLater])

end Greedy

end Layout
