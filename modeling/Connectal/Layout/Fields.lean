import Mathlib.Algebra.Ring.Nat
import Mathlib.Algebra.Order.BigOperators.Group.List

/-! Bit fields laid one after another, the first one at the least significant end,
and their division into words. A field that crosses the end of a word is cut into
pieces, one for each word that it touches. -/
namespace Layout

variable {α : Type*} {fields : List α}

section Fields

variable (width : α → Nat) (bits : α → Nat → Bool)

/-- Number of bits of all fields together. -/
def span (fields : List α) : Nat := (fields.map width).sum

@[simp] theorem span_nil : span width [] = 0 := rfl

@[simp] theorem span_cons (a : α) (rest : List α) :
    span width (a :: rest) = width a + span width rest := by
  simp [span]

@[simp] theorem span_append (front back : List α) :
    span width (front ++ back) = span width front + span width back := by
  simp [span]

@[simp] theorem span_reverse (fields : List α) : span width fields.reverse = span width fields := by
  simp [span, List.sum_reverse]

theorem span_map {β : Type*} (f : β → α) (items : List β) :
    span width (items.map f) = span (fun b => width (f b)) items := by
  simp [span, Function.comp_def]

/-- Bit number `p` of the fields. -/
def bitAt : List α → Nat → Bool
  | [], _ => false
  | a :: rest, p => if p < width a then bits a p else bitAt rest (p - width a)

variable {width bits}

theorem bitAt_append (front back : List α) (p : Nat) :
    bitAt width bits (front ++ back) p =
      if p < span width front then bitAt width bits front p
      else bitAt width bits back (p - span width front) := by
  induction front generalizing p with
  | nil => simp
  | cons a rest ih =>
    simp only [List.cons_append, bitAt, span_cons]
    by_cases hHead : p < width a
    · simp [hHead, Nat.lt_of_lt_of_le hHead (Nat.le_add_right _ _)]
    · have hIff : p - width a < span width rest ↔ p < width a + span width rest := by omega
      simp only [hHead, if_false, ih, hIff, Nat.sub_sub]

theorem bitAt_field (front back : List α) {a : α} {q : Nat} (hq : q < width a) :
    bitAt width bits (front ++ a :: back) (span width front + q) = bits a q := by
  simp [bitAt_append, bitAt, hq]

theorem bitAt_of_le {p : Nat} (hp : span width fields ≤ p) : bitAt width bits fields p = false := by
  induction fields generalizing p with
  | nil => rfl
  | cons a rest ih =>
    rw [span_cons] at hp
    rw [bitAt, if_neg (by omega)]
    exact ih (by omega)

theorem bitAt_congr {width' : α → Nat} (h : ∀ a ∈ fields, width a = width' a)
    (p : Nat) : bitAt width bits fields p = bitAt width' bits fields p := by
  induction fields generalizing p with
  | nil => rfl
  | cons a rest ih =>
    simp only [bitAt, h a List.mem_cons_self, ih fun b hb => h b (List.mem_cons_of_mem _ hb)]

theorem exists_field {p : Nat} (hp : p < span width fields) :
    ∃ front a back q, fields = front ++ a :: back ∧ q < width a ∧ p = span width front + q := by
  induction fields generalizing p with
  | nil => simp at hp
  | cons a rest ih =>
    by_cases hHead : p < width a
    · exact ⟨[], a, rest, p, rfl, hHead, by simp⟩
    · rw [span_cons] at hp
      obtain ⟨front, b, back, q, rfl, hq, hPos⟩ := ih (p := p - width a) (by omega)
      exact ⟨a :: front, b, back, q, rfl, hq, by rw [span_cons]; omega⟩

end Fields

/-- The bits from `lo` up to but not including `hi` of a field. -/
structure Piece (α : Type*) where
  field : α
  lo : Nat
  hi : Nat

def Piece.len (e : Piece α) : Nat := e.hi - e.lo

/-- The pieces, in order, make up the fields without the lowest `pro` bits of the
first field. -/
inductive Covers (width : α → Nat) : Nat → List α → List (Piece α) → Prop
  | nil : Covers width 0 [] []
  | last {pro : Nat} {a : α} {rest : List α} {pieces : List (Piece α)} (hPro : pro = 0 ∨ pro < width a)
      (h : Covers width 0 rest pieces) : Covers width pro (a :: rest) (⟨a, pro, width a⟩ :: pieces)
  | part {pro stop : Nat} {a : α} {rest : List α} {pieces : List (Piece α)} (hPro : pro < stop)
      (hStop : stop < width a) (h : Covers width stop (a :: rest) pieces) :
      Covers width pro (a :: rest) (⟨a, pro, stop⟩ :: pieces)

variable {width : α → Nat} {pieces : List (Piece α)} {pro : Nat}

section

variable (h : Covers width pro fields pieces)

include h

theorem Covers.span_eq : span Piece.len pieces + pro = span width fields := by
  induction h with
  | nil => rfl
  | last hPro h ih =>
    simp only [span_cons, Piece.len]
    omega
  | part hPro hStop h ih =>
    simp only [span_cons, Piece.len] at ih ⊢
    omega

/-- Where a piece lies is where its part of the field lies. -/
theorem Covers.located {pre post : List (Piece α)} {e : Piece α} (he : pieces = pre ++ e :: post) :
    ∃ front back, fields = front ++ e.field :: back ∧ e.lo ≤ e.hi ∧ e.hi ≤ width e.field ∧
      span Piece.len pre + pro = span width front + e.lo := by
  induction h generalizing pre with
  | nil => simp at he
  | @last pro a rest pieces hPro h ih =>
    cases pre with
    | nil =>
      cases he
      exact ⟨[], rest, rfl, show pro ≤ width a by omega, Nat.le_refl _, by simp⟩
    | cons first pre =>
      simp only [List.cons_append, List.cons.injEq] at he
      obtain ⟨rfl, he⟩ := he
      obtain ⟨front, back, rfl, hLo, hHi, hPos⟩ := ih he
      exact ⟨a :: front, back, rfl, hLo, hHi, by simp only [span_cons, Piece.len]; omega⟩
  | @part pro stop a rest pieces hPro hStop h ih =>
    cases pre with
    | nil =>
      cases he
      exact ⟨[], rest, rfl, Nat.le_of_lt hPro, Nat.le_of_lt hStop, by simp⟩
    | cons first pre =>
      simp only [List.cons_append, List.cons.injEq] at he
      obtain ⟨rfl, he⟩ := he
      obtain ⟨front, back, hFields, hLo, hHi, hPos⟩ := ih he
      exact ⟨front, back, hFields, hLo, hHi, by simp only [span_cons, Piece.len]; omega⟩

theorem Covers.lo_lt_hi : ∀ e ∈ pieces, 0 < width e.field → e.lo < e.hi := by
  induction h with
  | nil => simp
  | @last pro a rest pieces hPro h ih =>
    intro e he hWidth
    rcases List.mem_cons.mp he with rfl | he
    · show pro < width a
      have : 0 < width a := hWidth
      omega
    · exact ih e he hWidth
  | @part pro stop a rest pieces hLt hStop h ih =>
    intro e he hWidth
    rcases List.mem_cons.mp he with rfl | he
    · exact hLt
    · exact ih e he hWidth

theorem Covers.last_piece {pre : List (Piece α)} {e : Piece α}
    (he : pieces = pre ++ [e]) : e.hi = width e.field ∧ ∃ front, fields = front ++ [e.field] := by
  induction h generalizing pre with
  | nil => simp at he
  | @last pro a rest pieces hPro h ih =>
    cases pre with
    | nil =>
      cases he
      cases h
      exact ⟨rfl, [], rfl⟩
    | cons first pre =>
      simp only [List.cons_append, List.cons.injEq] at he
      obtain ⟨hHi, front, rfl⟩ := ih he.2
      exact ⟨hHi, a :: front, rfl⟩
  | @part pro stop a rest pieces hLt hStop h ih =>
    cases pre with
    | nil =>
      cases he
      cases h
    | cons first pre =>
      simp only [List.cons_append, List.cons.injEq] at he
      exact ih he.2

theorem Covers.exists_piece {front back : List α} {a : α} {q : Nat}
    (hFields : fields = front ++ a :: back) (hq : q < width a) (hPro : pro ≤ span width front + q) :
    ∃ pre e post, pieces = pre ++ e :: post ∧ e.field = a ∧ e.lo ≤ q ∧ q < e.hi ∧
      span Piece.len pre + pro = span width front + e.lo := by
  induction h generalizing front with
  | nil => simp at hFields
  | @last pro b rest pieces hLe h ih =>
    cases front with
    | nil =>
      cases hFields
      exact ⟨[], _, pieces, rfl, rfl, by simpa using hPro, hq, by simp⟩
    | cons first front =>
      simp only [List.cons_append, List.cons.injEq] at hFields
      obtain ⟨rfl, hFields⟩ := hFields
      obtain ⟨pre, e, post, rfl, hField, hLo, hHi, hPos⟩ := ih hFields (Nat.zero_le _)
      exact ⟨_ :: pre, e, post, rfl, hField, hLo, hHi,
        by simp only [span_cons, Piece.len]; omega⟩
  | @part pro stop b rest pieces hLt hStop h ih =>
    by_cases hHere : stop ≤ span width front + q
    · obtain ⟨pre, e, post, rfl, hField, hLo, hHi, hPos⟩ := ih hFields hHere
      exact ⟨_ :: pre, e, post, rfl, hField, hLo, hHi,
        by simp only [span_cons, Piece.len]; omega⟩
    · cases front with
      | nil =>
        cases hFields
        exact ⟨[], _, pieces, rfl, rfl, by simpa using hPro, by simpa using hHere, by simp⟩
      | cons first front =>
        simp only [List.cons_append, List.cons.injEq] at hFields
        obtain ⟨rfl, -⟩ := hFields
        simp only [span_cons] at hHere
        omega

end

section Words

variable {β : Type*} {len : β → Nat} {size : Nat}

/-- All words but the last one are full. -/
def Filled (len : β → Nat) (size : Nat) : List (List β) → Prop
  | [] => True
  | [w] => span len w ≤ size
  | w :: w' :: rest => span len w = size ∧ Filled len size (w' :: rest)

variable {rest : List (List β)} {w : List β}

theorem Filled.head_le (h : Filled len size (w :: rest)) : span len w ≤ size := by
  cases rest with
  | nil => exact h
  | cons w' rest => exact h.1.le

theorem Filled.tail (h : Filled len size (w :: rest)) : Filled len size rest := by
  cases rest with
  | nil => trivial
  | cons w' rest => exact h.2

theorem Filled.cons (hw : span len w = size) (h : Filled len size rest) : Filled len size (w :: rest) := by
  cases rest with
  | nil => exact hw.le
  | cons w' rest => exact ⟨hw, h⟩

/-- Before a word lie as many full words as there are words before it. -/
theorem Filled.span_front {front back : List (List β)} (h : Filled len size (front ++ w :: back)) :
    span len front.flatten = size * front.length ∧ span len w ≤ size := by
  induction front with
  | nil => exact ⟨rfl, h.head_le⟩
  | cons v front ih =>
    obtain ⟨hFront, hw⟩ := ih h.tail
    have hv : span len v = size := by
      cases front with
      | nil | cons => exact h.1
    refine ⟨?_, hw⟩
    rw [List.flatten_cons, span_append, hFront, hv, List.length_cons, Nat.mul_succ, Nat.add_comm]

theorem pairwise_of_split {R : β → β → Prop} {items : List β}
    (h : ∀ pre a mid b post, items = pre ++ a :: (mid ++ b :: post) → R a b) : items.Pairwise R := by
  induction items with
  | nil => exact .nil
  | cons a rest ih =>
    refine .cons ?_ (ih fun pre a' mid b post hSplit => h (a :: pre) a' mid b post ?_)
    · intro b hb
      obtain ⟨mid, post, hSplit⟩ := List.append_of_mem hb
      exact h [] a mid b post (by rw [hSplit]; rfl)
    · rw [hSplit]
      rfl

theorem exists_word {words : List (List β)} {pre post : List β} {e : β}
    (h : words.flatten = pre ++ e :: post) :
    ∃ front pre' post' back, words = front ++ (pre' ++ e :: post') :: back ∧
      pre = front.flatten ++ pre' := by
  induction words generalizing pre with
  | nil => simp at h
  | cons w rest ih =>
    rw [List.flatten_cons, List.append_eq_append_iff] at h
    rcases h with ⟨more, rfl, hRest⟩ | ⟨more, rfl, hMore⟩
    · obtain ⟨front, pre', post', back, rfl, rfl⟩ := ih hRest
      exact ⟨w :: front, pre', post', back, rfl, by simp⟩
    · cases more with
      | nil =>
        obtain ⟨front, pre', post', back, rfl, hPre⟩ := @ih [] hMore.symm
        exact ⟨(pre ++ []) :: front, pre', post', back, rfl, by simpa using hPre⟩
      | cons e' more =>
        simp only [List.cons_append, List.cons.injEq] at hMore
        obtain ⟨rfl, rfl⟩ := hMore
        exact ⟨[], pre, more, rest, rfl, rfl⟩

end Words

end Layout
