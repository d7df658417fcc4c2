import Mathlib.Data.BitVec
import Mathlib.Data.List.Flatten

/-! Words of 32 bits as bytes, lowest byte first, and buffers that are filled with bytes. -/
namespace Layout

abbrev Byte := BitVec 8

def wordBytes (w : BitVec 32) : List Byte :=
  [w.extractLsb' 0 8, w.extractLsb' 8 8, w.extractLsb' 16 8, w.extractLsb' 24 8]

def bytes (ws : List (BitVec 32)) : List Byte := ws.flatMap wordBytes

/-- A buffer of bytes. -/
abbrev Buffer := Nat → Byte

namespace Buffer

/-- The word with index `i`. -/
def word (b : Buffer) (i : Nat) : BitVec 32 :=
  b (4 * i + 3) ++ b (4 * i + 2) ++ b (4 * i + 1) ++ b (4 * i)

def words (b : Buffer) (i n : Nat) : List (BitVec 32) := (List.range n).map fun j => b.word (i + j)

/-- Bytes are written from `start` on, and the other ones stay as they are. -/
def put (b : Buffer) (start : Nat) (bs : List Byte) : Buffer := fun i =>
  if start ≤ i then (bs[i - start]?).getD (b i) else b i

end Buffer

theorem bytes_append (ws ws' : List (BitVec 32)) : bytes (ws ++ ws') = bytes ws ++ bytes ws' :=
  List.flatMap_append

theorem bytes_cons (w : BitVec 32) (ws : List (BitVec 32)) : bytes (w :: ws) = wordBytes w ++ bytes ws :=
  List.flatMap_cons

theorem length_bytes (ws : List (BitVec 32)) : (bytes ws).length = 4 * ws.length := by
  induction ws with
  | nil => rfl
  | cons w ws ih =>
    rw [bytes_cons, List.length_append, ih, List.length_cons]
    show 4 + _ = _
    omega

theorem bytes_eq_nil {ws : List (BitVec 32)} (h : bytes ws = []) : ws = [] := by
  apply List.eq_nil_of_length_eq_zero
  have hLength := length_bytes ws
  rw [h] at hLength
  simpa using hLength.symm

theorem take_bytes (ws ws' : List (BitVec 32)) : (bytes (ws ++ ws')).take (4 * ws.length) = bytes ws := by
  rw [bytes_append, ← length_bytes, List.take_left]

theorem drop_bytes (ws ws' : List (BitVec 32)) : (bytes (ws ++ ws')).drop (4 * ws.length) = bytes ws' := by
  rw [bytes_append, ← length_bytes, List.drop_left]

theorem append_wordBytes (w : BitVec 32) :
    w.extractLsb' 24 8 ++ w.extractLsb' 16 8 ++ w.extractLsb' 8 8 ++ w.extractLsb' 0 8 = w := by
  apply BitVec.eq_of_getLsbD_eq
  intro i hi
  simp only [BitVec.getLsbD_append, BitVec.getLsbD_extractLsb']
  split_ifs <;> simp <;> grind

theorem wordBytes_append (a b c d : Byte) : wordBytes (d ++ c ++ b ++ a) = [a, b, c, d] := by
  have hByte (s : Nat) (x : Byte) (hx : ∀ i < 8, (d ++ c ++ b ++ a).getLsbD (s + i) = x.getLsbD i) :
      (d ++ c ++ b ++ a).extractLsb' s 8 = x := by
    apply BitVec.eq_of_getLsbD_eq
    intro i hi
    rw [BitVec.getLsbD_extractLsb', hx i hi]
    simp [hi]
  rw [wordBytes, hByte 0 a, hByte 8 b, hByte 16 c, hByte 24 d]
  all_goals
    intro i hi
    simp only [BitVec.getLsbD_append]
    grind

theorem getElem?_bytes {ws : List (BitVec 32)} {j : Nat} {w : BitVec 32} (h : ws[j]? = some w)
    {k : Nat} (hk : k < 4) : (bytes ws)[4 * j + k]? = (wordBytes w)[k]? := by
  induction ws generalizing j with
  | nil => simp at h
  | cons v ws ih =>
    rw [bytes_cons]
    cases j with
    | zero =>
      rw [Option.some.inj h, Nat.mul_zero, Nat.zero_add]
      exact List.getElem?_append_left hk
    | succ j =>
      have hLength : (wordBytes v).length = 4 := rfl
      rw [List.getElem?_append_right (by omega), hLength,
        show 4 * (j + 1) + k - 4 = 4 * j + k by omega]
      exact ih h

namespace Buffer

variable {b : Buffer} {ws : List (BitVec 32)} {i : Nat}

theorem put_append (b : Buffer) (start : Nat) (front back : List Byte) :
    (b.put start front).put (start + front.length) back = b.put start (front ++ back) := by
  funext i
  simp only [put]
  by_cases hFront : start ≤ i
  · rw [if_pos hFront, if_pos hFront]
    by_cases hBack : start + front.length ≤ i
    · rw [if_pos hBack, List.getElem?_append_right (by omega), List.getElem?_eq_none (l := front) (by omega),
        Nat.sub_sub]
      rfl
    · rw [if_neg hBack, List.getElem?_append_left (by omega)]
  · rw [if_neg hFront, if_neg hFront, if_neg (by omega)]

theorem word_put {j : Nat} {w : BitVec 32} (h : ws[j]? = some w) :
    (b.put (4 * i) (bytes ws)).word (i + j) = w := by
  have hByte : ∀ k < 4, ∀ x, (wordBytes w)[k]? = some x →
      b.put (4 * i) (bytes ws) (4 * (i + j) + k) = x := by
    intro k hk x hx
    rw [put, if_pos (by omega), show 4 * (i + j) + k - 4 * i = 4 * j + k by omega,
      getElem?_bytes h hk, hx]
    rfl
  rw [word, hByte 3 (by decide) _ rfl, hByte 2 (by decide) _ rfl, hByte 1 (by decide) _ rfl,
    show 4 * (i + j) = 4 * (i + j) + 0 by rfl, hByte 0 (by decide) _ rfl]
  exact append_wordBytes w

theorem word_put_zero (b : Buffer) (w : BitVec 32) : (b.put 0 (bytes [w])).word 0 = w :=
  @word_put b [w] 0 0 w rfl

theorem bytes_word_put (b : Buffer) {bs : List Byte} (h : bs.length = 4) : bytes [(b.put 0 bs).word 0] = bs := by
  obtain ⟨x₀, x₁, x₂, x₃, rfl⟩ : ∃ x₀ x₁ x₂ x₃, bs = [x₀, x₁, x₂, x₃] := by
    match bs, h with
    | [x₀, x₁, x₂, x₃], _ => exact ⟨x₀, x₁, x₂, x₃, rfl⟩
  exact wordBytes_append x₀ x₁ x₂ x₃

theorem words_put : (b.put (4 * i) (bytes ws)).words i ws.length = ws := by
  apply List.ext_getElem?
  intro j
  rw [words, List.getElem?_map]
  cases h : ws[j]? with
  | none =>
    rw [List.getElem?_eq_none (by rw [List.length_range]; exact List.getElem?_eq_none_iff.mp h)]
    rfl
  | some w =>
    rw [List.getElem?_range (List.getElem_of_getElem? h).1, Option.map_some, word_put h]

end Buffer

end Layout
