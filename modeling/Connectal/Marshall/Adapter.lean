import Connectal.Rules.Machine
import Mathlib.Data.List.Induction
import Mathlib.Tactic.Ring

/-! The shift registers of `Adapter.bsv` between messages and words. `mkToBit` sends
a message as words, the most significant word first and with zeros in front;
`mkFromBit` puts a message together again. The word counters are registers of 32
bits, more than any message needs. -/
namespace Connectal

open Rules

/-- `Div#(asz, n)`: the number of words of a message. -/
def nwords (n asz : Nat) : Nat := (asz + n - 1) / n

variable {n asz : Nat}

theorem nwords_pos (hn : 0 < n) (hSize : 0 < asz) : 0 < nwords n asz :=
  Nat.div_pos (by omega) hn

theorem le_nwords (hn : 0 < n) : asz ≤ n * nwords n asz := by
  have h := Nat.div_add_mod (asz + n - 1) n
  have hMod := Nat.mod_lt (asz + n - 1) hn
  unfold nwords
  omega

/-- A message as words, zero padded at the top, the most significant word first. -/
def messageWords (n : Nat) {asz : Nat} (x : BitVec asz) : List (BitVec n) :=
  (List.range (nwords n asz)).map fun k => x.extractLsb' (n * (nwords n asz - 1 - k)) n

@[simp] theorem length_messageWords (x : BitVec asz) : (messageWords n x).length = nwords n asz := by
  simp [messageWords]

variable {k : Nat}

theorem getElem?_messageWords (x : BitVec asz) (hk : k < nwords n asz) :
    (messageWords n x)[k]? = some (x.extractLsb' (n * (nwords n asz - 1 - k)) n) := by
  simp [messageWords, hk]

/-- Bit `p` of a message that is given as words, the most significant word first. -/
def wordsBit {n : Nat} (words : List (BitVec n)) (p : Nat) : Bool :=
  (words.reverse)[p / n]?.any (·.getLsbD (p % n))

theorem wordsBit_of_getElem? {i : Nat} {words : List (BitVec n)} {w : BitVec n} (hi : i < n)
    (h : (words.reverse)[k]? = some w) : wordsBit words (n * k + i) = w.getLsbD i := by
  have hn : 0 < n := Nat.zero_lt_of_lt hi
  rw [wordsBit, Nat.mul_add_div hn, Nat.div_eq_of_lt hi, Nat.add_zero, Nat.mul_add_mod,
    Nat.mod_eq_of_lt hi, h, Option.any_some]

theorem words_ext {words words' : List (BitVec n)} (hLength : words.length = words'.length)
    (h : ∀ p < n * words.length, wordsBit words p = wordsBit words' p) : words = words' := by
  rw [← List.reverse_inj]
  apply List.ext_getElem (by simpa using hLength)
  intro k hk hk'
  apply BitVec.eq_of_getLsbD_eq
  intro i hi
  have hp : n * k + i < n * words.length := by
    have hStep : n * (k + 1) ≤ n * words.length :=
      Nat.mul_le_mul_left n (Nat.succ_le_of_lt (by simpa using hk))
    rw [Nat.mul_succ] at hStep
    omega
  rw [← wordsBit_of_getElem? hi (List.getElem?_eq_getElem hk), h _ hp,
    wordsBit_of_getElem? hi (List.getElem?_eq_getElem hk')]

theorem wordsBit_messageWords (hn : 0 < n) (x : BitVec asz) (p : Nat) :
    wordsBit (messageWords n x) p = x.getLsbD p := by
  by_cases hk : p / n < nwords n asz
  · rw [wordsBit, List.getElem?_reverse (by simpa using hk), length_messageWords,
      getElem?_messageWords x
        (Nat.lt_of_le_of_lt (Nat.sub_le _ _) (Nat.sub_lt (Nat.zero_lt_of_lt hk) Nat.one_pos))]
    have hBack : nwords n asz - 1 - (nwords n asz - 1 - p / n) = p / n :=
      Nat.sub_sub_self (Nat.le_sub_one_of_lt hk)
    simp [hBack, Nat.mod_lt p hn, Nat.div_add_mod]
  · -- above the padding
    have hHigh : asz ≤ p := (le_nwords hn).trans
      (Nat.mul_comm n _ ▸ (Nat.le_div_iff_mul_le hn).mp (Nat.le_of_not_lt hk))
    rw [wordsBit, List.getElem?_eq_none (by simpa using Nat.le_of_not_lt hk), BitVec.getLsbD_of_ge x p hHigh]
    rfl

theorem messageWords_injective (hn : 0 < n) {x y : BitVec asz}
    (h : messageWords n x = messageWords n y) : x = y := by
  apply BitVec.eq_of_getLsbD_eq
  intro p _
  rw [← wordsBit_messageWords hn x, ← wordsBit_messageWords hn y, h]

/-- The `a` most significant bits. -/
def rtruncate {b : Nat} (a : Nat) (x : BitVec b) : BitVec a := x.extractLsb' (b - a) a

structure ToBit (n asz : Nat) where
  fifo : Fifo (BitVec (n * nwords n asz)) 1
  count : Nat

namespace ToBit

variable {n asz : Nat}

def powerUp : ToBit n asz := ⟨Fifo.empty, 0⟩

def enq (s : ToBit n asz) (val : BitVec asz) : Option (ToBit n asz) := do
  let fifo ← s.fifo.enq (val.setWidth _)
  return { s with fifo }

def first (s : ToBit n asz) : Option (BitVec n) :=
  s.fifo.items.head?.map fun (x : BitVec _) => rtruncate n (x <<< (s.count * n))

def deq (s : ToBit n asz) : Option (ToBit n asz) := do
  let (_, fifo) ← s.fifo.deq
  return if s.count = nwords n asz - 1 then { s with count := 0, fifo }
    else { s with count := s.count + 1 }

inductive Action (asz : Nat) where
  | enq (val : BitVec asz)
  | take
  deriving DecidableEq

inductive Event (n asz : Nat) where
  | put (val : BitVec asz)
  | word (w : BitVec n)
  deriving DecidableEq

def fire : Action asz → ToBit n asz → Option (ToBit n asz × List (Event n asz))
  | .enq val, s => (s.enq val).map fun s' => (s', [.put val])
  | .take, s => s.first.bind fun w => s.deq.map fun s' => (s', [.word w])

def machine (n asz : Nat) : Machine (ToBit n asz) (Action asz) (Event n asz) where
  init s := s = powerUp
  fire := fire

def puts (trace : List (Event n asz)) : List (BitVec asz) :=
  trace.filterMap fun | .put val => some val | .word _ => none

def words (trace : List (Event n asz)) : List (BitVec n) :=
  trace.filterMap fun | .put _ => none | .word w => some w

@[simp] theorem puts_append (a b : List (Event n asz)) : puts (a ++ b) = puts a ++ puts b :=
  List.filterMap_append

@[simp] theorem words_append (a b : List (Event n asz)) : words (a ++ b) = words a ++ words b :=
  List.filterMap_append

@[simp] theorem puts_put (val : BitVec asz) : puts ([.put val] : List (Event n asz)) = [val] := rfl

@[simp] theorem puts_word (w : BitVec n) : puts ([.word w] : List (Event n asz)) = [] := rfl

@[simp] theorem words_put (val : BitVec asz) : words ([.put val] : List (Event n asz)) = [] := rfl

@[simp] theorem words_word (w : BitVec n) : words ([.word w] : List (Event n asz)) = [w] := rfl

/-- The words of all messages that came have been sent, up to the counter. -/
def Inv (trace : List (Event n asz)) (s : ToBit n asz) : Prop :=
  match s.fifo.items with
  | [] => s.count = 0 ∧ words trace = (puts trace).flatMap (messageWords n)
  | y :: _ => ∃ sent x, puts trace = sent ++ [x] ∧ y = x.setWidth _ ∧ s.count < nwords n asz ∧
      words trace = sent.flatMap (messageWords n) ++ (messageWords n x).take s.count

theorem rtruncate_shiftLeft (x : BitVec asz) (hk : k < nwords n asz) :
    rtruncate n ((x.setWidth (n * nwords n asz)) <<< (k * n)) =
      x.extractLsb' (n * (nwords n asz - 1 - k)) n := by
  obtain ⟨d, hd⟩ := Nat.exists_eq_add_of_lt hk
  have hTotal : n * nwords n asz = k * n + n * d + n := by rw [hd]; ring
  have hRest : nwords n asz - 1 - k = d := by omega
  rw [hRest]
  apply BitVec.eq_of_getLsbD_eq
  intro i hi
  simp only [rtruncate, BitVec.getLsbD_extractLsb', hi, decide_true, Bool.true_and,
    BitVec.getLsbD_shiftLeft, BitVec.getLsbD_setWidth]
  have hPos : n * nwords n asz - n + i - k * n = n * d + i := by omega
  rw [hPos]
  simp [show n * nwords n asz - n + i < n * nwords n asz by omega,
    show ¬ n * nwords n asz - n + i < k * n by omega, show n * d + i < n * nwords n asz by omega]

/-- Words leave in order, for every interleaving of messages and words. -/
theorem run_inv (hn : 0 < n) (hSize : 0 < asz) {s : ToBit n asz} {trace : List (Event n asz)}
    (run : (machine n asz).Run (fun _ _ _ => True) s trace) : Inv trace s := by
  have hPos := nwords_pos hn hSize
  refine run.invariant Inv ?_ ?_
  · rintro s rfl
    exact ⟨rfl, rfl⟩
  · rintro trace s action s' events hInv - hFire
    cases action with
    | enq val =>
      simp only [machine, fire, enq, firing] at hFire
      obtain ⟨_, ⟨fifo, ⟨hRoom, hItems⟩, rfl⟩, rfl, rfl⟩ := hFire
      have hEmpty : s.fifo.items = [] := List.length_eq_zero_iff.mp (by omega)
      rw [hEmpty] at hItems
      simp only [Inv, hEmpty] at hInv
      obtain ⟨hCount, hWords⟩ := hInv
      simp only [Inv, hItems, List.nil_append, hCount]
      refine ⟨puts trace, val, puts_append _ _, rfl, hPos, ?_⟩
      simp [hWords]
    | take =>
      simp only [machine, fire, first, deq, firing] at hFire
      obtain ⟨_, ⟨y, hHead, rfl⟩, _, ⟨y', fifo, hItems, rfl⟩, rfl, rfl⟩ := hFire
      have hRest : fifo.items = [] := by
        have hBound := s.fifo.bound
        rw [hItems, List.length_cons] at hBound
        exact List.length_eq_zero_iff.mp (by omega)
      rw [hItems, List.head?_cons, Option.some.injEq] at hHead
      cases hHead
      simp only [Inv, hItems] at hInv
      obtain ⟨sent, x, hPuts, rfl, hCount, hWords⟩ := hInv
      have hTake : (messageWords n x).take (s.count + 1) = (messageWords n x).take s.count ++
          [x.extractLsb' (n * (nwords n asz - 1 - s.count)) n] := by
        rw [List.take_add_one, getElem?_messageWords x hCount, Option.toList_some]
      split
      · next hLast =>
        simp only [Inv, hRest, puts_append, words_append, true_and]
        have hAll : s.count + 1 = (messageWords n x).length := by
          rw [length_messageWords]
          omega
        rw [hAll, List.take_length] at hTake
        rw [hWords, hPuts, puts_word, words_word, rtruncate_shiftLeft x hCount,
          List.append_assoc, ← hTake]
        simp
      · next hMore =>
        simp only [Inv, hItems, puts_append, words_append]
        refine ⟨sent, x, by simp [hPuts], rfl, by omega, ?_⟩
        rw [hWords, words_word, rtruncate_shiftLeft x hCount, List.append_assoc, ← hTake]

/-- Number of words of the current message that are still to be sent. -/
def left (s : ToBit n asz) : Nat :=
  match s.fifo.items with
  | [] => 0
  | _ :: _ => nwords n asz - s.count

theorem exists_word {s : ToBit n asz} (hSome : s.fifo.items ≠ []) (hCount : s.count < nwords n asz) :
    ∃ w s', s.first = some w ∧ s.deq = some s' ∧ s'.left < s.left := by
  obtain ⟨y, fifo, hDeq, hItems⟩ := Fifo.exists_deq_of_ne_nil hSome
  have hBound := s.fifo.bound
  rw [hItems, List.length_cons] at hBound
  have hRest : fifo.items = [] := List.length_eq_zero_iff.mp (by omega)
  refine ⟨_, _, by rw [first, hItems]; rfl, by rw [deq, hDeq]; rfl, ?_⟩
  split
  · simp [left, hItems, hRest, hCount]
  · simp only [left, hItems]
    omega

section

variable {s : ToBit n asz} {trace : List (Event n asz)} (hn : 0 < n) (hSize : 0 < asz)
  (run : (machine n asz).Run (fun _ _ _ => True) s trace)

include hn hSize run

/-- The words that left are those of the first messages, and some of the next message. -/
theorem run_words : ∃ sent part, sent <+: puts trace ∧ part.length < nwords n asz ∧
    words trace = sent.flatMap (messageWords n) ++ part ∧
    words trace <+: (puts trace).flatMap (messageWords n) ∧
    (s.fifo.items = [] → sent = puts trace ∧ part = []) ∧ s.count < nwords n asz := by
  have hInv := run_inv hn hSize run
  have hPos := nwords_pos hn hSize
  unfold Inv at hInv
  split at hInv
  · next hItems =>
    exact ⟨puts trace, [], List.prefix_rfl, hPos, by simp [hInv.2], hInv.2 ▸ List.prefix_rfl, fun _ => ⟨rfl, rfl⟩,
      hInv.1 ▸ hPos⟩
  · next y rest hItems =>
    obtain ⟨sent, x, hPuts, -, hCount, hWords⟩ := hInv
    refine ⟨sent, _, hPuts ▸ List.prefix_append _ _, ?_, hWords, ?_, fun hNil => ?_, hCount⟩
    · rw [List.length_take, length_messageWords]
      omega
    · rw [hWords, hPuts, List.flatMap_append, List.flatMap_singleton]
      exact (List.prefix_append_right_inj _).mpr (List.take_prefix _ _)
    · rw [hItems] at hNil
      cases hNil

theorem exists_drained :
    ∃ s' trace', (machine n asz).Continues (fun _ _ _ => True) (s, trace) (s', trace') ∧
      puts trace' = puts trace ∧ words trace' = (puts trace).flatMap (messageWords n) := by
  refine Machine.exists_continues
    (fun k trace' s' => (machine n asz).Run (fun _ _ _ => True) s' trace' ∧ s'.left = k ∧ puts trace' = puts trace)
    (fun trace' _ => puts trace' = puts trace ∧ words trace' = (puts trace).flatMap (messageWords n)) ?_ ⟨run, rfl, rfl⟩
  rintro k trace' s' ⟨run', rfl, hPuts⟩
  obtain ⟨sent, part, -, -, hWords, -, hAll, hCount⟩ := run_words hn hSize run'
  by_cases hItems : s'.fifo.items = []
  · obtain ⟨rfl, rfl⟩ := hAll hItems
    exact .inl ⟨hPuts, by rw [hWords, hPuts, List.append_nil]⟩
  · obtain ⟨w, t, hFirst, hDeq, hLess⟩ := exists_word hItems hCount
    have hFire : (machine n asz).fire .take s' = some (t, [.word w]) := by simp [machine, fire, hFirst, hDeq]
    exact .inr ⟨_, hLess, .take, t, _, trivial, hFire, run'.next _ trivial hFire, rfl, by simp [hPuts]⟩

end

end ToBit

structure FromBit (n asz : Nat) where
  fbnbuff : BitVec (n * nwords n asz)
  count : Nat
  fifo : Fifo (BitVec asz) 1

namespace FromBit

variable {n asz : Nat}

def powerUp : FromBit n asz := ⟨0, 0, Fifo.empty⟩

/-- `truncate({fbnbuff, x})` -/
def shiftIn {m : Nat} (b : BitVec m) (x : BitVec n) : BitVec m := (b ++ x).setWidth m

def enq (s : FromBit n asz) (x : BitVec n) : Option (FromBit n asz) := do
  guard (s.count < nwords n asz - 1 ∨ s.fifo.items.length < 1)
  let newbuff := shiftIn s.fbnbuff x
  if s.count = nwords n asz - 1 then
    let fifo ← s.fifo.enq (newbuff.setWidth asz)
    return { fbnbuff := newbuff, count := 0, fifo }
  else
    return { s with fbnbuff := newbuff, count := s.count + 1 }

/-- `first` and `deq`. -/
def take (s : FromBit n asz) : Option (BitVec asz × FromBit n asz) := do
  let (x, fifo) ← s.fifo.deq
  return (x, { s with fifo })

inductive Action (n : Nat) where
  | enq (x : BitVec n)
  | take
  deriving DecidableEq

inductive Event (n asz : Nat) where
  | fed (x : BitVec n)
  | got (val : BitVec asz)
  deriving DecidableEq

def fire : Action n → FromBit n asz → Option (FromBit n asz × List (Event n asz))
  | .enq x, s => (s.enq x).map fun s' => (s', [.fed x])
  | .take, s => s.take.map fun r => (r.2, [.got r.1])

def machine (n asz : Nat) : Machine (FromBit n asz) (Action n) (Event n asz) where
  init s := s = powerUp
  fire := fire

def fed (trace : List (Event n asz)) : List (BitVec n) :=
  trace.filterMap fun | .fed x => some x | .got _ => none

def got (trace : List (Event n asz)) : List (BitVec asz) :=
  trace.filterMap fun | .fed _ => none | .got val => some val

@[simp] theorem fed_append (a b : List (Event n asz)) : fed (a ++ b) = fed a ++ fed b :=
  List.filterMap_append

@[simp] theorem got_append (a b : List (Event n asz)) : got (a ++ b) = got a ++ got b :=
  List.filterMap_append

@[simp] theorem fed_fed (x : BitVec n) : fed ([.fed x] : List (Event n asz)) = [x] := rfl

@[simp] theorem fed_got (val : BitVec asz) : fed ([.got val] : List (Event n asz)) = [] := rfl

@[simp] theorem got_fed (x : BitVec n) : got ([.fed x] : List (Event n asz)) = [] := rfl

@[simp] theorem got_got (val : BitVec asz) : got ([.got val] : List (Event n asz)) = [val] := rfl

theorem getLsbD_shiftIn {m : Nat} (b : BitVec m) (x : BitVec n) {p : Nat} (hp : p < m) :
    (shiftIn b x).getLsbD p = if p < n then x.getLsbD p else b.getLsbD (p - n) := by
  simp [shiftIn, hp, BitVec.getLsbD_append]

/-- The last words that came fill the low end of the buffer. -/
theorem getLsbD_foldl_shiftIn {m : Nat} (words : List (BitVec n)) (b : BitVec m) {i : Nat}
    (hk : k < words.length) (hi : i < n) (hp : n * k + i < m) :
    (words.foldl shiftIn b).getLsbD (n * k + i) = (words.reverse)[k]?.any (·.getLsbD i) := by
  induction words using List.reverseRecOn generalizing k with
  | nil => simp at hk
  | append_singleton words x ih =>
    rw [List.foldl_append, List.foldl_cons, List.foldl_nil, getLsbD_shiftIn _ _ hp,
      List.reverse_append, List.reverse_singleton]
    cases k with
    | zero => simp [hi]
    | succ k =>
      have hStep : n * (k + 1) + i = n + (n * k + i) := by ring
      rw [hStep] at hp ⊢
      rw [if_neg (by omega), Nat.add_sub_cancel_left, ih (by simpa using hk) (by omega)]
      simp

theorem exists_enq (s : FromBit n asz) (h : s.fifo.items = []) (x : BitVec n) : ∃ s', s.enq x = some s' := by
  obtain ⟨fifo, hEnq, -⟩ := Fifo.exists_enq_nil h ((shiftIn s.fbnbuff x).setWidth asz)
  by_cases hLast : s.count = nwords n asz - 1
  · simp [enq, h, hLast, hEnq]
  · simp [enq, h, hLast]

/-- The message that a full set of words carries. -/
def rebuild (asz : Nat) (words : List (BitVec n)) : BitVec asz :=
  (words.foldl shiftIn (0 : BitVec (n * nwords n asz))).setWidth asz

theorem getLsbD_filled (hn : 0 < n) {words : List (BitVec n)} (hLength : words.length = nwords n asz)
    (b : BitVec (n * nwords n asz)) {p : Nat} (hp : p < asz) :
    (words.foldl shiftIn b).getLsbD p = wordsBit words p := by
  have hLe : asz ≤ n * nwords n asz := le_nwords hn
  have hk : p / n < words.length := by
    rw [hLength]
    exact Nat.div_lt_of_lt_mul (Nat.lt_of_lt_of_le hp hLe)
  have hSplit : n * (p / n) + p % n = p := Nat.div_add_mod p n
  have h := getLsbD_foldl_shiftIn words b hk (Nat.mod_lt p hn) (by omega)
  rwa [hSplit] at h

/-- What the buffer contained before does not matter. -/
theorem setWidth_foldl_shiftIn (hn : 0 < n) {words : List (BitVec n)}
    (hLength : words.length = nwords n asz) (b : BitVec (n * nwords n asz)) :
    (words.foldl shiftIn b).setWidth asz = rebuild asz words := by
  apply BitVec.eq_of_getLsbD_eq
  intro p hp
  rw [rebuild, BitVec.getLsbD_setWidth, BitVec.getLsbD_setWidth, getLsbD_filled hn hLength b hp,
    getLsbD_filled hn hLength 0 hp]

theorem rebuild_messageWords (hn : 0 < n) (x : BitVec asz) : rebuild asz (messageWords n x) = x := by
  apply BitVec.eq_of_getLsbD_eq
  intro p hp
  rw [rebuild, BitVec.getLsbD_setWidth, getLsbD_filled hn (length_messageWords x) 0 hp,
    wordsBit_messageWords hn x]
  simp [hp]

/-- The words that came are full sets of words, each of which was made a message,
and the words that are counted in the buffer. -/
structure Inv (trace : List (Event n asz)) (s : FromBit n asz) (sets : List (List (BitVec n)))
    (part : List (BitVec n)) : Prop where
  fed_eq : fed trace = sets.flatten ++ part
  full : ∀ set ∈ sets, set.length = nwords n asz
  count_eq : part.length = s.count
  count_lt : s.count < nwords n asz
  buffer : ∃ b, s.fbnbuff = part.foldl shiftIn b
  messages : got trace ++ s.fifo.items = sets.map (rebuild asz)

variable {trace : List (Event n asz)} {s : FromBit n asz}

/-- Messages leave in order, for every interleaving of words and messages. -/
theorem run_inv (hn : 0 < n) (hSize : 0 < asz)
    (run : (machine n asz).Run (fun _ _ _ => True) s trace) : ∃ sets part, Inv trace s sets part := by
  have hPos := nwords_pos hn hSize
  refine run.invariant (fun trace s => ∃ sets part, Inv trace s sets part) ?_ ?_
  · rintro s rfl
    exact ⟨[], [], rfl, by simp, rfl, hPos, ⟨0, rfl⟩, rfl⟩
  · rintro trace s action s' events ⟨sets, part, hInv⟩ - hFire
    obtain ⟨b, hBuffer⟩ := hInv.buffer
    cases action with
    | enq x =>
      simp only [machine, fire, enq, firing] at hFire
      obtain ⟨t, ⟨-, hFire⟩, rfl, rfl⟩ := hFire
      have hNext : shiftIn s.fbnbuff x = (part ++ [x]).foldl shiftIn b := by
        rw [hBuffer, List.foldl_append, List.foldl_cons, List.foldl_nil]
      split at hFire
      · next hLast =>
        simp only [firing] at hFire
        obtain ⟨fifo, ⟨-, hItems⟩, rfl⟩ := hFire
        have hFull : (part ++ [x]).length = nwords n asz := by
          rw [List.length_append, hInv.count_eq, List.length_singleton]
          omega
        refine ⟨sets ++ [part ++ [x]], [], ?_, ?_, rfl, hPos, ⟨_, rfl⟩, ?_⟩
        · simp [hInv.fed_eq]
        · intro set hSet
          rcases List.mem_append.mp hSet with hSet | hSet
          · exact hInv.full set hSet
          · rw [List.mem_singleton.mp hSet]
            exact hFull
        · rw [hItems, hNext, setWidth_foldl_shiftIn hn hFull, got_append, got_fed,
            List.append_nil, ← List.append_assoc, hInv.messages]
          simp
      · next hMore =>
        cases hFire
        have hCount := hInv.count_lt
        refine ⟨sets, part ++ [x], ?_, hInv.full, ?_, ?_, ⟨b, hNext⟩, ?_⟩
        · simp [hInv.fed_eq]
        · simp [hInv.count_eq]
        · show s.count + 1 < nwords n asz
          omega
        · simpa using hInv.messages
    | take =>
      simp only [machine, fire, take, firing] at hFire
      obtain ⟨_, _, ⟨x, fifo, hItems, rfl, rfl⟩, rfl, rfl⟩ := hFire
      refine ⟨sets, part, ?_, hInv.full, hInv.count_eq, hInv.count_lt, ⟨b, hBuffer⟩, ?_⟩
      · simp [hInv.fed_eq]
      · rw [got_append, got_got, List.append_assoc, List.singleton_append, ← hItems,
          hInv.messages]

theorem length_flatten_full {sets : List (List (BitVec n))}
    (h : ∀ set ∈ sets, set.length = k) : sets.flatten.length = sets.length * k := by
  rw [List.length_flatten, List.map_congr_left h, List.map_const', List.sum_replicate_nat]

theorem sets_unique {sets sets' : List (List (BitVec n))}
    (h : ∀ set ∈ sets, set.length = k) (h' : ∀ set ∈ sets', set.length = k)
    {part part' : List (BitVec n)} (hPart : part.length < k) (hPart' : part'.length < k)
    (hEq : sets.flatten ++ part = sets'.flatten ++ part') : sets = sets' ∧ part = part' := by
  have hLength := congrArg List.length hEq
  induction sets generalizing sets' with
  | nil =>
    cases sets' with
    | nil => exact ⟨rfl, hEq⟩
    | cons set sets' =>
      simp only [List.flatten_nil, List.flatten_cons, counting, h' set List.mem_cons_self] at hLength
      omega
  | cons set sets ih =>
    cases sets' with
    | nil =>
      simp only [List.flatten_cons, List.flatten_nil, counting, h set List.mem_cons_self] at hLength
      omega
    | cons set' sets' =>
      rw [List.flatten_cons, List.flatten_cons, List.append_assoc, List.append_assoc] at hEq
      obtain ⟨rfl, hRest⟩ := List.append_inj hEq
        ((h set List.mem_cons_self).trans (h' set' List.mem_cons_self).symm)
      obtain ⟨rfl, hSame⟩ := ih (fun s hs => h s (List.mem_cons_of_mem _ hs))
        (fun s hs => h' s (List.mem_cons_of_mem _ hs)) hRest (congrArg List.length hRest)
      exact ⟨rfl, hSame⟩

/-- The words of messages, and fewer words than the next one has, become these messages. -/
theorem messages_rebuilt (hn : 0 < n) (hSize : 0 < asz)
    (run : (machine n asz).Run (fun _ _ _ => True) s trace)
    {msgs : List (BitVec asz)} {rest : List (BitVec n)} (hRest : rest.length < nwords n asz)
    (hFed : fed trace = msgs.flatMap (messageWords n) ++ rest) :
    got trace ++ s.fifo.items = msgs ∧ rest.length = s.count := by
  obtain ⟨sets, part, hInv⟩ := run_inv hn hSize run
  have hParts := hInv.fed_eq.symm.trans hFed
  rw [List.flatMap_def] at hParts
  obtain ⟨rfl, rfl⟩ := sets_unique hInv.full (by simp) (hInv.count_eq ▸ hInv.count_lt) hRest hParts
  refine ⟨?_, hInv.count_eq⟩
  rw [hInv.messages, List.map_map]
  simp [Function.comp_def, rebuild_messageWords hn]

theorem messages_counted (hn : 0 < n) (hSize : 0 < asz)
    (run : (machine n asz).Run (fun _ _ _ => True) s trace) :
    (got trace ++ s.fifo.items).length = (fed trace).length / nwords n asz := by
  obtain ⟨sets, part, hInv⟩ := run_inv hn hSize run
  rw [hInv.messages, hInv.fed_eq, List.length_map, List.length_append,
    length_flatten_full hInv.full, hInv.count_eq, Nat.add_comm, Nat.mul_comm,
    Nat.add_mul_div_left _ _ (nwords_pos hn hSize), Nat.div_eq_of_lt hInv.count_lt, Nat.zero_add]

end FromBit

/-! ### The two registers connected -/

/-- The words of `mkToBit` go to `mkFromBit`. -/
structure Adapter (n asz : Nat) where
  toBit : ToBit n asz
  fromBit : FromBit n asz

namespace Adapter

variable {n asz : Nat}

inductive Action (asz : Nat) where
  | enq (val : BitVec asz)
  | transfer
  | take

/-- What either of the registers does. -/
abbrev Event (n asz : Nat) := ToBit.Event n asz ⊕ FromBit.Event n asz

def fire : Action asz → Adapter n asz → Option (Adapter n asz × List (Event n asz))
  | .enq val, s => do
      let toBit ← s.toBit.enq val
      pure ({ s with toBit }, [.inl (.put val)])
  | .transfer, s => do
      let w ← s.toBit.first
      let toBit ← s.toBit.deq
      let fromBit ← s.fromBit.enq w
      pure (⟨toBit, fromBit⟩, [.inl (.word w), .inr (.fed w)])
  | .take, s => do
      let (val, fromBit) ← s.fromBit.take
      pure ({ s with fromBit }, [.inr (.got val)])

def machine (n asz : Nat) : Machine (Adapter n asz) (Action asz) (Event n asz) :=
  ⟨fun s => s = ⟨.powerUp, .powerUp⟩, fire⟩

def sent (trace : List (Event n asz)) : List (BitVec asz) := ToBit.puts (trace.filterMap Sum.getLeft?)

def transferred (trace : List (Event n asz)) : List (BitVec n) := FromBit.fed (trace.filterMap Sum.getRight?)

def delivered (trace : List (Event n asz)) : List (BitVec asz) := FromBit.got (trace.filterMap Sum.getRight?)

variable {s : Adapter n asz} {trace : List (Event n asz)}

attribute [local simp] List.filterMap_cons sent transferred

/-- Each register runs by itself, and the words that leave one of them enter the other. -/
structure Linked (trace : List (Event n asz)) (s : Adapter n asz) : Prop where
  toBit : (ToBit.machine n asz).Run (fun _ _ _ => True) s.toBit (trace.filterMap Sum.getLeft?)
  fromBit : (FromBit.machine n asz).Run (fun _ _ _ => True) s.fromBit (trace.filterMap Sum.getRight?)
  words : transferred trace = ToBit.words (trace.filterMap Sum.getLeft?)

theorem run_linked (run : (machine n asz).Run (fun _ _ _ => True) s trace) : Linked trace s := by
  refine run.invariant Linked ?_ ?_
  · rintro _ rfl
    exact ⟨⟨_, rfl, .refl⟩, ⟨_, rfl, .refl⟩, rfl⟩
  · rintro trace s action s' events ⟨hTo, hFrom, hWords⟩ - hFire
    cases action
    all_goals simp only [machine, fire, firing] at hFire
    case enq val =>
      obtain ⟨t, hEnq, rfl, rfl⟩ := hFire
      have hTo' := hTo.next (.enq val) trivial (by simp only [ToBit.machine, ToBit.fire, hEnq]; rfl)
      exact ⟨by simpa using hTo', by simpa using hFrom, by simpa using hWords⟩
    case transfer =>
      obtain ⟨w, hFirst, t, hDeq, f, hEnq, rfl, rfl⟩ := hFire
      have hTo' := hTo.next .take trivial (by simp only [ToBit.machine, ToBit.fire, hFirst, hDeq]; rfl)
      have hFrom' := hFrom.next (.enq w) trivial (by simp only [FromBit.machine, FromBit.fire, hEnq]; rfl)
      exact ⟨by simpa using hTo', by simpa using hFrom', by simpa using hWords⟩
    case take =>
      obtain ⟨val, f, hTake, rfl, rfl⟩ := hFire
      have hFrom' := hFrom.next .take trivial (by simp only [FromBit.machine, FromBit.fire, hTake]; rfl)
      exact ⟨by simpa using hTo, by simpa using hFrom', by simpa using hWords⟩

section

variable (hn : 0 < n) (hSize : 0 < asz)

include hn hSize

/-- The values that have been put together are the first ones, each of them from its own words. -/
theorem Linked.rebuilt (h : Linked trace s) :
    delivered trace ++ s.fromBit.fifo.items <+: sent trace ∧
      (∃ part, part.length = s.fromBit.count ∧
        transferred trace = (delivered trace ++ s.fromBit.fifo.items).flatMap (messageWords n) ++ part) ∧
      (s.toBit.fifo.items = [] → delivered trace ++ s.fromBit.fifo.items = sent trace) := by
  obtain ⟨values, part, hPrefix, hPart, hWords, -, hAll, -⟩ := ToBit.run_words hn hSize h.toBit
  obtain ⟨hValues, hCount⟩ := FromBit.messages_rebuilt hn hSize h.fromBit hPart (h.words.trans hWords)
  rw [delivered, hValues]
  exact ⟨hPrefix, ⟨part, hCount, h.words.trans hWords⟩, fun hEmpty => (hAll hEmpty).1⟩

/-- All values that have been put in can be delivered. -/
theorem exists_delivered (run : (machine n asz).Run (fun _ _ _ => True) s trace) :
    ∃ s' trace', (machine n asz).Continues (fun _ _ _ => True) (s, trace) (s', trace') ∧ sent trace' = sent trace ∧
      delivered trace' = sent trace := by
  refine Machine.exists_continues (n := 2 * s.toBit.left + s.fromBit.fifo.items.length)
    (fun k trace' s' => (machine n asz).Run (fun _ _ _ => True) s' trace' ∧
      k = 2 * s'.toBit.left + s'.fromBit.fifo.items.length ∧ sent trace' = sent trace)
    (fun trace' _ => sent trace' = sent trace ∧ delivered trace' = sent trace) ?_ ⟨run, rfl, rfl⟩
  rintro _ trace' s' ⟨run', rfl, hSent⟩
  have h := run_linked run'
  by_cases hFifo : s'.fromBit.fifo.items = []
  · by_cases hItems : s'.toBit.fifo.items = []
    · obtain ⟨-, -, hAll⟩ := h.rebuilt hn hSize
      rw [hFifo, List.append_nil] at hAll
      exact .inl ⟨hSent, (hAll hItems).trans hSent⟩
    · obtain ⟨-, -, -, -, -, -, -, hCount⟩ := ToBit.run_words hn hSize h.toBit
      obtain ⟨w, t, hFirst, hDeq, hLess⟩ := ToBit.exists_word hItems hCount
      obtain ⟨f, hEnq⟩ := s'.fromBit.exists_enq hFifo w
      have hBound := f.fifo.bound
      have hFire : (machine n asz).fire .transfer s' = some (⟨t, f⟩, [.inl (.word w), .inr (.fed w)]) := by
        simp only [machine, fire, hFirst, hDeq, some_bind, hEnq]
        rfl
      refine .inr ⟨_, ?_, .transfer, _, _, trivial, hFire, run'.next _ trivial hFire, rfl, by simpa using hSent⟩
      rw [hFifo]
      show 2 * t.left + f.fifo.items.length < 2 * s'.toBit.left
      omega
  · obtain ⟨val, q, hDeq, hItems⟩ := Fifo.exists_deq_of_ne_nil hFifo
    have hFire : (machine n asz).fire .take s' = some ({ s' with fromBit.fifo := q }, [.inr (.got val)]) := by
      simp only [machine, fire, FromBit.take, hDeq]
      rfl
    refine .inr ⟨_, ?_, .take, _, _, trivial, hFire, run'.next _ trivial hFire, rfl, by simpa using hSent⟩
    rw [hItems, List.length_cons]
    exact Nat.lt_succ_self _

end

/-- Every value leaves `mkToBit` as its words, the most significant word first, and `mkFromBit`
puts the values together again, each of them from its own words. -/
theorem adapter_delivers (hn : 0 < n) (hSize : 0 < asz) :
    (∀ x : BitVec asz, (messageWords n x).length = (asz + n - 1) / n ∧
      ∀ p, wordsBit (messageWords n x) p = x.getLsbD p) ∧
    (∀ s trace, (ToBit.machine n asz).Run (fun _ _ _ => True) s trace →
      ToBit.words trace <+: (ToBit.puts trace).flatMap (messageWords n) ∧
      ∃ s' trace', (ToBit.machine n asz).Continues (fun _ _ _ => True) (s, trace) (s', trace') ∧
        ToBit.puts trace' = ToBit.puts trace ∧ ToBit.words trace' = (ToBit.puts trace).flatMap (messageWords n)) ∧
    ∀ s trace, (machine n asz).Run (fun _ _ _ => True) s trace →
      delivered trace ++ s.fromBit.fifo.items <+: sent trace ∧
      (∃ part, part.length = s.fromBit.count ∧
        transferred trace = (delivered trace ++ s.fromBit.fifo.items).flatMap (messageWords n) ++ part) ∧
      ∃ s' trace', (machine n asz).Continues (fun _ _ _ => True) (s, trace) (s', trace') ∧ sent trace' = sent trace ∧
        delivered trace' = sent trace := by
  refine ⟨fun x => ⟨length_messageWords x, wordsBit_messageWords hn x⟩, fun s trace run => ?_, fun s trace run => ?_⟩
  · obtain ⟨-, -, -, -, -, hPrefix, -⟩ := ToBit.run_words hn hSize run
    exact ⟨hPrefix, ToBit.exists_drained hn hSize run⟩
  · obtain ⟨hPrefix, hParts, -⟩ := (run_linked run).rebuilt hn hSize
    exact ⟨hPrefix, hParts, exists_delivered hn hSize run⟩

/-- A value of five bits on a bus of two bits has three words. -/
theorem adapter_delivers_five_bits : 0 < 2 ∧ 0 < 5 ∧ messageWords 2 (0x13 : BitVec 5) = [1, 0, 3] ∧
    ∀ p, wordsBit [(1 : BitVec 2), 0, 3] p = (0x13 : BitVec 5).getLsbD p :=
  ⟨by decide, by decide, rfl, ((@adapter_delivers 2 5 (by decide) (by decide)).1 0x13).2⟩

end Adapter
end Connectal
