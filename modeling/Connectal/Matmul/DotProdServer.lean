import Connectal.Matmul.DotProdRun
import Connectal.Rules.Bank

/-! The dot product server over whole streams of batches. Every batch that was put
into both inputs is answered with one dot product on each pipe, in the order of the
batches, however long multiplier and adder take. -/
namespace Connectal

open Rules Layout

namespace DotProd

variable {S : Type} {k mulDepth addDepth : Nat}

/-- What counts about a token. -/
def value (tok : MmToken S) : S × Bool := (tok.v, tok.last)

def aPuts (trace : List (Event S k)) : List (S × Bool) :=
  trace.filterMap fun | .aPut tok => some (value tok) | _ => none

def bPuts (trace : List (Event S k)) : List (S × Bool) :=
  trace.filterMap fun | .bPut tok => some (value tok) | _ => none

/-- The dot products that left pipe `c`. -/
def delivered (c : Fin k) (trace : List (Event S k)) : List S :=
  trace.filterMap fun | .delivered c' v => if c' = c then some v else none | _ => none

section Projections

variable (trace : List (Event S k)) (c : Fin k)

theorem aPuts_append (events : List (Event S k)) : aPuts (trace ++ events) = aPuts trace ++ aPuts events :=
  List.filterMap_append

theorem bPuts_append (events : List (Event S k)) : bPuts (trace ++ events) = bPuts trace ++ bPuts events :=
  List.filterMap_append

end Projections

/-! The streams of a list of batches -/
section Streams

variable [Mul S] {batches : List (Batch S)}

def aStream (k : Nat) (batches : List (Batch S)) : List (S × Bool) := batches.flatMap (Batch.aTokens k)

def bStream (k : Nat) (batches : List (Batch S)) : List (S × Bool) := batches.flatMap (Batch.bTokens k)

def products (k : Nat) (batches : List (Batch S)) : List (S × Bool) := batches.flatMap fun B => B.terms k

theorem zipWith_streams (k : Nat) (batches : List (Batch S)) :
    List.zipWith (fun x y : S × Bool => (x.1 * y.1, x.2)) (aStream k batches) (bStream k batches) =
      products k batches := by
  induction batches with
  | nil => rfl
  | cons B rest ih =>
    rw [aStream, bStream, products, List.flatMap_cons, List.flatMap_cons, List.flatMap_cons,
      List.zipWith_append (by simp), Batch.zipWith_tokens]
    exact congrArg _ ih

theorem length_aStream (k : Nat) (batches : List (Batch S)) :
    (aStream k batches).length = (products k batches).length := by
  simp [aStream, products, List.length_flatMap]

theorem length_bStream (k : Nat) (batches : List (Batch S)) :
    (bStream k batches).length = (products k batches).length := by
  simp [bStream, products, List.length_flatMap]

/-- How many tokens the first `d` batches have. -/
def base (k : Nat) (batches : List (Batch S)) (d : Nat) : Nat := (products k (batches.take d)).length

theorem base_succ {d : Nat} {B : Batch S} (hB : batches[d]? = some B) :
    base k batches (d + 1) = base k batches d + B.rows * k := by
  rw [base, List.take_add_one, hB, products, List.flatMap_append, List.length_append]
  simp [base, products]

theorem base_le (k : Nat) (batches : List (Batch S)) (d : Nat) :
    base k batches d ≤ (products k batches).length := by
  conv_rhs => rw [← List.take_append_drop d batches, products, List.flatMap_append, List.length_append]
  exact Nat.le_add_right _ _

theorem getElem?_products {d j : Nat} {B : Batch S} (hB : batches[d]? = some B) (hj : j < B.rows * k) :
    (products k batches)[base k batches d + j]? = (B.terms k)[j]? := by
  obtain ⟨hd, rfl⟩ := List.getElem_of_getElem? hB
  have hSplit : products k batches = products k (batches.take d) ++
      ((batches[d].terms k) ++ products k (batches.drop (d + 1))) := by
    conv_lhs => rw [← List.take_append_drop d batches, List.drop_eq_getElem_cons hd]
    rw [products, List.flatMap_append, List.flatMap_cons]
    rfl
  rw [hSplit, base, List.getElem?_append_right (Nat.le_add_right _ _), Nat.add_sub_cancel_left,
    List.getElem?_append_left (by simpa using hj)]

omit [Mul S] in
theorem next_of_fed {n : Nat} {stream puts : List (S × Bool)} {tok : MmToken S} {rest : List (MmToken S)}
    (hn : n ≤ stream.length) (hFed : puts <+: stream)
    (hPuts : puts = stream.take n ++ (tok :: rest).map value) :
    stream[n]? = some (value tok) ∧ puts = stream.take (n + 1) ++ rest.map value := by
  have hTake : (stream.take n).length = n := by
    rw [List.length_take]
    exact Nat.min_eq_left hn
  have hGet : puts[n]? = some (value tok) := by
    rw [hPuts, List.getElem?_append_right (Nat.le_of_eq hTake), hTake, Nat.sub_self]
    rfl
  have hNext : stream[n]? = some (value tok) := by
    obtain ⟨more, hMore⟩ := hFed
    rw [← hMore, List.getElem?_append_left (List.getElem_of_getElem? hGet).1, hGet]
  refine ⟨hNext, ?_⟩
  rw [hPuts, List.take_add_one, hNext]
  simp

end Streams

section Invariant

variable [NonUnitalNonAssocSemiring S] [NeZero k]

/-- Both inputs are fed with the tokens of the batches. -/
def feeds (batches : List (Batch S)) :
    Machine.Contract (DotProd S k mulDepth addDepth) (Action S k) (Event S k) := fun trace _ a =>
  match a with
  | .aPut tok => aPuts trace ++ [value tok] <+: aStream k batches
  | .bPut tok => bPuts trace ++ [value tok] <+: bStream k batches
  | _ => True

/-- A batch without rows. -/
def Batch.empty : Batch S := ⟨0, fun _ _ => 0, fun _ _ => 0⟩

/-- Of the token pairs, `n` are multiplied; `d` batches are done; of the next batch,
`j` tokens are taken and `o` dot products are out. -/
structure Inv (batches : List (Batch S)) (trace : List (Event S k)) (s : DotProd S k mulDepth addDepth)
    (n d j o : Nat) : Prop where
  aFed : aPuts trace <+: aStream k batches
  bFed : bPuts trace <+: bStream k batches
  aWaits : aPuts trace = (aStream k batches).take n ++ s.afifo.items.map value
  bWaits : bPuts trace = (bStream k batches).take n ++ s.bfifo.items.map value
  multiplied : n ≤ (products k batches).length
  flight : ((products k batches).take n).drop (base k batches d + j) =
    s.mul.items.zip (s.flFifo.items.map Prod.snd)
  marks : s.flFifo.items.length = s.mul.items.length
  taken : base k batches d + j ≤ n
  current : (j = 0 ∧ s.gatherPhase = false) ∨ d < batches.length
  done : d ≤ batches.length
  mode : Mode s (batches[d]?.getD Batch.empty) j o
  outs : o < k
  outputs : ∀ c : Fin k, delivered c trace ++ (s.dotfifos c).items =
    (batches.take (d + if c < o then 1 else 0)).map fun B => B.dot c

variable {batches : List (Batch S)} {trace : List (Event S k)} {s s' : DotProd S k mulDepth addDepth}
  {n d j o : Nat}

theorem reset_inv (batches : List (Batch S)) :
    Inv batches [] (reset : DotProd S k mulDepth addDepth) 0 0 0 0 := by
  have hCircle : (reset : DotProd S k mulDepth addDepth).circle = [] := rfl
  refine ⟨List.nil_prefix, List.nil_prefix, rfl, rfl, Nat.zero_le _, ?_, rfl, ?_, .inl ⟨rfl, rfl⟩,
    Nat.zero_le _, ?_, Nat.pos_of_neZero k, fun c => ?_⟩
  · rw [List.take_zero, List.drop_nil]
    rfl
  · rfl
  · refine .accumulating ⟨rfl, by rw [Nat.zero_min]; rfl, by rw [Nat.zero_sub]; rfl,
      by rw [Nat.zero_mod]; rfl, rfl, rfl, rfl, rfl, by rw [Nat.zero_min]; rfl, ?_⟩ (.inl rfl) rfl
    intro c hc
    rw [hCircle, List.take_zero]
    rfl
  · rw [if_neg (Nat.not_lt_zero _), List.take_zero]
    rfl

section

variable (h : Inv batches trace s n d j o)

include h

theorem Inv.multiply (hStep : s.multiply = some s') :
    Inv batches trace s' (n + 1) d j o := by
  simp only [DotProd.multiply, firing] at hStep
  obtain ⟨a, afifo, hA, b, bfifo, hB, flFifo, ⟨-, hFl⟩, mul, ⟨-, hMul⟩, rfl⟩ := hStep
  have hAPuts := h.aWaits
  have hBPuts := h.bWaits
  rw [hA] at hAPuts
  rw [hB] at hBPuts
  obtain ⟨hA', hAPuts⟩ := next_of_fed (by rw [length_aStream]; exact h.multiplied) h.aFed hAPuts
  obtain ⟨hB', hBPuts⟩ := next_of_fed (by rw [length_bStream]; exact h.multiplied) h.bFed hBPuts
  have hProduct : (products k batches)[n]? = some (a.v * b.v, a.last) := by
    rw [← zipWith_streams, List.getElem?_zipWith, hA', hB']
    rfl
  have hLess : n < (products k batches).length := (List.getElem_of_getElem? hProduct).1
  refine ⟨h.aFed, h.bFed, hAPuts, hBPuts, hLess, ?_, ?_, Nat.le_succ_of_le h.taken, h.current, h.done,
    h.mode.keep rfl, h.outs, h.outputs⟩
  · rw [List.take_add_one, hProduct, List.drop_append_of_le_length, h.flight, hMul, hFl, List.map_append,
      List.zip_append (by rw [List.length_map, h.marks])]
    · rfl
    · rw [List.length_take, Nat.min_eq_left h.multiplied]
      exact h.taken
  · rw [hFl, hMul, List.length_append, List.length_append, h.marks]
    rfl

theorem Inv.accumulate (hRows : ∀ B ∈ batches, gatherSz k ≤ B.rows)
    (hStep : s.accumulate = some s') : Inv batches trace s' n d (j + 1) o := by
  have hk := Nat.pos_of_neZero k
  have hG := gatherSz_pos k
  obtain ⟨p, last, hAcc⟩ := accumulate_accumulates hStep
  obtain ⟨hA, hMore, hOuts⟩ := h.mode.accumulating_of hAcc.phase
  have hFlight := h.flight
  rw [hAcc.mul, hAcc.marks, List.zip_cons_cons] at hFlight
  have hTerm : ((products k batches).take n)[base k batches d + j]? = some (p, last) := by
    have hHead := congrArg (fun l => l[0]?) hFlight
    simpa using hHead
  have hLess : base k batches d + j < n := by
    have hIn := (List.getElem_of_getElem? hTerm).1
    rw [List.length_take] at hIn
    omega
  rw [List.getElem?_take_of_lt hLess] at hTerm
  have hd : d < batches.length := by
    by_contra hd
    have hEnd : base k batches d = (products k batches).length := by
      rw [base, List.take_of_length_le (by omega)]
    have := h.multiplied
    omega
  have hB : batches[d]? = some batches[d] := List.getElem?_eq_getElem hd
  have hEnough := hRows _ (List.getElem_mem hd)
  rw [hB, Option.getD_some] at hA hMore
  have hj : j < batches[d].rows * k := by
    have hPos : 0 < batches[d].rows * k := Nat.mul_pos (by omega) hk
    omega
  rw [getElem?_products hB hj] at hTerm
  refine ⟨h.aFed, h.bFed, by rw [hAcc.afifo]; exact h.aWaits, by rw [hAcc.bfifo]; exact h.bWaits, h.multiplied,
    ?_, ?_, hLess, .inr hd, h.done, ?_, h.outs, by rw [hAcc.dotfifos]; exact h.outputs⟩
  · have hTail := congrArg List.tail hFlight
    rwa [List.tail_drop, List.tail_cons] at hTail
  · have hMarks := h.marks
    have hLength := congrArg List.length hAcc.marks
    rw [List.length_map, List.length_cons, List.length_map] at hLength
    rw [hAcc.mul, List.length_cons] at hMarks
    omega
  · rw [hB, Option.getD_some, hOuts]
    exact hA.step hAcc hj hTerm hEnough

/-- A step of a pass. The last dot product of a batch ends the batch. -/
theorem Inv.gather (hStep : s.gather = some s') :
    (s'.gatherPhase = true ∧ ∃ o', Inv batches trace s' n d j o') ∨
      (s'.gatherPhase = false ∧ Inv batches trace s' n (d + 1) 0 0) := by
  obtain ⟨hFrame, hGathers⟩ := gather_gathers hStep
  have hd : d < batches.length := by
    rcases h.current with ⟨-, hPhase⟩ | hd
    · exact absurd (hPhase.symm.trans hFrame.phase) (by decide)
    · exact hd
  have hB : batches[d]? = some batches[d] := List.getElem?_eq_getElem hd
  have hMode := h.mode
  rw [hB, Option.getD_some] at hMode
  have hInputs : ∀ {d' j' o' : Nat}, base k batches d' + j' = base k batches d + j → d' ≤ batches.length →
      ((j' = 0 ∧ s'.gatherPhase = false) ∨ d' < batches.length) → o' < k →
      Mode s' (batches[d']?.getD Batch.empty) j' o' →
      (∀ c : Fin k, delivered c trace ++ (s'.dotfifos c).items =
        (batches.take (d' + if c < o' then 1 else 0)).map fun B => B.dot c) →
      Inv batches trace s' n d' j' o' := by
    intro d' j' o' hSame hd' hCurrent ho' hMode' hOutputs
    exact ⟨h.aFed, h.bFed, by rw [hFrame.afifo]; exact h.aWaits, by rw [hFrame.bfifo]; exact h.bWaits,
      h.multiplied, by rw [hSame, hFrame.mul, hFrame.flFifo]; exact h.flight,
      by rw [hFrame.mul, hFrame.flFifo]; exact h.marks, by rw [hSame]; exact h.taken, hCurrent, hd', hMode',
      ho', hOutputs⟩
  rcases hMode.gather hFrame hGathers with ⟨rfl, hPhase, hDot, hNext⟩ | ⟨rfl, hAll, ⟨q, hq, hDot⟩, hNext⟩
  · refine .inl ⟨hPhase, 0, hInputs rfl h.done (.inr hd) h.outs ?_ (by rw [hDot]; exact h.outputs)⟩
    rw [hB, Option.getD_some]
    exact hNext
  · -- The dot product of this row is the one of the batch that is not done yet.
    have hOut : ∀ c : Fin k, delivered c trace ++ (s'.dotfifos c).items =
        (batches.take (d + if (c : Nat) < s.rowReg + 1 then 1 else 0)).map fun B => B.dot c := by
      intro c
      by_cases hc : c = s.rowReg
      · subst hc
        have hBefore := h.outputs s.rowReg
        rw [if_neg (Nat.lt_irrefl _), Nat.add_zero] at hBefore
        rw [hDot, Function.update_self, hq, ← List.append_assoc, hBefore, if_pos (Nat.lt_succ_self _),
          List.take_add_one, hB, List.map_append]
        rfl
      · have hNe : (c : Nat) ≠ s.rowReg := fun hEq => hc (Fin.ext hEq)
        have hSame : ((c : Nat) < s.rowReg + 1) ↔ ((c : Nat) < s.rowReg) := by omega
        rw [hDot, Function.update_of_ne hc, h.outputs c]
        simp only [hSame]
    rcases hNext with ⟨hRow, hPhase, hMode'⟩ | ⟨hRow, hReady⟩
    · refine .inl ⟨hPhase, s.rowReg + 1, hInputs rfl h.done (.inr hd) hRow ?_ hOut⟩
      rw [hB, Option.getD_some]
      exact hMode'
    · have hReady' := hReady (batches[d + 1]?.getD Batch.empty)
      refine .inr ⟨hReady'.phase, hInputs ?_ hd (.inl ⟨rfl, hReady'.phase⟩) (Nat.pos_of_neZero k)
        (.accumulating hReady' (.inl rfl) rfl) ?_⟩
      · rw [base_succ hB, hAll, Nat.add_zero]
      · intro c
        have hOut' := hOut c
        rw [if_pos (by omega)] at hOut'
        rw [hOut', if_neg (Nat.not_lt_zero _), Nat.add_zero]

theorem Inv.connectAdderBuffer (hStep : s.connectAdderBuffer = some s') :
    Inv batches trace s' n d j o := by
  simp only [DotProd.connectAdderBuffer, firing] at hStep
  obtain ⟨acc, adder, hAdder, buffer, ⟨-, hBuffer⟩, rfl⟩ := hStep
  exact { h with mode := h.mode.keep (by simp [circle, hAdder, hBuffer]) }

attribute [local simp] DotProd.aPuts DotProd.bPuts delivered

theorem Inv.pipeDeq {c : Fin k} {v : S} (hStep : s.pipeDeq c = some (v, s')) :
    Inv batches (trace ++ [.delivered c v]) s' n d j o := by
  simp only [DotProd.pipeDeq, firing] at hStep
  obtain ⟨v, q, hItems, rfl, rfl⟩ := hStep
  refine ⟨by simpa using h.aFed, by simpa using h.bFed, by simpa using h.aWaits, by simpa using h.bWaits,
    h.multiplied, h.flight, h.marks, h.taken, h.current, h.done, h.mode.keep rfl, h.outs, fun c' => ?_⟩
  rw [← h.outputs c', items_update_deq hItems c']
  by_cases hc : c = c' <;> simp [hc]

theorem Inv.step (hRows : ∀ B ∈ batches, gatherSz k ≤ B.rows)
    {a : Action S k} {events : List (Event S k)} (hOk : feeds batches trace s a)
    (hFire : (machine S k mulDepth addDepth).fire a s = some (s', events)) :
    ∃ n' d' j' o', Inv batches (trace ++ events) s' n' d' j' o' := by
  cases a with
  | aPut tok =>
    simp only [machine, fire, DotProd.aPut, firing] at hFire
    obtain ⟨_, ⟨afifo, ⟨-, hItems⟩, rfl⟩, rfl, rfl⟩ := hFire
    exact ⟨n, d, j, o, by simpa [feeds] using hOk, by simpa using h.bFed,
      by simpa [hItems] using congrArg (· ++ [value tok]) h.aWaits, by simpa using h.bWaits, h.multiplied, h.flight, h.marks, h.taken, h.current, h.done, h.mode.keep rfl,
      h.outs, by simpa using h.outputs⟩
  | bPut tok =>
    simp only [machine, fire, DotProd.bPut, firing] at hFire
    obtain ⟨_, ⟨bfifo, ⟨-, hItems⟩, rfl⟩, rfl, rfl⟩ := hFire
    exact ⟨n, d, j, o, by simpa using h.aFed, by simpa [feeds] using hOk, by simpa using h.aWaits,
      by simpa [hItems] using congrArg (· ++ [value tok]) h.bWaits, h.multiplied, h.flight, h.marks, h.taken, h.current, h.done,
      h.mode.keep rfl, h.outs, by simpa using h.outputs⟩
  | multiply =>
    obtain ⟨_, hStep, hEq⟩ := Option.map_eq_some_iff.mp hFire
    cases hEq
    rw [List.append_nil]
    exact ⟨_, _, _, _, h.multiply hStep⟩
  | accumulate =>
    obtain ⟨_, hStep, hEq⟩ := Option.map_eq_some_iff.mp hFire
    cases hEq
    rw [List.append_nil]
    exact ⟨_, _, _, _, h.accumulate hRows hStep⟩
  | connectAdderBuffer =>
    obtain ⟨_, hStep, hEq⟩ := Option.map_eq_some_iff.mp hFire
    cases hEq
    rw [List.append_nil]
    exact ⟨_, _, _, _, h.connectAdderBuffer hStep⟩
  | gather =>
    obtain ⟨_, hStep, hEq⟩ := Option.map_eq_some_iff.mp hFire
    cases hEq
    rw [List.append_nil]
    rcases h.gather hStep with ⟨-, o', h'⟩ | ⟨-, h'⟩ <;> exact ⟨_, _, _, _, h'⟩
  | pipeDeq c =>
    obtain ⟨⟨v, _⟩, hStep, hEq⟩ := Option.map_eq_some_iff.mp hFire
    cases hEq
    exact ⟨_, _, _, _, h.pipeDeq hStep⟩

end

theorem run_inv (hRows : ∀ B ∈ batches, gatherSz k ≤ B.rows)
    (run : (machine S k mulDepth addDepth).Run (feeds batches) s trace) :
    ∃ n d j o, Inv batches trace s n d j o := by
  refine run.invariant (fun trace s => ∃ n d j o, Inv batches trace s n d j o) ?_ ?_
  · rintro s rfl
    exact ⟨0, 0, 0, 0, reset_inv batches⟩
  · rintro trace s action s' events ⟨n, d, j, o, h⟩ hOk hFire
    exact h.step hRows hOk hFire

end Invariant

/-! The server gets on with its work -/
section Progress

variable [NonUnitalNonAssocSemiring S] [NeZero k] {batches : List (Batch S)} {trace : List (Event S k)}
  {s s' : DotProd S k mulDepth addDepth} {B : Batch S} {n d j o : Nat}

/-- How many steps of the passes over a batch are made. -/
def position (s : DotProd S k mulDepth addDepth) : Nat :=
  2 * k * s.gatherCnt + (if s.gReg then k else 0) + s.rowReg

/-- How many there are. -/
def passes (k : Nat) : Nat := 2 * k * (gatherSz k - 1) + k

/-- The passes go on step by step until the last one is over. -/
theorem position_step (h : Mode s B j o) (hFrame : GatherFrame s s') (hStep : Gathers s s') :
    (s'.gatherPhase = true ∧ position s' = position s + 1) ∨
      (s'.gatherPhase = false ∧ position s + 1 = passes k) := by
  have hRow := s.rowReg.isLt
  have hGathering : ∃ left, Gathering s left := by
    cases h with
    | accumulating h => exact absurd (h.phase.symm.trans hFrame.phase) (by decide)
    | aside left h | adding left h => exact ⟨left, h⟩
    | delivering h => exact ⟨1, h⟩
  obtain ⟨left, hG⟩ := hGathering
  have hRows : (s.lastRowReg = false ∧ (s'.rowReg : Nat) = s.rowReg + 1) ∨
      (s.lastRowReg = true ∧ (s.rowReg : Nat) + 1 = k ∧ (s'.rowReg : Nat) = 0) := by
    rw [hG.lastRow]
    by_cases hLast : (s.rowReg : Nat) + 1 = k
    · exact .inr ⟨decide_eq_true hLast, hLast, hFrame.toFrame.row_end hLast⟩
    · exact .inl ⟨decide_eq_false hLast, hFrame.toFrame.row_next (by omega)⟩
  cases hStep with
  | setsAside x hPass hReg hCircle hAside hReg' hCnt hPass' hDot hPhase =>
    refine .inl ⟨hPhase, ?_⟩
    rw [position, position, hReg, hReg', hCnt]
    rcases hRows with ⟨hLast, hNext⟩ | ⟨hLast, hEnd⟩ <;> simp [hLast] <;> omega
  | addsUp x y rest hPass hReg hCircle hCircle' hAside hReg' hCnt hPass' hDot hPhase =>
    refine .inl ⟨hPhase, ?_⟩
    rw [position, position, hReg, hReg', hCnt]
    rcases hRows with ⟨hLast, hNext⟩ | ⟨hLast, hEnd⟩ <;> simp [hLast, Nat.mul_add] <;> omega
  | delivers x hPass hCircle hDot hAside hReg' hMore hDone =>
    rcases hRows with ⟨hLast, hNext⟩ | ⟨hLast, hRowEnd, -⟩
    · obtain ⟨hCnt, -, hPhase⟩ := hMore hLast
      refine .inl ⟨hPhase, ?_⟩
      rw [position, position, hReg', hCnt]
      omega
    · obtain ⟨-, -, -, -, hPhase⟩ := hDone hLast
      refine .inr ⟨hPhase, ?_⟩
      have hOnly : s.gatherCnt = gatherSz k - 1 ∧ s.gReg = false := by
        rw [hG.lastPass, beq_iff_eq] at hPass
        cases h with
        | accumulating h => exact absurd (h.phase.symm.trans hFrame.phase) (by decide)
        | aside left h hLeft hAll hOuts hReg | delivering h hAll hOuts hReg => exact ⟨by omega, hReg⟩
        | adding left h hLeft =>
          have := h.gatherCnt
          omega
      rw [position, hOnly.1, hOnly.2, passes]
      simp
      omega

omit [NeZero k] in
theorem Mode.position_lt (h : Mode s B j o) (hPhase : s.gatherPhase = true) : position s < passes k := by
  have hRow := s.rowReg.isLt
  have hMul : ∀ {left : Nat}, Gathering s left → 1 ≤ left →
      2 * k * s.gatherCnt + 2 * k * (left - 1) = 2 * k * (gatherSz k - 1) := by
    intro left h hLeft
    have hCnt := h.gatherCnt
    rw [← Nat.mul_add]
    congr 1
    omega
  have hOne : ∀ {left : Nat}, 2 ≤ left → 2 * k ≤ 2 * k * (left - 1) := by
    intro left hLeft
    exact Nat.le_mul_of_pos_right _ (by omega)
  cases h with
  | accumulating h => exact absurd (h.phase.symm.trans hPhase) (by decide)
  | aside left h hLeft hAll hOuts hReg | adding left h hLeft hAll hOuts hReg =>
    have h₁ := hMul h (by omega)
    have h₂ := hOne hLeft
    rw [position, passes, hReg]
    simp
    omega
  | delivering h hAll hOuts hReg =>
    have h₁ := hMul h le_rfl
    rw [position, passes, hReg]
    simp
    omega

/-- What the queues hold, by the steps that it takes to get rid of it. -/
def load (s : DotProd S k mulDepth addDepth) : Nat :=
  3 * s.afifo.items.length + 2 * s.mul.items.length + s.adder.items.length +
    ∑ c, (s.dotfifos c).items.length

/-- The steps of the passes that are still to come, when `d` of the batches are done. -/
def ahead (batches : List (Batch S)) (d : Nat) (s : DotProd S k mulDepth addDepth) : Nat :=
  (batches.length - d) * passes k - if s.gatherPhase then position s else 0

def rank (batches : List (Batch S)) (d : Nat) (s : DotProd S k mulDepth addDepth) : Nat :=
  load s + 2 * ahead batches d s

theorem gather_lengths (h : s.gather = some s') :
    s'.adder.items.length + ∑ c, (s'.dotfifos c).items.length ≤
      s.adder.items.length + ∑ c, (s.dotfifos c).items.length + 1 := by
  have hFinish : s.finishCounters.adder = s.adder := by
    rw [finishCounters]
    split <;> rfl
  have hCounters : s.gatherCounters.adder = s.adder ∧ s.gatherCounters.dotfifos = s.dotfifos := by
    rw [gatherCounters]
    split <;> exact ⟨rfl, rfl⟩
  simp only [DotProd.gather, firing] at h
  obtain ⟨-, x, buffer, -, h⟩ := h
  split at h
  · simp only [firing] at h
    obtain ⟨q, ⟨-, hq⟩, rfl⟩ := h
    show s.finishCounters.adder.items.length + ∑ c, (Function.update s.dotfifos s.rowReg q c).items.length ≤ _
    have hSum := sum_update (fun _ f => f.items.length) s.dotfifos s.rowReg q
    rw [hq, List.length_append, List.length_singleton] at hSum
    rw [hFinish]
    omega
  · split at h
    · simp only [firing] at h
      obtain ⟨y, gFifo, -, adder, ⟨-, hAdder⟩, rfl⟩ := h
      show adder.items.length + ∑ c, (s.gatherCounters.dotfifos c).items.length ≤ _
      rw [hCounters.2, hAdder, List.length_append, List.length_singleton]
      omega
    · simp only [firing] at h
      obtain ⟨gFifo, -, rfl⟩ := h
      show s.gatherCounters.adder.items.length + ∑ c, (s.gatherCounters.dotfifos c).items.length ≤ _
      rw [hCounters.1, hCounters.2]
      omega

theorem accumulate_lengths (h : s.accumulate = some s') :
    s'.adder.items.length = s.adder.items.length + 1 := by
  simp only [DotProd.accumulate, firing] at h
  obtain ⟨-, _, _, _, -, _, _, -, _, _, -, adder, ⟨-, hAdder⟩, rfl⟩ := h
  rw [hAdder, List.length_append, List.length_singleton]

/-- What a pass finds in the circle and aside. -/
theorem Mode.gathering_of (h : Mode s B j o) (hPhase : s.gatherPhase = true) :
    0 < s.circle.length ∧ (s.gReg = true → 0 < s.gFifo.items.length) ∧
      (s.gReg ≠ true → s.gFifo.items.length < k) := by
  have hRow := s.rowReg.isLt
  cases h with
  | accumulating h => exact absurd (h.phase.symm.trans hPhase) (by decide)
  | aside left h hLeft hAll hOuts hReg hAside hLength =>
    have := Nat.le_mul_of_pos_left k (show 0 < left by omega)
    exact ⟨by omega, fun hAdds => absurd (hReg.symm.trans hAdds) (by decide), fun _ => by omega⟩
  | adding left h hLeft hAll hOuts hReg hAside hLength =>
    have := Nat.le_mul_of_pos_left k (show 0 < left - 1 by omega)
    exact ⟨by omega, fun _ => by omega, fun hNot => absurd hReg hNot⟩
  | delivering h hAll hOuts hReg hAside hLength =>
    exact ⟨by omega, fun hAdds => absurd (hReg.symm.trans hAdds) (by decide),
      fun _ => by rw [hAside, List.length_nil]; omega⟩

theorem Mode.exists_gather (h : Mode s B j o) (hPhase : s.gatherPhase = true) (hAdd : 0 < addDepth)
    (hAdder : s.adder.items = []) (hDot : ∀ c, (s.dotfifos c).items = []) : ∃ s', s.gather = some s' := by
  obtain ⟨hCircle, hAside, hRoom⟩ := h.gathering_of hPhase
  rw [circle, hAdder, List.append_nil] at hCircle
  obtain ⟨x, rest, hItems⟩ := List.exists_cons_of_length_pos hCircle
  obtain ⟨buffer, hBuffer, -⟩ := Fifo.exists_deq hItems
  by_cases hPass : s.lastPassReg = true
  · obtain ⟨q, hq, -⟩ := Fifo.exists_enq (show (s.dotfifos s.rowReg).items.length < 1 by
      rw [hDot, List.length_nil]; exact Nat.one_pos) x
    simp [DotProd.gather, hPhase, hBuffer, hPass, hq, guard]
  · by_cases hReg : s.gReg = true
    · obtain ⟨y, ys, hY⟩ := List.exists_cons_of_length_pos (hAside hReg)
      obtain ⟨gFifo, hG, -⟩ := Fifo.exists_deq hY
      obtain ⟨adder, hA, -⟩ := Fifo.exists_enq (show s.adder.items.length < addDepth by
        rw [hAdder]; exact hAdd) (x + y)
      simp [DotProd.gather, hPhase, hBuffer, hPass, hReg, hG, hA, guard]
    · obtain ⟨gFifo, hG, -⟩ := Fifo.exists_enq (hRoom hReg) x
      simp [DotProd.gather, hPhase, hBuffer, hPass, hReg, hG, guard]

theorem Mode.exists_accumulate (h : Mode s B j o) (hPhase : s.gatherPhase = false) (hAdd : 0 < addDepth)
    (hAdder : s.adder.items = []) (hMul : s.mul.items ≠ [])
    (hMarks : s.flFifo.items.length = s.mul.items.length) : ∃ s', s.accumulate = some s' := by
  obtain ⟨p, rest, hItems⟩ := List.exists_cons_of_ne_nil hMul
  obtain ⟨⟨first, last⟩, marks, hFl⟩ : ∃ x xs, s.flFifo.items = x :: xs := by
    refine List.exists_cons_of_ne_nil fun hNone => ?_
    rw [hNone, hItems] at hMarks
    cases hMarks
  obtain ⟨mul, hMul', -⟩ := Fifo.exists_deq hItems
  obtain ⟨flFifo, hFl', -⟩ := Fifo.exists_deq hFl
  have hSum : ∃ acc buffer, s.partialSum = some (acc, buffer) := by
    rw [partialSum]
    split
    · next hFull =>
      have hLength : s.adderBuffer.items.length = k * gatherSz k := by
        have hA := (h.accumulating_of hPhase).1
        have hCircle := hA.length
        rw [← hA.firstCnt, hFull, circle, hAdder, List.append_nil] at hCircle
        exact hCircle
      have hPos : 0 < k * gatherSz k := Nat.mul_pos (Nat.pos_of_neZero k) (gatherSz_pos k)
      obtain ⟨x, xs, hx⟩ := List.exists_cons_of_length_pos (hLength ▸ hPos)
      obtain ⟨buffer, hBuffer, -⟩ := Fifo.exists_deq hx
      exact ⟨x, buffer, hBuffer⟩
    · exact ⟨0, s.adderBuffer, rfl⟩
  obtain ⟨acc, buffer, hAcc⟩ := hSum
  obtain ⟨adder, hA, -⟩ := Fifo.exists_enq (show s.adder.items.length < addDepth by
    rw [hAdder]; exact hAdd) (p + acc)
  simp [DotProd.accumulate, hPhase, hFl', hMul', hAcc, hA, guard]

/-- No further tokens are put in. -/
def quiet : Machine.Contract (DotProd S k mulDepth addDepth) (Action S k) (Event S k) := fun _ _ a =>
  match a with
  | .aPut _ => False
  | .bPut _ => False
  | _ => True

/-- There is nothing to do before the next token comes. -/
structure Idle (s : DotProd S k mulDepth addDepth) : Prop where
  input : s.afifo.items = [] ∨ s.bfifo.items = []
  mul : s.mul.items = []
  phase : s.gatherPhase = false
  pipes : ∀ c, (s.dotfifos c).items = []

/-- A step of the server's own work. -/
def Works (batches : List (Batch S)) (trace : List (Event S k)) (s : DotProd S k mulDepth addDepth) (d : Nat) :
    Prop :=
  ∃ a s' events n' d' j' o', quiet trace s a ∧ fire a s = some (s', events) ∧ aPuts events = [] ∧
    bPuts events = [] ∧ Inv batches (trace ++ events) s' n' d' j' o' ∧ rank batches d' s' < rank batches d s

variable (h : Inv batches trace s n d j o)

include h

theorem Inv.works_pipe {c : Fin k} (hc : (s.dotfifos c).items ≠ []) :
    Works batches trace s d := by
  obtain ⟨v, q, hq, hItems⟩ := Fifo.exists_deq_of_ne_nil hc
  have hStep : s.pipeDeq c = some (v, { s with dotfifos := Function.update s.dotfifos c q }) := by
    simp [DotProd.pipeDeq, hq]
  refine ⟨.pipeDeq c, _, _, n, d, j, o, trivial, by rw [fire, hStep]; rfl, rfl, rfl, h.pipeDeq hStep, ?_⟩
  have hSum := sum_update (fun _ f => f.items.length) s.dotfifos c q
  rw [hItems, List.length_cons] at hSum
  have hLess : ∑ i, (Function.update s.dotfifos c q i).items.length < ∑ i, (s.dotfifos i).items.length := by omega
  exact Nat.add_lt_add_right (Nat.add_lt_add_left hLess _) _

theorem Inv.works_connect (hAdder : s.adder.items ≠ []) :
    Works batches trace s d := by
  obtain ⟨acc, adder, hDeq, hItems⟩ := Fifo.exists_deq_of_ne_nil hAdder
  have hRoom : s.adderBuffer.items.length < k * gatherSz k := by
    have hCircle := h.mode.length_circle
    rw [circle, List.length_append, hItems, List.length_cons] at hCircle
    omega
  obtain ⟨buffer, hEnq, -⟩ := Fifo.exists_enq hRoom acc
  have hStep : s.connectAdderBuffer = some { s with
      adder
      adderBuffer := buffer } := by
    simp [DotProd.connectAdderBuffer, hDeq, hEnq]
  refine ⟨.connectAdderBuffer, _, _, n, d, j, o, trivial, by rw [fire, hStep]; rfl, rfl, rfl,
    by rw [List.append_nil]; exact h.connectAdderBuffer hStep, ?_⟩
  have hShort : adder.items.length < s.adder.items.length := by
    rw [hItems, List.length_cons]
    exact Nat.lt_succ_self _
  exact Nat.add_lt_add_right (Nat.add_lt_add_right (Nat.add_lt_add_left hShort _) _) _

theorem Inv.works_gather (hPhase : s.gatherPhase = true)
    (hAddDepth : 0 < addDepth) (hAdder : s.adder.items = []) (hPipes : ∀ c, (s.dotfifos c).items = []) :
    Works batches trace s d := by
  obtain ⟨s', hStep⟩ := h.mode.exists_gather hPhase hAddDepth hAdder hPipes
  obtain ⟨hFrame, hGathers⟩ := gather_gathers hStep
  have hd : d < batches.length := by
    rcases h.current with ⟨-, hPhase'⟩ | hd
    · exact absurd (hPhase'.symm.trans hPhase) (by decide)
    · exact hd
  have hBefore := h.mode.position_lt hPhase
  have hLengths := gather_lengths hStep
  have hLoad : load s' ≤ load s + 1 := by
    rw [load, load, hFrame.afifo, hFrame.mul]
    omega
  have hLeft : (batches.length - d) * passes k = (batches.length - (d + 1)) * passes k + passes k := by
    rw [← Nat.succ_mul]
    congr 1
    omega
  have hFire : fire .gather s = some (s', []) := by
    rw [fire, hStep]
    rfl
  rcases h.gather hStep with ⟨hPhase', o', h'⟩ | ⟨hPhase', h'⟩
  · refine ⟨.gather, s', [], n, d, j, o', trivial, hFire, rfl, rfl, by rw [List.append_nil]; exact h', ?_⟩
    have hNext : position s' = position s + 1 := by
      rcases position_step h.mode hFrame hGathers with ⟨-, hNext⟩ | ⟨hEnd, -⟩
      · exact hNext
      · exact absurd (hPhase'.symm.trans hEnd) (by decide)
    rw [rank, rank, ahead, ahead, hPhase, hPhase', if_pos rfl, if_pos rfl, hNext]
    omega
  · refine ⟨.gather, s', [], n, d + 1, 0, 0, trivial, hFire, rfl, rfl, by rw [List.append_nil]; exact h', ?_⟩
    rw [rank, rank, ahead, ahead, hPhase, hPhase', if_pos rfl, if_neg (by decide)]
    omega

theorem Inv.works_accumulate (hRows : ∀ B ∈ batches, gatherSz k ≤ B.rows) (hPhase : s.gatherPhase = false)
    (hAddDepth : 0 < addDepth) (hAdder : s.adder.items = []) (hMul : s.mul.items ≠ []) :
    Works batches trace s d := by
  obtain ⟨s', hStep⟩ := h.mode.exists_accumulate hPhase hAddDepth hAdder hMul h.marks
  obtain ⟨p, last, hAcc⟩ := accumulate_accumulates hStep
  refine ⟨.accumulate, s', [], n, d, j + 1, o, trivial, by rw [fire, hStep]; rfl, rfl, rfl,
    by rw [List.append_nil]; exact h.accumulate hRows hStep, ?_⟩
  have hLess : load s' < load s := by
    have hMulLength := congrArg List.length hAcc.mul
    rw [List.length_cons] at hMulLength
    rw [load, load, hAcc.afifo, hAcc.dotfifos, accumulate_lengths hStep]
    omega
  have hAhead : ahead batches d s' ≤ ahead batches d s := by
    rw [ahead, ahead, hPhase]
    exact Nat.sub_le _ _
  rw [rank, rank]
  omega

theorem Inv.works_multiply (hMulDepth : 0 < mulDepth)
    (hMul : s.mul.items = []) (hA : s.afifo.items ≠ []) (hB : s.bfifo.items ≠ []) :
    Works batches trace s d := by
  obtain ⟨a, as, hAs⟩ := List.exists_cons_of_ne_nil hA
  obtain ⟨b, bs, hBs⟩ := List.exists_cons_of_ne_nil hB
  obtain ⟨afifo, hADeq, hARest⟩ := Fifo.exists_deq hAs
  obtain ⟨bfifo, hBDeq, -⟩ := Fifo.exists_deq hBs
  have hMarks := h.marks
  rw [hMul, List.length_nil] at hMarks
  obtain ⟨flFifo, hFl, -⟩ := Fifo.exists_enq (show s.flFifo.items.length < ubMulLat by
    rw [hMarks]; decide) (a.first, a.last)
  obtain ⟨mul, hEnq, hMul'⟩ := Fifo.exists_enq (show s.mul.items.length < mulDepth by
    rw [hMul]; exact hMulDepth) (a.v * b.v)
  have hStep : s.multiply = some { s with
      afifo
      bfifo
      flFifo
      mul } := by
    simp [DotProd.multiply, hADeq, hBDeq, hFl, hEnq]
  refine ⟨.multiply, _, _, n + 1, d, j, o, trivial, by rw [fire, hStep]; rfl, rfl, rfl,
    by rw [List.append_nil]; exact h.multiply hStep, ?_⟩
  have hLess : 3 * afifo.items.length + 2 * mul.items.length <
      3 * s.afifo.items.length + 2 * s.mul.items.length := by
    rw [hAs, hARest, hMul', hMul, List.length_cons]
    simp
    omega
  exact Nat.add_lt_add_right (Nat.add_lt_add_right (Nat.add_lt_add_right hLess _) _) _

/-- A server that is not idle has something to do. -/
theorem Inv.idle_or_works (hRows : ∀ B ∈ batches, gatherSz k ≤ B.rows)
    (hMulDepth : 0 < mulDepth) (hAddDepth : 0 < addDepth) : Idle s ∨ Works batches trace s d := by
  by_cases hPipe : ∃ c, (s.dotfifos c).items ≠ []
  · obtain ⟨c, hc⟩ := hPipe
    exact .inr (h.works_pipe hc)
  have hPipes : ∀ c, (s.dotfifos c).items = [] := fun c => by_contra fun hc => hPipe ⟨c, hc⟩
  by_cases hAdder : s.adder.items = []
  · cases hPhase : s.gatherPhase with
    | true => exact .inr (h.works_gather hPhase hAddDepth hAdder hPipes)
    | false =>
      by_cases hMul : s.mul.items = []
      · by_cases hA : s.afifo.items = []
        · exact .inl ⟨.inl hA, hMul, hPhase, hPipes⟩
        · by_cases hB : s.bfifo.items = []
          · exact .inl ⟨.inr hB, hMul, hPhase, hPipes⟩
          · exact .inr (h.works_multiply hMulDepth hMul hA hB)
      · exact .inr (h.works_accumulate hRows hPhase hAddDepth hAdder hMul)
  · exact .inr (h.works_connect hAdder)

theorem Inv.idle_delivered (hRows : ∀ B ∈ batches, gatherSz k ≤ B.rows)
    (hIdle : Idle s) {t : Nat} (ht : t ≤ batches.length) (hA : base k batches t ≤ (aPuts trace).length)
    (hB : base k batches t ≤ (bPuts trace).length) (c : Fin k) : t ≤ (delivered c trace).length := by
  have hk := Nat.pos_of_neZero k
  have hG := gatherSz_pos k
  have hMono : ∀ {d t : Nat}, d ≤ t → base k batches d ≤ base k batches t := by
    intro d t hdt
    rw [base, base, ← Nat.min_eq_left hdt, ← List.take_take]
    exact base_le k (batches.take t) d
  -- All tokens that are there on both sides are taken.
  have hTaken : base k batches t ≤ base k batches d + j := by
    have hAll : base k batches d + j = n := by
      have hFlight := congrArg List.length h.flight
      rw [hIdle.mul, List.zip_nil_left, List.length_drop, List.length_take, List.length_nil] at hFlight
      have := h.taken
      have := h.multiplied
      omega
    rcases hIdle.input with hNone | hNone
    · rw [h.aWaits, hNone, List.map_nil, List.append_nil, List.length_take] at hA
      omega
    · rw [h.bWaits, hNone, List.map_nil, List.append_nil, List.length_take] at hB
      omega
  have htd : t ≤ d := by
    by_contra hLess
    have hd : d < batches.length := by omega
    have hGet : batches[d]? = some batches[d] := List.getElem?_eq_getElem hd
    have hNext := hMono (show d + 1 ≤ t by omega)
    rw [base_succ hGet] at hNext
    have hPos : 0 < batches[d].rows * k :=
      Nat.mul_pos (Nat.lt_of_lt_of_le hG (hRows _ (List.getElem_mem hd))) hk
    have hMode := h.mode
    rw [hGet, Option.getD_some] at hMode
    have hMore := (hMode.accumulating_of hIdle.phase).2.1
    omega
  have hOut := congrArg List.length (h.outputs c)
  rw [hIdle.pipes c, List.append_nil, List.length_map, List.length_take] at hOut
  have := h.done
  rw [hOut]
  omega

end Progress

/-- One row of eight pairs. -/
def oneRow : Batch Nat := ⟨1, fun _ c => c, fun _ _ => 3⟩

instance (batches : List (Batch Nat)) (trace : List (Event Nat k)) (s : DotProd Nat k mulDepth addDepth)
    [NeZero k] (a : Action Nat k) : Decidable (feeds batches trace s a) :=
  match a with
  | .aPut tok => inferInstanceAs (Decidable (aPuts trace ++ [value tok] <+: aStream k batches))
  | .bPut tok => inferInstanceAs (Decidable (bPuts trace ++ [value tok] <+: bStream k batches))
  | .multiply => isTrue trivial
  | .accumulate => isTrue trivial
  | .connectAdderBuffer => isTrue trivial
  | .gather => isTrue trivial
  | .pipeDeq _ => isTrue trivial

end DotProd
end Connectal
