import Mathlib.Algebra.Order.Ring.Nat
import Mathlib.Data.BitVec
import Mathlib.Data.List.Basic

/-! The generators `mkRangePipeOut` and `mkFirstLastPipe`. Between two calls of `start` nothing can
happen but that an element is taken, so what comes out after a start is one list. -/
namespace Connectal.Pipe

/-- What comes out until nothing is left, and the state then. -/
inductive Emits {State Out : Type} (first : State → Out) (deq : State → Option State) :
    State → List Out → State → Prop where
  | done {s : State} (h : deq s = none) : Emits first deq s [] s
  | next {s s' t : State} {l : List Out} (h : deq s = some s') (rest : Emits first deq s' l t) :
      Emits first deq s (first s :: l) t

structure RangeConfig (w : Nat) where
  xbase : BitVec w
  xlimit : BitVec w
  xstep : BitVec w

structure RangePipe (w : Nat) where
  x : BitVec w
  xbase : BitVec w
  xstep : BitVec w
  xlimit : BitVec w
  first : Bool
  last : Bool

namespace RangePipe

variable {w : Nat}

def reset : RangePipe w := ⟨1, 0, 1, 0, false, false⟩

/-- The element and its two flags. -/
def out (s : RangePipe w) : BitVec w × Bool × Bool := (s.x, s.first, s.last)

def deq (s : RangePipe w) : Option (RangePipe w) :=
  if s.x ≤ s.xlimit then
    some { s with x := s.x + s.xstep, first := false, last := decide (s.xlimit ≤ s.x + s.xstep) }
  else none

/-- The registers after `start`. -/
def loaded (cfg : RangeConfig w) : RangePipe w where
  x := cfg.xbase
  xbase := cfg.xbase
  xstep := cfg.xstep
  xlimit := cfg.xlimit - cfg.xstep
  first := true
  last := decide (cfg.xlimit ≤ cfg.xbase + cfg.xstep)

def start (cfg : RangeConfig w) (s : RangePipe w) : Option (RangePipe w) :=
  if s.xlimit < s.x then some (loaded cfg) else none

/-- After every start, the values below the limit come out, with the flags on the first and on the
last one, and the generator can be started again. -/
def Correct (cfg : RangeConfig w) : Prop :=
  ∀ s s', start cfg s = some s' → ∃ n t,
    (∀ i, i < n ↔ cfg.xbase.toNat + i * cfg.xstep.toNat < cfg.xlimit.toNat) ∧
    Emits out deq s' ((List.range n).map fun i =>
      (BitVec.ofNat w (cfg.xbase.toNat + i * cfg.xstep.toNat), decide (i = 0), decide (i + 1 = n))) t ∧
    ∀ cfg', (start cfg' t).isSome = true

theorem deq_eq_some {s s' : RangePipe w} : s.deq = some s' ↔ s.x ≤ s.xlimit ∧
    s' = { s with x := s.x + s.xstep, first := false, last := decide (s.xlimit ≤ s.x + s.xstep) } := by
  rw [deq, Option.ite_none_right_eq_some, Option.some.injEq, eq_comm (a := s')]

/-- The values that come out are not above the limit in the register, and the next one is. -/
theorem bounds {s t : RangePipe w} {l : List (BitVec w × Bool × Bool)} (h : Emits out deq s l t)
    (hMax : s.x.toNat + l.length * s.xstep.toNat < 2 ^ w) :
    (∀ i < l.length, s.x.toNat + i * s.xstep.toNat ≤ s.xlimit.toNat) ∧
      s.xlimit.toNat < s.x.toNat + l.length * s.xstep.toNat := by
  induction h with
  | done h =>
    rw [deq, ite_eq_right_iff] at h
    refine ⟨fun i hi => (by cases hi), ?_⟩
    rw [List.length_nil, Nat.zero_mul, Nat.add_zero]
    exact Nat.lt_of_not_le fun hLe => by cases h (BitVec.le_def.mpr hLe)
  | @next s s' t l h rest ih =>
    obtain ⟨hLe, rfl⟩ := deq_eq_some.mp h
    rw [List.length_cons, Nat.succ_mul] at hMax ⊢
    have hNext : (s.x + s.xstep).toNat = s.x.toNat + s.xstep.toNat := BitVec.toNat_add_of_lt (by omega)
    dsimp only at ih
    rw [hNext] at ih
    obtain ⟨hBelow, hAbove⟩ := ih (by omega)
    refine ⟨fun i hi => ?_, by omega⟩
    cases i with
    | zero => simpa using BitVec.le_def.mp hLe
    | succ i =>
      have := hBelow i (Nat.lt_of_succ_lt_succ hi)
      rw [Nat.succ_mul]
      omega

/-- The values from number `i` on. The register lets `n + 1` values through, and if these are
several it is the last one. -/
theorem emits_from {base step n : Nat} (k : Nat) {s : RangePipe w} {i : Nat} (hk : i + k = n + 1)
    (hMax : base + (n + 1) * step < 2 ^ w) (hx : s.x.toNat = base + i * step) (hStep : s.xstep.toNat = step)
    (hPos : 0 < step) (hAbove : s.xlimit.toNat < base + (n + 1) * step) (hBelow : base + n * step ≤ s.xlimit.toNat)
    (hSharp : 0 < n → base + n * step = s.xlimit.toNat) (hFirst : s.first = decide (i = 0))
    (hLast : 0 < k → s.last = decide (i = n)) :
    ∃ t, t.xlimit < t.x ∧ Emits out deq s ((List.range' i k).map fun i =>
      (BitVec.ofNat w (base + i * step), decide (i = 0), decide (i = n))) t := by
  induction k generalizing s i with
  | zero =>
    obtain rfl : i = n + 1 := hk
    have hStop : s.xlimit < s.x := by rw [BitVec.lt_def, hx]; exact hAbove
    exact ⟨s, hStop, .done (if_neg (BitVec.not_le.mpr hStop))⟩
  | succ k ih =>
    have hLe : i * step ≤ n * step := Nat.mul_le_mul_right step (by omega)
    rw [Nat.succ_mul] at hMax
    have hNext : (s.x + s.xstep).toNat = base + (i + 1) * step := by
      rw [BitVec.toNat_add_of_lt (by omega), hx, hStep, Nat.succ_mul, Nat.add_assoc]
    obtain ⟨t, hStop, hEmits⟩ := @ih
      { s with x := s.x + s.xstep, first := false, last := decide (s.xlimit ≤ s.x + s.xstep) } (i + 1)
      (by omega) hNext hStep hAbove hBelow hSharp rfl fun hMore => by
        rw [decide_eq_decide, BitVec.le_def, hNext, ← hSharp (by omega)]
        refine ⟨fun hReached => ?_, fun hEnd => by rw [hEnd]⟩
        by_contra hNot
        have : (i + 1 + 1) * step ≤ n * step := Nat.mul_le_mul_right step (by omega)
        rw [Nat.succ_mul] at this
        omega
    refine ⟨t, hStop, ?_⟩
    have hOut : out s = (BitVec.ofNat w (base + i * step), decide (i = 0), decide (i = n)) := by
      rw [out, hFirst, hLast (Nat.succ_pos k), ← hx, BitVec.ofNat_toNat, BitVec.setWidth_eq]
    rw [List.range'_succ, List.map_cons, ← hOut]
    exact .next (deq_eq_some.mpr ⟨by rw [BitVec.le_def, hx]; omega, rfl⟩) hEmits

/-- There are as many steps below the limit as the quotient says. -/
theorem exists_count {base limit step : Nat} (hStep : 0 < step) (hBase : base < limit) :
    ∃ n, 0 < n ∧ ∀ i, i < n ↔ base + i * step < limit := by
  have hCount : ∀ i, i < (limit - base + step - 1) / step ↔ base + i * step < limit := by
    intro i
    rw [← Nat.succ_le_iff, Nat.le_div_iff_mul_le hStep, Nat.succ_mul]
    omega
  exact ⟨_, (hCount 0).mpr (by omega), hCount⟩

/-- The step divides the range; or it is above the limit, and so large that the second value is
above the register, which has wrapped around. -/
def Exact (w base limit step : Nat) : Prop :=
  step ≤ limit ∧ step ∣ limit - base ∨ limit < step ∧ 2 ^ w + limit < base + 2 * step

instance (w base limit step : Nat) : Decidable (Exact w base limit step) := inferInstanceAs (Decidable (_ ∨ _))

/-- The register against the values, of which `n + 1` are below the limit. -/
theorem exact_iff {base limit step n : Nat} (hBase : base < limit) (hMax : limit + step < 2 ^ w)
    (hn : ∀ i, i < n + 1 ↔ base + i * step < limit) {register : Nat}
    (hRegister : register = (2 ^ w - step + limit) % 2 ^ w) :
    (Exact w base limit step ↔ register < base + (n + 1) * step ∧ base + n * step ≤ register) ∧
      (0 < n → base + n * step ≤ register → base + n * step = register) := by
  have hIn := (hn n).mp (Nat.lt_succ_self n)
  have hOut := (hn (n + 1)).not.mp (lt_irrefl _)
  rw [Nat.succ_mul] at hOut ⊢
  rcases Nat.lt_or_ge limit step with hLt | hLe
  · obtain rfl : n = 0 := by
      by_contra hSome
      have := Nat.le_mul_of_pos_left step (Nat.pos_of_ne_zero hSome)
      omega
    rw [Nat.mod_eq_of_lt (by omega)] at hRegister
    unfold Exact
    omega
  · rw [show 2 ^ w - step + limit = limit - step + 2 ^ w by omega, Nat.add_mod_right,
      Nat.mod_eq_of_lt (by omega)] at hRegister
    have hDvd : step ∣ limit - base ↔ base + n * step + step = limit := by
      constructor
      · intro hDvd
        have hGap : step ∣ n * step + step - (limit - base) :=
          Nat.dvd_sub (Dvd.intro_left (n + 1) (Nat.succ_mul n step)) hDvd
        have := Nat.eq_zero_of_dvd_of_lt hGap (by omega)
        omega
      · rintro rfl
        refine ⟨n + 1, ?_⟩
        rw [Nat.mul_succ, Nat.mul_comm step]
        omega
    unfold Exact
    omega

theorem correct_iff {cfg : RangeConfig w} (hBase : cfg.xbase < cfg.xlimit) (hStep : 0 < cfg.xstep)
    (hMax : cfg.xlimit.toNat + cfg.xstep.toNat < 2 ^ w) :
    Correct cfg ↔ Exact w cfg.xbase.toNat cfg.xlimit.toNat cfg.xstep.toNat := by
  have hLt := BitVec.lt_def.mp hBase
  have hRegister : (loaded cfg).xlimit.toNat = _ := BitVec.toNat_sub cfg.xlimit cfg.xstep
  obtain ⟨m, hPos, hm⟩ := exists_count (BitVec.lt_def.mp hStep) hLt
  obtain ⟨n, rfl⟩ : ∃ n, m = n + 1 := ⟨m - 1, by omega⟩
  have hRoom : cfg.xbase.toNat + (n + 1) * cfg.xstep.toNat < 2 ^ w := by
    have := (hm n).mp (Nat.lt_succ_self n)
    rw [Nat.succ_mul]
    omega
  obtain ⟨hExact, hSharp⟩ := exact_iff hLt hMax hm hRegister
  rw [hExact]
  constructor
  · intro h
    have hReady : (reset : RangePipe w).xlimit < (reset : RangePipe w).x := by
      refine BitVec.lt_def.mpr ?_
      show 0 % 2 ^ w < 1 % 2 ^ w
      rw [Nat.zero_mod, Nat.mod_eq_of_lt (by omega)]
      exact Nat.one_pos
    obtain ⟨n', t, hn, hEmits, -⟩ := h reset _ (if_pos hReady)
    obtain rfl : n' = n + 1 := by
      refine Nat.le_antisymm (Nat.le_of_not_lt fun hMore => ?_) (Nat.le_of_not_lt fun hMore => ?_)
      · exact lt_irrefl _ ((hm _).mpr ((hn _).mp hMore))
      · exact lt_irrefl _ ((hn _).mpr ((hm _).mp hMore))
    have hBounds := bounds hEmits
    rw [List.length_map, List.length_range] at hBounds
    obtain ⟨hBelow, hAbove⟩ := hBounds hRoom
    exact ⟨hAbove, hBelow n (Nat.lt_succ_self n)⟩
  · rintro ⟨hAbove, hBelow⟩ s s' hs
    rw [start, Option.ite_none_right_eq_some, Option.some.injEq] at hs
    obtain ⟨-, rfl⟩ := hs
    have hLast : (loaded cfg).last = decide (0 = n) := by
      have := hm 1
      rw [loaded, decide_eq_decide, BitVec.le_def, BitVec.toNat_add_of_lt (by omega)]
      omega
    obtain ⟨t, hStop, hEmits⟩ := emits_from (n + 1) (Nat.zero_add _) hRoom (by rw [Nat.zero_mul]; rfl) rfl
      (BitVec.lt_def.mp hStep) hAbove hBelow (fun hSome => hSharp hSome hBelow) rfl fun _ => hLast
    refine ⟨n + 1, t, hm, ?_, fun cfg' => ?_⟩
    · simp only [Nat.add_right_cancel_iff, List.range_eq_range']
      exact hEmits
    · rw [start, if_pos hStop]
      rfl

end RangePipe

structure FirstLastPipe (w : Nat) where
  countReg : BitVec w
  firstReg : Bool
  lastReg : Bool

namespace FirstLastPipe

variable {w : Nat}

def out (s : FirstLastPipe w) : Bool × Bool := (s.firstReg, s.lastReg)

def deq (s : FirstLastPipe w) : Option (FirstLastPipe w) :=
  if 0 < s.countReg then
    let c := s.countReg - 1
    some ⟨c, false, if c = 1 then true else s.lastReg⟩
  else none

def start (count : BitVec w) (s : FirstLastPipe w) : Option (FirstLastPipe w) :=
  if s.countReg = 0 then some ⟨count, true, false⟩ else none

/-- After every start, as many pairs come out, with the flags on the first and on the last one. -/
def Correct (count : BitVec w) : Prop :=
  ∀ s s', start count s = some s' → ∃ t, Emits out deq s'
    ((List.range count.toNat).map fun i => (decide (i = 0), decide (i + 1 = count.toNat))) t

theorem toNat_one {x : BitVec w} (hPos : 0 < x.toNat) : (1 : BitVec w).toNat = 1 :=
  Nat.mod_eq_of_lt (Nat.lt_of_le_of_lt hPos x.isLt)

theorem emits_from {n : Nat} (k : Nat) {s : FirstLastPipe w} {i : Nat} (hk : i + k = n)
    (hCount : s.countReg.toNat = k) (hFirst : s.firstReg = decide (i = 0))
    (hLast : 0 < k → s.lastReg = decide (i + 1 = n)) :
    ∃ t, Emits out deq s ((List.range' i k).map fun i => (decide (i = 0), decide (i + 1 = n))) t := by
  induction k generalizing s i with
  | zero =>
    refine ⟨s, .done (if_neg ?_)⟩
    rw [BitVec.lt_def, hCount]
    exact Nat.lt_irrefl 0
  | succ k ih =>
    have hOne := toNat_one (show 0 < s.countReg.toNat by omega)
    have hNext : (s.countReg - 1).toNat = k := by
      rw [BitVec.toNat_sub_of_le (by rw [BitVec.le_def, hOne]; omega), hOne, hCount, Nat.add_sub_cancel]
    obtain ⟨t, hEmits⟩ := @ih ⟨s.countReg - 1, false, if s.countReg - 1 = 1 then true else s.lastReg⟩ (i + 1)
      (by omega) hNext rfl fun hMore => by
        have hEnd : s.countReg - 1 = 1 ↔ k = 1 := by rw [← BitVec.toNat_inj, hNext, hOne]
        simp only [hEnd, hLast (Nat.succ_pos k), Bool.if_true_left, ← Bool.decide_or, decide_eq_decide]
        omega
    have hOut : out s = (decide (i = 0), decide (i + 1 = n)) := by rw [out, hFirst, hLast (Nat.succ_pos k)]
    rw [List.range'_succ, List.map_cons, ← hOut]
    refine ⟨t, .next (if_pos ?_) hEmits⟩
    rw [BitVec.lt_def, hCount]
    exact Nat.succ_pos k

/-- A single pair does not have the second flag. -/
theorem correct_iff {count : BitVec w} (hCount : 0 < count) : Correct count ↔ count ≠ 1 := by
  have hPos := BitVec.lt_def.mp hCount
  constructor
  · rintro h rfl
    obtain ⟨t, hEmits⟩ := h ⟨0, false, false⟩ _ (if_pos rfl)
    rw [toNat_one hPos] at hEmits
    cases hEmits
  · intro hMore s s' hs
    rw [start, Option.ite_none_right_eq_some, Option.some.injEq] at hs
    obtain ⟨-, rfl⟩ := hs
    rw [List.range_eq_range']
    refine emits_from count.toNat (Nat.zero_add _) rfl rfl fun _ => (decide_eq_false fun hOne => hMore ?_).symm
    rw [← BitVec.toNat_inj, ← hOne, toNat_one hPos]

end FirstLastPipe

/-- The range generator is right exactly if the step divides the range, or is so large that only
one value comes out; the other one exactly if there are at least two pairs. -/
theorem generators_correct_iff {w v : Nat} {cfg : RangeConfig w} {count : BitVec v}
    (hBase : cfg.xbase < cfg.xlimit) (hStep : 0 < cfg.xstep) (hMax : cfg.xlimit.toNat + cfg.xstep.toNat < 2 ^ w) (hCount : 0 < count) :
    (RangePipe.Correct cfg ↔ RangePipe.Exact w cfg.xbase.toNat cfg.xlimit.toNat cfg.xstep.toNat) ∧
      (FirstLastPipe.Correct count ↔ count ≠ 1) :=
  ⟨RangePipe.correct_iff hBase hStep hMax, FirstLastPipe.correct_iff hCount⟩

/-- The values 4, 7 and 10 and two pairs. -/
theorem generators_correct_three :
    RangePipe.Correct (⟨4, 13, 3⟩ : RangeConfig 8) ∧ FirstLastPipe.Correct (2 : BitVec 8) := by
  have h := @generators_correct_iff 8 8 ⟨4, 13, 3⟩ 2 (by decide) (by decide) (by decide) (by decide)
  exact ⟨h.1.mpr (by decide), h.2.mpr (by decide)⟩

/-- With a step of 2 the value 4 below 5 is missing and no value is marked as the last one. A single
pair is not marked either. -/
theorem generators_stop_early : ¬ RangePipe.Correct (⟨0, 5, 2⟩ : RangeConfig 8) ∧
    (∃ t, Emits RangePipe.out RangePipe.deq (.loaded (⟨0, 5, 2⟩ : RangeConfig 8))
      [(0, true, false), (2, false, false)] t) ∧
    ¬ FirstLastPipe.Correct (1 : BitVec 8) := by
  refine ⟨?_, ⟨_, .next rfl (.next rfl (.done rfl))⟩, ?_⟩
  · rw [RangePipe.correct_iff (by decide) (by decide) (by decide)]
    decide
  · rw [FirstLastPipe.correct_iff (by decide)]
    decide

end Connectal.Pipe
