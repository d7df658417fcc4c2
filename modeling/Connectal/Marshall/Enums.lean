import Connectal.Marshall.Accept
import Mathlib.Analysis.Complex.ExponentialBounds

/-! Enumerations. The compiler takes the natural logarithm of the number of labels where
the hardware takes the logarithm to base two. -/
namespace Connectal

open Layout

/-- The width `int(math.ceil(math.log(n)))`, with the exact logarithm. -/
noncomputable def mathCeilLog (n : Nat) : Nat := ⌈Real.log n⌉₊

theorem two_pow_le_exp {k : Nat} (hk : 4 ≤ k) : (2 : ℝ) ^ k ≤ Real.exp 1 ^ (k - 1) := by
  have hExp := Real.exp_one_gt_d9
  induction k, hk using Nat.le_induction with
  | base =>
    calc (2 : ℝ) ^ 4 ≤ 2.7182818283 ^ 3 := by norm_num
      _ ≤ Real.exp 1 ^ (4 - 1) := by gcongr
  | succ k hk ih =>
    calc (2 : ℝ) ^ (k + 1) = 2 ^ k * 2 := pow_succ 2 k
      _ ≤ Real.exp 1 ^ (k - 1) * Real.exp 1 := by gcongr; linarith
      _ = Real.exp 1 ^ (k + 1 - 1) := by rw [← pow_succ]; congr 1; omega

variable {n : Nat}

theorem mathCeilLog_eq_iff {k : Nat} (hn : 0 < n) :
    mathCeilLog n = k + 1 ↔ Real.exp 1 ^ k < n ∧ (n : ℝ) ≤ Real.exp 1 ^ (k + 1) := by
  have hReal : (0 : ℝ) < n := Nat.cast_pos.mpr hn
  rw [mathCeilLog, Nat.ceil_eq_iff k.succ_ne_zero, Real.exp_one_pow, Real.exp_one_pow,
    ← Real.lt_log_iff_exp_lt hReal, ← Real.log_le_iff_le_exp hReal, Nat.succ_sub_one]

theorem mathCeilLog_pos (hn : 2 ≤ n) : 0 < mathCeilLog n :=
  Nat.ceil_pos.mpr (Real.log_pos (by exact_mod_cast hn))

theorem mathCeilLog_le {k : Nat} (hn : 2 ≤ n) (hLe : n ≤ 2 ^ k) : mathCeilLog n ≤ k := by
  have hReal : (0 : ℝ) < n := by exact_mod_cast (show 0 < n by omega)
  have hTwo := Real.log_two_lt_d9
  rw [mathCeilLog, Nat.ceil_le]
  calc Real.log n ≤ Real.log (2 ^ k) := Real.log_le_log hReal (by exact_mod_cast hLe)
    _ = k * Real.log 2 := Real.log_pow _ _
    _ ≤ k * 1 := by gcongr; linarith
    _ = k := mul_one _

/-- The numbers of labels for which the two widths are the same. -/
def WidthsMatch (n : Nat) : Prop := n = 2 ∨ n = 3 ∨ n = 4 ∨ n = 8

theorem WidthsMatch.mathCeilLog_eq (h : WidthsMatch n) : mathCeilLog n = Nat.clog 2 n := by
  have hLow := Real.exp_one_gt_d9
  have hHigh := Real.exp_one_lt_d9
  rcases h with rfl | rfl | rfl | rfl
  · rw [show Nat.clog 2 2 = 0 + 1 by decide, mathCeilLog_eq_iff (by decide)]
    generalize Real.exp 1 = c at hLow hHigh ⊢
    constructor <;> norm_num
    linarith
  · rw [show Nat.clog 2 3 = 1 + 1 by decide, mathCeilLog_eq_iff (by decide)]
    generalize Real.exp 1 = c at hLow hHigh ⊢
    constructor <;> norm_num <;> nlinarith
  · rw [show Nat.clog 2 4 = 1 + 1 by decide, mathCeilLog_eq_iff (by decide)]
    generalize Real.exp 1 = c at hLow hHigh ⊢
    constructor <;> norm_num <;> nlinarith
  · rw [show Nat.clog 2 8 = 2 + 1 by decide, mathCeilLog_eq_iff (by decide)]
    generalize Real.exp 1 = c at hLow hHigh ⊢
    constructor <;> norm_num <;> nlinarith [sq_nonneg c]

/-- For all other numbers some labels do not fit into the compiler's width. -/
theorem widthsMatch_of_le (hn : 2 ≤ n) (h : n ≤ 2 ^ mathCeilLog n) : WidthsMatch n := by
  have hExp := Real.exp_one_gt_d9
  obtain ⟨k, hk⟩ := Nat.exists_eq_succ_of_ne_zero (mathCeilLog_pos hn).ne'
  obtain ⟨hLow, -⟩ := (mathCeilLog_eq_iff (by omega)).mp hk
  rw [hk] at h
  by_cases hLarge : 4 ≤ k + 1
  · have hPow := two_pow_le_exp hLarge
    have hReal : (n : ℝ) ≤ 2 ^ (k + 1) := by exact_mod_cast h
    rw [Nat.add_sub_cancel] at hPow
    linarith
  · have hTwo : k = 2 → 7 < n := by
      rintro rfl
      have hReal : (7 : ℝ) < n := by nlinarith
      exact_mod_cast hReal
    have hOne : k = 1 → 2 < n := by
      rintro rfl
      have hReal : (2 : ℝ) < n := by linarith
      exact_mod_cast hReal
    obtain rfl | rfl | rfl : k = 0 ∨ k = 1 ∨ k = 2 := by omega
    all_goals
      simp only [WidthsMatch]
      omega

/-- Enumerations and the bit vectors that go with them. -/
def Atom.Labelled : Atom → Prop
  | .bit n => 1 ≤ n
  | .enum _ labels => 2 ≤ labels.length
  | _ => False

/-- Types that keep their width in the compiler and have a C integer type. -/
def Atom.Kept : Atom → Prop
  | .bit n => n ≤ 64
  | .enum _ labels => WidthsMatch labels.length
  | _ => True

/-- Arguments in range. The labels of an enumeration are numbered from zero. -/
def Member.InRange (args : Args) (m : Member) : Prop :=
  match m.datatype with
  | .enum _ labels => args m.name < labels.length
  | a => args m.name < 2 ^ a.width

variable {m : Member}

theorem Member.InRange.lt {args : Args} (h : m.InRange args) : args m.name < 2 ^ m.width := by
  unfold Member.InRange at h
  rw [Member.width]
  cases ha : m.datatype with
  | enum name labels =>
    rw [ha] at h
    exact Nat.lt_of_lt_of_le h (Nat.le_pow_clog Nat.one_lt_two _)
  | _ =>
    rw [ha] at h
    exact h

theorem Atom.Labelled.inRange_zero {args : Args} (h : m.datatype.Labelled)
    (hZero : args m.name = 0) : m.InRange args := by
  unfold Member.InRange
  rw [hZero]
  cases ha : m.datatype with
  | enum name labels =>
    rw [ha] at h
    exact Nat.lt_of_lt_of_le Nat.two_pos h
  | _ => exact Nat.two_pow_pos _

variable {a : Atom}

theorem Atom.Labelled.ne_float (h : a.Labelled) : a ≠ .float := by
  rintro rfl
  exact h

theorem Atom.Labelled.ne_int (h : a.Labelled) : a ≠ .int n := by
  rintro rfl
  exact h

theorem Atom.Labelled.carried (h : a.Labelled) (hBit : ∀ n, a = .bit n → n ≤ 64)
    (hEnum : ∀ name labels, a = .enum name labels → labels.length ≤ 2 ^ 32) : a.Carried mathCeilLog := by
  cases a with
  | bit n => exact ⟨h, hBit n rfl⟩
  | enum name labels => exact ⟨mathCeilLog_pos h, mathCeilLog_le h (hEnum name labels rfl)⟩
  | _ => exact h.elim

theorem WidthsMatch.le (h : WidthsMatch n) : n ≤ 8 := by
  simp only [WidthsMatch] at h
  omega

theorem Atom.Kept.carried (h : a.Kept) (hLabelled : a.Labelled) : a.Carried mathCeilLog := by
  apply hLabelled.carried
  · rintro n rfl
    exact h
  · rintro name labels rfl
    exact h.le.trans (by decide)

theorem Atom.Kept.typeBitWidth (h : a.Kept) (hLabelled : a.Labelled) :
    typeBitWidth mathCeilLog a = a.width := by
  cases a with
  | bit n => rfl
  | enum name labels => exact h.mathCeilLog_eq
  | _ => exact hLabelled.elim

variable {labels : List String}

theorem objectType_enum {name : String}
    (h : m.datatype = .enum name labels) : m.objectType mathCeilLog = some C.uint32 := by
  simp [Member.objectType, Member.storage, h, typeCName, CName.intType, hasBitWidth]

section EnumParams

variable {params : Params} {fd : BitVec 32} (hNames : ((argAtoms params).map Member.name).Nodup)
  (hLabelled : ∀ m ∈ argAtoms params, m.datatype.Labelled)

include hNames hLabelled in
theorem inRange_only (hm : m ∈ argAtoms params) {v : Nat}
    (hv : m.InRange (Args.only m v)) : ∀ m' ∈ argAtoms params, m'.InRange (Args.only m v) := by
  intro m' hm'
  by_cases hName : m'.name = m.name
  · rwa [List.inj_on_of_nodup_map hNames hm' hm hName]
  · exact (hLabelled m' hm').inRange_zero (if_neg hName)

variable (hAll : ∀ args, (∀ m ∈ argAtoms params, m.InRange args) →
  MessageAgrees mathCeilLog params args fd)

include hNames hLabelled hAll

theorem enum_length_le (hm : m ∈ argAtoms params) {name : String}
    (hEnum : m.datatype = .enum name labels) : labels.length ≤ 2 ^ 32 := by
  by_contra hLarge
  have hRange : ∀ v ≤ 2 ^ 32, m.InRange (Args.only m v) := by
    intro v hv
    rw [Member.InRange, hEnum, Args.only_self]
    exact Nat.lt_of_le_of_lt hv (Nat.lt_of_not_le hLarge)
  have hAgrees := hAll _ (inRange_only hNames hLabelled hm (hRange (2 ^ 32) le_rfl))
  have hAgrees' := hAll _ (inRange_only hNames hLabelled hm (hRange 0 (Nat.zero_le _)))
  have hSome : argWords mathCeilLog params ≠ [] := by
    have hPos : 0 < m.bitWidth mathCeilLog := by
      rw [Member.bitWidth, hEnum]
      exact mathCeilLog_pos (by omega)
    obtain ⟨k, off, e, ⟨pre, post, hw, -⟩, -⟩ :=
      (argWords_cut mathCeilLog params).exists_place hNames hm hPos
    exact List.ne_nil_of_mem (List.mem_of_getElem? hw)
  -- the C type drops bit 32 of the label
  have hWords := proxyWords_congr hSome (fun m' hm' => by
    by_cases hName : m'.name = m.name
    · rw [List.inj_on_of_nodup_map hNames hm' hm hName, argument, argument, Args.only_self,
        Args.only_self, objectType_enum hEnum]
      rfl
    · rw [argument, argument, Args.only, Args.only, if_neg hName, if_neg hName])
    hAgrees.proxy hAgrees'.proxy
  have hWidth : 32 < m.width := by
    rw [Member.width, hEnum]
    exact (Nat.lt_clog_iff_pow_lt Nat.one_lt_two).mpr (Nat.lt_of_not_le hLarge)
  have hBit := testBit_of_pack_eq (messageWords_injective (by decide) hWords) hm hWidth
  rw [Args.only_self, Args.only_self] at hBit
  exact absurd hBit (by decide)

theorem enum_widthsMatch (hm : m ∈ argAtoms params) {name : String} (hEnum : m.datatype = .enum name labels)
    (h : params.Transmissible mathCeilLog) : WidthsMatch labels.length := by
  have hTwo : 2 ≤ labels.length := by
    have := hLabelled m hm
    rwa [hEnum] at this
  refine widthsMatch_of_le hTwo (Nat.le_of_not_lt fun hLess => ?_)
  have hRange : m.InRange (Args.only m (2 ^ mathCeilLog labels.length)) := by
    rwa [Member.InRange, hEnum, Args.only_self]
  have hAgrees := hAll _ (inRange_only hNames hLabelled hm hRange)
  have hAlone : FloatsAlone (argWords mathCeilLog params) :=
    floatsAlone_of_ne fun m hm => (hLabelled m hm).ne_float
  obtain ⟨xs, hProxy, hLength, -⟩ := @proxyWords_bits mathCeilLog
    (Args.only m (2 ^ mathCeilLog labels.length)) params h hAlone
  obtain rfl : xs = _ := Option.some.inj (hProxy.symm.trans hAgrees.proxy)
  obtain ⟨vars, hRun, hHolds⟩ := handleMessage_holds h hAlone fd hLength
  obtain ⟨vars', hRun', hVars⟩ := hAgrees.handler
  obtain rfl : vars = vars' := Option.some.inj (hRun.symm.trans hRun')
  -- the handler cannot set the bit just above the compiler's width
  have hSmall : mathCeilLog labels.length < 32 := (Nat.pow_lt_pow_iff_right Nat.one_lt_two).mp
    (Nat.lt_of_lt_of_le hLess (enum_length_le hNames hLabelled hAll hm hEnum))
  obtain ⟨y, t, hy, hType, -, hBits⟩ := hHolds m hm
  rw [hVars m (List.mem_reverse.mp hm), argument, objectType_enum hEnum, Args.only_self,
    Option.map_some, Option.some.injEq] at hy
  rw [objectType_enum hEnum, Option.some.injEq] at hType
  subst hType hy
  have hBit := hBits (mathCeilLog labels.length) hSmall
  have hWidth : m.bitWidth mathCeilLog = mathCeilLog labels.length := by
    rw [Member.bitWidth, hEnum]
    rfl
  simp only [hWidth, Nat.lt_irrefl, decide_false, Bool.false_and, C.Value.bit, hSmall, if_true,
    BitVec.getLsbD_ofNat, Nat.testBit_two_pow_self, decide_true, Bool.and_true] at hBit
  cases hBit

end EnumParams

/-- Messages with enumerations and bit vectors pass for all arguments, exactly if every
enumeration has 2, 3, 4 or 8 labels and no bit vector has more than 64 bits. -/
theorem enum_marshalling_iff (params : Params) (hDistinct : params.DistinctNames)
    (hLabelled : ∀ m ∈ params.collectMembers [], m.datatype.Labelled)
    (hEnum : ∃ m ∈ params.collectMembers [], ∃ name labels, m.datatype = .enum name labels)
    (fd : BitVec 32) :
    (ShiftsWords params.width ∧ ∀ args, (∀ m ∈ params.collectMembers [], m.InRange args) →
      MessageAgrees mathCeilLog params args fd) ↔
    ∀ m ∈ params.collectMembers [], m.datatype.Kept := by
  have hLabelled' : ∀ m ∈ argAtoms params, m.datatype.Labelled :=
    fun m hm => hLabelled m (List.mem_reverse.mp hm)
  obtain ⟨m, hm, -⟩ := hEnum
  have hAtoms : argAtoms params ≠ [] := List.ne_nil_of_mem (List.mem_reverse.mpr hm)
  have hNames : ((argAtoms params).map Member.name).Nodup := by
    rw [argAtoms, List.map_reverse, List.nodup_reverse]
    exact params.nodup_names hDistinct
  constructor
  · rintro ⟨-, hAll⟩
    have hAll' : ∀ args, (∀ m ∈ argAtoms params, m.InRange args) →
        MessageAgrees mathCeilLog params args fd :=
      fun args hArgs => hAll args fun m hm => hArgs m (List.mem_reverse.mpr hm)
    have hAgrees := hAll' _ (inRange_only hNames hLabelled' (List.mem_reverse.mpr hm)
      ((hLabelled m hm).inRange_zero (Args.only_self m 0)))
    have h : params.Transmissible mathCeilLog := by
      refine ⟨hDistinct, fun m hm => (hLabelled' m hm).carried ?_ ?_, hAtoms⟩
      · exact fun n hBit => hAgrees.bit_le hNames hm hBit
      · exact fun name labels hEnum => enum_length_le hNames hLabelled' hAll' hm hEnum
    intro m hm
    have hm' := List.mem_reverse.mpr hm
    cases ha : m.datatype with
    | bit n => exact hAgrees.bit_le hNames hm' ha
    | enum name labels => exact enum_widthsMatch hNames hLabelled' hAll' hm' ha h
    | _ => trivial
  · intro hKept
    have hKept' : ∀ m ∈ argAtoms params, m.datatype.Kept :=
      fun m hm => hKept m (List.mem_reverse.mp hm)
    have hWidths : ∀ m ∈ argAtoms params, m.bitWidth mathCeilLog = m.width :=
      fun m hm => (hKept' m hm).typeBitWidth (hLabelled' m hm)
    have h : params.Transmissible mathCeilLog :=
      ⟨hDistinct, fun m hm => (hKept' m hm).carried (hLabelled' m hm), hAtoms⟩
    have hSize : 0 < params.width := by
      have hEnd := @place_add_bitWidth_le mathCeilLog m _ hNames (List.mem_reverse.mpr hm)
      have hPos := (h.carried m (List.mem_reverse.mpr hm)).bitWidth_pos
      rw [span_bitWidth hWidths] at hEnd
      omega
    refine ⟨shiftsWords hSize, fun args hArgs => h.messageAgrees ?_ hWidths ?_ ?_ fd⟩
    · exact floatsAlone_of_ne fun m hm => (hLabelled' m hm).ne_float
    · exact fun m hm => (hArgs m (List.mem_reverse.mp hm)).lt
    · exact fun m hm hInt => absurd hInt (hLabelled' m hm).ne_int

/-- A method with a bit vector and an enumeration. -/
def enumParams (labels : List String) : Params :=
  .cons "b" (.atom (.bit 4)) (.cons "e" (.atom (.enum "E" labels)) .nil)

theorem enum_marshalling_iff_three_labels :
    ShiftsWords 6 ∧ ∀ args : Args, args ["b"] < 16 → args ["e"] < 3 →
      MessageAgrees mathCeilLog (enumParams ["A", "B", "C"]) args 0 := by
  have h := (enum_marshalling_iff (enumParams ["A", "B", "C"])
    (by simp [enumParams, Params.DistinctNames, BsvType.DistinctNames, Params.names])
    (by simp [enumParams, Params.collectMembers, BsvType.collectMembers, Atom.Labelled])
    (by simp [enumParams, Params.collectMembers, BsvType.collectMembers]) 0).mpr
    (by simp [enumParams, Params.collectMembers, BsvType.collectMembers, Atom.Kept, WidthsMatch])
  refine ⟨h.1, fun args hb he => h.2 args ?_⟩
  simpa [enumParams, Params.collectMembers, BsvType.collectMembers, Member.InRange, Atom.width]
    using ⟨hb, he⟩

/-- The last of five labels, next to a one. -/
def fifthArgs : Args
  | ["b"] => 1
  | ["e"] => 4
  | _ => 0

theorem mathCeilLog_five : mathCeilLog 5 = 2 := by
  have hLow := Real.exp_one_gt_d9
  have hHigh := Real.exp_one_lt_d9
  rw [show 2 = 1 + 1 from rfl, mathCeilLog_eq_iff (by decide)]
  generalize Real.exp 1 = c at hLow hHigh ⊢
  constructor <;> norm_num <;> nlinarith

theorem argWords_enumParams_five : argWords mathCeilLog (enumParams ["A", "B", "C", "D", "E"]) =
    [[⟨⟨["e"], .enum "E" ["A", "B", "C", "D", "E"]⟩, 2, 0, .assign⟩, ⟨⟨["b"], .bit 4⟩, 4, 0, .assign⟩]] := by
  have hAtoms : argAtoms (enumParams ["A", "B", "C", "D", "E"]) =
      [⟨["e"], .enum "E" ["A", "B", "C", "D", "E"]⟩, ⟨["b"], .bit 4⟩] := by decide
  have hWidth : typeBitWidth mathCeilLog (.enum "E" ["A", "B", "C", "D", "E"]) = 2 :=
    mathCeilLog_five
  rw [argWords, hAtoms, accumWords_room (by rw [hWidth]; decide),
    accumWords_room (by simp only [hWidth]; decide), accumWords]
  simp only [hWidth]
  decide

theorem gatherMethodInfo_enumParams_five :
    gatherMethodInfo mathCeilLog (enumParams ["A", "B", "C", "D", "E"]) =
      some ⟨[⟨false, .or (.var ⟨["e"], .enum "E" ["A", "B", "C", "D", "E"]⟩)
          (.shl (.var ⟨["b"], .bit 4⟩) 2)⟩],
        [[.value ⟨["e"], .enum "E" ["A", "B", "C", "D", "E"]⟩ .assign
            (.cast (.enum "E") (.mask .tmp 3)),
          .value ⟨["b"], .bit 4⟩ .assign (.cast .uint32 (.mask (.shr .tmp 2) 15))]], 1, 2⟩ := by
  rw [gatherMethodInfo, argWords_enumParams_five]
  simp [generateMarshall, generateDemarshall, marshallFields, marshallField, demarshallFields,
    demarshallField, typeCName, ParamInfo.len, typeBitWidth, mathCeilLog_five]

/-- With five labels the proxy puts the two parameters on top of each other, and the
handler reads neither of them. -/
theorem five_labels_overlap :
    proxyWords mathCeilLog (enumParams ["A", "B", "C", "D", "E"]) fifthArgs = some [4] ∧
    messageWords 32 ((enumParams ["A", "B", "C", "D", "E"]).pack fifthArgs []) = [12] ∧
    (handleMessage mathCeilLog (enumParams ["A", "B", "C", "D", "E"]) 0 [12]).map
      (fun vars => (vars ["b"], vars ["e"])) = some (some ⟨C.uint32, 3⟩, some ⟨C.uint32, 0⟩) := by
  refine ⟨?_, by decide +kernel, ?_⟩
  · rw [proxyWords, gatherMethodInfo_enumParams_five]
    decide +kernel
  · rw [handleMessage, gatherMethodInfo_enumParams_five]
    decide +kernel

end Connectal
