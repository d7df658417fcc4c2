import Connectal.Marshall.Adapter
import Connectal.Marshall.Proxy

/-! The parameters that a handler assigns, bit by bit. Whatever words it is given, a
member gets the bits of the message from the place of the member. -/
namespace Connectal

open Layout

variable {ceilLog : Nat → Nat}

theorem bit_mask {k i : Nat} (hi : i < 64) :
    (⟨C.uint64, BitVec.ofNat 64 (1 <<< k - 1)⟩ : C.Value).bit i = decide (i < k) := by
  rw [C.Value.bit_of_lt (by exact hi)]
  simp only [BitVec.getLsbD_ofNat, hi, decide_true, Bool.true_and, Nat.one_shiftLeft,
    Nat.testBit_two_pow_sub_one]

theorem eval_demarshallField {e : ParamInfo} {off : Nat} (hShift : e.shifted < e.bitWidth ceilLog)
    (hOff : off < 32) {cname : CName} {c : C.IntType} (hc : cname.intType = some c)
    (hLow : 32 ≤ c.width) (hHigh : c.width ≤ 64) (hWidth : e.bitWidth ceilLog ≤ c.width)
    (obj : Member → Option C.Value) (tmp : BitVec 32) :
    ∃ v, (CExpr.cast cname (demarshallField ceilLog off cname e)).eval obj tmp = some v ∧
      v.type = c ∧ ∀ q < c.width, v.bit q = (decide (e.shifted ≤ q) &&
        decide (q < e.bitWidth ceilLog) && tmp.getLsbD (off + (q - e.shifted))) := by
  obtain ⟨x, hx, hxWidth, hxBit⟩ := @eval_shr obj tmp .tmp (C.Value.ofWord tmp) rfl off
    (Nat.lt_of_lt_of_le hOff (C.Value.le_promote_width _))
  let k := typeBitWidth ceilLog e.datatype - e.shifted
  let y := x.and ⟨C.uint64, BitVec.ofNat 64 (1 <<< k - 1)⟩
  have hyWidth : 64 ≤ y.type.width := by
    rw [C.Value.and_width]
    exact Nat.le_trans (C.Value.width_le_promote ⟨C.uint64, _⟩) (Nat.le_max_right _ _)
  have hyBit : ∀ i < 64, y.bit i = (tmp.getLsbD (off + i) && decide (i < k)) := by
    intro i hi
    rw [C.Value.bit_and (Nat.lt_of_lt_of_le hi hyWidth), hxBit, C.Value.bit_ofWord, bit_mask hi]
  have hk : e.shifted + k = e.bitWidth ceilLog := by
    show e.shifted + (e.bitWidth ceilLog - e.shifted) = _
    omega
  by_cases hZero : e.shifted = 0
  · refine ⟨y.convert c, ?_, rfl, fun q hq => ?_⟩
    · simp [demarshallField, hZero, CExpr.eval, hx, hc, y, k]
    · rw [C.Value.bit_convert hq, hyBit q (by omega), hZero, Nat.sub_zero, Bool.and_comm]
      simp only [Nat.zero_le, decide_true, Bool.true_and]
      congr 2
      rw [← hk, hZero, Nat.zero_add]
  · have hPromote : (y.convert c).promote = y.convert c := C.Value.promote_of_le hLow
    obtain ⟨z, hz⟩ := C.Value.exists_shl (v := y.convert c) (k := e.shifted)
      (by rw [hPromote]; show e.shifted < c.width; omega)
    have hzWidth : z.type.width = c.width := by rw [C.Value.shl_type hz, hPromote]; rfl
    refine ⟨z.convert c, ?_, rfl, fun q hq => ?_⟩
    · simp [demarshallField, hZero, CExpr.eval, hx, hc, y, k, hz]
    · rw [C.Value.bit_convert hq, C.Value.bit_shl hz (by omega), C.Value.bit_convert (by omega),
        hyBit _ (by omega), Bool.and_comm (tmp.getLsbD _), ← Bool.and_assoc]
      by_cases hLe : e.shifted ≤ q
      · have hIff : q - e.shifted < k ↔ q < e.bitWidth ceilLog := by omega
        simp only [hLe, decide_true, Bool.true_and, hIff]
      · simp [hLe]

/-- The variable of a member is assigned and has the given bits. -/
def Holds (ceilLog : Nat → Nat) (vars : Vars) (m : Member) (bits : Nat → Bool) : Prop :=
  ∃ y t, vars m.name = some y ∧ m.objectType ceilLog = some t ∧ y.type = t ∧
    ∀ q < t.width, y.bit q = bits q

theorem Holds.congr {vars vars' : Vars} {m : Member} {bits bits' : Nat → Bool}
    (h : Holds ceilLog vars m bits) (hVar : vars' m.name = vars m.name)
    (hBits : ∀ q, bits q = bits' q) : Holds ceilLog vars' m bits' := by
  obtain ⟨y, t, hy, ht, hType, hq⟩ := h
  exact ⟨y, t, hVar.trans hy, ht, hType, fun q hLess => (hq q hLess).trans (hBits q)⟩

/-- The bits that a piece at bit `off` of the word `tmp` gives its member. -/
def pieceBits (ceilLog : Nat → Nat) (tmp : BitVec 32) (off : Nat) (e : ParamInfo) (q : Nat) : Bool :=
  decide (e.shifted ≤ q) && decide (q < e.bitWidth ceilLog) && tmp.getLsbD (off + (q - e.shifted))

theorem assignment_run {e : ParamInfo} {off : Nat} (h : e.datatype.Carried ceilLog)
    (hFloat : e.datatype ≠ .float) (hShift : e.shifted < e.bitWidth ceilLog) (hOff : off < 32)
    {cname : CName} (hName : typeCName e.datatype = some cname) (fd tmp : BitVec 32) {vars : Vars}
    {old : Nat → Bool} (hOld : e.assignOp = .orAssign → Holds ceilLog vars e.toMember old) :
    ∃ y, Assignment.run ceilLog fd tmp vars
        (.value e.toMember e.assignOp (.cast cname (demarshallField ceilLog off cname e))) =
        some (Function.update vars e.name (some y)) ∧
      Holds ceilLog (Function.update vars e.name (some y)) e.toMember fun q =>
        (decide (e.assignOp = .orAssign) && old q) || pieceBits ceilLog tmp off e q := by
  obtain ⟨cname', c, t, hName', -, -, hc, hLow, hHigh, hStorage, hWidth, hLe, -⟩ :=
    h.exists_storage hFloat
  cases hName.symm.trans hName'
  have hObject : e.objectType ceilLog = some t := (if_neg hFloat).trans hStorage
  obtain ⟨v, hv, hType, hBits⟩ := eval_demarshallField hShift hOff hc hLow hHigh
    (Nat.le_trans hWidth hLe) (fun m => vars m.name) tmp
  cases hOp : e.assignOp with
  | assign =>
    refine ⟨v.convert t, by simp [Assignment.run, hStorage, hv], v.convert t, t, by simp, hObject,
      rfl, fun q hq => ?_⟩
    rw [C.Value.bit_convert hq, hBits q (by omega)]
    simp [pieceBits]
  | orAssign =>
    obtain ⟨x, t', hx, ht', hxType, hxBits⟩ := hOld hOp
    cases hObject.symm.trans ht'
    refine ⟨(x.or v).convert t, by simp [Assignment.run, hStorage, hv, hx], (x.or v).convert t, t,
      by simp, hObject, rfl, fun q hq => ?_⟩
    have hWide : q < (x.or v).type.width := by
      have := v.width_le_promote
      rw [C.Value.or_width]
      rw [hType] at this
      omega
    rw [C.Value.bit_convert hq, C.Value.bit_or hWide, hxBits q hq, hBits q (by omega)]
    simp [pieceBits]

variable {w : List ParamInfo} {group : List Assignment}

/-- The assignments of a word run, give each member its bits of the word and change no other. -/
abbrev Assigns (ceilLog : Nat → Nat) (w : List ParamInfo) (group : List Assignment) (off : Nat)
    (fd tmp : BitVec 32) (vars : Vars) (old : Member → Nat → Bool) : Prop :=
  ∃ vars', group.foldlM (Assignment.run ceilLog fd tmp) vars = some vars' ∧
    (∀ name, (∀ e ∈ w, e.name ≠ name) → vars' name = vars name) ∧
    ∀ pre e post, w = pre ++ e :: post → Holds ceilLog vars' e.toMember fun q =>
      (decide (e.assignOp = .orAssign) && old e.toMember q) ||
        pieceBits ceilLog tmp (off + span ParamInfo.len pre) e q

variable (fd tmp : BitVec 32) {vars : Vars} {old : Member → Nat → Bool}

theorem demarshallFields_run {off : Nat} (h : Placed ceilLog off w)
    (hFloat : ∀ e ∈ w, e.datatype ≠ .float) (hNames : (w.map fun e => e.name).Nodup)
    (hGroup : demarshallFields ceilLog off w = some group)
    (hOld : ∀ e ∈ w, e.assignOp = .orAssign → Holds ceilLog vars e.toMember (old e.toMember)) :
    Assigns ceilLog w group off fd tmp vars old := by
  induction w generalizing off group vars with
  | nil =>
    cases hGroup
    exact ⟨vars, rfl, fun _ _ => rfl, by simp⟩
  | cons e rest ih =>
    obtain ⟨cname, -, hName, hNotFloat, hNotFd, -⟩ :=
      (h.carried e List.mem_cons_self).exists_cType (hFloat e List.mem_cons_self)
    simp only [demarshallFields, hName, Option.bind_eq_bind, Option.bind_some, hNotFloat, hNotFd,
      if_false, Option.bind_eq_some_iff, Option.pure_def, Option.some.injEq] at hGroup
    obtain ⟨others, hOthers, rfl⟩ := hGroup
    obtain ⟨y, hRun, hHolds⟩ := assignment_run (h.carried e List.mem_cons_self)
      (hFloat e List.mem_cons_self) (h.shifted e List.mem_cons_self)
      (by simpa using h.inside [] e rest rfl) hName fd tmp (hOld e List.mem_cons_self)
    rw [List.map_cons, List.nodup_cons] at hNames
    have hOther : ∀ e' ∈ rest, e'.name ≠ e.name :=
      fun e' he' hEq => hNames.1 (List.mem_map.mpr ⟨e', he', hEq⟩)
    have hNext : ∀ e' ∈ rest, e'.assignOp = .orAssign →
        Holds ceilLog (Function.update vars e.name (some y)) e'.toMember (old e'.toMember) :=
      fun e' he' hOp => (hOld e' (List.mem_cons_of_mem _ he') hOp).congr
        (Function.update_of_ne (hOther e' he') _ _) fun _ => rfl
    obtain ⟨vars', hFold, hFrame, hAll⟩ := ih h.tail
      (fun e' he' => hFloat e' (List.mem_cons_of_mem _ he')) hNames.2 hOthers hNext
    refine ⟨vars', by simp [hRun, hFold], ?_, ?_⟩
    · intro name hName
      rw [hFrame name (fun e' he' => hName e' (List.mem_cons_of_mem _ he')),
        Function.update_of_ne (hName e List.mem_cons_self).symm]
    · rintro pre e' post hSplit
      cases pre with
      | nil =>
        cases hSplit
        exact hHolds.congr (hFrame e.name fun e' he' => hOther e' he') fun _ => rfl
      | cons first pre =>
        cases hSplit
        rw [span_cons, ← Nat.add_assoc]
        exact hAll pre e' post rfl

/-- All assignments of a word; a float has a word for itself. -/
theorem generateDemarshall_run (h : Placed ceilLog 0 w)
    (hFloat : ∀ e ∈ w, e.datatype = .float → w = [e] ∧ e.shifted = 0 ∧ e.assignOp = .assign)
    (hNames : (w.map fun e => e.name).Nodup)
    (hGroup : generateDemarshall ceilLog w = some group)
    (hOld : ∀ e ∈ w, e.assignOp = .orAssign → Holds ceilLog vars e.toMember (old e.toMember)) :
    Assigns ceilLog w group 0 fd tmp vars old := by
  by_cases hNone : ∀ e ∈ w, e.datatype ≠ .float
  · exact demarshallFields_run fd tmp h hNone hNames hGroup hOld
  · push Not at hNone
    obtain ⟨e, he, hType⟩ := hNone
    obtain ⟨rfl, hShift, hOp⟩ := hFloat e he hType
    have hGroup' : group = [.pattern e.toMember] := by
      simpa [generateDemarshall, demarshallFields, typeCName, hType, eq_comm] using hGroup
    refine ⟨Function.update vars e.name (some (C.Value.ofWord tmp)),
      by simp [hGroup', Assignment.run], fun name hName => ?_, fun pre e' post hSplit => ?_⟩
    · exact Function.update_of_ne (hName e (by simp)).symm _ _
    · cases pre with
      | nil =>
        cases hSplit
        refine ⟨C.Value.ofWord tmp, C.uint32, by simp, if_pos hType, rfl, fun q hq => ?_⟩
        have hq' : q < 32 := hq
        simp [C.Value.bit_ofWord, hOp, pieceBits, hShift, Member.bitWidth, hType, typeBitWidth, hq']
      | cons first pre => simp at hSplit

variable {members : List Member} {words : List (List ParamInfo)} {xs : List (BitVec 32)}

/-- The bits of a member that lie in the words from number `k` on. -/
def readBits (ceilLog : Nat → Nat) (members : List Member) (xs : List (BitVec 32)) (k : Nat)
    (m : Member) (q : Nat) : Bool :=
  decide (q < m.bitWidth ceilLog) && decide (32 * k ≤ place ceilLog members m + q) &&
    wordsBit xs (place ceilLog members m + q)

/-- The words from number `k` on have been read: each member that reaches into these
words has its bits from there. -/
def ReadDown (ceilLog : Nat → Nat) (members : List Member) (xs : List (BitVec 32)) (k : Nat)
    (vars : Vars) : Prop :=
  ∀ m ∈ members, 32 * k < place ceilLog members m + m.bitWidth ceilLog →
    Holds ceilLog vars m (readBits ceilLog members xs k m)

/-- A member that reaches above the beginning of a word has a piece in the word or lies
above it. -/
theorem Cut.above (h : Cut ceilLog members words) (hNames : (members.map Member.name).Nodup)
    {k : Nat} (hw : words[k]? = some w) {m : Member} (hm : m ∈ members) (hPos : 0 < m.bitWidth ceilLog)
    (hReach : 32 * k < place ceilLog members m + m.bitWidth ceilLog)
    (hNone : ∀ e ∈ w, e.name ≠ m.name) : 32 * (k + 1) ≤ place ceilLog members m := by
  by_contra hBelow
  obtain ⟨k', off, e, he, rfl, hLo, hHi, hPos⟩ :=
    h.exists_place hNames hm (q := 32 * k - place ceilLog members m) (by omega)
  obtain ⟨-, -, -, -, hFits⟩ := h.place_eq hNames he
  rw [ParamInfo.len] at hFits
  obtain rfl : k' = k := by omega
  obtain ⟨pre, post, hWord, -⟩ := he
  cases hw.symm.trans hWord
  exact hNone e (by simp) rfl

theorem Cut.read_bits (h : Cut ceilLog members words) (hNames : (members.map Member.name).Nodup)
    {k : Nat} {pre post : List ParamInfo} {e : ParamInfo}
    (hw : words[k]? = some (pre ++ e :: post)) {tmp : BitVec 32} (hx : (xs.reverse)[k]? = some tmp)
    (q : Nat) :
    ((decide (e.assignOp = .orAssign) && readBits ceilLog members xs (k + 1) e.toMember q) ||
      pieceBits ceilLog tmp (span ParamInfo.len pre) e q) =
    readBits ceilLog members xs k e.toMember q := by
  have hMem := List.mem_of_getElem? hw
  obtain ⟨-, hLo, hHi, hPos, hFits⟩ := h.place_eq hNames ⟨pre, post, hw, rfl⟩
  have hFill := h.wellFilled _ hMem pre e post rfl
  have hOps := h.ops _ hMem e (by simp)
  unfold readBits
  generalize place ceilLog members e.toMember = start at hPos ⊢
  rw [ParamInfo.len] at hFits
  by_cases hq : q < e.bitWidth ceilLog
  case neg => simp [hq, pieceBits]
  simp only [pieceBits, hq, decide_true, Bool.true_and, Bool.and_true]
  rcases Nat.lt_or_ge (start + q) (32 * k) with hLow | hLow
  · -- below the word nothing is known yet
    simp [show ¬ 32 * (k + 1) ≤ start + q by omega, show ¬ 32 * k ≤ start + q by omega,
      show ¬ e.shifted ≤ q by omega]
  rcases Nat.lt_or_ge (start + q) (32 * (k + 1)) with hHigh | hHigh
  · -- in the word
    have hShift : e.shifted ≤ q := by
      by_contra hLess
      have hNil := hFill.starts (by omega)
      rw [hNil, span_nil] at hPos
      omega
    have hBit := wordsBit_of_getElem? (i := start + q - 32 * k) (by omega) hx
    rw [Nat.add_sub_cancel' hLow] at hBit
    have hIndex : span ParamInfo.len pre + (q - e.shifted) = start + q - 32 * k := by omega
    simp [show ¬ 32 * (k + 1) ≤ start + q by omega, hLow, hShift, hBit, hIndex]
  · -- above the word the piece adds nothing, and is not the last one of its member
    have hPart : e.assignOp = .orAssign := by
      cases hOp : e.assignOp with
      | orAssign => rfl
      | assign =>
        have := hOps.mp hOp
        omega
    have hNone : tmp.getLsbD (span ParamInfo.len pre + (q - e.shifted)) = false :=
      BitVec.getLsbD_of_ge _ _ (by omega)
    simp [hPart, hHigh, hLow, hNone]

section Reading

variable (h : Cut ceilLog members words) (hNames : (members.map Member.name).Nodup)
  (hCarried : ∀ m ∈ members, m.datatype.Carried ceilLog) (hAlone : FloatsAlone words)
include h hNames hCarried hAlone

theorem ReadDown.step {k : Nat} (hw : words[k]? = some w) (hGroup : generateDemarshall ceilLog w = some group)
    {tmp : BitVec 32} (hx : (xs.reverse)[k]? = some tmp) (fd : BitVec 32) {vars : Vars}
    (hRead : ReadDown ceilLog members xs (k + 1) vars) :
    ∃ vars', group.foldlM (Assignment.run ceilLog fd tmp) vars = some vars' ∧
      ReadDown ceilLog members xs k vars' := by
  have hMem := List.mem_of_getElem? hw
  have hPos : ∀ m ∈ members, 0 < m.bitWidth ceilLog := fun m hm => (hCarried m hm).bitWidth_pos
  have hFloat : ∀ e ∈ w, e.datatype = .float → w = [e] ∧ e.shifted = 0 ∧ e.assignOp = .assign := by
    intro e he hType
    obtain ⟨rfl, hShift⟩ := hAlone w hMem e he hType
    refine ⟨rfl, hShift, (h.ops _ hMem e he).mpr ?_⟩
    obtain ⟨-, -, hHi, -, hFits⟩ := h.place_eq hNames ⟨[], [], hw, rfl⟩
    by_contra hShort
    have hEnd := (h.wellFilled _ hMem [] e [] rfl).ends (by omega)
    rw [Member.bitWidth, hType, typeBitWidth] at hShort
    simp only [span_nil, ParamInfo.len, hShift] at hEnd
    omega
  have hOld : ∀ e ∈ w, e.assignOp = .orAssign →
      Holds ceilLog vars e.toMember (readBits ceilLog members xs (k + 1) e.toMember) := by
    intro e he hOp
    obtain ⟨pre, post, rfl⟩ := List.append_of_mem he
    obtain ⟨hIn, hLo, hHi, hPlace, -⟩ := h.place_eq hNames ⟨pre, post, hw, rfl⟩
    have hShort : e.width ≠ e.bitWidth ceilLog := by
      intro hEq
      cases hOp.symm.trans ((h.ops _ hMem e he).mpr hEq)
    have hEnd := (h.wellFilled _ hMem pre e post rfl).ends (by omega)
    rw [ParamInfo.len] at hEnd
    exact hRead e.toMember hIn (by omega)
  obtain ⟨vars', hFold, hFrame, hAll⟩ := generateDemarshall_run fd tmp
    (h.placed hCarried hNames hw) hFloat (h.nodup_names hNames hPos hw) hGroup hOld
  simp only [Nat.zero_add] at hAll
  refine ⟨vars', hFold, fun m hm hReach => ?_⟩
  by_cases hPiece : ∃ e ∈ w, e.name = m.name
  · obtain ⟨e, he, hName⟩ := hPiece
    obtain ⟨pre, post, rfl⟩ := List.append_of_mem he
    obtain ⟨hIn, -⟩ := h.place_eq hNames ⟨pre, post, hw, rfl⟩
    obtain rfl : e.toMember = m := List.inj_on_of_nodup_map hNames hIn hm hName
    exact (hAll pre e post rfl).congr rfl (h.read_bits hNames hw hx)
  · push Not at hPiece
    have hAbove := h.above hNames hw hm (hPos m hm) hReach hPiece
    refine (hRead m hm (by have := hPos m hm; omega)).congr (hFrame m.name hPiece) fun q => ?_
    simp [readBits, show 32 * (k + 1) ≤ place ceilLog members m + q by omega,
      show 32 * k ≤ place ceilLog members m + q by omega]

/-- All words below number `k` are read. -/
theorem runHandler_reads {front back : List (List ParamInfo)} (hSplit : words = front ++ back)
    {groups : List (List Assignment)}
    (hGroups : List.Forall₂ (fun w group => generateDemarshall ceilLog w = some group) front groups)
    {ys zs : List (BitVec 32)} (hxs : xs = zs ++ ys) (hLength : ys.length = front.length)
    (fd : BitVec 32) {vars : Vars} (hRead : ReadDown ceilLog members xs front.length vars) :
    ∃ vars', runHandler ceilLog fd groups.reverse ys vars = some vars' ∧
      ReadDown ceilLog members xs 0 vars' := by
  induction front using List.reverseRecOn generalizing back groups ys zs vars with
  | nil =>
    cases hGroups
    cases List.length_eq_zero_iff.mp hLength
    exact ⟨vars, rfl, hRead⟩
  | append_singleton front w ih =>
    rw [← List.forall₂_reverse_iff, List.reverse_append, List.reverse_singleton,
      List.singleton_append] at hGroups
    obtain ⟨group, gs, hGroup, hFront, hReverse⟩ := List.forall₂_cons_left_iff.mp hGroups
    rw [hReverse]
    rw [← List.reverse_reverse gs, List.forall₂_reverse_iff] at hFront
    cases ys with
    | nil => simp at hLength
    | cons tmp ys =>
      have hLength' : ys.length = front.length := by simpa using hLength
      have hWord : words[front.length]? = some w := by simp [hSplit]
      have hx : (xs.reverse)[front.length]? = some tmp := by simp [hxs, ← hLength']
      rw [List.length_append, List.length_singleton] at hRead
      obtain ⟨vars₁, hFold, hRead₁⟩ :=
        ReadDown.step h hNames hCarried hAlone hWord hGroup hx fd hRead
      obtain ⟨vars', hRun, hRead'⟩ := @ih (w :: back) (by simp [hSplit]) gs.reverse hFront ys
        (zs ++ [tmp]) (by simp [hxs]) hLength' vars₁ hRead₁
      rw [List.reverse_reverse] at hRun
      exact ⟨vars', by simp [runHandler, hFold, hRun], hRead'⟩

omit hAlone in
/-- Before the first word is read nothing has to be known. -/
theorem readDown_start (vars : Vars) : ReadDown ceilLog members xs words.length vars := by
  intro m hm hReach
  have hPos := (hCarried m hm).bitWidth_pos
  obtain ⟨k, off, e, he, rfl, hLo, hHi, hPlace⟩ :=
    h.exists_place hNames hm (q := m.bitWidth ceilLog - 1) (by omega)
  obtain ⟨-, -, -, -, hFits⟩ := h.place_eq hNames he
  obtain ⟨pre, post, hWord, -⟩ := he
  obtain ⟨hk, -⟩ := List.getElem_of_getElem? hWord
  rw [ParamInfo.len] at hFits
  omega

end Reading

/-- Given enough words, a handler assigns to every member the bits of the message from
the place of the member. -/
theorem handleMessage_holds {params : Params} (h : params.Transmissible ceilLog)
    (hAlone : FloatsAlone (argWords ceilLog params)) (fd : BitVec 32)
    (hLength : xs.length = (argWords ceilLog params).length) :
    ∃ vars, handleMessage ceilLog params fd xs = some vars ∧
      ∀ m ∈ argAtoms params, Holds ceilLog vars m fun q => decide (q < m.bitWidth ceilLog) &&
        wordsBit xs (place ceilLog (argAtoms params) m + q) := by
  obtain ⟨calls, hCalls⟩ := exists_forall₂ (l := argWords ceilLog params)
    (R := fun w call => generateMarshall ceilLog w = some call) (fun w hw => by
      obtain ⟨call, -, hCall, -⟩ := @Params.Transmissible.exists_write _ (fun _ => 0) _ h hAlone w hw
      exact ⟨call, hCall⟩)
  obtain ⟨groups, hGroups⟩ := exists_forall₂ h.exists_read
  obtain ⟨vars, hRun, hRead⟩ := runHandler_reads (argWords_cut ceilLog params) h.nodup h.carried hAlone
    (List.append_nil _).symm hGroups (List.nil_append xs).symm hLength fd
    (readDown_start (argWords_cut ceilLog params) h.nodup h.carried fun _ => none)
  refine ⟨vars, ?_, fun m hm => ?_⟩
  · simp [handleMessage, gatherMethodInfo, h.argWords_ne_nil, mapM_eq_some.mpr hCalls,
      mapM_eq_some.mpr hGroups, hRun]
  · have hPos := (h.carried m hm).bitWidth_pos
    refine (hRead m hm (by omega)).congr rfl fun q => ?_
    simp [readBits]

end Connectal
