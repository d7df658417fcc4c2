import Connectal.Marshall.Generate
import Mathlib.Data.List.Nodup

/-! The words of a proxy, bit by bit. Each piece of a word contributes the bits of its
argument from its first bit on, also those beyond the end of the piece. -/
namespace Connectal

open Layout

/-- The types that a message can carry; for an enumeration the compiler's width has to
fit its C type. -/
def Atom.Carried (ceilLog : Nat → Nat) : Atom → Prop
  | .bit n => 1 ≤ n ∧ n ≤ 64
  | .int n | .uint n => n = 32
  | .bool | .float => True
  | .enum _ labels => 1 ≤ ceilLog labels.length ∧ ceilLog labels.length ≤ 32
  | .sendingFd => False

variable {ceilLog : Nat → Nat} {args : Args}

/-- The C type of a member is wide enough for the member. Its sign bit belongs to the
member only for `Int#(32)`. -/
theorem Atom.Carried.exists_cType {a : Atom} (h : a.Carried ceilLog) (hFloat : a ≠ .float) :
    ∃ cname c, typeCName a = some cname ∧ cname ≠ .float ∧ cname ≠ .sendingFd ∧
      cname.intType = some c ∧ 32 ≤ c.width ∧ c.width ≤ 64 ∧ typeBitWidth ceilLog a ≤ c.width ∧
      (a = .int 32 ∧ c = C.int ∨ a ≠ .int 32 ∧
        (c.signed = true → typeBitWidth ceilLog a < c.width ∧ hasBitWidth a = false)) := by
  cases a with
  | bit n =>
    by_cases h32 : n ≤ 32
    · exact ⟨.uint32, C.uint32, congrArg some (if_pos h32), by simp, by simp, rfl,
        Nat.le_refl 32, by simp, h32, .inr ⟨(fun h => by cases h), (fun h => by cases h)⟩⟩
    · exact ⟨.uint64, C.uint64, congrArg some ((if_neg h32).trans (if_pos h.2)), by simp, by simp,
        rfl, by simp, Nat.le_refl 64, h.2, .inr ⟨(fun h => by cases h), (fun h => by cases h)⟩⟩
  | int n =>
    exact ⟨.int, C.int, if_pos h, by simp, by simp, rfl, Nat.le_refl 32, by simp, h.le,
      .inl ⟨congrArg Atom.int h, rfl⟩⟩
  | uint n =>
    exact ⟨.unsigned, C.uint32, if_pos h, by simp, by simp, rfl, Nat.le_refl 32, by simp, h.le,
      .inr ⟨(fun h => by cases h), (fun h => by cases h)⟩⟩
  | bool =>
    exact ⟨.int, C.int, rfl, by simp, by simp, rfl, Nat.le_refl 32, by simp,
      show 1 ≤ 32 by decide, .inr ⟨(fun h => by cases h), fun _ => ⟨show 1 < 32 by decide, rfl⟩⟩⟩
  | float => exact absurd rfl hFloat
  | enum name labels =>
    exact ⟨.enum name, C.uint32, rfl, by simp, by simp, rfl, Nat.le_refl 32, by simp, h.2,
      .inr ⟨(fun h => by cases h), (fun h => by cases h)⟩⟩
  | sendingFd => exact h.elim

variable {m : Member}

/-- The object of a member lies between the member and its C type. -/
theorem Atom.Carried.exists_storage (h : m.datatype.Carried ceilLog) (hFloat : m.datatype ≠ .float) :
    ∃ cname c t, typeCName m.datatype = some cname ∧ cname ≠ .float ∧ cname ≠ .sendingFd ∧
      cname.intType = some c ∧ 32 ≤ c.width ∧ c.width ≤ 64 ∧ m.storage ceilLog = some t ∧
      m.bitWidth ceilLog ≤ t.width ∧ t.width ≤ c.width ∧
      (m.datatype = .int 32 ∧ t = C.int ∨ m.datatype ≠ .int 32 ∧
        (t.signed = true → m.bitWidth ceilLog < t.width)) := by
  obtain ⟨cname, c, hName, hNotFloat, hNotFd, hc, hLow, hHigh, hWidth, hSign⟩ := h.exists_cType hFloat
  have hStorage : m.storage ceilLog = some (if 1 < m.name.length && hasBitWidth m.datatype then
      ⟨typeBitWidth ceilLog m.datatype, c.signed⟩ else c) := by
    simp [Member.storage, hName, hc]
  refine ⟨cname, c, _, hName, hNotFloat, hNotFd, hc, hLow, hHigh, hStorage, ?_⟩
  split
  · next hField =>
    refine ⟨Nat.le_refl _, hWidth, ?_⟩
    rcases hSign with ⟨hInt, rfl⟩ | ⟨hOther, hSign⟩
    · exact .inl ⟨hInt, by rw [hInt]; rfl⟩
    · refine .inr ⟨hOther, fun hSigned => ?_⟩
      rw [(hSign hSigned).2, Bool.and_false] at hField
      cases hField
  · exact ⟨hWidth, Nat.le_refl _, hSign.imp_right (And.imp_right fun hSign hSigned => (hSign hSigned).1)⟩

theorem Atom.Carried.exists_object (h : m.datatype.Carried ceilLog) :
    ∃ t, m.objectType ceilLog = some t ∧ m.bitWidth ceilLog ≤ t.width ∧ t.width ≤ 64 ∧
      (m.datatype = .int 32 ∧ t = C.int ∨ m.datatype ≠ .int 32 ∧
        (t.signed = true → m.bitWidth ceilLog < t.width)) := by
  by_cases hFloat : m.datatype = .float
  · exact ⟨C.uint32, if_pos hFloat, by simp [Member.bitWidth, hFloat, typeBitWidth], by simp,
      .inr ⟨by simp [hFloat], (fun h => by cases h)⟩⟩
  · obtain ⟨cname, c, t, -, -, -, -, -, hHigh, hStorage, hWidth, hLe, hSign⟩ :=
      h.exists_storage hFloat
    exact ⟨t, (if_neg hFloat).trans hStorage, hWidth, by omega, hSign⟩

theorem Atom.Carried.bitWidth_pos (h : m.datatype.Carried ceilLog) : 0 < m.bitWidth ceilLog := by
  obtain ⟨name, a⟩ := m
  cases a with
  | bit | enum => exact h.1
  | int | uint =>
    cases h
    exact Nat.zero_lt_succ 31
  | bool => exact Nat.one_pos
  | float => exact Nat.zero_lt_succ 31
  | sendingFd => exact h.elim

/-- Bit `q` of an argument's C value, in two's complement without a last bit. -/
def argBit (ceilLog : Nat → Nat) (args : Args) (m : Member) (q : Nat) : Bool :=
  (argument ceilLog args m).any (·.bit q)

theorem argBit_of_lt (h : m.datatype.Carried ceilLog) {q : Nat}
    (hq : q < m.bitWidth ceilLog) : argBit ceilLog args m q = m.bits args q := by
  obtain ⟨t, hType, hWidth, -⟩ := h.exists_object
  have hqt : q < t.width := by omega
  simp only [argBit, argument, hType, Option.map_some, Option.any_some, C.Value.bit, hqt, if_true,
    BitVec.getLsbD_ofNat, decide_true, Bool.true_and, Member.bits]

/-- The bits that the pieces of a word contribute, from bit `off` of the word on. -/
def orBits (bit : Member → Nat → Bool) : Nat → List ParamInfo → Nat → Bool
  | _, [], _ => false
  | off, e :: rest, i =>
    (decide (off ≤ i) && bit e.toMember (e.shifted + (i - off))) || orBits bit (off + e.len) rest i

variable {w : List ParamInfo} {off : Nat}

theorem orBits_eq_true {bit : Member → Nat → Bool} {i : Nat} :
    orBits bit off w i = true ↔ ∃ pre e post, w = pre ++ e :: post ∧
      off + span ParamInfo.len pre ≤ i ∧
      bit e.toMember (e.shifted + (i - (off + span ParamInfo.len pre))) = true := by
  induction w generalizing off with
  | nil => simp [orBits]
  | cons e rest ih =>
    simp only [orBits, Bool.or_eq_true, Bool.and_eq_true, decide_eq_true_eq, ih]
    constructor
    · rintro (⟨hOff, hBit⟩ | ⟨pre, e', post, rfl, hOff, hBit⟩)
      · exact ⟨[], e, rest, rfl, hOff, hBit⟩
      · refine ⟨e :: pre, e', post, rfl, ?_⟩
        rw [span_cons, ← Nat.add_assoc]
        exact ⟨hOff, hBit⟩
    · rintro ⟨pre, e', post, hSplit, hOff, hBit⟩
      cases pre with
      | nil =>
        cases hSplit
        exact .inl ⟨hOff, hBit⟩
      | cons first pre =>
        cases hSplit
        rw [span_cons, ← Nat.add_assoc] at hOff hBit
        exact .inr ⟨pre, e', post, rfl, hOff, hBit⟩

/-- Bit `i` of the value of an expression of a proxy. -/
def exprBit (ceilLog : Nat → Nat) (args : Args) (f : CExpr) (i : Nat) : Bool :=
  (f.eval (argument ceilLog args) 0#32).any (·.bit i)

/-- A shift that is left out when it is by nothing. -/
theorem eval_shr {obj : Member → Option C.Value} {tmp : BitVec 32} {f : CExpr} {x : C.Value}
    (hx : f.eval obj tmp = some x) {k : Nat} (hk : k < x.promote.type.width) :
    ∃ v, (if k = 0 then f else .shr f k).eval obj tmp = some v ∧
      v.promote.type.width = x.promote.type.width ∧ ∀ i, v.bit i = x.bit (k + i) := by
  by_cases hZero : k = 0
  · exact ⟨x, by simp [hZero, hx], rfl, by simp [hZero]⟩
  · obtain ⟨v, hv⟩ := C.Value.exists_shr hk
    refine ⟨v, by simp [hZero, CExpr.eval, hx, hv], ?_, C.Value.bit_shr hv⟩
    rw [C.Value.promote_of_le (by rw [C.Value.shr_type hv]; exact x.le_promote_width),
      C.Value.shr_type hv]

theorem eval_shl {obj : Member → Option C.Value} {tmp : BitVec 32} {f : CExpr} {x : C.Value}
    (hx : f.eval obj tmp = some x) {k : Nat} (hk : k < x.promote.type.width) :
    ∃ v, (if k = 0 then f else .shl f k).eval obj tmp = some v ∧
      ∀ i < x.promote.type.width, v.bit i = (decide (k ≤ i) && x.bit (i - k)) := by
  by_cases hZero : k = 0
  · exact ⟨x, by simp [hZero, hx], by simp [hZero]⟩
  · obtain ⟨v, hv⟩ := C.Value.exists_shl hk
    refine ⟨v, by simp [hZero, CExpr.eval, hx, hv], fun i hi => C.Value.bit_shl hv ?_⟩
    rwa [C.Value.shl_type hv]

theorem eval_marshallField {e : ParamInfo} (h : e.datatype.Carried ceilLog)
    (hShift : e.shifted < e.bitWidth ceilLog) (hOff : off < 32) :
    ∃ v, (marshallField ceilLog off e).eval (argument ceilLog args) 0#32 = some v ∧
      ∀ i < 32, v.bit i =
        (decide (off ≤ i) && argBit ceilLog args e.toMember (e.shifted + (i - off))) := by
  obtain ⟨t, hType, hWidth, h64, -⟩ := h.exists_object
  obtain ⟨x, hArg, hx⟩ : ∃ x, argument ceilLog args e.toMember = some x ∧ x.type = t :=
    ⟨⟨t, BitVec.ofNat t.width (args e.name)⟩, by simp [argument, hType], rfl⟩
  have hBit : ∀ q, argBit ceilLog args e.toMember q = x.bit q := by
    simp [argBit, hArg]
  have hFits := x.width_le_promote
  have hInt := x.le_promote_width
  rw [hx] at hFits
  have hVar : (CExpr.var e.toMember).eval (argument ceilLog args) 0#32 = some x := hArg
  obtain ⟨y, hy, hyWidth, hyBit⟩ := eval_shr hVar (show e.shifted < x.promote.type.width by omega)
  obtain ⟨v, hv, hvBit⟩ := eval_shl hy (show off < y.promote.type.width by omega)
  have hNarrow : ¬ 64 < typeBitWidth ceilLog e.datatype := by
    have : typeBitWidth ceilLog e.datatype ≤ t.width := hWidth
    omega
  refine ⟨v, by rw [marshallField, if_neg hNarrow]; exact hv, ?_⟩
  intro i hi
  rw [hvBit i (by omega), hyBit, hBit]

theorem eval_foldl_or {fields : List CExpr} {f : CExpr} {x : C.Value}
    (hx : f.eval (argument ceilLog args) 0#32 = some x)
    (hFields : ∀ g ∈ fields, ∃ v, g.eval (argument ceilLog args) 0#32 = some v) :
    ∃ v, (fields.foldl .or f).eval (argument ceilLog args) 0#32 = some v ∧
      ∀ i < 32, v.bit i = (x.bit i || fields.any (exprBit ceilLog args · i)) := by
  induction fields generalizing f x with
  | nil => exact ⟨x, hx, by simp⟩
  | cons g fields ih =>
    obtain ⟨y, hy⟩ := hFields g List.mem_cons_self
    have hOr : (CExpr.or f g).eval (argument ceilLog args) 0#32 = some (x.or y) := by
      simp [CExpr.eval, hx, hy]
    obtain ⟨v, hv, hBits⟩ := ih hOr (fun g' hg' => hFields g' (List.mem_cons_of_mem _ hg'))
    refine ⟨v, hv, fun i hi => ?_⟩
    have hInt := x.le_promote_width
    rw [hBits i hi, C.Value.bit_or (by rw [C.Value.or_width]; omega), List.any_cons,
      Bool.or_assoc]
    simp [exprBit, hy]

/-- What has to hold for the pieces of a word without floats that start at bit `off`. -/
structure Placed (ceilLog : Nat → Nat) (off : Nat) (w : List ParamInfo) : Prop where
  carried : ∀ e ∈ w, e.datatype.Carried ceilLog
  shifted : ∀ e ∈ w, e.shifted < e.bitWidth ceilLog
  inside : ∀ pre e post, w = pre ++ e :: post → off + span ParamInfo.len pre < 32

theorem Placed.tail {e : ParamInfo} (h : Placed ceilLog off (e :: w)) : Placed ceilLog (off + e.len) w := by
  refine ⟨fun e' he' => h.carried e' (List.mem_cons_of_mem _ he'),
    fun e' he' => h.shifted e' (List.mem_cons_of_mem _ he'), ?_⟩
  rintro pre e' post rfl
  have := h.inside (e :: pre) e' post rfl
  rw [span_cons] at this
  omega

theorem marshallFields_run {word : List CExpr} {writefd : Bool}
    (h : Placed ceilLog off w) (hFloat : ∀ e ∈ w, e.datatype ≠ .float) (hSome : word ≠ [] ∨ w ≠ [])
    (hWord : ∀ f ∈ word, ∃ v, f.eval (argument ceilLog args) 0#32 = some v) :
    ∃ call x, marshallFields ceilLog off writefd word w = some call ∧
      call.run ceilLog args = some x ∧ ∀ i < 32, x.getLsbD i =
        (word.any (exprBit ceilLog args · i) || orBits (argBit ceilLog args) off w i) := by
  induction w generalizing off word writefd with
  | nil =>
    cases word with
    | nil => simp at hSome
    | cons f fields =>
      obtain ⟨y, hy⟩ := hWord f List.mem_cons_self
      obtain ⟨v, hv, hBits⟩ :=
        eval_foldl_or hy (fun g hg => hWord g (List.mem_cons_of_mem _ hg))
      refine ⟨_, v.toWord, rfl, by simp [WriteCall.run, hv], fun i hi => ?_⟩
      rw [C.Value.getLsbD_toWord hi, hBits i hi]
      simp [orBits, exprBit, hy]
  | cons e rest ih =>
    have hCarried := h.carried e List.mem_cons_self
    obtain ⟨cname, -, hName, hNotFloat, -⟩ :=
      hCarried.exists_cType (hFloat e List.mem_cons_self)
    obtain ⟨v, hv, hBits⟩ := eval_marshallField hCarried
      (h.shifted e List.mem_cons_self) (by simpa using h.inside [] e rest rfl)
    have hMore : ∀ f ∈ word ++ [marshallField ceilLog off e],
        ∃ v, f.eval (argument ceilLog args) 0#32 = some v := by
      intro f hf
      rcases List.mem_append.mp hf with hf | hf
      · exact hWord f hf
      · rw [List.mem_singleton.mp hf]
        exact ⟨v, hv⟩
    obtain ⟨call, x, hCall, hRun, hx⟩ := @ih _ _ (writefd || cname = .sendingFd) h.tail
      (fun e' he' => hFloat e' (List.mem_cons_of_mem _ he')) (.inl (by simp)) hMore
    refine ⟨call, x, ?_, hRun, fun i hi => ?_⟩
    · simp only [marshallFields, hName, Option.bind_eq_bind, Option.bind_some, hNotFloat, if_false]
      exact hCall
    · rw [hx i hi, List.any_append, orBits, Bool.or_assoc]
      simp [exprBit, hv, hBits i hi]

/-- A float that has a word for itself is written like any other piece. -/
theorem generateMarshall_run (hw : w ≠ []) (h : Placed ceilLog 0 w)
    (hFloat : ∀ e ∈ w, e.datatype = .float → w = [e] ∧ e.shifted = 0) :
    ∃ call x, generateMarshall ceilLog w = some call ∧ call.run ceilLog args = some x ∧
      ∀ i < 32, x.getLsbD i = orBits (argBit ceilLog args) 0 w i := by
  by_cases hNone : ∀ e ∈ w, e.datatype ≠ .float
  · obtain ⟨call, x, hCall, hRun, hBits⟩ :=
      @marshallFields_run ceilLog args w 0 [] false h hNone (.inr hw) (by simp)
    exact ⟨call, x, hCall, hRun, by simpa using hBits⟩
  · push Not at hNone
    obtain ⟨e, he, hType⟩ := hNone
    obtain ⟨rfl, hShift⟩ := hFloat e he hType
    obtain ⟨v, hArg⟩ : ∃ v, argument ceilLog args e.toMember = some v :=
      ⟨_, by simp [argument, Member.objectType, hType]; rfl⟩
    refine ⟨⟨false, .asInt e.toMember⟩, (v.convert C.int).toWord, ?_, ?_, ?_⟩
    · simp [generateMarshall, marshallFields, typeCName, hType]
    · simp [WriteCall.run, CExpr.eval, hArg]
    · intro i hi
      rw [C.Value.getLsbD_toWord hi, C.Value.bit_convert hi]
      simp [orBits, hShift, argBit, hArg]

theorem exists_demarshallFields (h : ∀ e ∈ w, e.datatype.Carried ceilLog) :
    ∃ group, demarshallFields ceilLog off w = some group := by
  induction w generalizing off with
  | nil => exact ⟨[], rfl⟩
  | cons e rest ih =>
    have hRest : ∀ e' ∈ rest, e'.datatype.Carried ceilLog :=
      fun e' he' => h e' (List.mem_cons_of_mem _ he')
    obtain ⟨same, hSame⟩ := @ih off hRest
    obtain ⟨next, hNext⟩ := @ih (off + e.len) hRest
    by_cases hFloat : e.datatype = .float
    · exact ⟨_, by simp [demarshallFields, typeCName, hFloat, hSame]; rfl⟩
    · obtain ⟨cname, -, hName, hNotFloat, -⟩ := (h e List.mem_cons_self).exists_cType hFloat
      exact ⟨_, by simp [demarshallFields, hName, hNotFloat, hNext]; rfl⟩

theorem exists_proxyWords {params : Params} {P : List ParamInfo → BitVec 32 → Prop}
    (hSome : argWords ceilLog params ≠ [])
    (hWrite : ∀ w ∈ argWords ceilLog params, ∃ call x, generateMarshall ceilLog w = some call ∧
      call.run ceilLog args = some x ∧ P w x)
    (hRead : ∀ w ∈ argWords ceilLog params, ∃ group, generateDemarshall ceilLog w = some group) :
    ∃ xs, proxyWords ceilLog params args = some xs ∧
      List.Forall₂ P (argWords ceilLog params) xs.reverse := by
  obtain ⟨pairs, hPairs⟩ := exists_forall₂
    (R := fun w (p : WriteCall × BitVec 32) => generateMarshall ceilLog w = some p.1 ∧
      p.1.run ceilLog args = some p.2 ∧ P w p.2)
    (fun w hw => by
      obtain ⟨call, x, h⟩ := hWrite w hw
      exact ⟨(call, x), h⟩)
  obtain ⟨groups, hGroups⟩ := exists_forall₂ hRead
  have hCalls : (argWords ceilLog params).mapM (generateMarshall ceilLog) =
      some (pairs.map Prod.fst) :=
    mapM_eq_some.mpr (List.forall₂_map_right_iff.mpr (hPairs.imp fun _ _ h => h.1))
  have hRuns : (pairs.map Prod.fst).reverse.mapM (WriteCall.run ceilLog args) =
      some (pairs.map Prod.snd).reverse := by
    rw [mapM_eq_some, List.forall₂_reverse_iff, List.forall₂_map_left_iff,
      List.forall₂_map_right_iff, List.forall₂_same]
    intro p hp
    obtain ⟨w, -, h⟩ := exists_of_mem_right hPairs hp
    exact h.2.1
  refine ⟨(pairs.map Prod.snd).reverse, ?_, ?_⟩
  · simp [proxyWords, gatherMethodInfo, hSome, hCalls, mapM_eq_some.mpr hGroups, hRuns]
  · rw [List.reverse_reverse, List.forall₂_map_right_iff]
    exact hPairs.imp fun _ _ h => h.2.2

variable {members : List Member} {words : List (List ParamInfo)}

/-- A message without a float that shares a word. -/
def FloatsAlone (words : List (List ParamInfo)) : Prop :=
  ∀ w ∈ words, ∀ e ∈ w, e.datatype = .float → w = [e] ∧ e.shifted = 0

theorem Cut.placed (h : Cut ceilLog members words)
    (hCarried : ∀ m ∈ members, m.datatype.Carried ceilLog)
    (hNames : (members.map Member.name).Nodup) {k : Nat}
    (hw : words[k]? = some w) : Placed ceilLog 0 w := by
  have hMem : w ∈ words := List.mem_of_getElem? hw
  have hIn : ∀ e ∈ w, e.toMember ∈ members ∧ e.width ≤ e.bitWidth ceilLog := by
    intro e he
    obtain ⟨pre, post, rfl⟩ := List.append_of_mem he
    obtain ⟨hIn, -, hHi, -, -⟩ := h.place_eq hNames ⟨pre, post, hw, rfl⟩
    exact ⟨hIn, hHi⟩
  refine ⟨fun e he => hCarried _ (hIn e he).1, fun e he => ?_, fun pre e post hSplit => ?_⟩
  · have hLess := h.shifted_lt hMem he (hCarried _ (hIn e he).1).bitWidth_pos
    have := (hIn e he).2
    omega
  · simpa using (h.wellFilled w hMem pre e post hSplit).room

theorem argWords_cut (ceilLog : Nat → Nat) (params : Params) :
    Cut ceilLog (argAtoms params) (argWords ceilLog params) := accumWords_cut _ _

theorem mem_argAtoms {params : Params} {e : ParamInfo}
    (hw : w ∈ argWords ceilLog params) (he : e ∈ w) : e.toMember ∈ argAtoms params := by
  obtain ⟨k, hk⟩ := List.getElem?_of_mem hw
  obtain ⟨pre, post, rfl⟩ := List.append_of_mem he
  obtain ⟨lower, upper, hMembers, -⟩ := (argWords_cut ceilLog params).located ⟨pre, post, hk, rfl⟩
  rw [hMembers]
  exact List.mem_append_right lower List.mem_cons_self

theorem floatsAlone_of_ne {params : Params} (hNone : ∀ m ∈ argAtoms params, m.datatype ≠ .float) :
    FloatsAlone (argWords ceilLog params) :=
  fun _ hw _ he hFloat => absurd hFloat (hNone _ (mem_argAtoms hw he))

/-- Methods whose messages can be written and read. -/
structure Params.Transmissible (ceilLog : Nat → Nat) (params : Params) : Prop where
  distinct : params.DistinctNames
  carried : ∀ m ∈ argAtoms params, m.datatype.Carried ceilLog
  nonempty : argAtoms params ≠ []

namespace Params.Transmissible

variable {params : Params} (h : params.Transmissible ceilLog)
include h

theorem nodup : ((argAtoms params).map Member.name).Nodup := by
  rw [argAtoms, List.map_reverse, List.nodup_reverse]
  exact params.nodup_names h.distinct

theorem argWords_ne_nil : argWords ceilLog params ≠ [] := by
  intro hNil
  obtain ⟨m, hm⟩ := List.exists_mem_of_ne_nil _ h.nonempty
  obtain ⟨k, off, e, ⟨pre, post, hWord, -⟩, -⟩ :=
    (argWords_cut ceilLog params).exists_place h.nodup hm (h.carried m hm).bitWidth_pos
  rw [hNil] at hWord
  simp at hWord

theorem exists_write (hAlone : FloatsAlone (argWords ceilLog params)) :
    ∀ w ∈ argWords ceilLog params, ∃ call x, generateMarshall ceilLog w = some call ∧
      call.run ceilLog args = some x ∧
      ∀ i < 32, x.getLsbD i = orBits (argBit ceilLog args) 0 w i := by
  intro w hw
  obtain ⟨k, hk⟩ := List.getElem?_of_mem hw
  have hCut := argWords_cut ceilLog params
  exact generateMarshall_run (hCut.nonempty w hw) (hCut.placed h.carried h.nodup hk) (hAlone w hw)

theorem exists_read : ∀ w ∈ argWords ceilLog params,
    ∃ group, generateDemarshall ceilLog w = some group := by
  intro w hw
  obtain ⟨k, hk⟩ := List.getElem?_of_mem hw
  exact exists_demarshallFields ((argWords_cut ceilLog params).placed h.carried h.nodup hk).carried

end Params.Transmissible

end Connectal
