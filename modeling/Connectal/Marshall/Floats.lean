import Connectal.Marshall.Accept

/-! Floats. The generated code leaves the common path for a float and takes its pattern
for the whole word, so that a float must have its words for itself. -/
namespace Connectal

open Layout

variable {ceilLog : Nat → Nat} {params : Params} {args : Args}

/-- Floats and the types that go with them. -/
def Atom.Mixed : Atom → Prop
  | .bit n => 1 ≤ n
  | .uint n => n = 32
  | .bool | .float => True
  | _ => False

theorem Atom.Mixed.typeBitWidth {a : Atom} (h : a.Mixed) : typeBitWidth ceilLog a = a.width := by
  cases a with
  | bit | uint | bool | float => rfl
  | _ => exact h.elim

theorem Atom.Mixed.carried {a : Atom} (h : a.Mixed) (hBit : ∀ n, a = .bit n → n ≤ 64) :
    a.Carried ceilLog := by
  cases a with
  | bit n => exact ⟨h, hBit n rfl⟩
  | uint n => exact h
  | bool | float => trivial
  | _ => exact h.elim

theorem Atom.Mixed.ne_int {a : Atom} {n : Nat} (h : a.Mixed) : a ≠ .int n := by
  rintro rfl
  exact h

/-- Every float begins at a word. -/
def FloatsAligned (ceilLog : Nat → Nat) (params : Params) : Prop :=
  ∀ m ∈ argAtoms params, m.datatype = .float → place ceilLog (argAtoms params) m % 32 = 0

/-- A float that begins at a word has this word for itself. -/
theorem FloatsAligned.floatsAlone (hAligned : FloatsAligned ceilLog params)
    (h : params.Transmissible ceilLog) : FloatsAlone (argWords ceilLog params) := by
  have hCut := argWords_cut ceilLog params
  intro w hw e he hFloat
  obtain ⟨k, hk⟩ := List.getElem?_of_mem hw
  obtain ⟨pre, post, rfl⟩ := List.append_of_mem he
  obtain ⟨hIn, -, hHi, hPos, hFits⟩ := hCut.place_eq h.nodup ⟨pre, post, hk, rfl⟩
  have hPlace := hAligned e.toMember hIn hFloat
  have hWidth : e.bitWidth ceilLog = 32 := by
    rw [Member.bitWidth, hFloat]
    rfl
  have hLess := hCut.shifted_lt hw he (by omega)
  have hFilling := hCut.wellFilled _ hw pre e post rfl
  rw [ParamInfo.len] at hFits
  have hShifted : e.shifted = 0 := by
    by_contra hShifted
    rw [hFilling.starts (by omega), span_nil] at hPos
    omega
  have hRoom := hFilling.room
  have hFull : e.len = 32 := by
    rw [ParamInfo.len]
    by_contra hShort
    have hEnds := hFilling.ends (by omega)
    rw [ParamInfo.len] at hEnds
    omega
  have hPre : pre = [] := by
    cases pre with
    | nil => rfl
    | cons a pre =>
      have ha : a ∈ (a :: pre) ++ e :: post := List.mem_cons_self
      have hLen := hCut.shifted_lt hw ha (h.carried _ (mem_argAtoms hw ha)).bitWidth_pos
      rw [span_cons, ParamInfo.len] at hPos
      rw [span_cons, ParamInfo.len] at hRoom
      omega
  have hPost : post = [] := by
    cases post with
    | nil => rfl
    | cons a post =>
      have hFull' := (hCut.wellFilled _ hw (pre ++ [e]) a post (by simp)).room
      rw [span_append, span_cons, hFull] at hFull'
      omega
  rw [hPre, hPost]
  exact ⟨rfl, hShifted⟩

/-- The first float of a word is all that the proxy writes of the word. -/
theorem marshallFields_float {w : List ParamInfo} {off : Nat} {fd : Bool} {word : List CExpr}
    {call : WriteCall} (h : marshallFields ceilLog off fd word w = some call) {e : ParamInfo}
    (he : e ∈ w) (hFloat : e.datatype = .float) :
    ∃ first ∈ w, first.datatype = .float ∧ call.value = .asInt first.toMember := by
  induction w generalizing off fd word with
  | nil => simp at he
  | cons a rest ih =>
    simp only [marshallFields, Rules.firing] at h
    obtain ⟨cname, hName, h⟩ := h
    by_cases hc : cname = .float
    · simp only [hc, if_true, Rules.firing] at h
      subst h
      exact ⟨a, List.mem_cons_self, typeCName_eq_float.mp (hc ▸ hName), rfl⟩
    · simp only [hc, if_false] at h
      have hRest : e ∈ rest := by
        rcases List.mem_cons.mp he with rfl | he
        · rw [hFloat, typeCName, Option.some.injEq] at hName
          exact absurd hName.symm hc
        · exact he
      obtain ⟨first, hIn, hFirst, hCall⟩ := ih h hRest
      exact ⟨first, List.mem_cons_of_mem _ hIn, hFirst, hCall⟩

theorem getLsbD_asInt {m : Member} (hFloat : m.datatype = .float) {call : WriteCall} {x : BitVec 32}
    (hCall : call.value = .asInt m) (hRun : call.run ceilLog args = some x) {i : Nat} (hi : i < 32) :
    x.getLsbD i = (args m.name).testBit i := by
  simp only [WriteCall.run, hCall, CExpr.eval, argument, Member.objectType, hFloat, if_true,
    Option.map_some, Option.some.injEq] at hRun
  rw [← hRun, C.Value.getLsbD_toWord hi, C.Value.bit_convert hi, C.Value.bit_of_lt hi,
    BitVec.getLsbD_ofNat, decide_eq_true hi, Bool.true_and]

/-- The proxy does not write a float to its place if it begins inside of a word. -/
theorem aligned_of_proxyWords (h : params.Transmissible ceilLog)
    (hWidths : ∀ m ∈ argAtoms params, m.bitWidth ceilLog = m.width) {m : Member}
    (hm : m ∈ argAtoms params) (hFloat : m.datatype = .float)
    (hProxy : proxyWords ceilLog params (Args.only m 1) =
      some (messageWords 32 (params.pack (Args.only m 1) []))) :
    place ceilLog (argAtoms params) m % 32 = 0 := by
  by_contra hInside
  have hWidth : m.bitWidth ceilLog = 32 := by
    rw [Member.bitWidth, hFloat]
    rfl
  obtain ⟨lower, upper, hMembers⟩ := List.append_of_mem hm
  have hPacked : (params.pack (Args.only m 1) []).getLsbD (place ceilLog (argAtoms params) m) = true := by
    rw [getLsbD_pack hWidths, place_eq h.nodup hMembers, hMembers,
      ← Nat.add_zero (span (Member.bitWidth ceilLog) lower), bitAt_field lower upper (by omega),
      Member.bits, Args.only_self]
    rfl
  obtain ⟨k, off, e, ⟨pre, post, hk, rfl⟩, rfl, hLo, -, hPos⟩ :=
    (argWords_cut ceilLog params).exists_place h.nodup hm (show 0 < m.bitWidth ceilLog by omega)
  have hRoom := ((argWords_cut ceilLog params).wellFilled _ (List.mem_of_getElem? hk) pre e post
    rfl).room
  have hPlace : place ceilLog (argAtoms params) e.toMember = 32 * k + span ParamInfo.len pre := by
    omega
  have hEnd := @place_add_bitWidth_le ceilLog _ _ h.nodup hm
  rw [span_bitWidth hWidths] at hEnd
  have hBound := @le_nwords 32 params.width (by decide)
  -- the word is the pattern of a float, which is zero or one
  obtain ⟨hLess, hGet⟩ := List.getElem_of_getElem? hk
  have hRun := proxyWords_run h.argWords_ne_nil hProxy
  have hLess' := hRun.length_eq ▸ hLess
  obtain ⟨call, hCall, hValue⟩ := hRun.get hLess hLess'
  rw [List.get_eq_getElem, hGet] at hCall
  obtain ⟨first, -, hFirst, hExpr⟩ := marshallFields_float hCall
    (List.mem_append_right pre List.mem_cons_self) hFloat
  have hZero := getLsbD_asInt hFirst hExpr hValue hRoom
  rw [List.get_eq_getElem, ← wordsBit_of_getElem? hRoom (List.getElem?_eq_getElem hLess'), ← hPlace,
    wordsBit_messageWords (by decide), hPacked, Args.only] at hZero
  have hOne : ∀ v ≤ 1, v.testBit (span ParamInfo.len pre) = false := by
    intro v hv
    exact Nat.testBit_lt_two_pow (Nat.lt_of_le_of_lt hv (Nat.one_lt_two_pow (by omega)))
  rw [hOne _ (by split_ifs <;> decide)] at hZero
  cases hZero

/-- Messages with floats pass for all arguments, exactly if every float begins at a word
and no bit vector has more than 64 bits. -/
theorem float_marshalling_iff (ceilLog : Nat → Nat) (params : Params)
    (hDistinct : params.DistinctNames)
    (hMixed : ∀ m ∈ params.collectMembers [], m.datatype.Mixed) (hSize : 0 < params.width)
    (fd : BitVec 32) :
    (∀ args : Args, (∀ m ∈ params.collectMembers [], args m.name < 2 ^ m.width) →
      MessageAgrees ceilLog params args fd) ↔
    FloatsAligned ceilLog params ∧
      ∀ m ∈ params.collectMembers [], ∀ n, m.datatype = .bit n → n ≤ 64 := by
  have hMixed' : ∀ m ∈ argAtoms params, m.datatype.Mixed :=
    fun m hm => hMixed m (List.mem_reverse.mp hm)
  have hWidths : ∀ m ∈ argAtoms params, m.bitWidth ceilLog = m.width :=
    fun m hm => (hMixed' m hm).typeBitWidth
  have hNames : ((argAtoms params).map Member.name).Nodup := by
    rw [argAtoms, List.map_reverse, List.nodup_reverse]
    exact params.nodup_names hDistinct
  constructor
  · intro hAll
    have hZero := hAll (fun _ => 0) fun m _ => Nat.two_pow_pos _
    have hBits : ∀ m ∈ argAtoms params, ∀ n, m.datatype = .bit n → n ≤ 64 :=
      fun m hm n hBit => hZero.bit_le hNames hm hBit
    have h : params.Transmissible ceilLog :=
      ⟨hDistinct, fun m hm => (hMixed' m hm).carried (hBits m hm), argAtoms_ne_nil hSize⟩
    refine ⟨fun m hm hFloat => aligned_of_proxyWords h hWidths hm hFloat (hAll _ ?_).proxy,
      fun m hm => hBits m (List.mem_reverse.mpr hm)⟩
    intro m' hm'
    unfold Args.only
    split_ifs with hName
    · have hSame := List.inj_on_of_nodup_map hNames (List.mem_reverse.mpr hm') hm hName
      rw [hSame, Member.width, hFloat]
      decide
    · exact Nat.two_pow_pos _
  · rintro ⟨hAligned, hBits⟩ args hArgs
    have h : params.Transmissible ceilLog :=
      ⟨hDistinct, fun m hm => (hMixed' m hm).carried (hBits m (List.mem_reverse.mp hm)),
        argAtoms_ne_nil hSize⟩
    exact h.messageAgrees (hAligned.floatsAlone h) hWidths
      (fun m hm => hArgs m (List.mem_reverse.mp hm))
      (fun m hm hInt => absurd hInt (hMixed' m hm).ne_int) fd

/-- A float between bit vectors, on a word of its own if `n` is 32. -/
def floatParams (n : Nat) : Params :=
  .cons "a" (.atom (.bit 4)) (.cons "f" (.atom .float) (.cons "b" (.atom (.bit n)) .nil))

/-- The pattern of 1.0, and ones around it. -/
def floatArgs : Args
  | ["a"] => 1
  | ["f"] => 0x3f800000
  | ["b"] => 1
  | _ => 0

theorem float_marshalling_iff_own_word : MessageAgrees id (floatParams 32) floatArgs 0 := by
  refine (float_marshalling_iff id (floatParams 32)
    (by simp [floatParams, Params.DistinctNames, BsvType.DistinctNames, Params.names])
    (by simp [floatParams, Params.collectMembers, BsvType.collectMembers, Atom.Mixed])
    (by decide) 0).mpr ⟨?_, ?_⟩ floatArgs ?_
  · unfold FloatsAligned
    decide
  · simp [floatParams, Params.collectMembers, BsvType.collectMembers]
  · simp [floatParams, floatArgs, Params.collectMembers, BsvType.collectMembers, Member.width, Atom.width]

theorem argWords_floatParams : argWords id (floatParams 4) =
    [[⟨⟨["b"], .bit 4⟩, 4, 0, .assign⟩, ⟨⟨["f"], .float⟩, 28, 0, .orAssign⟩],
      [⟨⟨["f"], .float⟩, 32, 28, .assign⟩, ⟨⟨["a"], .bit 4⟩, 4, 0, .assign⟩]] := by
  have hAtoms : argAtoms (floatParams 4) =
      [⟨["b"], .bit 4⟩, ⟨["f"], .float⟩, ⟨["a"], .bit 4⟩] := by decide
  rw [argWords, hAtoms, accumWords_room (by decide), accumWords_over (by decide),
    accumWords_room (by decide), accumWords_room (by decide), accumWords]
  decide

/-- A float across two words replaces both of them, and is not recovered. -/
theorem float_replaces_words :
    proxyWords id (floatParams 4) floatArgs = some [0x3f800000, 0x3f800000] ∧
    messageWords 32 ((floatParams 4).pack floatArgs []) = [0x13, 0xf8000001] ∧
    (handleMessage id (floatParams 4) 0 [0x13, 0xf8000001]).bind (fun vars => vars ["f"]) =
      some ⟨C.uint32, 0xf8000001⟩ := by
  refine ⟨?_, by decide +kernel, ?_⟩
  · rw [proxyWords, gatherMethodInfo, argWords_floatParams]
    decide +kernel
  · rw [handleMessage, gatherMethodInfo, argWords_floatParams]
    decide +kernel

end Connectal
