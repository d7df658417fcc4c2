import Connectal.Marshall.Handler

/-! Software and hardware agree on the words of a message. -/
namespace Connectal

open Layout Rules

variable {ceilLog : Nat → Nat} {args : Args} {members : List Member}
  {words : List (List ParamInfo)}

theorem bitAt_place (hNames : (members.map Member.name).Nodup) {bits : Member → Nat → Bool}
    {p : Nat} : bitAt (Member.bitWidth ceilLog) bits members p = true ↔
      ∃ m ∈ members, ∃ q < m.bitWidth ceilLog, p = place ceilLog members m + q ∧ bits m q = true := by
  constructor
  · intro h
    have hp : p < span (Member.bitWidth ceilLog) members := by
      by_contra hp
      rw [bitAt_of_le (Nat.not_lt.mp hp)] at h
      cases h
    obtain ⟨front, m, back, q, hMembers, hq, hPos⟩ := exists_field hp
    rw [hMembers, hPos, bitAt_field front back hq] at h
    exact ⟨m, by simp [hMembers], q, hq, by rw [place_eq hNames hMembers]; exact hPos, h⟩
  · rintro ⟨m, hm, q, hq, rfl, hBit⟩
    obtain ⟨front, back, hMembers⟩ := List.append_of_mem hm
    rw [place_eq hNames hMembers, hMembers, bitAt_field front back hq]
    exact hBit

/-- A bit that a piece contributes to its word beyond the end of its member. -/
def Stray (ceilLog : Nat → Nat) (args : Args) (members : List Member)
    (words : List (List ParamInfo)) (p : Nat) : Prop :=
  ∃ off e, LiesAt words (p / 32) off e ∧
    place ceilLog members e.toMember + e.bitWidth ceilLog ≤ p ∧
    argBit ceilLog args e.toMember (p - place ceilLog members e.toMember) = true

/-- The pieces of a word make up the bits of the message in this word, and stray bits. -/
theorem Cut.orBits_iff (h : Cut ceilLog members words) (hNames : (members.map Member.name).Nodup)
    (hCarried : ∀ m ∈ members, m.datatype.Carried ceilLog) {p : Nat} {w : List ParamInfo}
    (hw : words[p / 32]? = some w) :
    orBits (argBit ceilLog args) 0 w (p % 32) = true ↔
      bitAt (Member.bitWidth ceilLog) (Member.bits args) members p = true ∨
        Stray ceilLog args members words p := by
  have hMod := Nat.div_add_mod p 32
  rw [orBits_eq_true, bitAt_place hNames]
  simp only [Nat.zero_add]
  constructor
  · rintro ⟨pre, e, post, rfl, hOff, hBit⟩
    obtain ⟨hIn, hLo, hHi, hPos, -⟩ := h.place_eq hNames ⟨pre, post, hw, rfl⟩
    have hIndex : e.shifted + (p % 32 - span ParamInfo.len pre) =
        p - place ceilLog members e.toMember := by omega
    rw [hIndex] at hBit
    by_cases hInside : p - place ceilLog members e.toMember < e.bitWidth ceilLog
    · rw [argBit_of_lt (hCarried _ hIn) hInside] at hBit
      exact .inl ⟨e.toMember, hIn, _, hInside, by omega, hBit⟩
    · exact .inr ⟨_, e, ⟨pre, post, hw, rfl⟩, by omega, hBit⟩
  · rintro (⟨m, hm, q, hq, rfl, hBit⟩ | ⟨off, e, ⟨pre, post, hWord, rfl⟩, hBeyond, hBit⟩)
    · obtain ⟨k, off, e, he, rfl, hLo, hHi, hPos⟩ := h.exists_place hNames hm hq
      obtain ⟨-, -, -, -, hFits⟩ := h.place_eq hNames he
      rw [ParamInfo.len] at hFits
      obtain rfl : k = (place ceilLog members e.toMember + q) / 32 := by omega
      obtain ⟨pre, post, hWord, rfl⟩ := he
      cases hw.symm.trans hWord
      refine ⟨pre, e, post, rfl, by omega, ?_⟩
      rw [← argBit_of_lt (hCarried _ hm) hq] at hBit
      rw [← hBit]
      congr 1
      omega
    · cases hw.symm.trans hWord
      obtain ⟨-, hLo, hHi, hPos, -⟩ := h.place_eq hNames ⟨pre, post, hw, rfl⟩
      refine ⟨pre, e, post, rfl, by omega, ?_⟩
      rw [← hBit]
      congr 1
      omega

/-- Beyond its width an argument has no bits, except for copies of the sign. -/
theorem argBit_of_le {m : Member} (h : m.datatype.Carried ceilLog)
    (hArg : args m.name < 2 ^ m.bitWidth ceilLog) {q : Nat} (hq : m.bitWidth ceilLog ≤ q) :
    argBit ceilLog args m q = (decide (m.datatype = .int 32) && (args m.name).testBit 31) := by
  have hSmall : ∀ i, m.bitWidth ceilLog ≤ i → (args m.name).testBit i = false := fun i hi =>
    Nat.testBit_lt_two_pow (Nat.lt_of_lt_of_le hArg (Nat.pow_le_pow_right Nat.two_pos hi))
  obtain ⟨t, hType, hWidth, -, hSign⟩ := h.exists_object
  have hBit : argBit ceilLog args m q = if q < t.width then (args m.name).testBit q
      else t.signed && (args m.name).testBit (t.width - 1) := by
    simp only [argBit, argument, hType, Option.map_some, Option.any_some, C.Value.bit,
      BitVec.getLsbD_ofNat, BitVec.msb_eq_getLsbD_last]
    by_cases hLess : q < t.width
    · simp [hLess]
    · have hPos := h.bitWidth_pos
      simp [hLess, show t.width - 1 < t.width by omega]
  rw [hBit]
  rcases hSign with ⟨hInt, rfl⟩ | ⟨hOther, hSign⟩
  · simp only [Member.bitWidth, hInt, typeBitWidth] at hq
    simp [hInt, show ¬ q < 32 by omega]
  · rw [hSmall q hq]
    split
    · simp [hOther]
    · cases hSigned : t.signed with
      | false => simp [hOther]
      | true =>
        have := hSign hSigned
        simp [hOther, hSmall (t.width - 1) (by omega)]

section Message

variable {params : Params} (h : params.Transmissible ceilLog)
  (hAlone : FloatsAlone (argWords ceilLog params))
include h hAlone

/-- The words of a proxy carry the members and stray bits. -/
theorem proxyWords_bits : ∃ xs, proxyWords ceilLog params args = some xs ∧
    xs.length = (argWords ceilLog params).length ∧ ∀ p < 32 * xs.length, wordsBit xs p = true ↔
      bitAt (Member.bitWidth ceilLog) (Member.bits args) (argAtoms params) p = true ∨
        Stray ceilLog args (argAtoms params) (argWords ceilLog params) p := by
  obtain ⟨xs, hProxy, hAll⟩ := exists_proxyWords h.argWords_ne_nil (h.exists_write hAlone)
    h.exists_read
  have hLength : xs.length = (argWords ceilLog params).length := by
    rw [hAll.length_eq, List.length_reverse]
  refine ⟨xs, hProxy, hLength, fun p hp => ?_⟩
  have hk : p / 32 < (argWords ceilLog params).length := by omega
  have hk' : p / 32 < xs.reverse.length := by simpa using by omega
  have hBits := hAll.get hk hk' (p % 32) (by omega)
  simp only [List.get_eq_getElem] at hBits
  rw [wordsBit, List.getElem?_eq_getElem hk', Option.any_some, hBits]
  exact (argWords_cut ceilLog params).orBits_iff h.nodup h.carried (List.getElem?_eq_getElem hk)

variable (hWidths : ∀ m ∈ argAtoms params, m.bitWidth ceilLog = m.width)
include hWidths

omit h hAlone in
theorem span_bitWidth : span (Member.bitWidth ceilLog) (argAtoms params) = params.width := by
  rw [span, List.map_congr_left hWidths, ← span, argAtoms, span_reverse, params.span_collectMembers]

omit hAlone in
theorem length_argWords : (argWords ceilLog params).length = nwords 32 params.width := by
  rw [(argWords_cut ceilLog params).length_eq, wordCount, List.getLast?_eq_getLast_of_ne_nil h.nonempty]
  have hPos := (h.carried _ (List.getLast_mem h.nonempty)).bitWidth_pos
  simp only [hPos.ne', if_false, span_bitWidth hWidths]
  rfl

omit h hAlone in
theorem getLsbD_pack (p : Nat) : (params.pack args []).getLsbD p =
    bitAt (Member.bitWidth ceilLog) (Member.bits args) (argAtoms params) p := by
  rw [params.getLsbD_pack args [] p]
  exact (bitAt_congr hWidths p).symm

/-- A proxy writes the words of the packed structure exactly if its stray bits fall on
ones. -/
theorem proxyWords_eq_iff :
    proxyWords ceilLog params args = some (messageWords 32 (params.pack args [])) ↔
      ∀ p < 32 * nwords 32 params.width,
        Stray ceilLog args (argAtoms params) (argWords ceilLog params) p →
          (params.pack args []).getLsbD p = true := by
  obtain ⟨xs, hProxy, hLength, hBits⟩ := @proxyWords_bits ceilLog args params h hAlone
  rw [length_argWords h hWidths] at hLength
  rw [hLength] at hBits
  rw [hProxy, Option.some.injEq]
  constructor
  · intro hEq p hp hStray
    rw [← wordsBit_messageWords (n := 32) (by decide), ← hEq]
    exact (hBits p hp).mpr (.inr hStray)
  · intro hStray
    refine words_ext (by rw [hLength, length_messageWords]) fun p hp => ?_
    rw [hLength] at hp
    rw [wordsBit_messageWords (by decide), Bool.eq_iff_iff, hBits p hp, ← getLsbD_pack hWidths p]
    exact ⟨fun hOr => hOr.elim id (hStray p hp), .inl⟩

/-- A handler recovers every argument from the words of the packed structure. -/
theorem handleMessage_recovers (hArgs : ∀ m ∈ argAtoms params, args m.name < 2 ^ m.width)
    (fd : BitVec 32) :
    ∃ vars, handleMessage ceilLog params fd (messageWords 32 (params.pack args [])) = some vars ∧
      ∀ m ∈ argAtoms params, vars m.name = argument ceilLog args m := by
  have hLength : (messageWords 32 (params.pack args [])).length = (argWords ceilLog params).length := by
    rw [length_messageWords, length_argWords h hWidths]
  obtain ⟨vars, hRun, hHolds⟩ := handleMessage_holds h hAlone fd hLength
  refine ⟨vars, hRun, fun m hm => ?_⟩
  obtain ⟨y, t, hy, hType, rfl, hBits⟩ := hHolds m hm
  have hPlace : ∀ q < m.bitWidth ceilLog,
      wordsBit (messageWords 32 (params.pack args [])) (place ceilLog (argAtoms params) m + q) =
        m.bits args q := by
    intro q hq
    obtain ⟨lower, upper, hMembers⟩ := List.append_of_mem hm
    have hBit := @bitAt_field _ (Member.bitWidth ceilLog) (Member.bits args) lower upper m q hq
    rw [← hMembers, ← place_eq h.nodup hMembers, ← getLsbD_pack hWidths] at hBit
    rw [← hBit, wordsBit_messageWords (by decide)]
  rw [hy, argument, hType, Option.map_some, Option.some.injEq]
  refine congrArg (C.Value.mk y.type) (BitVec.eq_of_getLsbD_eq fun q hq => ?_)
  rw [← C.Value.bit_of_lt hq, hBits q hq, BitVec.getLsbD_ofNat]
  by_cases hLess : q < m.bitWidth ceilLog
  · simp [hLess, hPlace q hLess, hq, Member.bits]
  · have hSmall : (args m.name).testBit q = false := by
      refine Nat.testBit_lt_two_pow (Nat.lt_of_lt_of_le (hArgs m hm) ?_)
      exact Nat.pow_le_pow_right Nat.two_pos (by rw [← hWidths m hm]; omega)
    simp [hLess, hSmall]

end Message

/-- Types for which software and hardware have the same widths and signs do not matter. -/
def Atom.Plain : Atom → Prop
  | .bit n => 1 ≤ n ∧ n ≤ 64
  | .uint n => n = 32
  | .bool => True
  | _ => False

theorem Atom.Plain.carried {a : Atom} (h : a.Plain) : a.Carried ceilLog := by
  cases a with
  | bit | uint => exact h
  | bool => trivial
  | _ => exact h.elim

theorem Atom.Plain.typeBitWidth {a : Atom} (h : a.Plain) : typeBitWidth ceilLog a = a.width := by
  cases a with
  | bit | uint | bool => rfl
  | _ => exact h.elim

theorem Atom.Plain.ne_float {a : Atom} (h : a.Plain) : a ≠ .float := by
  rintro rfl
  exact h

theorem Atom.Plain.ne_int {a : Atom} {n : Nat} (h : a.Plain) : a ≠ .int n := by
  rintro rfl
  exact h

/-- What holds of the hardware's shift registers for messages of `asz` bits: in every
run `mkToBit` has sent the words of the messages in order and can send the rest, and
`mkFromBit` turns the words of messages into these messages. -/
structure ShiftsWords (asz : Nat) : Prop where
  toBit : ∀ s trace, (ToBit.machine 32 asz).Run (fun _ _ _ => True) s trace →
    ToBit.words trace <+: (ToBit.puts trace).flatMap (messageWords 32) ∧
    ∃ s' trace', (ToBit.machine 32 asz).Continues (fun _ _ _ => True) (s, trace) (s', trace') ∧
      ToBit.puts trace' = ToBit.puts trace ∧
      ToBit.words trace' = (ToBit.puts trace).flatMap (messageWords 32)
  fromBit : ∀ s trace, (FromBit.machine 32 asz).Run (fun _ _ _ => True) s trace →
    ∀ msgs : List (BitVec asz), FromBit.fed trace = msgs.flatMap (messageWords 32) →
      FromBit.got trace ++ s.fifo.items = msgs

theorem shiftsWords {asz : Nat} (hSize : 0 < asz) : ShiftsWords asz := by
  refine ⟨fun s trace run => ?_, fun s trace run msgs hFed => ?_⟩
  · obtain ⟨-, -, -, -, -, hPrefix, -⟩ := ToBit.run_words (by decide) hSize run
    exact ⟨hPrefix, ToBit.exists_drained (by decide) hSize run⟩
  · rw [← List.append_nil (msgs.flatMap _)] at hFed
    exact (FromBit.messages_rebuilt (by decide) hSize run (by exact nwords_pos (by decide) hSize) hFed).1

theorem argAtoms_ne_nil {params : Params} (hSize : 0 < params.width) : argAtoms params ≠ [] := by
  intro hNil
  have hSpan := params.span_collectMembers []
  rw [argAtoms, List.reverse_eq_nil_iff] at hNil
  rw [hNil, span_nil] at hSpan
  omega

theorem not_stray {params : Params} (h : params.Transmissible ceilLog)
    (hArgs : ∀ m ∈ argAtoms params, args m.name < 2 ^ m.bitWidth ceilLog)
    (hSign : ∀ m ∈ argAtoms params, m.datatype = .int 32 → (args m.name).testBit 31 = false) (p : Nat) :
    ¬ Stray ceilLog args (argAtoms params) (argWords ceilLog params) p := by
  rintro ⟨off, e, he, hBeyond, hBit⟩
  obtain ⟨hIn, -⟩ := (argWords_cut ceilLog params).place_eq h.nodup he
  rw [argBit_of_le (h.carried _ hIn) (hArgs _ hIn) (by omega), Bool.and_eq_true,
    decide_eq_true_eq] at hBit
  rw [hSign _ hIn hBit.1] at hBit
  cases hBit.2

/-- One message passes: the proxy writes the packed structure, and the handler recovers
every argument from it. -/
structure MessageAgrees (ceilLog : Nat → Nat) (params : Params) (args : Args) (fd : BitVec 32) :
    Prop where
  proxy : proxyWords ceilLog params args = some (messageWords 32 (params.pack args []))
  handler : ∃ vars, handleMessage ceilLog params fd (messageWords 32 (params.pack args [])) =
    some vars ∧ ∀ m ∈ params.collectMembers [], vars m.name = argument ceilLog args m

/-- A message passes if compiler and hardware have the same widths and no argument is
negative. -/
theorem Params.Transmissible.messageAgrees {params : Params} (h : params.Transmissible ceilLog)
    (hAlone : FloatsAlone (argWords ceilLog params))
    (hWidths : ∀ m ∈ argAtoms params, m.bitWidth ceilLog = m.width)
    (hArgs : ∀ m ∈ argAtoms params, args m.name < 2 ^ m.width)
    (hSign : ∀ m ∈ argAtoms params, m.datatype = .int 32 → (args m.name).testBit 31 = false)
    (fd : BitVec 32) : MessageAgrees ceilLog params args fd := by
  have hNoStray := not_stray h (fun m hm => (hWidths m hm).symm ▸ hArgs m hm) hSign
  obtain ⟨vars, hRun, hVars⟩ := handleMessage_recovers h hAlone hWidths hArgs fd
  exact ⟨(proxyWords_eq_iff h hAlone hWidths).mpr fun p _ hStray => absurd hStray (hNoStray p),
    vars, hRun, fun m hm => hVars m (List.mem_reverse.mpr hm)⟩

/-- For every method with parameters of the plain types, the words of the proxy are the
words of the packed structure, which the shift registers send and put together, and
the handler recovers every argument from them. -/
theorem marshalling_agrees (ceilLog : Nat → Nat) (params : Params)
    (hDistinct : params.DistinctNames) (hPlain : ∀ m ∈ params.collectMembers [], m.datatype.Plain)
    (hSize : 0 < params.width) (args : Args)
    (hArgs : ∀ m ∈ params.collectMembers [], args m.name < 2 ^ m.width) (fd : BitVec 32) :
    proxyWords ceilLog params args = some (messageWords 32 (params.pack args [])) ∧
    ShiftsWords params.width ∧
    ∃ vars, handleMessage ceilLog params fd (messageWords 32 (params.pack args [])) = some vars ∧
      ∀ m ∈ params.collectMembers [], vars m.name = argument ceilLog args m := by
  have hPlain' : ∀ m ∈ argAtoms params, m.datatype.Plain :=
    fun m hm => hPlain m (List.mem_reverse.mp hm)
  have hArgs' : ∀ m ∈ argAtoms params, args m.name < 2 ^ m.width :=
    fun m hm => hArgs m (List.mem_reverse.mp hm)
  have hWidths : ∀ m ∈ argAtoms params, m.bitWidth ceilLog = m.width :=
    fun m hm => (hPlain' m hm).typeBitWidth
  have h : params.Transmissible ceilLog :=
    ⟨hDistinct, fun m hm => (hPlain' m hm).carried, argAtoms_ne_nil hSize⟩
  have hNot : ∀ m ∈ argAtoms params, m.datatype ≠ .float ∧ m.datatype ≠ .int 32 := fun m hm =>
    ⟨(hPlain' m hm).ne_float, (hPlain' m hm).ne_int⟩
  have hAgrees := h.messageAgrees (floatsAlone_of_ne fun m hm => (hNot m hm).1) hWidths hArgs'
    (fun m hm hInt => absurd hInt (hNot m hm).2) fd
  exact ⟨hAgrees.proxy, shiftsWords hSize, hAgrees.handler⟩

/-- A method with a structure among its parameters. -/
def nestedParams : Params :=
  .cons "a" (.atom (.bit 40)) (.cons "s" (.struct (.cons "flag" (.atom .bool)
    (.cons "x" (.atom (.uint 32)) .nil))) (.cons "b" (.atom (.bit 7)) .nil))

def nestedArgs : Args
  | ["a"] => 0x123456789a
  | ["s", "flag"] => 1
  | ["s", "x"] => 0xdeadbeef
  | ["b"] => 5
  | _ => 0

theorem marshalling_agrees_nested :
    proxyWords id nestedParams nestedArgs = some [0x1234, 0x56789aef, 0x56df7785] ∧
    ShiftsWords 80 ∧
    ∃ vars, handleMessage id nestedParams 0 [0x1234, 0x56789aef, 0x56df7785] = some vars ∧
      ∀ m ∈ nestedParams.collectMembers [], vars m.name = argument id nestedArgs m := by
  have h := marshalling_agrees id nestedParams
    (by simp [nestedParams, Params.DistinctNames, BsvType.DistinctNames, Params.names])
    (by simp [nestedParams, Params.collectMembers, BsvType.collectMembers, Atom.Plain])
    (by decide) nestedArgs (by decide) 0
  have hWords : messageWords 32 (nestedParams.pack nestedArgs []) =
      [0x1234, 0x56789aef, 0x56df7785] := by decide +kernel
  rw [hWords] at h
  exact h

end Connectal
