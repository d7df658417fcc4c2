import Connectal.Marshall.Agreement

/-! The lengths of a message: the words that the proxy writes, the length in the header
that it sends, the words that the handler asks for, and the words of the hardware's
structure. -/
namespace Connectal

open Layout Rules

/-- The header `(channelNumber << 16) | wordLenP1` of a message. -/
def messageHeader (channelNumber wordLenP1 : Nat) : BitVec 32 :=
  (BitVec.ofNat 32 channelNumber <<< 16) ||| BitVec.ofNat 32 wordLenP1

/-- The length field of a header, which counts the header too. -/
def headerWords (hdr : BitVec 32) : Nat := (hdr &&& 0xffff).toNat

/-- The width of the structure that `collectElements` declares for a method. A method
without parameters gets a padding of 32 bits. -/
def messageWidth : Params → Nat
  | .nil => 32
  | params => params.width

/-- What a framed transport hands on of the words behind a header. -/
def framePayload (hdr : BitVec 32) (words : List (BitVec 32)) : List (BitVec 32) :=
  words.take (headerWords hdr - 1)

theorem headerWords_messageHeader (channelNumber wordLenP1 : Nat) :
    headerWords (messageHeader channelNumber wordLenP1) = wordLenP1 % 2 ^ 16 := by
  apply Nat.eq_of_testBit_eq
  intro i
  have hMask : (0xffff : BitVec 32) = BitVec.ofNat 32 (2 ^ 16 - 1) := rfl
  rw [headerWords, messageHeader, BitVec.testBit_toNat, hMask, Nat.testBit_mod_two_pow]
  simp only [BitVec.getLsbD_and, BitVec.getLsbD_or, BitVec.getLsbD_shiftLeft, BitVec.getLsbD_ofNat,
    Nat.testBit_two_pow_sub_one]
  by_cases hi : i < 16
  · simp [hi, show i < 32 by omega]
  · simp [hi]

theorem headerWords_eq_mod (hdr : BitVec 32) : headerWords hdr = hdr.toNat % 2 ^ 16 := by
  rw [headerWords, BitVec.toNat_and]
  exact Nat.and_two_pow_sub_one_eq_mod hdr.toNat 16

theorem messageHeader_number {channelNumber wordLenP1 : Nat} (h : wordLenP1 < 2 ^ 16) :
    (messageHeader channelNumber wordLenP1 >>> 16).setWidth 16 = BitVec.ofNat 16 channelNumber := by
  apply BitVec.eq_of_getLsbD_eq
  intro i hi
  have hHigh : wordLenP1.testBit (16 + i) = false :=
    Nat.testBit_lt_two_pow (Nat.lt_of_lt_of_le h
      (Nat.pow_le_pow_right Nat.two_pos (Nat.le_add_right 16 i)))
  simp only [messageHeader, BitVec.getLsbD_setWidth, hi, decide_true, Bool.true_and,
    BitVec.getLsbD_ushiftRight, BitVec.getLsbD_or, BitVec.getLsbD_shiftLeft, BitVec.getLsbD_ofNat,
    hHigh, Bool.and_false, Bool.or_false]
  simp [show 16 + i < 32 by omega, show i < 32 by omega]

variable {ceilLog : Nat → Nat} {params : Params} {info : MethodInfo}

theorem gatherMethodInfo_lengths (h : gatherMethodInfo ceilLog params = some info) :
    info.paramStructMarshall.length = max 1 (argWords ceilLog params).length ∧
    info.wordLen = (argWords ceilLog params).length ∧
    info.wordLenP1 = (argWords ceilLog params).length + 1 := by
  unfold gatherMethodInfo at h
  by_cases hNil : argWords ceilLog params = []
  · simp only [hNil, if_true, firing] at h
    subst h
    simp [hNil]
  · simp only [hNil, if_false, firing] at h
    obtain ⟨marshall, hMarshall, demarshall, -, rfl⟩ := h
    have hLength := (mapM_eq_some.mp hMarshall).length_eq
    have hPos : 0 < (argWords ceilLog params).length := List.length_pos_iff.mpr hNil
    simp only [List.length_reverse, ← hLength, and_true]
    exact (Nat.max_eq_right hPos).symm

/-- The four lengths of a method agree, and what a framed transport hands on of one
message is what `mkFromBit` needs for one structure. -/
structure LengthsAgree (params : Params) (info : MethodInfo) (channelNumber : Nat) : Prop where
  written : info.paramStructMarshall.length = nwords 32 (messageWidth params)
  header : headerWords (messageHeader channelNumber info.wordLenP1) =
    nwords 32 (messageWidth params) + 1
  received : info.wordLen = nwords 32 (messageWidth params)
  delivered : ∀ words : List (BitVec 32), words.length = info.paramStructMarshall.length →
    ∀ s trace, (FromBit.machine 32 (messageWidth params)).Run (fun _ _ _ => True) s trace →
      FromBit.fed trace = framePayload (messageHeader channelNumber info.wordLenP1) words →
      (FromBit.got trace ++ s.fifo.items).length = 1

theorem wordCount_pos {members : List Member} (hMembers : members ≠ []) :
    0 < wordCount ceilLog members := by
  rw [wordCount, List.getLast?_eq_getLast_of_ne_nil hMembers]
  by_cases hTop : (members.getLast hMembers).bitWidth ceilLog = 0
  · simp only [hTop, if_true]
    omega
  · have hLe := span_append (Member.bitWidth ceilLog) members.dropLast
      [members.getLast hMembers]
    rw [List.dropLast_append_getLast, span_cons, span_nil] at hLe
    simp only [hTop, if_false]
    omega

theorem messageWidth_of_argAtoms (hAtoms : argAtoms params ≠ []) :
    messageWidth params = params.width := by
  cases params with
  | nil => exact absurd rfl hAtoms
  | cons name type rest => rfl

theorem length_framePayload {channelNumber wordLenP1 : Nat} {words : List (BitVec 32)}
    (hRoom : wordLenP1 < 2 ^ 16) (hLength : wordLenP1 = words.length + 1) :
    framePayload (messageHeader channelNumber wordLenP1) words = words := by
  rw [framePayload, headerWords_messageHeader, Nat.mod_eq_of_lt hRoom, hLength,
    Nat.add_sub_cancel, List.take_length]

/-- The lengths of a method agree exactly if it has a parameter with a member, the
members need as many words by the compiler's widths as by the hardware's, and the
header has room for their number. -/
theorem lengths_agree_iff (channelNumber : Nat) (h : gatherMethodInfo ceilLog params = some info) :
    LengthsAgree params info channelNumber ↔
      argAtoms params ≠ [] ∧ wordCount ceilLog (argAtoms params) = nwords 32 params.width ∧
        wordCount ceilLog (argAtoms params) + 1 < 2 ^ 16 := by
  obtain ⟨hWritten, hLen, hLenP1⟩ := gatherMethodInfo_lengths h
  rw [(argWords_cut ceilLog params).length_eq] at hWritten hLen hLenP1
  constructor
  · intro agree
    have hHeader := agree.header
    have hReceived := agree.received
    rw [headerWords_messageHeader, hLenP1] at hHeader
    rw [hLen] at hReceived
    have hAtoms : argAtoms params ≠ [] := by
      intro hNil
      have hBoth := agree.written
      rw [hWritten, ← hReceived, hNil] at hBoth
      exact absurd hBoth Nat.one_ne_zero
    rw [messageWidth_of_argAtoms hAtoms] at hHeader hReceived
    refine ⟨hAtoms, hReceived, ?_⟩
    have hMod := Nat.mod_lt (wordCount ceilLog (argAtoms params) + 1) (show 0 < 2 ^ 16 by decide)
    omega
  · rintro ⟨hAtoms, hCount, hRoom⟩
    have hPos : 0 < wordCount ceilLog (argAtoms params) := wordCount_pos hAtoms
    have hSize : 0 < params.width := by
      apply Nat.pos_of_ne_zero
      intro hZero
      rw [hZero] at hCount
      exact absurd (hCount ▸ hPos) (by decide)
    rw [Nat.max_eq_right hPos, hCount] at hWritten
    constructor
    · rw [messageWidth_of_argAtoms hAtoms, hWritten]
    · rw [messageWidth_of_argAtoms hAtoms, headerWords_messageHeader, hLenP1,
        Nat.mod_eq_of_lt hRoom, hCount]
    · rw [messageWidth_of_argAtoms hAtoms, hLen, hCount]
    · intro words hWords s trace run hFed
      have hWidth := messageWidth_of_argAtoms hAtoms
      have hFrame : wordCount ceilLog (argAtoms params) = words.length := by
        rw [hWords, hWritten, hCount]
      rw [FromBit.messages_counted (by decide) (hWidth.symm ▸ hSize) run, hFed,
        length_framePayload (hLenP1 ▸ hRoom) (by rw [hLenP1, hFrame]), hWidth, hWords, hWritten]
      exact Nat.div_self (nwords_pos (by decide) hSize)

theorem Params.Transmissible.exists_gatherMethodInfo (h : params.Transmissible ceilLog)
    (hAlone : FloatsAlone (argWords ceilLog params)) :
    ∃ info, gatherMethodInfo ceilLog params = some info := by
  obtain ⟨calls, hCalls⟩ := exists_forall₂ fun w hw => by
    obtain ⟨call, _, hCall, -⟩ := @Params.Transmissible.exists_write _ (fun _ => 0) _ h hAlone w hw
    exact ⟨call, hCall⟩
  obtain ⟨groups, hGroups⟩ := exists_forall₂ h.exists_read
  simp [gatherMethodInfo, h.argWords_ne_nil, mapM_eq_some.mpr hCalls, mapM_eq_some.mpr hGroups]

/-- A method of one byte. -/
def byteParams : Params := .cons "x" (.atom (.bit 8)) .nil

theorem lengths_agree_byte :
    ∃ info, gatherMethodInfo id byteParams = some info ∧ LengthsAgree byteParams info 3 := by
  have hByte : byteParams.Transmissible id :=
    ⟨by simp [byteParams, Params.DistinctNames, BsvType.DistinctNames, Params.names],
      by simp [byteParams, argAtoms, Params.collectMembers, BsvType.collectMembers, Atom.Carried],
      by decide⟩
  obtain ⟨info, hInfo⟩ := hByte.exists_gatherMethodInfo (floatsAlone_of_ne (by decide))
  exact ⟨info, hInfo, (lengths_agree_iff 3 hInfo).mpr (by decide)⟩

/-- The proxy of a method without parameters writes the word that the hardware waits
for, but announces none, so that no word passes a framed transport. -/
theorem lengths_differ_without_params :
    ∃ info, (∀ ceilLog, gatherMethodInfo ceilLog .nil = some info) ∧
      info.paramStructMarshall.length = 1 ∧ nwords 32 (messageWidth .nil) = 1 ∧
      headerWords (messageHeader 0 info.wordLenP1) - 1 = 0 ∧ info.wordLen = 0 ∧
      framePayload (messageHeader 0 info.wordLenP1) [0] = [] ∧ ¬ LengthsAgree .nil info 0 := by
  refine ⟨⟨[⟨false, .lit 0⟩], [[]], 0, 1⟩, fun ceilLog => ?_, by decide, by decide, by decide,
    by decide, by decide, fun agree => absurd agree.received (by decide)⟩
  simp [gatherMethodInfo, argWords, argAtoms, Params.collectMembers, accumWords, Bin.empty]

end Connectal
