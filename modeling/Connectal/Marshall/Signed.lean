import Connectal.Marshall.Agreement

/-! Signed parameters. The proxy shifts an `Int#(32)` as a C `int`, so that copies of the
sign fill up the word in which the parameter ends. -/
namespace Connectal

open Layout

variable {ceilLog : Nat → Nat} {params : Params} {args : Args}

/-- The stray bits are the copies of signs up to the end of a word. -/
theorem stray_iff (h : params.Transmissible ceilLog)
    (hArgs : ∀ m ∈ argAtoms params, args m.name < 2 ^ m.bitWidth ceilLog) (p : Nat) :
    Stray ceilLog args (argAtoms params) (argWords ceilLog params) p ↔
      ∃ m ∈ argAtoms params, m.datatype = .int 32 ∧ (args m.name).testBit 31 = true ∧
        place ceilLog (argAtoms params) m + 32 ≤ p ∧
        p / 32 = (place ceilLog (argAtoms params) m + 31) / 32 := by
  have hCut := argWords_cut ceilLog params
  constructor
  · rintro ⟨off, e, he, hBeyond, hBit⟩
    obtain ⟨hIn, hLo, hHi, hPos, hFits⟩ := hCut.place_eq h.nodup he
    rw [argBit_of_le (h.carried _ hIn) (hArgs _ hIn) (by omega), Bool.and_eq_true,
      decide_eq_true_eq] at hBit
    have hWidth : e.bitWidth ceilLog = 32 := by
      rw [Member.bitWidth, hBit.1]
      rfl
    obtain ⟨pre, post, hw, -⟩ := he
    have hLess := hCut.shifted_lt (List.mem_of_getElem? hw) (List.mem_append_right pre List.mem_cons_self)
      (by omega)
    exact ⟨e.toMember, hIn, hBit.1, hBit.2, by omega, by omega⟩
  · rintro ⟨m, hm, hInt, hSign, hBeyond, hWord⟩
    have hWidth : m.bitWidth ceilLog = 32 := by
      rw [Member.bitWidth, hInt]
      rfl
    obtain ⟨k, off, e, he, rfl, hLo, hHi, hPos⟩ :=
      hCut.exists_place h.nodup hm (show 31 < m.bitWidth ceilLog by omega)
    obtain ⟨-, -, hLe, -, hFits⟩ := hCut.place_eq h.nodup he
    rw [ParamInfo.len] at hFits
    obtain rfl : k = p / 32 := by omega
    refine ⟨off, e, he, by omega, ?_⟩
    rw [argBit_of_le (h.carried _ hm) (hArgs _ hm) (by omega), hInt, hSign]
    rfl

/-- `Int#(32)` and the bit vectors that go with it. -/
def Atom.Numeric : Atom → Prop
  | .bit n => 1 ≤ n ∧ n ≤ 32
  | .int n => n = 32
  | _ => False

theorem Atom.Numeric.carried {a : Atom} (h : a.Numeric) : a.Carried ceilLog := by
  cases a with
  | bit n => exact ⟨h.1, by have := h.2; omega⟩
  | int n => exact h
  | _ => exact h.elim

theorem Atom.Numeric.typeBitWidth {a : Atom} (h : a.Numeric) : typeBitWidth ceilLog a = a.width := by
  cases a with
  | bit | int => rfl
  | _ => exact h.elim

theorem Atom.Numeric.ne_float {a : Atom} (h : a.Numeric) : a ≠ .float := by
  rintro rfl
  exact h

/-- Behind every negative `Int#(32)` the packed structure has ones up to the end of the
word in which the parameter ends. -/
def SignsCovered (ceilLog : Nat → Nat) (params : Params) (args : Args) : Prop :=
  ∀ m ∈ argAtoms params, m.datatype = .int 32 → (args m.name).testBit 31 = true →
    ∀ p, place ceilLog (argAtoms params) m + 32 ≤ p →
      p / 32 = (place ceilLog (argAtoms params) m + 31) / 32 →
        (params.pack args []).getLsbD p = true

/-- For a method with signed parameters the proxy writes the packed structure, and the
handler recovers every argument from what the proxy writes, exactly if the copies of
signs fall on ones. -/
theorem signed_marshalling_iff (ceilLog : Nat → Nat) (params : Params)
    (hDistinct : params.DistinctNames)
    (hNumeric : ∀ m ∈ params.collectMembers [], m.datatype.Numeric) (hSize : 0 < params.width)
    (args : Args) (hArgs : ∀ m ∈ params.collectMembers [], args m.name < 2 ^ m.width)
    (fd : BitVec 32) :
    (∃ xs vars, proxyWords ceilLog params args = some xs ∧
      xs = messageWords 32 (params.pack args []) ∧
      handleMessage ceilLog params fd xs = some vars ∧
      ∀ m ∈ params.collectMembers [], vars m.name = argument ceilLog args m) ↔
    SignsCovered ceilLog params args := by
  have hNumeric' : ∀ m ∈ argAtoms params, m.datatype.Numeric :=
    fun m hm => hNumeric m (List.mem_reverse.mp hm)
  have hArgs' : ∀ m ∈ argAtoms params, args m.name < 2 ^ m.width :=
    fun m hm => hArgs m (List.mem_reverse.mp hm)
  have hWidths : ∀ m ∈ argAtoms params, m.bitWidth ceilLog = m.width :=
    fun m hm => (hNumeric' m hm).typeBitWidth
  have h : params.Transmissible ceilLog :=
    ⟨hDistinct, fun m hm => (hNumeric' m hm).carried, argAtoms_ne_nil hSize⟩
  have hAlone : FloatsAlone (argWords ceilLog params) :=
    floatsAlone_of_ne fun m hm => (hNumeric' m hm).ne_float
  have hStray := stray_iff h fun m hm => (hWidths m hm).symm ▸ hArgs' m hm
  have hEq := @proxyWords_eq_iff ceilLog args params h hAlone hWidths
  constructor
  · rintro ⟨xs, vars, hProxy, rfl, -⟩ m hm hInt hSign p hBeyond hWord
    have hEnd := @place_add_bitWidth_le ceilLog m _ h.nodup hm
    rw [span_bitWidth hWidths, Member.bitWidth, hInt] at hEnd
    simp only [typeBitWidth] at hEnd
    refine hEq.mp hProxy p ?_ ((hStray p).mpr ⟨m, hm, hInt, hSign, hBeyond, hWord⟩)
    rw [nwords]
    omega
  · intro hSigns
    obtain ⟨vars, hRun, hVars⟩ := handleMessage_recovers h hAlone hWidths hArgs' fd
    refine ⟨_, vars, hEq.mpr fun p _ hStray' => ?_, rfl, hRun,
      fun m hm => hVars m (List.mem_reverse.mpr hm)⟩
    obtain ⟨m, hm, hInt, hSign, hBeyond, hWord⟩ := (hStray p).mp hStray'
    exact hSigns m hm hInt hSign p hBeyond hWord

/-- A signed parameter above the low word and below another parameter. -/
def signedParams : Params :=
  .cons "z" (.atom (.bit 4)) (.cons "x" (.atom (.int 32)) (.cons "y" (.atom (.bit 4)) .nil))

/-- `x` is -2 and the others are zero. -/
def signedArgs : Args
  | ["x"] => 0xfffffffe
  | _ => 0

/-- A signed parameter in a word of its own. -/
def alignedParams : Params :=
  .cons "z" (.atom (.bit 4)) (.cons "x" (.atom (.int 32)) .nil)

theorem signed_marshalling_iff_aligned :
    ∃ xs vars, proxyWords id alignedParams signedArgs = some xs ∧ xs = [0, 0xfffffffe] ∧
      handleMessage id alignedParams 0 xs = some vars ∧
      ∀ m ∈ alignedParams.collectMembers [], vars m.name = argument id signedArgs m := by
  have hWords : messageWords 32 (alignedParams.pack signedArgs []) = [0, 0xfffffffe] := by
    decide +kernel
  have hSigns : SignsCovered id alignedParams signedArgs := by
    have hPlaces : ∀ m ∈ argAtoms alignedParams, m.datatype = .int 32 →
        place id (argAtoms alignedParams) m = 0 := by decide
    intro m hm hInt _ p hBeyond hWord
    have hPlace := hPlaces m hm hInt
    omega
  have h := (signed_marshalling_iff id alignedParams
    (by simp [alignedParams, Params.DistinctNames, BsvType.DistinctNames, Params.names])
    (by simp [alignedParams, Params.collectMembers, BsvType.collectMembers, Atom.Numeric])
    (by decide) signedArgs (by decide) 0).mpr hSigns
  rwa [hWords] at h

theorem argWords_signedParams : argWords id signedParams =
    [[⟨⟨["y"], .bit 4⟩, 4, 0, .assign⟩, ⟨⟨["x"], .int 32⟩, 28, 0, .orAssign⟩],
      [⟨⟨["x"], .int 32⟩, 32, 28, .assign⟩, ⟨⟨["z"], .bit 4⟩, 4, 0, .assign⟩]] := by
  have hAtoms : argAtoms signedParams =
      [⟨["y"], .bit 4⟩, ⟨["x"], .int 32⟩, ⟨["z"], .bit 4⟩] := by decide
  rw [argWords, hAtoms, accumWords_room (by decide), accumWords_over (by decide),
    accumWords_room (by decide), accumWords_room (by decide), accumWords]
  decide

/-- The sign of `x` overwrites `z`: the handler reads 15 for it. -/
theorem sign_overwrites_neighbour :
    proxyWords id signedParams signedArgs = some [0xffffffff, 0xffffffe0] ∧
    messageWords 32 (signedParams.pack signedArgs []) = [0xf, 0xffffffe0] ∧
    (handleMessage id signedParams 0 [0xffffffff, 0xffffffe0]).bind (fun vars => vars ["z"]) =
      some ⟨C.uint32, 15⟩ := by
  refine ⟨?_, by decide +kernel, ?_⟩
  · rw [proxyWords, gatherMethodInfo, argWords_signedParams]
    decide +kernel
  · rw [handleMessage, gatherMethodInfo, argWords_signedParams]
    decide +kernel

end Connectal
