import Connectal.Marshall.Length

/-! The buffer `map_base` of a portal over a socket or behind a multiplexer: its size, which
`generate_class` computes from all methods of the class, and the words that a call of a
generated proxy touches. Words are counted from `map_base`. -/
namespace Connectal.Socket

/-- What `generate_class` finds for the methods of a class, and `reqsize` in bytes. -/
def generateClass (ceilLog : Nat → Nat) (methods : List Params) : Option (List MethodInfo × Nat) := do
  let infos ← methods.mapM (gatherMethodInfo ceilLog)
  let maxSize := infos.foldl (fun maxSize info => if maxSize < info.wordLen then info.wordLen else maxSize) 0
  return (infos, (maxSize + 1) * 4)

/-- The transport of a portal; a portal behind a multiplexer has a number. -/
inductive Link where
  | socket
  | mux (fpgaNumber : BitVec 32)

/-- `mapchannel_socket`, the address of the first word behind the header. -/
def mapchannelSocket : Int := 1

/-- `len` words from an address on. -/
def wordsFrom (addr : Int) (len : Nat) : List Int := (List.range len).map fun i : Nat => addr + i

/-- `send_socket` puts the header before the data, and sends as many words as it says. -/
def sendSocketWords (data : Int) (hdr : BitVec 32) : List Int :=
  let buffer := data - 1
  buffer :: wordsFrom buffer (headerWords hdr)

/-- `send_mux` puts the header before the data, and the socket below puts its own before that. -/
def sendMuxWords (fpgaNumber : BitVec 32) (data : Int) (hdr : BitVec 32) : List Int :=
  let buffer := data - 1
  buffer :: sendSocketWords buffer ((fpgaNumber <<< 16) ||| ((hdr + 1) &&& 0xffff))

def Link.sendWords : Link → Int → BitVec 32 → List Int
  | .socket => sendSocketWords
  | .mux fpgaNumber => sendMuxWords fpgaNumber

/-- The words that the proxy of a method writes and sends. Every call of `write` takes the next word. -/
def proxyTouches (link : Link) (info : MethodInfo) (channelNumber : Nat) : List Int :=
  wordsFrom mapchannelSocket info.paramStructMarshall.length ++
    link.sendWords mapchannelSocket (messageHeader channelNumber info.wordLenP1)

/-- The words are in a buffer of `reqsize` bytes. -/
def Within (reqsize : Nat) (touched : List Int) : Prop := ∀ i ∈ touched, 0 ≤ i ∧ i < (reqsize / 4 : Nat)

instance (reqsize : Nat) (touched : List Int) : Decidable (Within reqsize touched) :=
  inferInstanceAs (Decidable (∀ i ∈ touched, _))

theorem mem_wordsFrom {addr i : Int} {len : Nat} : i ∈ wordsFrom addr len ↔ addr ≤ i ∧ i < addr + len := by
  simp only [wordsFrom, List.mem_map, List.mem_range]
  constructor
  · rintro ⟨j, hj, rfl⟩
    omega
  · rintro ⟨hLow, hHigh⟩
    exact ⟨(i - addr).toNat, by omega, by omega⟩

theorem lt_maxSize_iff (infos : List MethodInfo) (start m : Nat) :
    m < infos.foldl (fun maxSize info => if maxSize < info.wordLen then info.wordLen else maxSize) start ↔
      m < start ∨ ∃ info ∈ infos, m < info.wordLen := by
  induction infos generalizing start with
  | nil => simp
  | cons info infos ih =>
    rw [List.foldl_cons, ih, List.exists_mem_cons_iff, ← or_assoc]
    refine or_congr_left ?_
    split <;> omega

variable {ceilLog : Nat → Nat} {methods : List Params} {infos : List MethodInfo} {reqsize : Nat}

/-- The buffer has a word for the header and for every word of every method, and no more. -/
theorem generateClass_size (h : generateClass ceilLog methods = some (infos, reqsize)) (m : Nat) :
    m + 1 < reqsize / 4 ↔ ∃ info ∈ infos, m < info.wordLen := by
  simp only [generateClass, Rules.firing] at h
  obtain ⟨_, -, rfl, rfl⟩ := h
  rw [Nat.mul_div_cancel _ (by decide : 0 < 4), Nat.add_lt_add_iff_right, lt_maxSize_iff]
  simp

theorem generateClass_method (h : generateClass ceilLog methods = some (infos, reqsize)) {info : MethodInfo}
    (hInfo : info ∈ infos) : info.wordLen < reqsize / 4 ∧ info.wordLenP1 = info.wordLen + 1 ∧
      info.paramStructMarshall.length = max 1 info.wordLen := by
  have hSize := generateClass_size h (info.wordLen - 1)
  simp only [generateClass, Rules.firing, mapM_eq_some] at h
  obtain ⟨_, hInfos, rfl, rfl⟩ := h
  obtain ⟨params, -, hParams⟩ := exists_of_mem_right hInfos hInfo
  obtain ⟨hWritten, hLen, hLenP1⟩ := gatherMethodInfo_lengths hParams
  refine ⟨?_, by rw [hLenP1, hLen], by rw [hWritten, hLen]⟩
  rcases Nat.eq_zero_or_pos info.wordLen with hZero | hPos
  · rw [hZero, Nat.mul_div_cancel _ (by decide : 0 < 4)]
    exact Nat.succ_pos _
  · have hMore := hSize.mpr ⟨info, hInfo, by omega⟩
    omega

theorem wordLen_pos_iff {params : Params} {info : MethodInfo} (h : gatherMethodInfo ceilLog params = some info) :
    0 < info.wordLen ↔ argAtoms params ≠ [] := by
  rw [(gatherMethodInfo_lengths h).2.1, (argWords_cut ceilLog params).length_eq]
  refine ⟨fun hPos hNil => ?_, wordCount_pos⟩
  rw [hNil] at hPos
  exact absurd hPos (Nat.lt_irrefl 0)

theorem generateClass_words (h : generateClass ceilLog methods = some (infos, reqsize)) :
    (∃ info ∈ infos, 0 < info.wordLen) ↔ ∃ params ∈ methods, argAtoms params ≠ [] := by
  simp only [generateClass, Rules.firing, mapM_eq_some] at h
  obtain ⟨_, hInfos, rfl, -⟩ := h
  induction hInfos with
  | nil => simp
  | cons hInfo hInfos ih => rw [List.exists_mem_cons_iff, List.exists_mem_cons_iff, wordLen_pos_iff hInfo, ih]

/-- A call stays in the buffer exactly if the portal is not behind a multiplexer and some
method of the class has a parameter with a member. -/
theorem proxy_within_iff (h : generateClass ceilLog methods = some (infos, reqsize)) {info : MethodInfo}
    (hInfo : info ∈ infos) (link : Link) (channelNumber : Nat) :
    Within reqsize (proxyTouches link info channelNumber) ↔ link = .socket ∧ ∃ params ∈ methods, argAtoms params ≠ [] := by
  obtain ⟨hFits, hLenP1, hWritten⟩ := generateClass_method h hInfo
  rw [← generateClass_words h, ← generateClass_size h 0]
  constructor
  · intro hWithin
    -- the first word behind the header is written in any case
    have hFirst := hWithin 1 (List.mem_append_left _ (mem_wordsFrom.mpr (by rw [hWritten, mapchannelSocket]; omega)))
    refine ⟨?_, by omega⟩
    cases link with
    | socket => rfl
    | mux fpgaNumber =>
      -- the header of the socket is in front of the buffer
      have hBefore := hWithin (-1) (List.mem_append_right _ (List.mem_cons_of_mem _ List.mem_cons_self))
      omega
  · rintro ⟨rfl, hSome⟩ i hi
    have hSent : headerWords (messageHeader channelNumber info.wordLenP1) ≤ info.wordLen + 1 := by
      rw [headerWords_messageHeader, hLenP1]
      exact Nat.mod_le _ _
    rcases List.mem_append.mp hi with hi | hi
    · rw [mem_wordsFrom, hWritten, mapchannelSocket] at hi
      omega
    · rcases List.mem_cons.mp hi with rfl | hi
      · rw [mapchannelSocket]
        omega
      · rw [mem_wordsFrom, mapchannelSocket] at hi
        omega

/-- A class with one method of one byte. -/
theorem proxy_within_byte : ∃ infos reqsize, generateClass id [byteParams] = some (infos, reqsize) ∧
    ∃ info ∈ infos, Within reqsize (proxyTouches .socket info 0) ∧ ¬ Within reqsize (proxyTouches (.mux 3) info 0) := by
  have hByte : byteParams.Transmissible id :=
    ⟨by simp [byteParams, Params.DistinctNames, BsvType.DistinctNames, Params.names],
      by simp [byteParams, argAtoms, Params.collectMembers, BsvType.collectMembers, Atom.Carried],
      by decide⟩
  obtain ⟨info, hGather⟩ := hByte.exists_gatherMethodInfo (floatsAlone_of_ne (by decide))
  obtain ⟨reqsize, hClass⟩ : ∃ reqsize, generateClass id [byteParams] = some ([info], reqsize) := by
    simp only [generateClass, List.mapM_cons, List.mapM_nil, hGather, Option.bind_eq_bind, Option.bind_some]
    exact ⟨_, rfl⟩
  have hInfo : info ∈ [info] := List.mem_singleton_self info
  refine ⟨[info], reqsize, hClass, info, hInfo, (proxy_within_iff hClass hInfo .socket 0).mpr
    ⟨rfl, byteParams, List.mem_singleton_self _, by decide⟩, fun hMux => ?_⟩
  cases ((proxy_within_iff hClass hInfo (.mux 3) 0).mp hMux).1

/-- A class without parameters has a buffer of one word, and its proxy writes the second one;
behind a multiplexer a word in front of the buffer is written, too. -/
theorem proxy_beyond_buffer : ∃ info, generateClass id [.nil] = some ([info], 4) ∧
    1 ∈ proxyTouches .socket info 0 ∧ ¬ Within 4 (proxyTouches .socket info 0) ∧
    -1 ∈ proxyTouches (.mux 3) info 0 ∧ ¬ Within 4 (proxyTouches (.mux 3) info 0) := by
  refine ⟨⟨[⟨false, .lit 0⟩], [[]], 0, 1⟩, ?_, by decide +kernel⟩
  simp [generateClass, gatherMethodInfo, argWords, argAtoms, Params.collectMembers, accumWords, Bin.empty]

end Connectal.Socket
