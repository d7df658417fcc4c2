import Connectal.Pcie.MemSlaveEngine

/-! Read completions at `mkMemSlaveEngine`. -/
namespace Connectal.Pcie

open Layout Rules
open TLPData (frame)

namespace MemSlaveEngine

/-- The data words of a completion packet: one in the first beat, and those that the byte
enables mark in the other beats. -/
def payload : List (TLPData 16) → List (BitVec 32)
  | [] => []
  | b :: rest => (TLPMemoryIO3DWHeader.unpack b.data).data :: rest.flatMap TLPData.valid

/-- The tag of a completion packet. -/
def packetTag : List (TLPData 16) → BitVec 8
  | [] => 0
  | b :: _ => (TLPCompletionHeader.unpack b.data).tag

/-- A beat of the bus: the words byte-swapped. -/
def busBeat (k : Fin 3) (words : List (BitVec 32)) (tag : BitVec 8) : MemData (Fin (2 ^ k.val) → BitVec 32) :=
  ⟨fun i => byteSwap (words.getD i 0), tag.setWidth 6, true⟩

/-- The read data of a packet: its words in groups, each with the tag of the packet. -/
def readBeats (k : Fin 3) (p : List (TLPData 16)) : List (MemData (Fin (2 ^ k.val) → BitVec 32)) :=
  (groups (2 ^ k.val) (payload p)).map fun words => busBeat k words (packetTag p)

/-- The next beat of a stream of well-formed completions: a first beat has a completion
header, only the last beat of a packet may be partial, and the payload of a packet fills
whole beats of the bus. -/
def Completes (k : Fin 3) (before : List (TLPData 16)) (b : TLPData 16) : Prop :=
  (frame 16).Admits before b ∧
    (b.sof = true → (TLPMemoryIO3DWHeader.unpack b.data).format = .memWrite3dwData ∧
      (TLPMemoryIO3DWHeader.unpack b.data).pkttype = completion) ∧
    (b.sof = false → b.be = 0xffff ∨ b.eof = true ∧ (b.be = 0xf000 ∨ b.be = 0xff00 ∨ b.be = 0xfff0)) ∧
    (b.eof = true → (payload (((frame 16).cut before).2 ++ [b])).length % 2 ^ k.val = 0)

instance (k : Fin 3) (before : List (TLPData 16)) (b : TLPData 16) : Decidable (Completes k before b) :=
  inferInstanceAs (Decidable (_ ∧ _ ∧ _ ∧ _))

variable {k : Fin 3}

def tlpIn? : Event k → Option (TLPData 16)
  | .tlpIn tlp => some tlp
  | _ => none

def readData? : Event k → Option (MemData (Fin (2 ^ k.val) → BitVec 32))
  | .readData data => some data
  | _ => none

/-- The host sends well-formed completions. -/
def Completions (trace : List (Event k)) (_ : MemSlaveEngine) : Action k → Prop
  | .responsePut tlp => Completes k (trace.filterMap tlpIn?) tlp
  | _ => True

instance (trace : List (Event k)) (s : MemSlaveEngine) (action : Action k) :
    Decidable (Completions trace s action) :=
  match action with
  | .responsePut tlp => inferInstanceAs (Decidable (Completes k (trace.filterMap tlpIn?) tlp))
  | .writeReqPut _ | .writeDataPut _ | .writeDoneGet | .readReqPut _ | .readDataGet | .requestGet
  | .writeHeaderTlp | .writeTlps _ | .readReqRule | .tlpInRule | .handleTlpRule | .tofifos | .tagTofifos =>
    .isTrue trivial

/-- The words of a packet, each with the tag of the packet. -/
def tagged (p : List (TLPData 16)) : List (BitVec 32 × BitVec 8) := (payload p).map (·, packetTag p)

/-- The words of a stream of packets. -/
def taggedStream (stream : List (TLPData 16)) : List (BitVec 32 × BitVec 8) :=
  ((frame 16).cut stream).1.flatMap tagged ++ tagged ((frame 16).cut stream).2

/-- The words that a beat adds. -/
def beatWords (stream : List (TLPData 16)) (b : TLPData 16) : List (BitVec 32 × BitVec 8) :=
  if b.sof then
    [((TLPMemoryIO3DWHeader.unpack b.data).data, (TLPCompletionHeader.unpack b.data).tag)]
  else b.valid.map (·, packetTag ((frame 16).cut stream).2)

variable {stream : List (TLPData 16)} {b : TLPData 16} {p : List (TLPData 16)}

theorem packetTag_concat (h : p ≠ []) : packetTag (p ++ [b]) = packetTag p := by
  cases p with
  | nil => exact absurd rfl h
  | cons c rest => rfl

theorem tagged_concat (h : p ≠ []) : tagged (p ++ [b]) = tagged p ++ b.valid.map (·, packetTag p) := by
  cases p with
  | nil => exact absurd rfl h
  | cons c rest => simp [tagged, payload, packetTag]

theorem taggedStream_concat (h : (frame 16).Admits stream b) :
    taggedStream (stream ++ [b]) = taggedStream stream ++ beatWords stream b := by
  have hOpen : tagged (((frame 16).cut stream).2 ++ [b]) =
      tagged ((frame 16).cut stream).2 ++ beatWords stream b := by
    have hSof : b.sof = ((frame 16).cut stream).2.isEmpty := h
    cases hCut : ((frame 16).cut stream).2 with
    | nil =>
      have hFirst : b.sof = true := by rw [hSof, hCut]; rfl
      rw [beatWords, if_pos hFirst]
      rfl
    | cons c rest =>
      rw [hCut] at hSof
      rw [beatWords, hCut, if_neg (by rw [hSof]; exact Bool.false_ne_true)]
      exact tagged_concat (List.cons_ne_nil _ _)
  cases hEof : b.eof with
  | true =>
    rw [taggedStream, Frame.cut_concat_eof hEof, taggedStream, List.append_assoc, ← hOpen]
    simp [tagged, payload]
  | false => rw [taggedStream, Frame.cut_concat_middle hEof, hOpen, ← List.append_assoc, ← taggedStream]

/-- A beat behind the first one has the words that the module counts. -/
theorem Completes.count (h : Completes k stream b) (hSof : b.sof = false) :
    tlpWordCount b = b.count ∧ 0 < b.count ∧ b.count ≤ 4 := by
  unfold tlpWordCount TLPData.count
  rcases h.2.2.1 hSof with hBe | ⟨-, hBe | hBe | hBe⟩ <;> rw [hBe] <;> decide

theorem Completes.length_mod (h : Completes k stream b) (hEof : b.eof = true) :
    (tagged (((frame 16).cut stream).2 ++ [b])).length % 2 ^ k.val = 0 := by
  rw [tagged, List.length_map]
  exact h.2.2.2 hEof

/-- The packets of a lawful stream fill whole beats of the bus. -/
theorem length_packet_mod (h : Lawful (Completes k) stream) :
    ∀ p ∈ ((frame 16).cut stream).1, (tagged p).length % 2 ^ k.val = 0 := by
  refine h.induction (motive := fun stream => ∀ p ∈ ((frame 16).cut stream).1,
    (tagged p).length % 2 ^ k.val = 0) (fun _ hp => by cases hp) ?_
  rintro before b - hb hPackets
  cases hEof : b.eof with
  | true =>
    rw [Frame.cut_concat_eof hEof, List.forall_mem_append, List.forall_mem_singleton]
    exact ⟨hPackets, hb.length_mod hEof⟩
  | false =>
    rw [Frame.cut_concat_middle hEof]
    exact hPackets

/-- The beat of a group of tagged words. -/
def groupBeat (k : Fin 3) (group : List (BitVec 32 × BitVec 8)) : MemData (Fin (2 ^ k.val) → BitVec 32) :=
  busBeat k (group.map (·.1)) ((group.map (·.2)).headD 0)

theorem map_groups_tagged (p : List (TLPData 16)) :
    (groups (2 ^ k.val) (tagged p)).map (groupBeat k) = readBeats k p := by
  rw [tagged, groups_map, List.map_map, readBeats]
  refine List.map_congr_left fun words hWords => ?_
  have hLength := length_of_mem_groups hWords
  cases words with
  | nil => exact absurd hLength.symm (Nat.two_pow_pos _).ne'
  | cons word rest => simp [groupBeat, Function.comp_def]

/-- No group of a lawful stream has words of two packets. -/
theorem map_groups_taggedStream (h : Lawful (Completes k) stream) :
    (groups (2 ^ k.val) (taggedStream stream)).map (groupBeat k) =
      ((frame 16).cut stream).1.flatMap (readBeats k) ++
        readBeats k ((frame 16).cut stream).2 := by
  have hPackets := length_packet_mod h
  rw [taggedStream]
  generalize ((frame 16).cut stream).1 = packets at hPackets ⊢
  induction packets with
  | nil => exact map_groups_tagged _
  | cons p packets ih =>
    obtain ⟨hp, hPackets⟩ := List.forall_mem_cons.mp hPackets
    rw [List.flatMap_cons, List.append_assoc, groups_append hp, List.map_append, ih hPackets,
      map_groups_tagged, List.flatMap_cons, List.append_assoc]

/-- The beats come in, wait with their word counts, and are cut into words and tags; what
has left the module is the first part of the words. -/
structure CompletionsInv (k : Fin 3) (received : List (TLPData 16))
    (returned : List (MemData (Fin (2 ^ k.val) → BitVec 32))) (s : MemSlaveEngine)
    (handled : List (TLPData 16)) (taken rest : List (BitVec 32 × BitVec 8)) : Prop where
  lawful : Lawful (Completes k) received
  pipeline : received = handled ++ s.tlpDecodeFifo.items ++ s.tlpInFifo.items
  counts : s.tlpWordCountFifo.items = s.tlpDecodeFifo.items.map tlpWordCount
  split : taggedStream handled = taken ++ rest
  words : s.completionMimo.Holds (rest.map (·.1))
  tags : s.completionTagMimo.Holds (rest.map (·.2))
  lastTag : ((frame 16).cut handled).2 ≠ [] →
    s.lastTag = packetTag ((frame 16).cut handled).2
  whole : taken.length = 2 ^ k.val * returned.length
  returned_eq : returned = (groups (2 ^ k.val) taken).map (groupBeat k)

variable {received handled : List (TLPData 16)} {returned : List (MemData (Fin (2 ^ k.val) → BitVec 32))}
  {s s' : MemSlaveEngine} {taken rest : List (BitVec 32 × BitVec 8)} {events : List (Event k)}
  {myId : BitVec 16}

namespace CompletionsInv

variable (h : CompletionsInv k received returned s handled taken rest)

include h

/-- The first beat of the queue, and the words that it adds. -/
theorem next {tlp : TLPData 16} {waiting : List (TLPData 16)}
    (hDecode : s.tlpDecodeFifo.items = tlp :: waiting) :
    Completes k handled tlp ∧ received = handled ++ [tlp] ++ waiting ++ s.tlpInFifo.items ∧
      taggedStream (handled ++ [tlp]) = taken ++ (rest ++ beatWords handled tlp) := by
  have hPipeline : received = handled ++ [tlp] ++ waiting ++ s.tlpInFifo.items := by
    rw [h.pipeline, hDecode]
    simp
  have hNext : Completes k handled tlp := by
    refine h.lawful handled tlp ?_
    rw [hPipeline, List.append_assoc]
    exact List.prefix_append _ _
  refine ⟨hNext, hPipeline, ?_⟩
  rw [taggedStream_concat hNext.1, h.split, List.append_assoc]

theorem handleTlpRule (hFire : MemSlaveEngine.handleTlpRule s = some (s', events)) :
    events = [] ∧ ∃ handled' rest', CompletionsInv k received returned s' handled' taken rest' := by
  simp only [MemSlaveEngine.handleTlpRule, firing] at hFire
  obtain ⟨tlp, decode, hDecode, count, counts, hCounts, hFire⟩ := hFire
  obtain ⟨hNext, hPipeline, hSplit⟩ := h.next hDecode
  have hAligned := h.counts
  rw [hDecode, hCounts, List.map_cons] at hAligned
  obtain ⟨rfl, hAlignedRest⟩ := List.cons.inj hAligned
  have hSof : tlp.sof = ((frame 16).cut handled).2.isEmpty := hNext.1
  split_ifs at hFire with hMiddle hFirst
  · -- a later beat of a packet
    simp only [firing] at hFire
    obtain ⟨mimo, hMimo, tagMimo, hTagMimo, rfl, rfl⟩ := hFire
    obtain ⟨hCount, -, hFour⟩ := hNext.count hMiddle.1
    have hOpen : ((frame 16).cut handled).2 ≠ [] := by
      rw [hMiddle.1] at hSof
      exact fun hNil => by rw [hNil] at hSof; exact Bool.false_ne_true hSof
    have hWords : beatWords handled tlp = tlp.valid.map (·, s.lastTag) := by
      rw [beatWords, if_neg (by rw [hMiddle.1]; exact Bool.false_ne_true), h.lastTag hOpen]
    refine ⟨rfl, handled ++ [tlp], rest ++ beatWords handled tlp, { h with
      pipeline := hPipeline, counts := hAlignedRest, split := hSplit, words := ?_, tags := ?_, lastTag := ?_ }⟩
    · have hHolds := h.words.enq (hCount ▸ hFour) hMimo
      rw [hCount] at hHolds
      rw [hWords, List.map_append, List.map_map]
      have hValid : (List.ofFn fun i : Fin 4 => tlp.words.getD i 0).take tlp.count = tlp.valid := rfl
      rw [hValid] at hHolds
      simpa [Function.comp_def] using hHolds
    · have hHolds := h.tags.enq (hCount ▸ hFour) hTagMimo
      rw [hCount] at hHolds
      rw [hWords, List.map_append, List.map_map]
      have hLength : tlp.valid.length = tlp.count := List.length_take_of_le hFour
      have hTags : (List.ofFn fun _ : Fin 4 => s.lastTag).take tlp.count =
          tlp.valid.map ((·.2) ∘ fun word => (word, s.lastTag)) := by
        rw [List.ofFn_const, List.take_replicate, Nat.min_eq_left hFour, ← hLength]
        simp [Function.comp_def]
      rw [← hTags]
      exact hHolds
    · intro hMore
      rw [Frame.cut_concat_open] at hMore ⊢
      split at hMore
      · exact absurd rfl hMore
      · next hEof =>
        rw [if_neg hEof, packetTag_concat hOpen]
        exact h.lastTag hOpen
  · -- the first beat of a packet
    simp only [firing] at hFire
    obtain ⟨mimo, hMimo, tagMimo, hTagMimo, rfl, rfl⟩ := hFire
    have hOpen : ((frame 16).cut handled).2 = [] := by
      rw [hFirst.1] at hSof
      exact List.isEmpty_iff.mp hSof.symm
    have hWords : beatWords handled tlp =
        [((TLPMemoryIO3DWHeader.unpack tlp.data).data, (TLPCompletionHeader.unpack tlp.data).tag)] := by
      rw [beatWords, if_pos hFirst.1]
    refine ⟨rfl, handled ++ [tlp], rest ++ beatWords handled tlp, { h with
      pipeline := hPipeline, counts := hAlignedRest, split := hSplit, words := ?_, tags := ?_, lastTag := ?_ }⟩
    · rw [hWords, List.map_append]
      exact h.words.enq (by decide) hMimo
    · rw [hWords, List.map_append]
      exact h.tags.enq (by decide) hTagMimo
    · intro hMore
      rw [Frame.cut_concat_open] at hMore ⊢
      split at hMore
      · exact absurd rfl hMore
      · next hEof =>
        rw [if_neg hEof, hOpen]
        rfl
  · -- the beat stays where it is
    simp only [firing] at hFire
    obtain ⟨rfl, rfl⟩ := hFire
    exact ⟨rfl, handled, rest, { h with }⟩

end CompletionsInv

theorem busWords_le (k : Fin 3) : 2 ^ k.val ≤ 4 :=
  Nat.pow_le_pow_right (by decide) (Nat.lt_succ_iff.mp k.isLt)

namespace CompletionsInv

/-- The words and the tags leave the module side by side. -/
theorem readDataGet (h : CompletionsInv k received returned s handled taken rest)
    (hFire : MemSlaveEngine.readDataGet s = some (s', events)) :
    ∃ data taken' rest', events = [.readData data] ∧
      CompletionsInv k received (returned ++ [data]) s' handled taken' rest' := by
  simp only [MemSlaveEngine.readDataGet, firing] at hFire
  obtain ⟨words, mimo, hMimo, tags, tagMimo, hTagMimo, rfl, rfl⟩ := hFire
  obtain ⟨hLength, moreWords, hWords, hHolds⟩ := h.words.deq (busWords_le k) hMimo
  obtain ⟨hTagLength, moreTags, hTags, hTagHolds⟩ := h.tags.deq (busWords_le k) hTagMimo
  -- both parts are cut at the same place
  obtain ⟨group, more, rfl, rfl, rfl⟩ := List.map_eq_append_iff.mp hWords
  rw [List.map_append] at hTags
  rw [List.length_map] at hLength
  obtain ⟨rfl, rfl⟩ := List.append_inj hTags (by rw [List.length_map, hLength, hTagLength])
  have hMod : taken.length % 2 ^ k.val = 0 := by rw [h.whole, Nat.mul_mod_right]
  refine ⟨groupBeat k group, taken ++ group, more, rfl, { h with
    split := ?_, words := hHolds, tags := hTagHolds, whole := ?_, returned_eq := ?_ }⟩
  · rw [h.split, List.append_assoc]
  · rw [List.length_append, List.length_append, List.length_singleton, h.whole, hLength, Nat.mul_succ]
  · rw [groups_append hMod, groups_singleton (Nat.two_pow_pos _) hLength, List.map_append, ← h.returned_eq]
    rfl

end CompletionsInv

/-- What the events of a run show. -/
def Received (trace : List (Event k)) (s : MemSlaveEngine) : Prop :=
  ∃ handled taken rest,
    CompletionsInv k (trace.filterMap tlpIn?) (trace.filterMap readData?) s handled taken rest

variable {trace : List (Event k)}

attribute [local simp] List.filterMap_cons tlpIn? readData?

theorem Received.step {action : Action k} (h : Received trace s) (hOk : Completions trace s action)
    (hFire : (machine k myId).fire action s = some (s', events)) : Received (trace ++ events) s' := by
  obtain ⟨handled, taken, rest, h⟩ := h
  unfold Received
  simp only [List.filterMap_append]
  cases action with
  -- the requests and their packets are in other queues
  | writeReqPut _ | writeDataPut _ | writeDoneGet | readReqPut _ | requestGet | writeHeaderTlp | writeTlps _ | readReqRule =>
    simp only [machine, writeReqPut, writeDataPut, writeDoneGet, readReqPut, requestGet, writeHeaderTlp, writeTlps,
      readReqRule, firing] at hFire
    casesm* _ ∧ _, ∃ _, _
    subst_vars
    exact ⟨handled, taken, rest, by simpa using { h with }⟩
  | responsePut tlp =>
    simp only [machine, MemSlaveEngine.responsePut, firing] at hFire
    obtain ⟨q, ⟨-, hq⟩, rfl, rfl⟩ := hFire
    have hPipeline : trace.filterMap tlpIn? ++ [tlp] = handled ++ s.tlpDecodeFifo.items ++ q.items := by
      rw [hq, ← List.append_assoc, ← h.pipeline]
    exact ⟨handled, taken, rest, by simpa using
      { h with lawful := h.lawful.concat hOk, pipeline := hPipeline }⟩
  | readDataGet =>
    obtain ⟨data, taken', rest', rfl, h'⟩ := h.readDataGet hFire
    exact ⟨_, _, _, by simpa using h'⟩
  | tlpInRule =>
    simp only [machine, MemSlaveEngine.tlpInRule, firing] at hFire
    obtain ⟨tlp, q, hq, counts, ⟨-, hCounts⟩, decode, ⟨-, hDecode⟩, rfl, rfl⟩ := hFire
    simp only [counting]
    refine ⟨handled, taken, rest, { h with pipeline := ?_, counts := ?_ }⟩
    · rw [h.pipeline, hq, hDecode]
      simp
    · rw [hCounts, hDecode, h.counts, List.map_append]
      rfl
  | handleTlpRule =>
    obtain ⟨rfl, handled', rest', h'⟩ := h.handleTlpRule hFire
    exact ⟨_, _, _, by simpa using h'⟩
  | tofifos =>
    simp only [machine, MemSlaveEngine.tofifos, firing] at hFire
    obtain ⟨mimo, hMimo, rfl, rfl⟩ := hFire
    exact ⟨_, _, _, by simpa using { h with words := h.words.tofifos hMimo }⟩
  | tagTofifos =>
    simp only [machine, MemSlaveEngine.tagTofifos, firing] at hFire
    obtain ⟨mimo, hMimo, rfl, rfl⟩ := hFire
    exact ⟨_, _, _, by simpa using { h with tags := h.tags.tofifos hMimo }⟩

theorem run_received (run : (machine k myId).Run Completions s trace) : Received trace s := by
  refine run.invariant Received ?_ fun _ _ _ _ _ => Received.step
  rintro _ rfl
  exact ⟨[], [], [], .nil, rfl, rfl, rfl, Mifo.fresh_holds _, Mifo.fresh_holds _,
    fun hOpen => absurd rfl hOpen, rfl, by rw [groups_short (Nat.two_pow_pos _)]; rfl⟩

/-- How far the completions in the module are from being read. -/
def distanceToRead (trace : List (Event k)) (s : MemSlaveEngine) : Nat :=
  4 * s.tlpInFifo.items.length + 3 * s.tlpDecodeFifo.items.length +
    (s.completionMimo.inFifo.items.length + s.completionTagMimo.inFifo.items.length) +
    ((taggedStream (trace.filterMap tlpIn?)).length - 2 ^ k.val * (trace.filterMap readData?).length)

theorem advances_tlpInRule (hIn : s.tlpInFifo.items ≠ []) (hDecode : s.tlpDecodeFifo.items = [])
    (hCounts : s.tlpWordCountFifo.items = []) :
    (machine k myId).Advances Completions tlpIn? distanceToRead trace s := by
  obtain ⟨tlp, q, hDeq, hItems⟩ := Fifo.exists_deq_of_ne_nil hIn
  obtain ⟨counts, hCount, -⟩ := Fifo.exists_enq_nil hCounts (tlpWordCount tlp)
  obtain ⟨decode, hEnq, hNew⟩ := Fifo.exists_enq_nil hDecode tlp
  refine ⟨.tlpInRule, _, [], trivial,
    by simp only [machine, tlpInRule, hDeq, some_bind, hCount, hEnq]; rfl, rfl, ?_⟩
  simp only [distanceToRead, hItems, hNew, hDecode, counting]
  omega

theorem advances_tofifos {mimo : Mifo 4 (BitVec 32)} (hMove : s.completionMimo.tofifos = some mimo) :
    (machine k myId).Advances Completions tlpIn? distanceToRead trace s := by
  have hLess := Mifo.length_tofifos hMove
  refine ⟨.tofifos, _, [], trivial,
    by simp only [machine, tofifos, hMove]; rfl, rfl, ?_⟩
  simp only [distanceToRead, List.append_nil]
  omega

theorem advances_tagTofifos {mimo : Mifo 4 (BitVec 8)} (hMove : s.completionTagMimo.tofifos = some mimo) :
    (machine k myId).Advances Completions tlpIn? distanceToRead trace s := by
  have hLess := Mifo.length_tofifos hMove
  refine ⟨.tagTofifos, _, [], trivial,
    by simp only [machine, tagTofifos, hMove]; rfl, rfl, ?_⟩
  simp only [distanceToRead, List.append_nil]
  omega

theorem taggedStream_mono {more : List (TLPData 16)} (h : Lawful (Completes k) (stream ++ more)) :
    taggedStream stream <+: taggedStream (stream ++ more) := by
  induction more using List.reverseRecOn with
  | nil => rw [List.append_nil]
  | append_singleton more b ih =>
    rw [← List.append_assoc] at h ⊢
    rw [taggedStream_concat h.last.1]
    exact (ih (h.mono (List.prefix_append _ _))).trans (List.prefix_append _ _)

theorem CompletionsInv.stream_eq (h : CompletionsInv k received returned s handled taken rest) :
    ∃ more, taggedStream received = taken ++ (rest ++ more) := by
  have hPipeline := h.pipeline
  rw [List.append_assoc] at hPipeline
  obtain ⟨more, hMore⟩ := taggedStream_mono (hPipeline ▸ h.lawful)
  refine ⟨more, ?_⟩
  rw [hPipeline, ← hMore, h.split, List.append_assoc]

/-- The words that have come in and have not been read. -/
theorem CompletionsInv.unread (h : CompletionsInv k received returned s handled taken rest) :
    2 ^ k.val * returned.length + rest.length ≤ (taggedStream received).length := by
  obtain ⟨more, hMore⟩ := h.stream_eq
  rw [hMore, List.length_append, List.length_append, h.whole]
  omega

theorem advances_readDataGet (h : CompletionsInv k (trace.filterMap tlpIn?) (trace.filterMap readData?) s
      handled taken rest) (hRest : 2 ^ k.val ≤ rest.length) {words : List (BitVec 32)} {tags : List (BitVec 8)}
    {mimo : Mifo 4 (BitVec 32)} {tagMimo : Mifo 4 (BitVec 8)}
    (hMimo : s.completionMimo.deq (2 ^ k.val) = some (words, mimo))
    (hTagMimo : s.completionTagMimo.deq (2 ^ k.val) = some (tags, tagMimo)) :
    (machine k myId).Advances Completions tlpIn? distanceToRead trace s := by
  have hUnread := h.unread
  have hPos := Nat.two_pow_pos k.val
  refine ⟨.readDataGet, _,
    [.readData ⟨fun i => byteSwap (words.getD i 0), (tags.headD 0).setWidth 6, true⟩], trivial,
    by simp only [machine, readDataGet, hMimo, some_bind, hTagMimo]; rfl, rfl, ?_⟩
  simp only [distanceToRead, counting, tlpIn?, readData?, Mifo.length_deq hMimo, Mifo.length_deq hTagMimo,
    Nat.mul_add]
  omega

/-- Every beat of a completion can be handled when the two queues behind it are empty. -/
theorem advances_handleTlpRule {tlp : TLPData 16} {waiting : List (TLPData 16)}
    (h : CompletionsInv k received returned s handled taken rest)
    (hDecode : s.tlpDecodeFifo.items = tlp :: waiting) (hMimo : s.completionMimo.inFifo.items = [])
    (hTagMimo : s.completionTagMimo.inFifo.items = []) :
    (machine k myId).Advances Completions tlpIn? distanceToRead trace s := by
  obtain ⟨hNext, -, -⟩ := h.next hDecode
  have hCounts := h.counts
  rw [hDecode, List.map_cons] at hCounts
  obtain ⟨decode, hDeq, hRest⟩ := Fifo.exists_deq hDecode
  obtain ⟨counts, hCount, -⟩ := Fifo.exists_deq hCounts
  have hReady : s.completionMimo.enqReady := by rw [Mifo.enqReady, hMimo]; decide
  have hTagReady : s.completionTagMimo.enqReady := by rw [Mifo.enqReady, hTagMimo]; decide
  cases hSof : tlp.sof with
  | false =>
    obtain ⟨mimo, hEnq, hLength⟩ := Mifo.exists_enq hReady (tlpWordCount tlp) fun i => tlp.words.getD i 0
    obtain ⟨tagMimo, hTagEnq, hTagLength⟩ := Mifo.exists_enq hTagReady (tlpWordCount tlp) fun _ => s.lastTag
    refine ⟨.handleTlpRule, _, [], trivial, by
      simp only [machine, handleTlpRule, hDeq, hCount, some_bind, hSof, hReady, hTagReady, and_self, if_true, hEnq,
        hTagEnq]
      rfl, rfl, ?_⟩
    simp only [distanceToRead, hDecode, hRest, hLength, hTagLength, counting]
    omega
  | true =>
    obtain ⟨hFormat, hType⟩ := hNext.2.1 hSof
    obtain ⟨mimo, hEnq, hLength⟩ := Mifo.exists_enq hReady 1 fun i =>
      if i = 0 then (TLPMemoryIO3DWHeader.unpack tlp.data).data else 0
    obtain ⟨tagMimo, hTagEnq, hTagLength⟩ := Mifo.exists_enq hTagReady 1 fun _ =>
      (TLPCompletionHeader.unpack tlp.data).tag
    refine ⟨.handleTlpRule, _, [], trivial, by
      simp only [machine, handleTlpRule, hDeq, hCount, some_bind, hSof, hFormat, hType, hReady, hTagReady, and_self,
        if_true, hEnq, hTagEnq, Bool.true_eq_false, false_and, if_false]
      rfl, rfl, ?_⟩
    simp only [distanceToRead, hDecode, hRest, hLength, hTagLength, counting]
    omega

/-- What the read data of a stream of completions are. -/
def allBeats (k : Fin 3) (stream : List (TLPData 16)) : List (MemData (Fin (2 ^ k.val) → BitVec 32)) :=
  ((frame 16).cut stream).1.flatMap (readBeats k) ++ readBeats k ((frame 16).cut stream).2

/-- Everything has been read, or some action brings that closer. -/
theorem Received.progress (h : Received trace s) :
    trace.filterMap readData? = allBeats k (trace.filterMap tlpIn?) ∨
      (machine k myId).Advances Completions tlpIn? distanceToRead trace s := by
  obtain ⟨handled, taken, rest, h⟩ := h
  have hBus := busWords_le k
  rcases Nat.lt_or_ge rest.length (2 ^ k.val) with hFew | hEnough
  · -- what is in the two queues is moved on before the next beat is handled
    by_cases hMimo : s.completionMimo.inFifo.items = []
    case neg =>
      obtain ⟨m, hMove⟩ := h.words.exists_tofifos hBus (by simpa using hFew) hMimo
      exact .inr (advances_tofifos hMove)
    by_cases hTagMimo : s.completionTagMimo.inFifo.items = []
    case neg =>
      obtain ⟨m, hMove⟩ := h.tags.exists_tofifos hBus (by simpa using hFew) hTagMimo
      exact .inr (advances_tagTofifos hMove)
    cases hDecode : s.tlpDecodeFifo.items with
    | cons tlp waiting => exact .inr (advances_handleTlpRule h hDecode hMimo hTagMimo)
    | nil =>
      by_cases hIn : s.tlpInFifo.items = []
      · left
        have hPipeline := h.pipeline
        rw [hDecode, hIn, List.append_nil, List.append_nil] at hPipeline
        have hMod : taken.length % 2 ^ k.val = 0 := by rw [h.whole, Nat.mul_mod_right]
        rw [allBeats, ← map_groups_taggedStream h.lawful, hPipeline, h.split, groups_append hMod,
          groups_short hFew, List.append_nil]
        exact h.returned_eq
      · have hCounts := h.counts
        rw [hDecode, List.map_nil] at hCounts
        exact .inr (advances_tlpInRule hIn hDecode hCounts)
  · rcases h.words.moves hBus (.inr (by rwa [List.length_map])) with ⟨words, mimo, hMimo⟩ | ⟨m, hMove⟩
    · rcases h.tags.moves hBus (.inr (by rwa [List.length_map])) with ⟨tags, tagMimo, hTagMimo⟩ | ⟨m, hMove⟩
      · exact .inr (advances_readDataGet h hEnough hMimo hTagMimo)
      · exact .inr (advances_tagTofifos hMove)
    · exact .inr (advances_tofifos hMove)

end MemSlaveEngine

open MemSlaveEngine

/-- The read data are the payload words of the completions in order, in groups of the bus
width that never reach over the end of a packet, byte-swapped, and with the tag of their
packet. Everything that has come in can be read. -/
theorem completions_are_returned {k : Fin 3} {myId : BitVec 16} {s : MemSlaveEngine} {trace : List (Event k)}
    (run : (machine k myId).Run Completions s trace) :
    trace.filterMap readData? <+: allBeats k (trace.filterMap tlpIn?) ∧
      (∀ p ∈ ((frame 16).cut (trace.filterMap tlpIn?)).1, (payload p).length % 2 ^ k.val = 0) ∧
      ∃ s' trace', (machine k myId).Continues Completions (s, trace) (s', trace') ∧
        trace'.filterMap tlpIn? = trace.filterMap tlpIn? ∧
        trace'.filterMap readData? = allBeats k (trace.filterMap tlpIn?) := by
  have hInv := run_received run
  obtain ⟨handled, taken, rest, h⟩ := id hInv
  refine ⟨?_, ?_, ?_⟩
  · obtain ⟨more, hMore⟩ := h.stream_eq
    have hMod : taken.length % 2 ^ k.val = 0 := by rw [h.whole, Nat.mul_mod_right]
    rw [allBeats, ← map_groups_taggedStream h.lawful, hMore, groups_append hMod, List.map_append, ← h.returned_eq]
    exact List.prefix_append _ _
  · intro p hp
    have hLength := length_packet_mod h.lawful p hp
    rwa [tagged, List.length_map] at hLength
  · obtain ⟨s', trace', path, hSame, hAll⟩ := Machine.exists_drained distanceToRead
      (fun _ _ _ _ _ => Received.step)
      (fun trace' s' h' _ => h'.progress) hInv
    exact ⟨s', trace', path, hSame, by rw [hAll, hSame]⟩

/-- The first beat of a completion. -/
def completionBeat (eof : Bool) (tag : BitVec 8) (word : BitVec 32) : TLPData 16 :=
  ⟨true, eof, 0, 0xffff, { TLPCompletionHeader.defaultValue with
    format := .memWrite3dwData, tag, data := byteSwap word }.pack⟩

/-- A later beat of a completion. -/
def dataBeat (eof : Bool) (words : List (BitVec 32)) : TLPData 16 :=
  { (TLPData.defaultValue : TLPData 16) with
    eof, be := tlpBe words.length, data := beatData words fun _ => 0 }

/-- Completions of six and of two words on a bus of two words. -/
theorem completions_are_returned_six_and_two :
    ∃ s trace, (machine 1 0x100).Run Completions s trace ∧
      (trace.filterMap tlpIn?).length = 5 ∧
      (trace.filterMap readData?).map (fun d => (d.data 0, d.data 1, d.tag)) =
        [(10, 11, 7), (12, 13, 7), (14, 15, 7), (20, 21, 9)] ∧
      trace.filterMap readData? <+: allBeats 1 (trace.filterMap tlpIn?) := by
  obtain ⟨s, trace, hRun, hResult⟩ := Machine.exists_run
    (show ((machine 1 0x100).exec Completions
      [.responsePut (completionBeat false 7 10), .responsePut (dataBeat false [11, 12, 13, 14]), .tlpInRule,
        .responsePut (dataBeat true [15]), .tlpInRule, .handleTlpRule, .tofifos, .handleTlpRule, .tofifos,
        .tagTofifos, .tagTofifos, .readDataGet, .tlpInRule, .handleTlpRule, .readDataGet, .tofifos,
        .responsePut (completionBeat false 9 20), .responsePut (dataBeat true [21]), .tlpInRule, .tagTofifos,
        .handleTlpRule, .tlpInRule, .handleTlpRule, .tofifos, .tagTofifos, .readDataGet, .tofifos, .tagTofifos,
        .readDataGet]
      (fresh, [])).map (fun d => ((d.2.filterMap tlpIn?).length,
        (d.2.filterMap readData?).map (fun d => (d.data 0, d.data 1, d.tag)))) =
          some (5, [(10, 11, 7), (12, 13, 7), (14, 15, 7), (20, 21, 9)]) by decide +kernel) rfl
  simp only [Prod.mk.injEq] at hResult
  exact ⟨s, trace, hRun, hResult.1, hResult.2, (completions_are_returned hRun).1⟩

end Connectal.Pcie
