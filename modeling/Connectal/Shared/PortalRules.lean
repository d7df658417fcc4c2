import Connectal.Shared.PortalSteps

/-! The rules of the state machine of the request portal, from the read of the index
words to the publication of the tail. -/
namespace Connectal.Shared

open Rules

theorem toNat_sub_one {x : BitVec 16} {n : Nat} (h : x.toNat = n + 1) : (x - 1).toNat = n := by
  rw [BitVec.toNat_sub_of_le (BitVec.le_def.mpr (by simp; omega)), h]
  rfl

theorem RequestSystem.content_deq {s : RequestSystem} {w : Word} {lanes : Fifo Word 16}
    (h : s.portal.lanes.items = w :: lanes.items) : s.content = w :: (lanes.items ++ s.behind) := by
  rw [RequestSystem.content, h]
  rfl

namespace Batch

variable {c : SharedParam} {E : List (BitVec 16 × BitVec 32)} {done rest : List Message}
  {w : Word} {words pads : List Word} {method : BitVec 16} {left : List (BitVec 32)} {x : BitVec 32}

/-- The first word of a batch is a pad or the header of a message. -/
theorem header (h : Batch c E done (w :: words) method [] pads rest) :
    (w = written .pad padHdr ∧ (words = [] → E = deliveries done) ∧
      (words ≠ [] → ∀ method', ∃ pads', Batch c E done words method' [] pads' rest)) ∨
    ∃ m rest', c.Fits m ∧ w = written .header m.hdr ∧ m.words < words.length + 1 ∧
      ∃ pads', Batch c E done words m.num m.payload pads' rest' := by
  obtain ⟨hContent, hPadding, hMore, hLast, hFits, hEnqs⟩ := h
  rw [List.map_nil, List.nil_append] at hContent
  rw [List.map_nil, List.append_nil] at hEnqs
  cases pads with
  | cons pad pads =>
    rw [List.cons_append, List.cons.injEq] at hContent
    obtain ⟨rfl, rfl⟩ := hContent
    refine .inl ⟨hPadding w (List.mem_cons_self ..), fun hNone => ?_, fun hSome method' => ⟨pads, ?_⟩⟩
    · rw [List.append_eq_nil_iff] at hNone
      rw [layout_eq_nil (List.length_eq_zero_iff.mpr hNone.2)] at hEnqs
      rw [← hEnqs]
      exact (List.append_nil E).symm
    · refine ⟨rfl, fun v hv => hPadding v (List.mem_cons_of_mem _ hv), hSome, hLast, hFits, ?_⟩
      rw [List.map_nil, List.append_nil]
      exact hEnqs
  | nil =>
    cases rest with
    | nil => exact absurd rfl hMore
    | cons m rest =>
      rw [List.nil_append, layout_cons, Message.cells, List.cons_append, List.cons_append,
        List.cons.injEq, List.append_assoc] at hContent
      obtain ⟨rfl, rfl⟩ := hContent
      have hSome : (if m.words % 2 = 1 then [written .pad padHdr] else []) ++ layout rest ≠ [] := by
        intro hNone
        rw [List.append_eq_nil_iff] at hNone
        rw [layout_eq_nil (List.length_eq_zero_iff.mpr hNone.2)] at hLast
        rw [if_pos (hLast m rfl)] at hNone
        exact by cases hNone.1
      refine .inr ⟨m, rest, hFits m (List.mem_cons_self ..), rfl, ?_, _, rfl, ?_, hSome, ?_, ?_, ?_⟩
      · have hPos := List.length_pos_iff.mpr hSome
        have hWords : m.words = m.payload.length + 1 := rfl
        rw [List.length_append, List.length_map]
        omega
      · intro v hv
        split at hv
        · exact List.mem_singleton.mp hv
        · cases hv
      · intro m' hm'
        refine hLast m' ?_
        rw [Option.mem_def] at hm' ⊢
        rw [List.getLast?_cons, hm']
        rfl
      · exact fun m' hm' => hFits m' (List.mem_cons_of_mem _ hm')
      · rw [List.append_assoc, ← hEnqs]
        rfl

theorem word (h : Batch c E done (w :: words) method (x :: left) pads rest) :
    w = written .payload x ∧ left.length < words.length ∧
      Batch c (E ++ [(method, x)]) done words method left pads rest := by
  obtain ⟨hContent, hPadding, hMore, hLast, hFits, hEnqs⟩ := h
  rw [List.map_cons, List.cons_append, List.cons.injEq] at hContent
  obtain ⟨rfl, rfl⟩ := hContent
  refine ⟨rfl, ?_, rfl, hPadding, hMore, hLast, hFits, ?_⟩
  · have hPos := List.length_pos_iff.mpr hMore
    rw [List.length_append, List.length_map]
    omega
  · rw [← hEnqs, List.map_cons, ← List.append_cons]

end Batch

namespace PortalInv

variable {c : SharedParam} {trace : List PortalEvent} {s s' : RequestSystem}
  {done todo : List Message} {events : List PortalEvent} (h : PortalInv c trace s done todo)

include h

theorem updateReqHeadTail (hFire : s.updateReqHeadTail = some s') : PortalInv c trace s' done todo := by
  simp only [RequestSystem.updateReqHeadTail, firing] at hFire
  obtain ⟨⟨hState, -⟩, rfl⟩ := hFire
  have hBody := (h.body (by rw [hState]; decide)).1
  simp only [Body, hState] at hBody
  obtain ⟨hLanes, hIn, hPipe, hFetches⟩ := RequestSystem.content_eq_nil hBody.1
  refine h.hardware rfl rfl rfl rfl rfl rfl ⟨rfl, rfl⟩ ?_
  exact .inl ⟨hBody.2, hLanes, hIn, .inl ⟨rfl, .inl ⟨by rw [hFetches]; rfl, hPipe⟩⟩⟩

theorem taken {w : BitVec 32} {tail : BitVec 32}
    (hTail : tail = if s.portal.reqTailReg = 0 then w else s.portal.reqTailReg)
    (hEnqs : enqs trace = deliveries done)
    (hLanes : s.portal.lanes.items = []) (hIn : s.portal.inFifo.items = []) (hFetches : s.fetches = [])
    (hHead : Head done todo s.portal.reqHeadReg) (hStart : s.portal.reqTailReg = 0 → w = 4) :
    PortalInv c trace { s with
      dataPipe := []
      portal := { s.portal with
        reqTailReg := tail
        reqState := if tail ≠ s.portal.reqHeadReg then .requestMessage else .idle } } done todo := by
  have hNonzero : tail ≠ 0 := by
    rw [hTail]
    split
    · next hZero =>
      rw [hStart hZero]
      decide
    · assumption
  have hSame : tail.toNat = s.portal.tail := by
    rw [hTail, RequestPortal.tail]
    split
    · next hZero =>
      rw [hStart hZero]
      rfl
    · rfl
  refine ⟨h.sent, h.lap.of_eq (fun _ _ => rfl) rfl rfl, h.laps, ?_, fun hZero => absurd hZero hNonzero, .inr ⟨?_, ?_⟩⟩
  · rw [RequestPortal.tail, if_neg hNonzero, hSame]
    exact h.tail
  · have hContent : RequestSystem.content { s with
        dataPipe := []
        portal := { s.portal with
          reqTailReg := tail
          reqState := if tail ≠ s.portal.reqHeadReg then .requestMessage else .idle } } = [] := by
      simp only [RequestSystem.content, RequestSystem.behind, hLanes, hIn, hFetches, List.flatMap_nil, List.append_nil]
    rw [hContent]
    by_cases hMore : tail ≠ s.portal.reqHeadReg
    · rw [Body, if_pos hMore]
      exact ⟨rfl, hEnqs, hNonzero, hMore, hHead⟩
    · rw [Body, if_neg hMore]
      exact ⟨rfl, hEnqs⟩
  · intro i hi
    rw [hFetches] at hi
    cases hi

theorem receiveReqHeadTail (hFire : s.receiveReqHeadTail = some s') : PortalInv c trace s' done todo := by
  simp only [RequestSystem.receiveReqHeadTail, firing] at hFire
  obtain ⟨hGuard, w0, w1, hw, hFire⟩ := hFire
  obtain ⟨hEnqs, hLanes, hIn, ⟨hState, hWords⟩ | ⟨hState, hHead, hWords⟩⟩ | ⟨hBody, -⟩ := h.phase
  · rw [if_pos hState, Option.some.injEq] at hFire
    subst hFire
    rcases hWords with ⟨-, hPipe⟩ | ⟨w, rest, hPipe, hHead, hRest⟩
    · rw [hPipe] at hw
      cases hw
    · rw [hPipe] at hw
      cases hw
      refine h.hardware rfl rfl rfl rfl rfl rfl ⟨rfl, rfl⟩ (.inl ⟨hEnqs, hLanes, hIn, .inr ⟨rfl, hHead, ?_⟩⟩)
      rw [hPipe]
      exact hRest
  · rw [if_neg (by rw [hState]; decide), Option.some.injEq] at hFire
    subst hFire
    rcases hWords with ⟨-, hPipe⟩ | ⟨hFetches, w, hPipe, hStart⟩
    · rw [hPipe] at hw
      cases hw
    · rw [hPipe] at hw
      cases hw
      have hTaken := h.taken rfl hEnqs hLanes hIn hFetches hHead hStart
      rw [hPipe]
      exact hTaken
  · rcases hGuard with hState | hState
    all_goals
      unfold Body at hBody
      rw [hState] at hBody
      exact hBody.elim

theorem requestMessage (hFire : s.requestMessage = some s') :
    ∃ batch rest, todo = batch ++ rest ∧
      s.portal.reqHeadReg.toNat = 4 + (layout (done ++ batch)).length ∧
      PortalInv c trace s' (done ++ batch) rest := by
  simp only [RequestSystem.requestMessage, firing] at hFire
  obtain ⟨hState, hFire⟩ := hFire
  have hBody := (h.body (by rw [hState]; decide)).1
  simp only [Body, hState] at hBody
  obtain ⟨hNone, hEnqs, hNonzero, hMore, batch, rest, rfl, hHead, hShort, hLast⟩ := hBody
  obtain ⟨hLanes, hIn, hPipe, hFetches⟩ := RequestSystem.content_eq_nil hNone
  have hTail : s.portal.reqTailReg.toNat = 4 + (layout done).length := by
    have hTail := h.tail
    rwa [RequestPortal.tail, if_neg hNonzero] at hTail
  have hLength : (layout (done ++ batch)).length = (layout done).length + (layout batch).length := by
    rw [layout_append, List.length_append]
  obtain ⟨hStraight, hCount⟩ := count_batch hTail hHead
  have hNext : s.portal.reqTailReg + (s.portal.reqHeadReg - s.portal.reqTailReg) =
      s.portal.reqHeadReg := by
    apply BitVec.eq_of_toNat_eq
    have hHeadLt := s.portal.reqHeadReg.isLt
    rw [BitVec.toNat_add, hCount]
    omega
  rw [if_neg hStraight, if_neg hStraight, if_neg hStraight, hFetches, List.nil_append, hCount,
    hNext] at hFire
  subst hFire
  have hLaid := laid_append.mp ((layout_append done (batch ++ rest)) ▸ h.lap.laid)
  rw [layout_append, ← hTail] at hLaid
  have hWords := laid_beats (laid_append.mp hLaid.2).1 (even_layout batch)
  have hHeadPos : s.portal.reqHeadReg ≠ 0 := by
    intro hZero
    rw [hZero] at hHead
    simp at hHead
    omega
  refine ⟨batch, rest, rfl, hHead, ?_, ?_, ?_, ?_, ?_, .inr ⟨?_, ?_⟩⟩
  · rw [h.sent, List.append_assoc]
  · rw [List.append_assoc]
    exact h.lap.of_eq (fun _ _ => rfl) rfl rfl
  · exact ⟨h.laps.1, h.laps.1⟩
  · rw [RequestPortal.tail, if_neg hHeadPos, hHead]
  · exact fun hZero => absurd hZero hHeadPos
  · have hContent : RequestSystem.content { s with
        fetches := RequestSystem.beats s.portal.reqTailReg.toNat (layout batch).length } =
        layout batch := by
      simp only [RequestSystem.content, RequestSystem.behind, hLanes, hIn, hPipe, List.flatMap_nil, List.nil_append]
      exact hWords
    change Body _ _ _ _ _ (RequestSystem.content { s with
      fetches := RequestSystem.beats s.portal.reqTailReg.toNat (layout batch).length }) _
    rw [hContent]
    refine ⟨⟨rfl, hHeadPos⟩, ?_, [], batch, rfl, (fun w hw => by cases hw), ?_, hLast, ?_, ?_⟩
    · rw [BitVec.toNat_setWidth, hCount, Nat.mod_eq_of_lt hShort]
    · intro hEmpty
      rw [List.nil_append, ← List.length_eq_zero_iff] at hEmpty
      exact hMore (BitVec.eq_of_toNat_eq (by omega))
    · exact fun m hm => h.lap.fits m (by simp [hm])
    · rw [hEnqs, List.map_nil, List.append_nil, deliveries_append]
  · intro i hi
    have hBounds := mem_beats hi
    omega

theorem receiveMessage (hFire : s.receiveMessage = some (s', events)) :
    PortalInv c (trace ++ events) s' done todo := by
  simp only [RequestSystem.receiveMessage, firing] at hFire
  obtain ⟨hState, data, lanes, hLanes, rfl, rfl⟩ := hFire
  obtain ⟨hBody, hValid⟩ := h.body (by rw [hState]; decide)
  simp only [Body, hState, RequestSystem.content_deq hLanes] at hBody
  obtain ⟨hHead, hCount, hMethod, x, left, pads, rest, hBatch, hLeft⟩ := hBody
  obtain ⟨rfl, hLess, hNext⟩ := hBatch.word
  rw [if_pos hMethod]
  refine h.hardware ?_ rfl rfl rfl rfl rfl ⟨rfl, rfl⟩ (.inr ⟨?_, hValid⟩)
  · rw [sentMessages_append]
    exact List.append_nil _
  · change Body _ _ _ _ _ (lanes.items ++ s.behind) _
    rw [enqs_append]
    have hRest := toNat_sub_one hCount
    cases left with
    | nil =>
      have hLast : s.portal.messageWordsReg = 1 := BitVec.eq_of_toNat_eq hLeft
      rw [if_pos hLast]
      exact ⟨hHead, hRest, pads, rest, hNext⟩
    | cons y left =>
      have hMore : s.portal.messageWordsReg ≠ 1 := by
        intro hOne
        rw [hOne] at hLeft
        exact absurd hLeft (by simp)
      have hLong : ¬ s.portal.wordCountReg ≤ 1 := by
        rw [BitVec.le_def, hCount, Nat.not_le]
        rw [List.length_cons] at hLess
        exact Nat.succ_lt_succ (by omega)
      rw [if_neg hMore, if_neg hLong, hState]
      exact ⟨hHead, hRest, hMethod, y, left, pads, rest, hNext, toNat_sub_one hLeft⟩

theorem receiveMessageHeader (hFire : s.receiveMessageHeader = some (s', events)) :
    PortalInv c (trace ++ events) s' done todo := by
  simp only [RequestSystem.receiveMessageHeader, firing] at hFire
  obtain ⟨hState, hdr, lanes, hLanes, rfl, rfl⟩ := hFire
  obtain ⟨hBody, hValid⟩ := h.body (by rw [hState]; decide)
  simp only [Body, hState, RequestSystem.content_deq hLanes] at hBody
  obtain ⟨hHead, hCount, pads, rest, hBatch⟩ := hBody
  have hRest := toNat_sub_one hCount
  refine h.hardware ?_ rfl rfl rfl rfl rfl ⟨rfl, rfl⟩ (.inr ⟨?_, hValid⟩)
  · rw [sentMessages_append]
    exact List.append_nil _
  · change Body _ _ _ _ _ (lanes.items ++ s.behind) _
    have hSame : enqs (trace ++ [.parsed hdr s.portal.batchLap]) = enqs trace := by
      rw [enqs_append]
      exact List.append_nil _
    rw [hSame]
    rcases hBatch.header with ⟨rfl, hEnd, hNext⟩ | ⟨m, rest', hFits, rfl, hLess, pads', hNext⟩
    · have hSome : (written .pad padHdr).value ≠ 0 := by decide
      have hOne : (written .pad padHdr).value.setWidth 16 = 1#16 := by decide
      rw [if_neg hSome, hOne]
      by_cases hNone : lanes.items ++ s.behind = []
      · have hLast : s.portal.wordCountReg ≤ 1#16 := by
          rw [BitVec.le_def, hCount, hNone]
          exact Nat.le_refl 1
        rw [if_pos hLast]
        exact ⟨hNone, hEnd hNone, hHead⟩
      · have hMore : ¬ s.portal.wordCountReg ≤ 1#16 := by
          rw [BitVec.le_def, hCount, Nat.not_le]
          exact Nat.succ_lt_succ (List.length_pos_iff.mpr hNone)
        rw [if_neg hMore, if_pos (show 1#16 = 1 from rfl)]
        obtain ⟨pads', hNext⟩ := hNext hNone _
        exact ⟨hHead, hRest, pads', rest, hNext⟩
    · have hLength : ((written .header m.hdr).value.setWidth 16).toNat = m.words := by
        rw [BitVec.toNat_setWidth, ← headerWords_eq_mod]
        exact hFits.headerWords_hdr
      have hSome : (written .header m.hdr).value ≠ 0 := by
        intro hZero
        rw [hZero] at hLength
        cases hLength
      have hMore : ¬ s.portal.wordCountReg ≤ (written .header m.hdr).value.setWidth 16 := by
        rw [BitVec.le_def, hCount, hLength, Nat.not_le]
        exact hLess
      rw [if_neg hSome, if_neg hMore]
      cases hPayload : m.payload with
      | nil =>
        have hOne : (written .header m.hdr).value.setWidth 16 = 1 := by
          apply BitVec.eq_of_toNat_eq
          rw [hLength, Message.words, hPayload]
          rfl
        rw [hPayload] at hNext
        rw [if_pos hOne]
        obtain ⟨hContent, hPadding, hSome, hLast, hFits, hEnqs⟩ := hNext
        exact ⟨hHead, hRest, pads', rest', hContent, hPadding, hSome, hLast, hFits, hEnqs⟩
      | cons x left =>
        have hLong : (written .header m.hdr).value.setWidth 16 ≠ 1 := by
          intro hOne
          rw [hOne, Message.words, hPayload] at hLength
          exact absurd hLength (by simp)
        rw [hPayload] at hNext
        rw [if_neg hLong]
        have hNum : ((written .header m.hdr).value >>> 16).setWidth 16 = m.num := hFits.num_hdr
        refine ⟨hHead, hRest, ?_, x, left, pads', rest', ?_, toNat_sub_one ?_⟩
        · rw [hNum]
          exact m.notPad
        · rw [hNum]
          exact hNext
        · rw [hLength, Message.words, hPayload, List.length_cons]

theorem not_drain : s.portal.reqState ≠ .drain := by
  intro hState
  have hBody := (h.body (by rw [hState]; decide)).1
  rw [Body, hState] at hBody
  exact hBody

theorem updateTail (hFire : s.updateTail = some (s', events)) :
    PortalInv c (trace ++ events) s' done todo := by
  simp only [RequestSystem.updateTail, firing] at hFire
  obtain ⟨hState, rfl, rfl⟩ := hFire
  obtain ⟨hBody, hValid⟩ := h.body (by rw [hState]; decide)
  simp only [Body, hState] at hBody
  obtain ⟨hNone, hEnqs, hHead⟩ := hBody
  have hSame : enqs (trace ++ [.published s.portal.reqTailReg s.portal.reqHeadReg]) = enqs trace := by
    rw [enqs_append]
    exact List.append_nil _
  refine ⟨?_, h.lap.of_eq (fun _ _ => rfl) rfl rfl, h.laps, h.tail, ?_, .inr ⟨?_, hValid⟩⟩
  · rw [sentMessages_append, ← h.sent]
    exact List.append_nil _
  · exact fun hZero => absurd hZero hHead.2
  · rw [hSame]
    refine ⟨hNone, hEnqs, ?_⟩
    rw [List.length_append, List.length_singleton]
    omega

theorem waiting (hFire : s.waiting = some s') :
    PortalInv c trace s' done todo := by
  simp only [RequestSystem.waiting, firing] at hFire
  obtain ⟨⟨hState, -⟩, rfl⟩ := hFire
  obtain ⟨hBody, hValid⟩ := h.body (by rw [hState]; decide)
  simp only [Body, hState] at hBody
  exact h.hardware rfl rfl rfl rfl rfl rfl ⟨rfl, rfl⟩ (.inr ⟨⟨hBody.1, hBody.2.1⟩, hValid⟩)

theorem commit (hFire : s.commit = some s') :
    PortalInv c trace s' done todo := by
  simp only [RequestSystem.commit, firing] at hFire
  obtain ⟨tail, hTail, rfl⟩ := hFire
  obtain ⟨rest, hWrites⟩ := List.head?_eq_some_iff.mp hTail
  have hCells : ∀ i, i < sharedRead ∨ sharedStart ≤ i →
      Function.update (Function.update s.cells sharedRead ⟨tail, none⟩) 3 ⟨0, none⟩ i = s.cells i := by
    intro i hi
    simp only [sharedRead, sharedStart] at hi
    rw [Function.update_of_ne (by omega), Function.update_of_ne (by rw [sharedRead]; omega)]
  refine ⟨h.sent, h.lap.of_eq hCells rfl rfl, h.laps, h.tail, fun hZero => ?_, ?_⟩
  · have hNone := (h.fresh hZero).2
    rw [hWrites] at hNone
    cases hNone
  · rcases h.phase with hIndices | ⟨hBody, hValid⟩
    · exact .inl hIndices
    · refine .inr ⟨?_, hValid⟩
      have hBehind : (s.fetches.flatMap fun i => [
          Function.update (Function.update s.cells sharedRead ⟨tail, none⟩) 3 ⟨0, none⟩ i,
          Function.update (Function.update s.cells sharedRead ⟨tail, none⟩) 3 ⟨0, none⟩ (i + 1)]) =
          s.fetches.flatMap fun i => [s.cells i, s.cells (i + 1)] := by
        refine List.flatMap_congr fun i hi => ?_
        have hLow := (hValid i hi).1
        rw [hCells i (.inr hLow), hCells (i + 1) (.inr (Nat.le_succ_of_le hLow))]
      simp only [RequestSystem.content, RequestSystem.behind] at hBody ⊢
      rw [hBehind]
      rw [hWrites, List.length_cons] at hBody
      rw [hWrites, List.tail_cons, ← Nat.add_assoc, Nat.add_right_comm]
      exact hBody

end PortalInv

end Connectal.Shared
