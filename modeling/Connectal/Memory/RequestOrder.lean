import Connectal.Memory.RequestPath
import Connectal.Rules.Segment

/-! Requests are renamed in the order in which they were accepted and taken by
the memory in the order in which they were renamed. The number of a renamed
request is the number of its allocation in the tag generator. -/
namespace Connectal

open Rules

namespace RequestPath

variable {numClients numTags tsz addrWidth : Nat}
  {s : RequestPath numClients numTags tsz addrWidth} {L : TagLedger}
  {loaded : List (LRec numClients)} {renamed : List (RRec numClients addrWidth)} {handed : Nat}

/-- The request side in terms of the requests accepted, the requests renamed
and the number of requests that the memory has taken. -/
structure Inv (s : RequestPath numClients numTags tsz addrWidth) (L : TagLedger)
    (loaded : List (LRec numClients)) (renamed : List (RRec numClients addrWidth))
    (handed : Nat) : Prop where
  tags : s.tagGen.Inv L
  given : L.given = renamed.length
  named : ∀ i r, renamed[i]? = some r → r.renameTag = busTag tsz i
  loadedEq : loaded = renamed.map (fun r => ⟨r.req, r.client⟩) ++ s.lreqFifo.items
  reqs : s.reqFifo.items = renamed.drop handed
  handed_le : handed ≤ renamed.length

namespace Inv

theorem powerUp (mem : BitVec tsz → Bool) :
    (RequestPath.powerUp mem : RequestPath numClients numTags tsz addrWidth).Inv
      TagLedger.start [] [] 0 := by
  constructor
  case tags => exact TagGen.powerUp_inv mem
  all_goals simp [RequestPath.powerUp, TagLedger.start]

variable (h : s.Inv L loaded renamed handed)

include h

theorem load {l : LRec numClients}
    {q : Fifo (LRec numClients) 9} (hq : q.items = s.lreqFifo.items ++ [l]) :
    Inv { s with lreqFifo := q } L (loaded ++ [l]) renamed handed :=
  { h with loadedEq := by simp [hq, h.loadedEq] }

variable {q : Fifo (RRec numClients addrWidth) 2}

theorem rename {l : LRec numClients} {pa : BitVec addrWidth}
    {rest : Fifo (LRec numClients) 9} {tag : BitVec tsz} {tagGen : TagGen numTags tsz}
    (hl : s.lreqFifo.items = l :: rest.items) (hTag : s.tagGen.getTag = some (tag, tagGen))
    (hq : q.items = s.reqFifo.items ++ [⟨l.req, pa, tag.setWidth 6, l.client⟩]) :
    Inv { s with lreqFifo := rest, reqFifo := q, tagGen } L.give loaded
      (renamed ++ [⟨l.req, pa, tag.setWidth 6, l.client⟩]) handed := by
  obtain ⟨rfl, hInv⟩ := TagGen.getTag_inv h.tags hTag
  have hHanded := h.handed_le
  constructor
  · exact hInv
  · simp [h.given]
  · intro i r hr
    rcases getElem?_concat_eq_some.mp hr with hr | ⟨rfl, rfl⟩
    · exact h.named i r hr
    · rw [busTag, h.given]
  · simp [h.loadedEq, hl]
  · rw [hq, h.reqs, List.drop_append_of_le_length hHanded]
  · simp only [counting]
    omega

theorem hand {r : RRec numClients addrWidth} (hq : s.reqFifo.items = r :: q.items) :
    renamed[handed]? = some r ∧ Inv { s with reqFifo := q } L loaded renamed (handed + 1) := by
  have hDrop := h.reqs.symm.trans hq
  rw [← segment_length] at hDrop
  obtain ⟨hLt, hGet, hRest⟩ := segment_pop hDrop
  rw [segment_length] at hRest
  exact ⟨hGet, { h with reqs := hRest, handed_le := hLt }⟩

/-- Tags of the first `n` renamed requests are those of the first `n` numbers. -/
theorem busTags {n : Nat} (hn : n ≤ renamed.length) :
    (renamed.take n).map RRec.renameTag = (List.range n).map (busTag tsz) := by
  apply List.ext_getElem?
  intro i
  by_cases hi : i < n
  · have hGet : renamed[i]? = some renamed[i] := List.getElem?_eq_getElem (by omega)
    simp [List.getElem?_take_of_lt hi, hGet, h.named i _ hGet, hi]
  · simp [hi]

theorem renameTag_setWidth (hWidth : tsz ≤ 6) {i : Nat}
    {r : RRec numClients addrWidth} (hr : renamed[i]? = some r) :
    r.renameTag.setWidth tsz = tagOf tsz i := by
  rw [h.named i r hr, busTag_setWidth hWidth]

/-- The tag of a request that is still out differs from the tag of every other
request down to the oldest one that is not delivered, if none of the retired
requests in between has it. -/
theorem tag_ne {i j : Nat} (hLow : L.completed ≤ i) (hij : i < j)
    (hRetired : L.retired ≤ j) (hj : j < renamed.length)
    (hKeep : tagOf tsz j ∉ s.tagGen.compFifo.items) : tagOf tsz i ≠ tagOf tsz j := by
  intro hTag
  have hWindow := h.tags.window
  have hGiven := h.given
  rcases Nat.lt_or_ge i L.retired with hOld | hOut
  · refine hKeep ?_
    rw [← hTag, h.tags.comp]
    exact List.mem_map_of_mem (List.mem_range'_1.mpr (by omega))
  · have := tagOf_inj hOut (by omega) hRetired (by omega) hTag
    omega

end Inv
end RequestPath
end Connectal
