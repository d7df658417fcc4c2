import Connectal.Memory.ReadBursts
import Connectal.Memory.RequestOrder
import Connectal.Memory.TagLife

/-! The data that the read server delivers. Every beat in the pipeline belongs
to a numbered burst, every stored beat lies in the slot of its burst until it is
drained, and bursts are drained in the order of their numbers. -/
namespace Connectal

open Rules

/-- One beat on its way into the read buffer: beat `idx` of burst `num`. -/
structure Beat (numClients addrWidth : Nat) (Data : Type) where
  num : Nat
  idx : Nat
  req : RRec numClients addrWidth
  data : Data

namespace Beat

variable {numClients addrWidth : Nat} {Data : Type} (beatShift : Nat)

/-- The beat that has to come next: a particular one in the middle of a burst,
or the first beat of any burst. -/
abbrev Expect (numClients addrWidth : Nat) := Option (Nat × Nat × RRec numClients addrWidth)

def Fits : Expect numClients addrWidth → Beat numClients addrWidth Data → Prop
  | none, x => x.idx = 0
  | some (num, idx, req), x => x.num = num ∧ x.idx = idx ∧ x.req = req

def next (x : Beat numClients addrWidth Data) : Expect numClients addrWidth :=
  if x.idx + 1 < x.req.req.beats beatShift then some (x.num, x.idx + 1, x.req) else none

/-- Bursts are not interrupted. -/
def Follows : Expect numClients addrWidth → List (Beat numClients addrWidth Data) → Prop
  | _, [] => True
  | e, x :: rest => x.Fits e ∧ Follows (x.next beatShift) rest

/-- What has to come after a list of beats. -/
def after : Expect numClients addrWidth → List (Beat numClients addrWidth Data) →
    Expect numClients addrWidth
  | e, [] => e
  | _, x :: rest => after (x.next beatShift) rest

theorem follows_concat (e : Expect numClients addrWidth)
    (l : List (Beat numClients addrWidth Data)) (x : Beat numClients addrWidth Data) :
    Follows beatShift e (l ++ [x]) ↔ Follows beatShift e l ∧ x.Fits (after beatShift e l) := by
  induction l generalizing e with
  | nil => simp [Follows, after]
  | cons y rest ih => simp [Follows, after, ih, and_assoc]

theorem after_concat (e : Expect numClients addrWidth) (l : List (Beat numClients addrWidth Data))
    (x : Beat numClients addrWidth Data) : after beatShift e (l ++ [x]) = x.next beatShift := by
  induction l generalizing e with
  | nil => rfl
  | cons y rest ih => exact ih _

end Beat

namespace MemReadInternal

variable {numClients numTags tsz addrWidth beatShift : Nat} {Data : Type} {numMMUs : Nat}
  {s s' : MemReadInternal numClients numTags tsz addrWidth beatShift Data}
  {trace : List (Event numClients addrWidth Data)}

/-- What has happened so far. -/
structure Log (numClients addrWidth : Nat) (Data : Type) where
  loaded : List (LRec numClients)
  renamed : List (RRec numClients addrWidth)
  served : List (Burst numClients addrWidth Data)
  delivered : List (Fin numClients × MemData Data)

def log (beatShift : Nat) (trace : List (Event numClients addrWidth Data)) :
    Log numClients addrWidth Data :=
  ⟨loaded trace, renamed trace, served beatShift trace, delivered trace⟩

/-- The history after one more event. -/
def Log.add (beatShift : Nat) (H : Log numClients addrWidth Data) :
    Event numClients addrWidth Data → Log numClients addrWidth Data
  | .loaded client req => { H with loaded := H.loaded ++ [⟨req, client⟩] }
  | .renamed r => { H with renamed := H.renamed ++ [r] }
  | .handed r => { H with served := H.served ++ [⟨r, []⟩] }
  | .beat d => { H with served := Burst.receive beatShift d.tag d.data H.served }
  | .delivered client d => { H with delivered := H.delivered ++ [(client, d)] }
  | .refused _ _ _ | .reported _ => H

theorem log_append (trace events : List (Event numClients addrWidth Data)) :
    log beatShift (trace ++ events) = events.foldl (Log.add beatShift) (log beatShift trace) := by
  induction events generalizing trace with
  | nil => rw [List.append_nil, List.foldl_nil]
  | cons e rest ih =>
    rw [List.append_cons, ih, List.foldl_cons]
    congr 1
    cases e <;> simp [log, Log.add, loaded, renamed, served, delivered]

/-- How far the data has come: the beats in the pipeline and what has to come
after the last stored one, the number of bursts whose draining has begun, the
beats read from the buffer, and the beats of the present burst still to read. -/
structure Places (numClients addrWidth : Nat) (Data : Type) where
  ledger : TagLedger
  flight : List (Beat numClients addrWidth Data)
  expect : Beat.Expect numClients addrWidth
  drained : Nat
  buffer : List (Fin numClients × MemData Data)
  rest : List (MemData Data)

/-- A burst as it is put on the way to its client. -/
def sendTo (beatShift : Nat) (b : Burst numClients addrWidth Data) :
    List (Fin numClients × MemData Data) :=
  (b.out beatShift).map fun d => (b.req.client, d)

/-- The beat counters of the read server agree with what has to come next. -/
def Counts (s : MemReadInternal numClients numTags tsz addrWidth beatShift Data) :
    Beat.Expect numClients addrWidth → Prop
  | none => s.firstReg = true
  | some (_, idx, req) =>
    s.firstReg = false ∧ 0 < idx ∧ idx < req.req.beats beatShift ∧
      s.burstReg.toNat = req.req.beats beatShift - idx ∧
      s.lastReg = decide (req.req.beats beatShift - idx = 1)

/-- The memory is in the middle of the expected burst, and of no other. -/
def Begun (beatShift : Nat) (served : List (Burst numClients addrWidth Data)) :
    Beat.Expect numClients addrWidth → Prop
  | none => ∀ b ∈ served, b.beats = [] ∨ b.Complete beatShift
  | some (num, idx, req) =>
    (∃ b, served[num]? = some b ∧ b.req = req ∧ b.beats.length = idx ∧ 0 < idx ∧
      idx < req.req.beats beatShift) ∧
    ∀ i b, i ≠ num → served[i]? = some b → b.beats = [] ∨ b.Complete beatShift

/-- A beat with `left` beats to go, itself included, is still to be read. -/
def Needed (s : MemReadInternal numClients numTags tsz addrWidth beatShift Data)
    (drained i left : Nat) : Prop :=
  drained ≤ i ∨ (i + 1 = drained ∧ left ≤ s.compReg0.toNat)

/-- The slot of a beat with `left` beats to go. -/
def slot (tsz beatShift i left : Nat) : BitVec tsz × BitVec (8 - beatShift) :=
  (tagOf tsz i, BitVec.ofNat (8 - beatShift) left)

/-- Queues, memories and history in terms of the numbered bursts. -/
structure DataInv (H : Log numClients addrWidth Data)
    (s : MemReadInternal numClients numTags tsz addrWidth beatShift Data)
    (P : Places numClients addrWidth Data) : Prop where
  path : s.toRequestPath.Inv P.ledger H.loaded H.renamed H.served.length
  wellFormed : ∀ l ∈ H.loaded, l.req.WellFormed beatShift
  servedEq : H.served.map Burst.req = H.renamed.take H.served.length
  distinct : ∀ i j, P.ledger.completed ≤ i → i < j → j < H.served.length →
    tagOf tsz i ≠ tagOf tsz j
  records : ∀ i b, H.served[i]? = some b → P.ledger.completed ≤ i →
    s.dreqFifos.mem (tagOf tsz i) = b.req.dreq beatShift
  pipeline : s.readDataPipelineFifo.items.map (fun d => (d.data, d.tag)) =
    P.flight.map fun x => (x.data, busTag tsz x.num)
  lookups : (s.dreqFifos.out 0).items = P.flight.map fun x => x.req.dreq beatShift
  follows : Beat.Follows beatShift P.expect P.flight
  counts : s.Counts P.expect
  begun : Begun beatShift H.served (Beat.after beatShift P.expect P.flight)
  ordered : P.flight.Pairwise fun x y => x.num = y.num → x.idx < y.idx
  flying : ∀ x ∈ P.flight, x.num ∉ P.ledger.returned ∧
    ∃ b, H.served[x.num]? = some b ∧ b.req = x.req ∧ b.beats[x.idx]? = some x.data
  stored : ∀ i b m d, H.served[i]? = some b → b.beats[m]? = some d →
    (∀ x ∈ P.flight, x.num = i → x.idx ≠ m) →
    s.Needed P.drained i (b.req.req.beats beatShift - m) →
    s.readBuffer.mem (slot tsz beatShift i (b.req.req.beats beatShift - m)) = b.beat beatShift m d
  back : ∀ i, i ∈ P.ledger.returned ↔
    ∃ b, H.served[i]? = some b ∧ b.Complete beatShift ∧ ∀ x ∈ P.flight, x.num ≠ i
  drained_le : P.drained ≤ P.ledger.completed
  waiting : s.compFifo1.items =
    (List.range' P.drained (P.ledger.completed - P.drained)).map (tagOf tsz)
  requests : (s.dreqFifos.out 1).items =
    (segment H.renamed P.drained P.ledger.completed).map (RRec.dreq beatShift)
  remaining : s.compReg0.toNat = P.rest.length
  draining : P.rest ≠ [] → ∃ i b, P.drained = i + 1 ∧ H.served[i]? = some b ∧
    s.compReg1 = tagOf tsz i ∧ s.compReg2 = b.req.client ∧
    P.rest = (b.out beatShift).drop (b.req.req.beats beatShift - P.rest.length)
  clients : s.compFifo0.items = P.buffer.map Prod.fst
  answers : (s.readBuffer.out 1).items = P.buffer.map Prod.snd
  output : H.delivered ++ P.buffer ++ P.rest.map (fun d => (s.compReg2, d)) =
    (H.served.take P.drained).flatMap (sendTo beatShift)

namespace DataInv

variable {H : Log numClients addrWidth Data} {P : Places numClients addrWidth Data}
  {events : List (Event numClients addrWidth Data)}
  {i : Nat} {b : Burst numClients addrWidth Data} {x : Beat numClients addrWidth Data}
  (h : DataInv H s P)

include h

/-- Burst number `i` is the burst of the renamed request number `i`. -/
theorem served_renamed (hb : H.served[i]? = some b) : H.renamed[i]? = some b.req := by
  have hLt : i < H.served.length := (List.getElem_of_getElem? hb).1
  have hMap : (H.served.map Burst.req)[i]? = some b.req := by rw [List.getElem?_map, hb]; rfl
  rwa [h.servedEq, List.getElem?_take_of_lt hLt] at hMap

theorem served_wellFormed (hb : H.served[i]? = some b) : b.req.req.WellFormed beatShift := by
  have hMem := List.mem_of_getElem? (h.served_renamed hb)
  refine h.wellFormed ⟨b.req.req, b.req.client⟩ ?_
  rw [h.path.loadedEq]
  exact List.mem_append_left _ (List.mem_map_of_mem hMem)

theorem retired_served (hi : i < P.ledger.retired) :
    ∃ b, H.served[i]? = some b ∧ b.Complete beatShift ∧ ∀ x ∈ P.flight, x.num ≠ i :=
  (h.back i).mp (TagLedger.mem_returned_of_lt hi)

theorem open_not_returned (hb : H.served[i]? = some b) (hOpen : ¬ b.Complete beatShift) : i ∉ P.ledger.returned := by
  intro hi
  obtain ⟨b', hb', hComplete, -⟩ := (h.back i).mp hi
  exact hOpen (Option.some.inj (hb.symm.trans hb') ▸ hComplete)

theorem completed_le : P.ledger.completed ≤ H.served.length := by
  by_contra hLt
  obtain ⟨b, hb, -⟩ := h.retired_served (show H.served.length < P.ledger.retired by
    have := h.path.tags.completed_le
    omega)
  simp at hb

theorem renamed {pa : BitVec addrWidth} (hs : Effect s (.checkMmuResp pa) s' events) :
    DataInv (events.foldl (Log.add beatShift) H) s' { P with ledger := P.ledger.give } := by
  cases hs with
  | renamed _ l rest tag tagGen q hl hTag hq =>
  dsimp only [List.foldl_cons, List.foldl_nil, Log.add]
  have hHanded := h.path.handed_le
  refine { h with path := h.path.rename hl hTag hq, servedEq := ?_, requests := ?_ }
  · rw [h.servedEq, List.take_append_of_le_length hHanded]
  · simp only [TagLedger.give_completed]
    rw [h.requests, segment_append (h.completed_le.trans hHanded)]

/-- The memory takes the next physical request. Its record does not replace one
that is still needed. -/
theorem handed (hWidth : tsz ≤ 6) (hKeep : KeepsRequest s)
    (hs : Effect s .readReqGet s' events) : DataInv (events.foldl (Log.add beatShift) H) s' P := by
  cases hs with
  | handed r q hq =>
  dsimp only [List.foldl_cons, List.foldl_nil, Log.add]
  obtain ⟨hGet, hPath⟩ := h.path.hand hq
  have hTag := h.path.renameTag_setWidth hWidth hGet
  have hLt : H.served.length < H.renamed.length := (List.getElem_of_getElem? hGet).1
  have hFresh : ∀ i, P.ledger.completed ≤ i → i < H.served.length →
      tagOf tsz i ≠ tagOf tsz H.served.length := by
    intro i hLow hHigh
    have hRetired : P.ledger.retired ≤ H.served.length := by
      refine TagLedger.retired_le_of_not_mem fun hBack => ?_
      obtain ⟨b, hb, -⟩ := (h.back _).mp hBack
      simp at hb
    refine h.path.tag_ne hLow hHigh hRetired hLt ?_
    have := hKeep r (by simp [hq])
    rwa [hTag] at this
  have hNew : ∀ {i : Nat} {b : Burst numClients addrWidth Data}, H.served[i]? = some b →
      (H.served ++ [⟨r, []⟩])[i]? = some b := fun hb => getElem?_concat_eq_some.mpr (.inl hb)
  have hPos : 0 < r.req.beats beatShift := by
    refine MemRequest.WellFormed.beats_pos (h.wellFormed ⟨r.req, r.client⟩ ?_)
    rw [h.path.loadedEq]
    exact List.mem_append_left _ (List.mem_map_of_mem (List.mem_of_getElem? hGet))
  refine { h with
    path := ?_, servedEq := ?_, distinct := ?_, records := ?_, begun := ?_, flying := ?_
    stored := ?_, back := ?_, draining := ?_, output := ?_ }
  · simpa using hPath
  · simp only [List.map_append, counting]
    rw [h.servedEq, List.take_add_one, hGet]
    rfl
  · intro i j hLow hij hj
    simp only [counting] at hj
    rcases Nat.lt_succ_iff_lt_or_eq.mp hj with hj | rfl
    · exact h.distinct i j hLow hij hj
    · exact hFresh i hLow hij
  · intro i b hb hLow
    simp only [hTag]
    rcases getElem?_concat_eq_some.mp hb with hb | ⟨rfl, rfl⟩
    · rw [Function.update_of_ne (hFresh i hLow (List.getElem_of_getElem? hb).1)]
      exact h.records i b hb hLow
    · rw [Function.update_self]
  · have hBegun := h.begun
    cases hAfter : Beat.after beatShift P.expect P.flight with
    | none =>
      rw [hAfter] at hBegun
      intro b hb
      simp only [List.mem_append, List.mem_singleton] at hb
      rcases hb with hb | rfl
      · exact hBegun b hb
      · exact .inl rfl
    | some e =>
      rw [hAfter] at hBegun
      obtain ⟨⟨b, hb, hRest⟩, hOthers⟩ := hBegun
      refine ⟨⟨b, hNew hb, hRest⟩, ?_⟩
      intro i b' hi hb'
      rcases getElem?_concat_eq_some.mp hb' with hb' | ⟨-, rfl⟩
      · exact hOthers i b' hi hb'
      · exact .inl rfl
  · intro x hx
    obtain ⟨hNot, b, hb, hReq⟩ := h.flying x hx
    exact ⟨hNot, b, hNew hb, hReq⟩
  · intro i b m d hb hd
    rcases getElem?_concat_eq_some.mp hb with hb | ⟨-, rfl⟩
    · exact h.stored i b m d hb hd
    · simp at hd
  · intro i
    rw [h.back i]
    constructor
    · rintro ⟨b, hb, hRest⟩
      exact ⟨b, hNew hb, hRest⟩
    · rintro ⟨b, hb, hComplete, hFlight⟩
      rcases getElem?_concat_eq_some.mp hb with hb | ⟨-, rfl⟩
      · exact ⟨b, hb, hComplete, hFlight⟩
      · simp only [Burst.Complete, List.length_nil] at hComplete
        omega
  · intro hRest
    obtain ⟨i, b, hDrained, hb, hRegs⟩ := h.draining hRest
    exact ⟨i, b, hDrained, hNew hb, hRegs⟩
  · dsimp only
    rw [List.take_append_of_le_length (h.drained_le.trans h.completed_le)]
    exact h.output

theorem beat (hWidth : tsz ≤ 6) {response : MemData Data}
    (hAsked : ∃ b ∈ H.served, b.req.renameTag = response.tag ∧ ¬ b.Complete beatShift)
    (hBegun : ∀ b ∈ H.served, b.beats ≠ [] → ¬ b.Complete beatShift →
      b.req.renameTag = response.tag)
    (hs : Effect s (.readDataPut response) s' events) :
    ∃ P', DataInv (events.foldl (Log.add beatShift) H) s' P' := by
  cases hs with
  | beat _ pq q hpq hq =>
  dsimp only [List.foldl_cons, List.foldl_nil, Log.add]
  obtain ⟨i, b, hb, hTag, hOpen, hSet⟩ := Burst.receive_eq_set response.data hAsked
  have hLt : i < H.served.length := (List.getElem_of_getElem? hb).1
  have hNot := h.open_not_returned hb hOpen
  have hRetired := TagLedger.retired_le_of_not_mem hNot
  have hCompleted := h.path.tags.completed_le.trans hRetired
  have hNum : response.tag = busTag tsz i := by
    rw [← hTag, h.path.named i _ (h.served_renamed hb)]
  have hPos := (h.served_wellFormed hb).beats_pos
  -- the burst in the middle, if there is one, is the burst of this beat
  have hMid : Beat.Fits (Beat.after beatShift P.expect P.flight)
      (⟨i, b.beats.length, b.req, response.data⟩ : Beat numClients addrWidth Data) ∧ b.beats.length < b.req.req.beats beatShift ∧
      ∀ j b', j ≠ i → H.served[j]? = some b' → b'.beats = [] ∨ b'.Complete beatShift := by
    have hState := h.begun
    cases hAfter : Beat.after beatShift P.expect P.flight with
    | none =>
      rw [hAfter] at hState
      have hNil := (hState b (List.mem_of_getElem? hb)).resolve_right hOpen
      exact ⟨by simp [Beat.Fits, hNil], by simpa [hNil] using hPos,
        fun j b' _ hb' => hState b' (List.mem_of_getElem? hb')⟩
    | some e =>
      rw [hAfter] at hState
      obtain ⟨⟨b₀, hb₀, hReq, hLen, hIdx, hMore⟩, hOthers⟩ := hState
      have hOpen₀ : ¬ b₀.Complete beatShift := by
        rw [Burst.Complete, hReq]
        omega
      have hEq : e.1 = i := by
        have hTag₀ := hBegun b₀ (List.mem_of_getElem? hb₀) (List.ne_nil_of_length_pos (by omega)) hOpen₀
        rw [h.path.named _ _ (h.served_renamed hb₀), hNum] at hTag₀
        have hTags := congrArg (BitVec.setWidth tsz) hTag₀
        rw [busTag_setWidth hWidth, busTag_setWidth hWidth] at hTags
        have hLow₀ := h.path.tags.completed_le.trans
          (TagLedger.retired_le_of_not_mem (h.open_not_returned hb₀ hOpen₀))
        have hLt₀ : e.1 < H.served.length := (List.getElem_of_getElem? hb₀).1
        rcases Nat.lt_trichotomy e.1 i with hi | hi | hi
        · exact absurd hTags (h.distinct _ _ hLow₀ hi hLt)
        · exact hi
        · exact absurd hTags.symm (h.distinct _ _ hCompleted hi hLt₀)
      subst hEq
      obtain rfl := Option.some.inj (hb.symm.trans hb₀)
      exact ⟨⟨rfl, hLen, hReq⟩, by rw [hReq]; omega, hOthers⟩
  obtain ⟨hFits, hLen, hOthers⟩ := hMid
  refine ⟨{ P with flight := P.flight ++ [⟨i, b.beats.length, b.req, response.data⟩] }, ?_⟩
  rw [hSet]
  have hGet : ∀ {j : Nat} {b' : Burst numClients addrWidth Data},
      (H.served.set i { b with beats := b.beats ++ [response.data] })[j]? = some b' ↔
        (j = i ∧ { b with beats := b.beats ++ [response.data] } = b') ∨
          (j ≠ i ∧ H.served[j]? = some b') := getElem?_set_eq_some hLt
  refine { h with
    path := ?_, servedEq := ?_, distinct := ?_, records := ?_, pipeline := ?_, lookups := ?_
    follows := ?_, begun := ?_, ordered := ?_, flying := ?_, stored := ?_, back := ?_, draining := ?_
    output := ?_ }
  · simpa using h.path
  · have hSame : (H.served.map Burst.req).set i b.req = H.served.map Burst.req := by
      apply List.ext_getElem?
      intro j
      rw [List.getElem?_set]
      split
      · next hj =>
        subst hj
        rw [if_pos (by simpa using hLt), List.getElem?_map, hb]
        rfl
      · rfl
    simp only [List.map_set, List.length_set]
    rw [hSame, h.servedEq]
  · simpa using h.distinct
  · intro j b' hb' hLow
    rcases hGet.mp hb' with ⟨rfl, rfl⟩ | ⟨-, hb'⟩
    · exact h.records j b hb hLow
    · exact h.records j b' hb' hLow
  · simp [hpq, h.pipeline, hNum]
  · rw [hNum, busTag_setWidth hWidth, h.records i b hb hCompleted] at hq
    simp [hq, h.lookups]
  · exact (Beat.follows_concat beatShift _ _ _).mpr ⟨h.follows, hFits⟩
  · dsimp only
    rw [Beat.after_concat, Beat.next]
    split
    · next hMore =>
      refine ⟨⟨_, hGet.mpr (.inl ⟨rfl, rfl⟩), rfl, by simp, by simp, hMore⟩, ?_⟩
      intro j b' hj hb'
      exact hOthers j b' hj ((hGet.mp hb').resolve_left fun hEq => hj hEq.1).2
    · next hLast =>
      intro b' hb'
      obtain ⟨j, hj⟩ := List.mem_iff_getElem?.mp hb'
      rcases hGet.mp hj with ⟨rfl, rfl⟩ | ⟨hne, hj⟩
      · refine .inr ?_
        simp only [Burst.Complete, counting]
        dsimp only at hLast
        omega
      · exact hOthers j b' hne hj
  · rw [List.pairwise_append]
    refine ⟨h.ordered, List.pairwise_singleton _ _, ?_⟩
    intro x hx y hy hSame
    rw [List.mem_singleton] at hy
    subst hy
    obtain ⟨-, b', hb', -, hData⟩ := h.flying x hx
    rw [hSame] at hb'
    obtain rfl := Option.some.inj (hb.symm.trans hb')
    exact (List.getElem_of_getElem? hData).1
  · intro x hx
    simp only [List.mem_append, List.mem_singleton] at hx
    rcases hx with hx | rfl
    · obtain ⟨hNotX, b', hb', hReq, hData⟩ := h.flying x hx
      refine ⟨hNotX, ?_⟩
      by_cases hEq : x.num = i
      · rw [hEq] at hb'
        obtain rfl := Option.some.inj (hb.symm.trans hb')
        refine ⟨_, hGet.mpr (.inl ⟨hEq, rfl⟩), hReq, ?_⟩
        exact getElem?_concat_eq_some.mpr (.inl hData)
      · exact ⟨b', hGet.mpr (.inr ⟨hEq, hb'⟩), hReq, hData⟩
    · exact ⟨hNot, _, hGet.mpr (.inl ⟨rfl, rfl⟩), rfl, getElem?_concat_eq_some.mpr (.inr ⟨rfl, rfl⟩)⟩
  · intro j b' m d hb' hd hFlight hNeeded
    have hOldFlight : ∀ x ∈ P.flight, x.num = j → x.idx ≠ m := fun x hx =>
      hFlight x (List.mem_append_left _ hx)
    rcases hGet.mp hb' with ⟨rfl, rfl⟩ | ⟨-, hb'⟩
    · rcases getElem?_concat_eq_some.mp hd with hd | ⟨rfl, -⟩
      · exact h.stored j b m d hb hd hOldFlight hNeeded
      · exact absurd rfl (hFlight _ (List.mem_append_right _ (List.mem_singleton_self _)) rfl)
    · exact h.stored j b' m d hb' hd hOldFlight hNeeded
  · intro j
    rw [h.back j]
    constructor
    · rintro ⟨b', hb', hComplete, hFlight⟩
      have hne : j ≠ i := by
        rintro rfl
        exact hOpen (Option.some.inj (hb'.symm.trans hb) ▸ hComplete)
      refine ⟨b', hGet.mpr (.inr ⟨hne, hb'⟩), hComplete, ?_⟩
      intro x hx
      simp only [List.mem_append, List.mem_singleton] at hx
      rcases hx with hx | rfl
      · exact hFlight x hx
      · exact Ne.symm hne
    · rintro ⟨b', hb', hComplete, hFlight⟩
      have hne : j ≠ i := Ne.symm (hFlight _ (List.mem_append_right _ (List.mem_singleton_self _)))
      exact ⟨b', ((hGet.mp hb').resolve_left fun hEq => hne hEq.1).2, hComplete, fun x hx =>
        hFlight x (List.mem_append_left _ hx)⟩
  · intro hRest
    obtain ⟨j, b', hDrained, hb', hRegs⟩ := h.draining hRest
    have hLe := h.drained_le
    have hne : j ≠ i := by omega
    exact ⟨j, b', hDrained, hGet.mpr (.inr ⟨hne, hb'⟩), hRegs⟩
  · dsimp only
    rw [List.take_set_of_le (h.drained_le.trans hCompleted)]
    exact h.output

/-- The counters give the position of the next beat and recognise the last one. -/
theorem counters (hFits : x.Fits P.expect)
    (hWell : x.req.req.WellFormed beatShift) :
    x.idx < x.req.req.beats beatShift ∧
    (s.burstLen (x.req.dreq beatShift)).toNat = x.req.req.beats beatShift - x.idx ∧
    s.last (x.req.dreq beatShift) = decide (x.idx + 1 = x.req.req.beats beatShift) := by
  have hCounts := h.counts
  cases hExpect : P.expect with
  | none =>
    rw [hExpect] at hFits hCounts
    have hZero : x.idx = 0 := hFits
    have hFirst : s.firstReg = true := hCounts
    have hPos := hWell.beats_pos
    refine ⟨by omega, ?_, ?_⟩
    · simp [burstLen, hFirst, RRec.dreq, MemRequest.beats, hZero]
    · simp only [last, hFirst, if_true, RRec.dreq, hWell.single, hZero, decide_eq_decide]
      omega
  | some e =>
    rw [hExpect] at hFits hCounts
    obtain ⟨num, idx, req⟩ := e
    obtain ⟨-, rfl, rfl⟩ := hFits
    obtain ⟨hFirst, hPos, hLt, hBurst, hLast⟩ := hCounts
    refine ⟨hLt, ?_, ?_⟩
    · simp [burstLen, hFirst, hBurst]
    · simp only [last, hFirst, Bool.false_eq_true, if_false, hLast, decide_eq_decide]
      omega

/-- A slot that is written for a beat in flight is not one that is still to be
read for another stored beat. -/
theorem slot_ne (hx : x ∈ P.flight)
    (hIdx : x.idx < x.req.req.beats beatShift)
    (hReg : s.compReg1 = tagOf tsz x.num →
      s.compReg0.toNat < x.req.req.beats beatShift - x.idx)
    (hWait : ∀ p ∈ s.compFifo1.items.zip (s.dreqFifos.out 1).items, p.1 = tagOf tsz x.num →
      p.2.req.beats beatShift < x.req.req.beats beatShift - x.idx)
    {m : Nat} (hb : H.served[i]? = some b)
    (hOther : x.num = i → x.idx ≠ m)
    (hSize : m < b.req.req.beats beatShift)
    (hNeeded : s.Needed P.drained i (b.req.req.beats beatShift - m)) :
    slot tsz beatShift i (b.req.req.beats beatShift - m) ≠
      slot tsz beatShift x.num (x.req.req.beats beatShift - x.idx) := by
  intro hSlot
  obtain ⟨hTag, hLeft⟩ := Prod.mk.inj hSlot
  obtain ⟨hNot, b', hb', hReq, -⟩ := h.flying x hx
  have hRetired := TagLedger.retired_le_of_not_mem hNot
  have hCompleted := h.path.tags.completed_le
  have hLtX : x.num < H.served.length := (List.getElem_of_getElem? hb').1
  have hLt : i < H.served.length := (List.getElem_of_getElem? hb).1
  have hFits := (h.served_wellFormed hb).beats_lt
  have hFitsX := (h.served_wellFormed hb').beats_lt
  rw [hReq] at hFitsX
  have hSame : b.req.req.beats beatShift - m = x.req.req.beats beatShift - x.idx := by
    have := congrArg BitVec.toNat hLeft
    rwa [BitVec.toNat_ofNat, BitVec.toNat_ofNat, Nat.mod_eq_of_lt (by omega),
      Nat.mod_eq_of_lt (by omega)] at this
  by_cases hEq : x.num = i
  · have hne := hOther hEq
    subst hEq
    rw [← hReq, Option.some.inj (hb'.symm.trans hb)] at hSame hIdx
    omega
  rcases Nat.lt_or_ge i P.ledger.completed with hOld | hLive
  · rcases hNeeded with hLow | ⟨hDrained, hLe⟩
    · -- the other burst waits for its turn to be drained
      have hGet : H.renamed[i]? = some b.req := h.served_renamed hb
      have hMem : (tagOf tsz i, b.req.dreq beatShift) ∈
          s.compFifo1.items.zip (s.dreqFifos.out 1).items := by
        rw [h.waiting, h.requests]
        refine List.mem_iff_getElem?.mpr ⟨i - P.drained, ?_⟩
        rw [List.getElem?_zip_eq_some]
        refine ⟨?_, ?_⟩
        · simp [show P.drained + (i - P.drained) = i by omega,
            show i - P.drained < P.ledger.completed - P.drained by omega]
        · rw [List.getElem?_map, Rules.segment, List.getElem?_drop,
            show P.drained + (i - P.drained) = i by omega, List.getElem?_take_of_lt hOld, hGet]
          rfl
      have := hWait _ hMem hTag
      simp only [RRec.dreq] at this
      omega
    · -- the other burst is being drained
      have hRest : P.rest ≠ [] := by
        rw [h.remaining] at hLe
        exact List.ne_nil_of_length_pos (by omega)
      obtain ⟨j, b₁, hj, hb₁, hReg1, -⟩ := h.draining hRest
      have hij : j = i := by omega
      subst hij
      have := hReg (hReg1.trans hTag)
      omega
  · rcases Nat.lt_or_gt_of_ne hEq with hGt | hGt
    · exact h.distinct _ _ (hCompleted.trans hRetired) hGt hLt hTag.symm
    · exact h.distinct _ _ hLive hGt hLtX hTag

theorem beats_le (hb : H.served[i]? = some b) : b.beats.length ≤ b.req.req.beats beatShift := by
  have hBegun := h.begun
  have hClosed : b.beats = [] ∨ b.Complete beatShift →
      b.beats.length ≤ b.req.req.beats beatShift := by
    rintro (hNil | hComplete)
    · simp [hNil]
    · exact hComplete.le
  cases hAfter : Beat.after beatShift P.expect P.flight with
  | none =>
    rw [hAfter] at hBegun
    exact hClosed (hBegun b (List.mem_of_getElem? hb))
  | some e =>
    rw [hAfter] at hBegun
    obtain ⟨⟨b₀, hb₀, hReq, hLen, -, hMore⟩, hOthers⟩ := hBegun
    by_cases hi : i = e.1
    · subst hi
      obtain rfl := Option.some.inj (hb.symm.trans hb₀)
      rw [hReq]
      omega
    · exact hClosed (hOthers i b hi hb)

/-- A burst with a beat before the last one in flight has another beat in
flight or is not complete. -/
theorem next_in_flight {rest : List (Beat numClients addrWidth Data)} (hFlight : P.flight = x :: rest)
    (hMore : x.idx + 1 < x.req.req.beats beatShift) (hb : H.served[x.num]? = some b) (hComplete : b.Complete beatShift) :
    ∃ y ∈ rest, y.num = x.num := by
  have hNext : x.next beatShift = some (x.num, x.idx + 1, x.req) := if_pos hMore
  have hFollows := h.follows
  rw [hFlight] at hFollows
  cases rest with
  | nil =>
    have hBegun := h.begun
    rw [hFlight, Beat.after, Beat.after, hNext] at hBegun
    obtain ⟨⟨b₀, hb₀, hReq, hLen, -, hLt⟩, -⟩ := hBegun
    obtain rfl := Option.some.inj (hb.symm.trans hb₀)
    rw [Burst.Complete, hReq] at hComplete
    omega
  | cons y more =>
    have hFits := hFollows.2.1
    rw [hNext] at hFits
    exact ⟨y, List.mem_cons_self, hFits.1⟩

theorem counts_next (hFits : x.Fits P.expect) (hWell : x.req.req.WellFormed beatShift)
    {t : MemReadInternal numClients numTags tsz addrWidth beatShift Data}
    (hBurst : t.burstReg = s.burstLen (x.req.dreq beatShift) - 1)
    (hFirst : t.firstReg = (s.burstLen (x.req.dreq beatShift) - 1 == 0))
    (hLast : t.lastReg = (s.burstLen (x.req.dreq beatShift) - 1 == 1)) :
    t.Counts (x.next beatShift) := by
  obtain ⟨hIdx, hLen, -⟩ := h.counters hFits hWell
  have hToNat : (s.burstLen (x.req.dreq beatShift) - 1).toNat =
      x.req.req.beats beatShift - x.idx - 1 := by bv_omega
  have hValue : ∀ k : Nat, k < 2 ^ 8 → ((s.burstLen (x.req.dreq beatShift) - 1 == BitVec.ofNat 8 k) =
      decide (x.req.req.beats beatShift - x.idx - 1 = k)) := by
    intro k hk
    rw [Bool.eq_iff_iff, beq_iff_eq, decide_eq_true_eq, ← BitVec.toNat_inj, hToNat,
      BitVec.toNat_ofNat, Nat.mod_eq_of_lt hk]
  have hZero := hValue 0 (by decide)
  have hOne := hValue 1 (by decide)
  unfold Beat.next
  split
  · next hMore =>
    refine ⟨?_, by omega, hMore, ?_, ?_⟩
    · rw [hFirst]
      refine hZero.trans ?_
      simp only [decide_eq_false_iff_not]
      omega
    · rw [hBurst, hToNat]
      omega
    · rw [hLast]
      refine hOne.trans ?_
      rw [decide_eq_decide]
      omega
  · next hDone =>
    refine hFirst.trans (hZero.trans ?_)
    simp only [decide_eq_true_eq]
    omega

/-- The last beat of a burst gives the burst's tag back. -/
theorem returnLast_inv {last : Bool} {n : Nat} {tagGen : TagGen numTags tsz}
    (hTag : s.returnLast last (tagOf tsz n) = some tagGen) (hOut : P.ledger.Out n) :
    ∃ L, tagGen.Inv L ∧ L.given = P.ledger.given ∧ L.completed = P.ledger.completed ∧
      ∀ i, i ∈ L.returned ↔ i ∈ P.ledger.returned ∨ (last = true ∧ i = n) := by
  unfold returnLast at hTag
  cases last with
  | true =>
    simp only [if_true] at hTag
    refine ⟨P.ledger.giveBack n, TagGen.returnTag_inv h.path.tags hOut hTag, rfl, rfl, ?_⟩
    intro i
    simp [TagLedger.returned_giveBack]
  | false =>
    simp only [Bool.false_eq_true, if_false, Option.some.injEq] at hTag
    subst hTag
    exact ⟨P.ledger, h.path.tags, rfl, rfl, by simp⟩

theorem store (hWidth : tsz ≤ 6) (hKeep : KeepsSlot s)
    (hs : Effect s .readData s' events) : ∃ P', DataInv (events.foldl (Log.add beatShift) H) s' P' := by
  cases hs with
  | stored response pq drq q tagGen hpq hq hTag =>
  have hKeep' := hKeep response (by simp [hpq]) drq (by simp [hq])
  have hPipe := h.pipeline
  rw [hpq, List.map_cons] at hPipe
  obtain ⟨x, rest, hFlight, hHead, hTail⟩ := List.map_eq_cons_iff.mp hPipe.symm
  obtain ⟨hData, hBus⟩ := Prod.mk.inj hHead
  have hLook := h.lookups
  rw [hq, hFlight, List.map_cons] at hLook
  obtain ⟨rfl, hLookRest⟩ := List.cons.inj hLook
  have hx : x ∈ P.flight := by simp [hFlight]
  obtain ⟨hNot, b, hb, hReq, hBeat⟩ := h.flying x hx
  have hWell : x.req.req.WellFormed beatShift := hReq ▸ h.served_wellFormed hb
  have hFollows := h.follows
  rw [hFlight] at hFollows
  obtain ⟨hFits, hFollowsRest⟩ := hFollows
  obtain ⟨hIdx, hLen, hLast⟩ := h.counters hFits hWell
  have hTagX : response.tag.setWidth tsz = tagOf tsz x.num := by
    rw [← hBus, busTag_setWidth hWidth]
  have hSlot : (response.tag.setWidth tsz,
      (s.burstLen (x.req.dreq beatShift)).setWidth (8 - beatShift)) =
      slot tsz beatShift x.num (x.req.req.beats beatShift - x.idx) := by
    rw [hTagX, slot, ← hLen, BitVec.ofNat_toNat]
  have hOrdered := h.ordered
  rw [hFlight, List.pairwise_cons] at hOrdered
  have hLtGiven : x.num < P.ledger.given := by
    rw [h.path.given]
    exact (List.getElem_of_getElem? (h.served_renamed hb)).1
  rw [hTagX] at hTag
  obtain ⟨L, hInv, hGiven, hCompleted, hReturned⟩ := h.returnLast_inv hTag ⟨hLtGiven, hNot⟩
  -- after the last beat of a burst none of its beats is left in flight
  have hDone : s.last (x.req.dreq beatShift) = true → ∀ y ∈ rest, y.num ≠ x.num := by
    intro hIsLast y hy hSame
    rw [hLast, decide_eq_true_eq] at hIsLast
    obtain ⟨-, b', hb', hReq', hBeat'⟩ := h.flying y (by simp [hFlight, hy])
    rw [hSame] at hb'
    obtain rfl := Option.some.inj (hb.symm.trans hb')
    have hLe := h.beats_le hb
    have hLt := (List.getElem_of_getElem? hBeat').1
    have := hOrdered.1 y hy hSame.symm
    rw [hReq] at hLe
    omega
  obtain ⟨given, retired, _, waiting, processed, ones⟩ := L
  subst hCompleted
  refine ⟨{ P with
      ledger := ⟨given, retired, _, waiting, processed, ones⟩, flight := rest
      expect := x.next beatShift }, { h with
    path := { h.path with tags := hInv, given := hGiven.trans h.path.given }
    pipeline := hTail.symm, lookups := hLookRest, follows := hFollowsRest
    counts := h.counts_next hFits hWell rfl rfl rfl, begun := ?_, ordered := hOrdered.2, flying := ?_
    stored := ?_, back := ?_ }⟩
  · have hBegun := h.begun
    rwa [hFlight] at hBegun
  · intro y hy
    obtain ⟨hNotY, hBurst⟩ := h.flying y (by simp [hFlight, hy])
    refine ⟨?_, hBurst⟩
    rw [hReturned]
    rintro (hOld | ⟨hIsLast, hSame⟩)
    · exact hNotY hOld
    · exact hDone hIsLast y hy hSame
  · intro i b' m d hb' hd hOther hNeeded
    have hSize : m < b'.req.req.beats beatShift :=
      Nat.lt_of_lt_of_le (List.getElem_of_getElem? hd).1 (h.beats_le hb')
    dsimp only
    rw [hSlot]
    by_cases hSelf : x.num = i ∧ x.idx = m
    · obtain ⟨rfl, rfl⟩ := hSelf
      obtain rfl := Option.some.inj (hb.symm.trans hb')
      obtain rfl := Option.some.inj (hBeat.symm.trans hd)
      rw [hReq, Function.update_self, Burst.beat, hLast, hReq, hData]
      rfl
    · have hOtherX : x.num = i → x.idx ≠ m := fun hNum hIdx => hSelf ⟨hNum, hIdx⟩
      rw [Function.update_of_ne]
      · refine h.stored i b' m d hb' hd ?_ hNeeded
        intro y hy
        rw [hFlight, List.mem_cons] at hy
        rcases hy with rfl | hy
        · exact hOtherX
        · exact hOther y hy
      · refine h.slot_ne hx hIdx ?_ ?_ hb' hOtherX hSize hNeeded
        · intro hReg
          have := hKeep'.1 (hReg.trans hTagX.symm)
          rwa [BitVec.lt_def, hLen] at this
        · intro p hp hTagP
          have := hKeep'.2 p hp (hTagP.trans hTagX.symm)
          rwa [BitVec.lt_def, hLen] at this
  · intro i
    rw [hReturned, h.back i, hFlight]
    constructor
    · rintro (⟨b', hb', hComplete, hNone⟩ | ⟨hIsLast, rfl⟩)
      · exact ⟨b', hb', hComplete, fun y hy => hNone y (List.mem_cons_of_mem _ hy)⟩
      · refine ⟨b, hb, ?_, hDone hIsLast⟩
        rw [hLast, decide_eq_true_eq] at hIsLast
        have hLe := h.beats_le hb
        have hLt := (List.getElem_of_getElem? hBeat).1
        rw [Burst.Complete]
        rw [hReq] at hLe ⊢
        omega
    · rintro ⟨b', hb', hComplete, hNone⟩
      by_cases hNum : x.num = i
      · subst hNum
        refine .inr ⟨?_, rfl⟩
        rw [hLast, decide_eq_true_eq]
        by_contra hMore
        obtain ⟨y, hy, hSame⟩ := h.next_in_flight hFlight (by omega) hb' hComplete
        exact hNone y hy hSame
      · refine .inl ⟨b', hb', hComplete, ?_⟩
        intro y hy
        rcases List.mem_cons.mp hy with rfl | hy
        · exact hNum
        · exact hNone y hy

theorem lookedUp (hs : Effect s .completeBurst0 s' events) :
    DataInv (events.foldl (Log.add beatShift) H) s' { P with ledger := P.ledger.complete } := by
  cases hs with
  | lookedUp tag tagGen q cq hTag hq hcq =>
  rw [List.foldl_nil]
  obtain ⟨hLt, rfl, hInv⟩ := TagGen.complete_inv h.path.tags hTag
  obtain ⟨b, hb, -⟩ := h.retired_served hLt
  have hDrained := h.drained_le
  refine { h with
    path := { h.path with tags := hInv }, distinct := ?_, records := ?_, drained_le := ?_
    waiting := ?_, requests := ?_ }
  · intro i j hLow
    exact h.distinct i j (Nat.le_of_succ_le hLow)
  · intro i b' hb' hLow
    exact h.records i b' hb' (Nat.le_of_succ_le hLow)
  · exact Nat.le_succ_of_le hDrained
  · simp only [TagLedger.complete_completed]
    rw [hcq, h.waiting, Nat.sub_add_comm hDrained, List.range'_1_concat, List.map_append,
      show P.drained + (P.ledger.completed - P.drained) = P.ledger.completed by omega]
    rfl
  · simp only [Function.update_self, TagLedger.complete_completed]
    rw [hq, h.requests, h.records _ b hb le_rfl, segment_push hDrained (h.served_renamed hb),
      List.map_append]
    rfl

theorem completed_stored (hb : H.served[i]? = some b) (hi : i < P.ledger.completed) :
    b.Complete beatShift ∧ ∀ x ∈ P.flight, x.num ≠ i := by
  obtain ⟨b', hb', hStored⟩ := h.retired_served (Nat.lt_of_lt_of_le hi h.path.tags.completed_le)
  exact Option.some.inj (hb'.symm.trans hb) ▸ hStored

theorem length_out (hb : H.served[i]? = some b) (hi : i < P.ledger.completed) :
    (b.out beatShift).length = b.req.req.beats beatShift := by
  rw [Burst.out, List.length_mapIdx, (h.completed_stored hb hi).1]

/-- A stored beat of a completed burst is what its client should see. -/
theorem read_stored {m : Nat} (hb : H.served[i]? = some b) (hi : i < P.ledger.completed)
    (hm : m < b.req.req.beats beatShift)
    (hNeeded : s.Needed P.drained i (b.req.req.beats beatShift - m)) :
    (b.out beatShift)[m]? =
      some (s.readBuffer.mem (slot tsz beatShift i (b.req.req.beats beatShift - m))) := by
  obtain ⟨hComplete, hNone⟩ := h.completed_stored hb hi
  have hLt : m < b.beats.length := by
    rw [hComplete]
    exact hm
  have hGet : b.beats[m]? = some b.beats[m] := List.getElem?_eq_getElem hLt
  rw [h.stored i b m _ hb hGet (fun x hx hNum => absurd hNum (hNone x hx)) hNeeded, Burst.out,
    List.getElem?_mapIdx, hGet]
  rfl

/-- The first beat of the oldest completed burst is read from the buffer. -/
theorem drainFirst (hs : Effect s .completeBurst1a s' events) :
    ∃ P', DataInv (events.foldl (Log.add beatShift) H) s' P' := by
  cases hs with
  | drainFirst drq q tag tq cq bq hIdle hq htq hcq hbq =>
  rw [List.foldl_nil]
  have hRestNil : P.rest = [] := by
    rw [← List.length_eq_zero_iff, ← h.remaining, hIdle]
    rfl
  obtain ⟨r, others, hSegment, rfl, hOthers⟩ := List.map_eq_cons_iff.mp (h.requests.symm.trans hq)
  obtain ⟨hLt, hGet, rfl⟩ := segment_pop hSegment
  obtain ⟨b, hb, -⟩ := h.retired_served (Nat.lt_of_lt_of_le hLt h.path.tags.completed_le)
  obtain rfl := Option.some.inj ((h.served_renamed hb).symm.trans hGet)
  have hWaiting := h.waiting.symm.trans htq
  rw [show P.ledger.completed - P.drained = P.ledger.completed - (P.drained + 1) + 1 by omega,
    List.range'_succ, List.map_cons] at hWaiting
  obtain ⟨rfl, hWaitingRest⟩ := List.cons.inj hWaiting
  have hPos := (h.served_wellFormed hb).beats_pos
  have hRead := h.read_stored hb hLt hPos (.inl le_rfl)
  have hSlot : (tagOf tsz P.drained, (b.req.req.burstLen >>> beatShift).setWidth (8 - beatShift)) =
      slot tsz beatShift P.drained (b.req.req.beats beatShift - 0) := by
    rw [slot, Nat.sub_zero, MemRequest.beats, BitVec.ofNat_toNat]
  have hLen := h.length_out hb hLt
  have hCount : (b.req.req.burstLen >>> beatShift - 1).toNat = b.req.req.beats beatShift - 1 := by
    rw [MemRequest.beats] at hPos ⊢
    generalize b.req.req.burstLen >>> beatShift = len at hPos ⊢
    bv_omega
  have hOut : b.out beatShift = s.readBuffer.mem (slot tsz beatShift P.drained
      (b.req.req.beats beatShift - 0)) :: (b.out beatShift).drop 1 := by
    obtain ⟨hLt0, hEq⟩ := List.getElem_of_getElem? hRead
    conv_lhs => rw [← List.drop_zero (l := b.out beatShift), List.drop_eq_getElem_cons hLt0, hEq]
  simp only [RRec.dreq] at hcq hbq ⊢
  rw [hSlot] at hbq
  refine ⟨{ P with
      drained := P.drained + 1
      buffer := P.buffer ++ [(b.req.client, s.readBuffer.mem (slot tsz beatShift P.drained
        (b.req.req.beats beatShift - 0)))]
      rest := (b.out beatShift).drop 1 }, { h with
    stored := ?_, drained_le := hLt, waiting := hWaitingRest.symm, requests := ?_, remaining := ?_
    draining := ?_, clients := ?_, answers := ?_, output := ?_ }⟩
  · intro i b' m d hb' hd hFlight hNeeded
    refine h.stored i b' m d hb' hd hFlight ?_
    rcases hNeeded with hLow | ⟨hEq, -⟩
    · exact .inl (Nat.le_of_succ_le hLow)
    · exact .inl (by simp only at hEq; omega)
  · simp only [Function.update_self]
    exact hOthers.symm
  · rw [hCount, List.length_drop, hLen]
  · intro _
    refine ⟨P.drained, b, rfl, hb, rfl, rfl, ?_⟩
    rw [List.length_drop, hLen, Nat.sub_sub_self hPos]
  · simp [hcq, h.clients]
  · simp [hbq, h.answers]
  · have hOutput := h.output
    rw [hRestNil, List.map_nil, List.append_nil] at hOutput
    dsimp only
    rw [List.take_add_one, hb, List.flatMap_append, ← hOutput]
    simp only [Option.toList_some, List.flatMap_singleton, sendTo]
    conv_rhs => rw [hOut]
    simp

/-- The next beat of the burst that is being drained is read from the buffer. -/
theorem drainNext (hs : Effect s .completeBurst1b s' events) :
    ∃ P', DataInv (events.foldl (Log.add beatShift) H) s' P' := by
  cases hs with
  | drainNext cq bq hBusy hcq hbq =>
  rw [List.foldl_nil]
  have hCount : 0 < P.rest.length := by
    rw [← h.remaining]
    exact BitVec.lt_def.mp hBusy
  obtain ⟨i, b, hDrained, hb, hReg1, hReg2, hRest⟩ := h.draining (List.ne_nil_of_length_pos hCount)
  have hLt : i < P.ledger.completed := by
    have := h.drained_le
    omega
  have hLen := h.length_out hb hLt
  have hPos := (h.served_wellFormed hb).beats_pos
  have hLe : P.rest.length ≤ b.req.req.beats beatShift := by
    have := congrArg List.length hRest
    rw [List.length_drop, hLen] at this
    omega
  have hBack : b.req.req.beats beatShift - (b.req.req.beats beatShift - P.rest.length) =
      P.rest.length := by omega
  have hRead := h.read_stored hb hLt
    (show b.req.req.beats beatShift - P.rest.length < b.req.req.beats beatShift by omega)
    (.inr ⟨hDrained.symm, by rw [hBack, h.remaining]⟩)
  have hSlot : (s.compReg1, s.compReg0.setWidth (8 - beatShift)) =
      slot tsz beatShift i (b.req.req.beats beatShift -
        (b.req.req.beats beatShift - P.rest.length)) := by
    rw [slot, hReg1, hBack, ← h.remaining, BitVec.ofNat_toNat]
  obtain ⟨hIdx, hEq⟩ := List.getElem_of_getElem? hRead
  have hSplit : P.rest = s.readBuffer.mem (s.compReg1, s.compReg0.setWidth (8 - beatShift)) ::
      (b.out beatShift).drop (b.req.req.beats beatShift - P.rest.length + 1) := by
    rw [hSlot, ← hEq, ← List.drop_eq_getElem_cons hIdx]
    exact hRest
  have hTail : P.rest.tail =
      (b.out beatShift).drop (b.req.req.beats beatShift - P.rest.length + 1) := by
    rw [hSplit, List.tail_cons, ← hSplit]
  have hRemaining := h.remaining
  have hMinus : (s.compReg0 - 1).toNat = P.rest.length - 1 := by bv_omega
  refine ⟨{ P with
      buffer := P.buffer ++
        [(s.compReg2, s.readBuffer.mem (s.compReg1, s.compReg0.setWidth (8 - beatShift)))]
      rest := P.rest.tail }, { h with
    stored := ?_, remaining := ?_, draining := ?_, clients := ?_, answers := ?_, output := ?_ }⟩
  · intro j b' m d hb' hd hFlight hNeeded
    refine h.stored j b' m d hb' hd hFlight ?_
    rcases hNeeded with hLow | ⟨hEq, hLeft⟩
    · exact .inl hLow
    · refine .inr ⟨hEq, hLeft.trans ?_⟩
      dsimp only
      rw [hMinus, h.remaining]
      exact Nat.sub_le _ _
  · rw [hMinus, List.length_tail]
  · intro _
    refine ⟨i, b, hDrained, hb, hReg1, hReg2, ?_⟩
    dsimp only
    rw [List.length_tail, hTail]
    congr 1
    omega
  · simp [hcq, h.clients]
  · simp [hbq, h.answers]
  · have hOutput := h.output
    rw [hSplit] at hOutput
    dsimp only
    rw [← hOutput, hTail]
    simp

theorem delivered (hs : Effect s .completeBurst2 s' events) :
    ∃ P', DataInv (events.foldl (Log.add beatShift) H) s' P' := by
  cases hs with
  | delivered client d cq bq hcq hbq =>
  obtain ⟨⟨client', d'⟩, others, hBuffer, rfl, hClients⟩ :=
    List.map_eq_cons_iff.mp (h.clients.symm.trans hcq)
  have hAnswers := h.answers.symm.trans hbq
  rw [hBuffer, List.map_cons] at hAnswers
  obtain ⟨rfl, hAnswersRest⟩ := List.cons.inj hAnswers
  refine ⟨{ P with buffer := others }, { h with
    clients := hClients.symm, answers := ?_, output := ?_ }⟩
  · simp only [Function.update_self]
    exact hAnswersRest.symm
  · have hOutput := h.output
    rw [hBuffer] at hOutput
    simpa [Log.add] using hOutput

theorem tagRule {r : TagGen.Rule} (hs : Effect s (.tagRule r) s' events) :
    ∃ P', DataInv (events.foldl (Log.add beatShift) H) s' P' := by
  cases hs with
  | tagRule _ tagGen _ hTag =>
  obtain ⟨L, hInv, hGiven, hCompleted, -, hReturned⟩ := TagGen.runRule_inv h.path.tags hTag
  obtain ⟨given, retired, _, waiting, processed, ones⟩ := L
  subst hCompleted
  refine ⟨{ P with ledger := ⟨given, retired, _, waiting, processed, ones⟩ }, { h with
    path := { h.path with tags := hInv, given := hGiven.trans h.path.given }, flying := ?_, back := ?_ }⟩
  · intro x hx
    rw [hReturned.mem_iff]
    exact h.flying x hx
  · intro i
    rw [hReturned.mem_iff]
    exact h.back i

/-- The memory takes the requests of each client in the order of acceptance. -/
theorem requests_prefix (client : Fin numClients) :
    (H.served.filter fun b => b.req.client = client).map (fun b => b.req.req) <+:
      (H.loaded.filter fun l => l.client = client).map LRec.req := by
  have hPrefix : H.served.map (fun b => (⟨b.req.req, b.req.client⟩ : LRec numClients)) <+:
      H.loaded := by
    have hMap := congrArg (List.map fun r => (⟨r.req, r.client⟩ : LRec numClients)) h.servedEq
    rw [List.map_map] at hMap
    rw [h.path.loadedEq, show H.served.map (fun b => (⟨b.req.req, b.req.client⟩ : LRec numClients)) =
      (H.renamed.take H.served.length).map _ from hMap]
    exact ((List.take_prefix _ _).map _).trans (List.prefix_append _ _)
  have := (hPrefix.filter fun l => l.client = client).map LRec.req
  simpa [List.filter_map, Function.comp_def] using this

theorem drained_complete :
    ∀ b ∈ H.served.take P.drained, b.Complete beatShift := by
  intro b hb
  obtain ⟨i, hi⟩ := List.mem_iff_getElem?.mp hb
  rw [List.getElem?_take] at hi
  split at hi
  case isFalse => cases hi
  case isTrue hLt =>
    exact (h.completed_stored hi (Nat.lt_of_lt_of_le hLt h.drained_le)).1

end DataInv

theorem sendTo_filter (client : Fin numClients) (bursts : List (Burst numClients addrWidth Data)) :
    ((bursts.flatMap (sendTo beatShift)).filter fun d => d.1 = client).map Prod.snd =
      (bursts.filter fun b => b.req.client = client).flatMap (Burst.out beatShift) := by
  induction bursts with
  | nil => rfl
  | cons b rest ih =>
    rw [List.flatMap_cons, List.filter_append, List.map_append, ih]
    by_cases hClient : b.req.client = client
    · rw [List.filter_cons_of_pos (by simpa using hClient), List.flatMap_cons]
      simp [sendTo, hClient, List.filter_map, Function.comp_def]
    · rw [List.filter_cons_of_neg (by simpa using hClient)]
      simp [sendTo, hClient, List.filter_map, Function.comp_def]

variable {P : Places numClients addrWidth Data} {H : Log numClients addrWidth Data}

/-- A client gets beats of its complete bursts only, in order. -/
theorem DataInv.data_prefix (h : DataInv H s P) (client : Fin numClients) :
    (H.delivered.filter fun d => d.1 = client).map Prod.snd <+:
      ((H.served.filter fun b => b.req.client = client).takeWhile
        fun b => b.Complete beatShift).flatMap (Burst.out beatShift) := by
  have hDelivered : H.delivered <+: (H.served.take P.drained).flatMap (sendTo beatShift) :=
    ⟨_, by rw [← h.output, List.append_assoc]⟩
  refine ((hDelivered.filter fun d => d.1 = client).map Prod.snd).trans ?_
  rw [sendTo_filter]
  obtain ⟨later, hLater⟩ : (H.served.take P.drained).filter (fun b => b.req.client = client) <+:
      H.served.filter fun b => b.req.client = client := (List.take_prefix _ _).filter _
  rw [← hLater, List.takeWhile_append_of_pos, List.flatMap_append]
  · exact List.prefix_append _ _
  · intro b hb
    exact decide_eq_true (h.drained_complete b (List.mem_of_mem_filter hb))

/-- When nothing is on its way, every complete burst has been delivered. -/
theorem DataInv.idle_complete
    (h : DataInv H s P) (hWide : 2 ^ tsz ≤ numTags) (hIdle : s.Idle) (client : Fin numClients) :
    (H.delivered.filter fun d => d.1 = client).map Prod.snd =
      (H.served.filter fun b => b.req.client = client ∧ b.Complete beatShift).flatMap
        (Burst.out beatShift) := by
  obtain ⟨hPipe, hRet, hState, hComp, hComp1, hReg, hComp0⟩ := hIdle
  have hFlight : P.flight = [] := by simpa [hPipe] using h.pipeline
  have hBuffer : P.buffer = [] := by simpa [hComp0] using h.clients
  have hRest : P.rest = [] := by
    rw [← List.length_eq_zero_iff, ← h.remaining, hReg]
    rfl
  have hWaiting : P.ledger.waiting = [] := by simpa [hRet] using h.path.tags.wait
  have hProcessed : P.ledger.processed = [] := by
    have hUnary := h.path.tags.unary
    rw [hState] at hUnary
    have hOnes : P.ledger.ones = 0 := by
      by_contra hPos
      have := Nat.one_lt_two_pow hPos
      simp only [BitVec.ofNat_eq_ofNat, BitVec.toNat_ofNat, Nat.zero_mod] at hUnary
      omega
    rw [← List.length_eq_zero_iff, ← h.path.tags.ones_eq hWide, hOnes]
  have hAll : P.ledger.retired ≤ P.drained := by
    have hComp' := congrArg List.length h.path.tags.comp
    have hWait' := congrArg List.length h.waiting
    simp only [hComp, hComp1, List.length_map, List.length_range', List.length_nil] at hComp' hWait'
    omega
  have hOutput := h.output
  rw [hBuffer, hRest, List.map_nil, List.append_nil, List.append_nil] at hOutput
  have hSplit : H.served.filter (fun b => b.Complete beatShift) = H.served.take P.drained := by
    conv_lhs => rw [← List.take_append_drop P.drained H.served]
    rw [List.filter_append, List.filter_eq_self.mpr, List.filter_eq_nil_iff.mpr, List.append_nil]
    · intro b hb hComplete
      obtain ⟨k, hk⟩ := List.mem_iff_getElem?.mp hb
      rw [List.getElem?_drop] at hk
      have hMem := (h.back _).mpr ⟨b, hk, of_decide_eq_true hComplete, by simp [hFlight]⟩
      simp only [TagLedger.returned, hProcessed, hWaiting, List.append_nil, List.mem_range] at hMem
      omega
    · intro b hb
      exact decide_eq_true (h.drained_complete b hb)
  rw [hOutput, sendTo_filter, ← hSplit, List.filter_filter]
  simp only [Bool.decide_and]

/-- Every admitted action keeps the bursts in their places. -/
theorem effect_dataInv {action : Action numClients addrWidth Data}
    {events : List (Event numClients addrWidth Data)}
    (h : DataInv (log beatShift trace) s P) (hWidth : tsz ≤ 6)
    (hOk : FaithfulMemoryKeepingData trace s action) (hs : Effect s action s' events) :
    ∃ P', DataInv (log beatShift (trace ++ events)) s' P' := by
  obtain ⟨hOk, hRequest, hSlot⟩ := hOk
  rw [log_append]
  cases action with
  | loadClient client req =>
    refine ⟨P, ?_⟩
    cases hs with
    | loaded _ _ q hq =>
      refine { h with path := h.path.load hq, wellFormed := ?_ }
      intro l hl
      rcases List.mem_append.mp hl with hl | hl
      · exact h.wellFormed l hl
      · exact List.mem_singleton.mp hl ▸ hOk
    | refused => exact { h with path := { h.path with } }
  | checkMmuResp pa => exact ⟨_, h.renamed hs⟩
  | completeBurst0 => exact ⟨_, h.lookedUp hs⟩
  | completeBurst1a => exact h.drainFirst hs
  | completeBurst1b => exact h.drainNext hs
  | completeBurst2 => exact h.delivered hs
  | readData => exact h.store hWidth (hSlot rfl) hs
  | readReqGet => exact ⟨P, h.handed hWidth (hRequest rfl) hs⟩
  | readDataPut response => exact h.beat hWidth hOk.1 hOk.2 hs
  | dmaError =>
    cases hs
    exact ⟨P, { h with path := { h.path with } }⟩
  | tagRule r => exact h.tagRule hs

theorem powerUp_dataInv [NeZero numClients] (tagMem : BitVec tsz → Bool)
    (dreqMem : BitVec tsz → DRec numClients)
    (bufferMem : BitVec tsz × BitVec (8 - beatShift) → MemData Data) :
    DataInv (log beatShift ([] : List (Event numClients addrWidth Data)))
      (powerUp tagMem dreqMem bufferMem :
        MemReadInternal numClients numTags tsz addrWidth beatShift Data)
      ⟨TagLedger.start, [], none, 0, [], []⟩ := by
  constructor
  case path => exact RequestPath.Inv.powerUp tagMem
  all_goals
    simp [log, loaded, MemReadInternal.renamed, served, MemReadInternal.delivered, powerUp,
      TagLedger.start, TagLedger.returned, Bram.powerUp, Rules.segment, Beat.Follows, Beat.after, Counts,
      Begun]

/-- One request of a burst of one four-byte word, up to its completed tag. -/
def oneWord (origTag busTag : BitVec 6) (d : Nat) : List (Action 1 12 Nat) :=
  [.loadClient 0 ⟨3, 64, 4, origTag⟩, .checkMmuResp 64, .readReqGet,
    .readDataPut ⟨d, busTag, true⟩, .readData, .tagRule .ret, .tagRule .completeRule0,
    .tagRule .completeRule1]

end MemReadInternal
end Connectal
