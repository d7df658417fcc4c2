import Connectal.Memory.Isolation
import Connectal.Memory.TagProgress

/-! Every request to the memory server that can be translated gets its address.
The oldest of them comes first in its queue and at its unit; the unit brings its
answer, the bus makes room, and tags that are given back make a tag free. -/
namespace Connectal

open Rules Pairing

namespace MemServer

variable {nMasters numClients numMMUs numTags tsz addrWidth : Nat} {dir : Direction}
  {trace : List (Event nMasters numClients numMMUs tsz addrWidth)}
  {s s' : MemServer nMasters numClients numMMUs numTags tsz addrWidth}
  {P : Fin numMMUs → MMU.Pipe addrWidth} {x : Pending nMasters numClients addrWidth}
  {a : Action nMasters numClients numMMUs tsz}

theorem Draining.separated (h : Draining dir trace s a) : Separated dir trace s a := by
  cases a with
  | loadClient | addrTrans => exact h.elim
  | _ => exact h

variable {events : List (Event nMasters numClients numMMUs tsz addrWidth)}

section Parts

variable {i : Fin nMasters} {j : Fin numMMUs}

@[simp] theorem tagEvents_map_tag (es : List (TagGen.Event tsz)) :
    tagEvents ((es.map .tag).map (.server i) :
      List (Event nMasters numClients numMMUs tsz addrWidth)) i = es := by
  induction es with
  | nil => rfl
  | cons e es ih => simp [tagEvents]

theorem pipeline_free {a : MMU.Action} (ha : a.Pipeline) (mmu : MMU addrWidth) (port : Fin 2) :
    a.uses port = false ∧ MMU.Calm port mmu a := by
  cases a with
  | rule r =>
    refine ⟨rfl, fun id hid => ?_⟩
    cases r with
    | idReturnRule => exact ha.elim
    | _ => cases hid
  | _ => exact ha.elim

/-- Rules of a unit's pipeline may fire at any time. -/
theorem unit_path {mmu : MMU addrWidth} {later : List (MMU.Event addrWidth)}
    (path : (MMU.machine addrWidth (BitVec.ofNat 32 j)).Continues (fun _ _ a => a.Pipeline)
      (s.mmus j, []) (mmu, later)) :
    (machine _ _ _ _ _ _ dir).Continues (Draining dir) (s, trace)
      (s.setUnit j (s.mmuServers j) mmu, trace ++ later.map (.mmu j)) := by
  let around (c : MMU addrWidth × List (MMU.Event addrWidth)) :
      MemServer nMasters numClients numMMUs numTags tsz addrWidth ×
        List (Event nMasters numClients numMMUs tsz addrWidth) :=
    (s.setUnit j (s.mmuServers j) c.1, trace ++ c.2.map (.mmu j))
  have hStart : around (s.mmus j, []) = (s, trace) := by
    simp [around, setUnit]
  rw [← hStart]
  refine Relation.ReflTransGen.lift around ?_ _ _ path
  rintro ⟨m, before⟩ ⟨m', after⟩ ⟨a, events, hOk, hs, hAfter⟩
  obtain ⟨hUses, hCalm⟩ := pipeline_free hOk m dir.port
  have hs' : MMU.fire (BitVec.ofNat 32 j) a m = some (m', events) := hs
  refine ⟨.mmu j a, events.map (.mmu j), ?_, ?_, ?_⟩
  · simpa [around, Draining, Orderly, setUnit] using hCalm
  · simp [machine, fire, around, setUnit, hUses, hs']
  · have hAfter' : after = before ++ events := hAfter
    simp [around, hAfter']

/-- Whatever the tag generator does apart from handing out tags, it does as a part
of the server. -/
theorem exists_service {a : TagGen.Action tsz} (ha : a ≠ .getTag) {g g' : TagGen numTags tsz}
    {events : List (TagGen.Event tsz)} (hs : TagGen.fire a g = some (g', events))
    (path : RequestPath numClients numTags tsz addrWidth) :
    ∃ b, RequestPath.serve b { path with tagGen := g } =
        some ({ path with tagGen := g' }, events.map .tag) ∧
      ∀ tag, b = .returnTag tag → a = .returnTag tag := by
  cases a with
  | rule r => exact ⟨.tagRule r, by simp [RequestPath.serve, show TagGen.runRule r g = _ from hs], (fun _ h => by cases h)⟩
  | getTag => exact absurd rfl ha
  | returnTag tag =>
    simp only [TagGen.fire, firing] at hs
    obtain ⟨_, hs, rfl, rfl⟩ := hs
    refine ⟨.returnTag tag, by simp [RequestPath.serve, hs], ?_⟩
    rintro _ ⟨⟩
    rfl
  | complete =>
    simp only [TagGen.fire, firing] at hs
    obtain ⟨tag, _, hs, rfl, rfl⟩ := hs
    exact ⟨.complete, by simp [RequestPath.serve, hs], (fun _ h => by cases h)⟩

/-- Tags may be given back and completed at any time. -/
theorem tag_path {tagGen : TagGen numTags tsz} {tags : List (TagGen.Event tsz)}
    (path : (TagGen.machine numTags tsz).Continues TagGen.Recovers
      ((s.servers i).tagGen, tagEvents trace i) (tagGen, tags)) :
    ∃ more : List (TagGen.Event tsz),
      (machine _ _ _ _ _ _ dir).Continues (Draining dir)
        (s, trace) (s.setServer i { s.servers i with tagGen },
          trace ++ (more.map .tag).map (.server i)) := by
  let Around (c : TagGen numTags tsz × List (TagGen.Event tsz))
      (e : MemServer nMasters numClients numMMUs numTags tsz addrWidth ×
        List (Event nMasters numClients numMMUs tsz addrWidth)) : Prop :=
    ∃ more, c.2 = tagEvents trace i ++ more ∧ e = (s.setServer i { s.servers i with tagGen := c.1 },
      trace ++ (more.map .tag).map (.server i))
  have hStart : Around ((s.servers i).tagGen, tagEvents trace i) (s, trace) := by
    refine ⟨[], by simp, ?_⟩
    simp [setServer]
  obtain ⟨_, lifted, more, -, rfl⟩ : ∃ e, (machine _ _ _ _ _ _ dir).Continues (Draining dir) (s, trace) e ∧ Around (tagGen, tags) e := by
    refine path.lift Around ?_ hStart
    rintro ⟨g, before⟩ ⟨g', after⟩ _ ⟨a, events, ⟨hOk, hNot⟩, hs, hAfter⟩ ⟨more, hBefore, rfl⟩
    obtain ⟨b, hServe, hReturn⟩ := exists_service hNot hs (s.servers i)
    have hTags : tagEvents (trace ++ (more.map .tag).map (.server i)) i = before := by
      rw [tagEvents_append, tagEvents_map_tag]
      exact hBefore.symm
    have hSep : Draining dir (trace ++ (more.map .tag).map (.server i))
        (s.setServer i { s.servers i with tagGen := g }) (.service i b) := by
      cases b with
      | returnTag tag =>
        rw [hReturn tag rfl] at hOk
        simp only [Draining, Orderly, hTags]
        exact hOk
      | _ => trivial
    have hFire : (machine _ _ _ _ _ _ dir).fire (.service i b)
        (s.setServer i { s.servers i with tagGen := g }) =
        some (s.setServer i { s.servers i with tagGen := g' }, (events.map .tag).map (.server i)) := by
      simp [machine, fire, setServer, hServe]
    refine ⟨_, Machine.Continues.tail .refl hSep hFire, more ++ events, ?_, ?_⟩
    · exact hAfter.trans (by rw [hBefore, List.append_assoc])
    · simp
  exact ⟨more, lifted⟩

theorem tagEvents_other {k : Fin nMasters} (hk : k ≠ i)
    (es : List (RequestPath.Event numClients tsz addrWidth)) :
    tagEvents (es.map (.server k) : List (Event nMasters numClients numMMUs tsz addrWidth)) i = [] := by
  rw [tagEvents, List.filterMap_map, List.filterMap_eq_nil_iff]
  intro e _
  cases e with
  | tag e => simp [hk]
  | _ => rfl

@[simp] theorem tagEvents_map_mmu (es : List (MMU.Event addrWidth)) :
    tagEvents (es.map (.mmu j) : List (Event nMasters numClients numMMUs tsz addrWidth)) i = [] := by
  rw [tagEvents, List.filterMap_map, List.filterMap_eq_nil_iff]
  intro e _
  rfl

/-- What a server does with its tag generator is an action of the generator. -/
theorem serve_tagGen {b : RequestPath.Service tsz} {path path' : RequestPath numClients numTags tsz addrWidth}
    {served : List (RequestPath.Event numClients tsz addrWidth)} {tags : List (TagGen.Event tsz)}
    (hOk : ∀ tag, b = .returnTag tag → TagGen.ReturnsOutstanding tags path.tagGen (.returnTag tag))
    (hs : RequestPath.serve b path = some (path', served)) :
    (TagGen.machine numTags tsz).Continues TagGen.ReturnsOutstanding (path.tagGen, tags)
      (path'.tagGen, tags ++ tagEvents (served.map (.server i) :
        List (Event nMasters numClients numMMUs tsz addrWidth)) i) := by
  have hOne : ∀ {a : TagGen.Action tsz} {g : TagGen numTags tsz} {es : List (TagGen.Event tsz)},
      TagGen.ReturnsOutstanding tags path.tagGen a → TagGen.fire a path.tagGen = some (g, es) →
      (TagGen.machine numTags tsz).Continues TagGen.ReturnsOutstanding (path.tagGen, tags)
        (g, tags ++ es) :=
    fun hAllowed hFire => Machine.Continues.tail .refl hAllowed hFire
  cases b
  all_goals simp only [RequestPath.serve, firing] at hs
  case takeReq =>
    obtain ⟨r, q, -, rfl, rfl⟩ := hs
    simp only [tagEvents, List.map_cons, List.map_nil, counting]
    exact .refl
  case returnTag tag =>
    obtain ⟨g, hReturn, rfl, rfl⟩ := hs
    simpa [tagEvents] using hOne (hOk tag rfl) (by simp [TagGen.fire, hReturn])
  case complete =>
    obtain ⟨tag, g, hComplete, rfl, rfl⟩ := hs
    simpa [tagEvents] using hOne (a := .complete) trivial (by simp [TagGen.fire, hComplete])
  case dmaError =>
    obtain ⟨e, _, hError, rfl, rfl⟩ := hs
    obtain ⟨q, rfl⟩ := RequestPath.dmaError_cases hError
    simp only [tagEvents, List.map_cons, List.map_nil, counting]
    exact .refl
  case tagRule r =>
    obtain ⟨g, es, hRule, rfl, rfl⟩ := hs
    rw [tagEvents_map_tag]
    exact hOne (a := .rule r) trivial hRule

theorem tag_step (hOk : Separated dir trace s a)
    (hs : fire dir a s = some (s', events)) : (TagGen.machine numTags tsz).Continues TagGen.ReturnsOutstanding
      ((s.servers i).tagGen, tagEvents trace i) ((s'.servers i).tagGen, tagEvents (trace ++ events) i) := by
  have hSame : (s'.servers i).tagGen = (s.servers i).tagGen → tagEvents events i = [] →
      (TagGen.machine numTags tsz).Continues TagGen.ReturnsOutstanding
        ((s.servers i).tagGen, tagEvents trace i)
        ((s'.servers i).tagGen, tagEvents (trace ++ events) i) := by
    intro hGen hEvents
    rw [hGen, tagEvents_append, hEvents, List.append_nil]
    exact .refl
  have hAll : (∀ k, (s'.servers k).tagGen = (s.servers k).tagGen) → tagEvents events i = [] → _ :=
    fun hGen => hSame (hGen i)
  cases a with
  | loadClient k client req =>
    rcases loadClient_cases hs with ⟨e, q, rfl, rfl⟩ | ⟨j, q, a, mmu, -, -, -, -, -, rfl, rfl⟩ <;>
      exact hAll (update_same RequestPath.tagGen rfl) rfl
  | checkMmuResp k =>
    obtain ⟨l, rest, j, a, addr, mmu, tag, tagGen, q, -, -, -, -, hTag, -, rfl, rfl⟩ :=
      checkMmuResp_cases hs
    by_cases hk : k = i
    · subst hk
      have hHead : tag = (s.servers k).tagGen.headPtr := by
        simp only [TagGen.getTag, firing] at hTag
        obtain ⟨-, -, -, hHead, -⟩ := hTag
        exact hHead.symm
      have hFire : (TagGen.machine numTags tsz).fire .getTag (s.servers k).tagGen =
          some (tagGen, [⟨.given, (s.servers k).tagGen.headPtr⟩]) := by
        simp [TagGen.machine, TagGen.fire, hTag, hHead]
      have hStep := Machine.Continues.tail (M := TagGen.machine numTags tsz)
        (s := (s.servers k).tagGen) .refl
        (show TagGen.ReturnsOutstanding (tagEvents trace k) (s.servers k).tagGen .getTag from trivial)
        hFire
      simpa [tagEvents, setServer, setUnit] using hStep
    · refine hSame ?_ ?_
      · simp [setServer, setUnit, Ne.symm hk]
      · simp [tagEvents, hk]
  | service k b =>
    simp only [fire, firing] at hs
    obtain ⟨path, served, hServe, rfl, rfl⟩ := hs
    by_cases hk : k = i
    · subst hk
      have hReturns : ∀ tag, b = .returnTag tag →
          TagGen.ReturnsOutstanding (tagEvents trace k) (s.servers k).tagGen (.returnTag tag) := by
        rintro tag rfl
        exact hOk
      rw [tagEvents_append]
      simpa [setServer] using serve_tagGen hReturns hServe
    · exact hSame (by simp [setServer, Ne.symm hk]) (tagEvents_other hk served)
  | incArb j =>
    simp only [fire, firing] at hs
    obtain ⟨rfl, rfl⟩ := hs
    exact hSame rfl rfl
  | mmu j a =>
    simp only [fire] at hs
    split at hs
    · cases hs
    · simp only [firing] at hs
      obtain ⟨mmu, es, -, rfl, rfl⟩ := hs
      exact hSame rfl (tagEvents_map_mmu es)
  | addrTrans pointer offset =>
    obtain ⟨j, q, mmu, -, -, -, rfl, rfl⟩ := addrTrans_cases hs
    exact hSame rfl rfl
  | mmuEntry =>
    obtain ⟨first, q, j, addr, mmu, -, -, -, rfl, rfl⟩ := mmuEntry_cases hs
    exact hSame rfl rfl

/-- A run of the memory server, seen at the tag generator of one server, is a run
of the generator. -/
theorem run_tagGen (run : (machine _ _ _ _ _ _ dir).Run
    (Separated dir) s trace) (i : Fin nMasters) :
    (TagGen.machine numTags tsz).Run TagGen.ReturnsOutstanding (s.servers i).tagGen (tagEvents trace i) := by
  refine run.project (fun s => (s.servers i).tagGen) (fun trace => tagEvents trace i) rfl ?_ ?_
  · rintro s ⟨tagMem, mmus, rfl, -⟩
    exact ⟨tagMem i, rfl⟩
  · intro trace s action s' events hOk hs
    exact tag_step hOk hs

end Parts

/-- A continuation that sends and settles nothing. -/
structure Waits (dir : Direction) (trace : List (Event nMasters numClients numMMUs tsz addrWidth))
    (s : MemServer nMasters numClients numMMUs numTags tsz addrWidth)
    (trace' : List (Event nMasters numClients numMMUs tsz addrWidth))
    (s' : MemServer nMasters numClients numMMUs numTags tsz addrWidth) : Prop where
  path : (machine _ _ _ _ _ _ dir).Continues (Draining dir)
    (s, trace) (s', trace')
  pending : pending trace' = pending trace
  sents : sents trace' = sents trace

variable {trace' : List (Event nMasters numClients numMMUs tsz addrWidth)}

theorem Waits.run (h : Waits dir trace s trace' s')
    (run : (machine _ _ _ _ _ _ dir).Run (Separated dir) s trace) :
    (machine _ _ _ _ _ _ dir).Run (Separated dir) s' trace' :=
  run.continue (h.path.weaken fun _ _ _ ha => ha.separated)

theorem Waits.trans {trace₁ trace₂ : List (Event nMasters numClients numMMUs tsz addrWidth)}
    {s₁ s₂ : MemServer nMasters numClients numMMUs numTags tsz addrWidth}
    (h : Waits dir trace s trace₁ s₁) (h' : Waits dir trace₁ s₁ trace₂ s₂) :
    Waits dir trace s trace₂ s₂ :=
  ⟨h.path.trans h'.path, h'.pending.trans h.pending, h'.sents.trans h.sents⟩

theorem Waits.of_silent (path : (machine _ _ _ _ _ _ dir).Continues (Draining dir)
      (s, trace) (s', trace ++ events)) (hSilent : Silent events) : Waits dir trace s (trace ++ events) s' :=
  ⟨path, by rw [pending_append, hSilent.1], by rw [sents_append, hSilent.2.1, List.append_nil]⟩

/-- The requests `left` can be made all that is pending, while nothing new is sent. -/
def Settles (dir : Direction) (s : MemServer nMasters numClients numMMUs numTags tsz addrWidth)
    (trace : List (Event nMasters numClients numMMUs tsz addrWidth))
    (left : List (Pending nMasters numClients addrWidth)) : Prop :=
  ∃ s' trace', (machine _ _ _ _ _ _ dir).Continues (Draining dir) (s, trace) (s', trace') ∧
    sents trace' = sents trace ∧ pending trace' = left

section Oldest

variable {older newer : List (Pending nMasters numClients addrWidth)}
  (run : (machine _ _ _ _ _ _ dir).Run (Separated dir) s trace)

theorem settles_of_waits
    {t : MemServer nMasters numClients numMMUs numTags tsz addrWidth} (h : Waits dir trace s trace' s')
    (hPending : pending trace = older ++ x :: newer) (hSource : ∀ y ∈ older, y.source ≠ x.source)
    (hOk : Draining dir trace' s' a) (hFire : fire dir a s' = some (t, events)) (hSents : sents events = [])
    (hAfter : ∀ items, events.foldl pendingAfter items = dropOldest Pending.source x.source items) :
    Settles dir s trace (older ++ newer) := by
  refine ⟨t, trace' ++ events, Machine.Continues.tail h.path hOk hFire, ?_, ?_⟩
  · rw [sents_append, h.sents, hSents, List.append_nil]
  · rw [pending_append, h.pending, hPending, hAfter, dropOldest_eq hSource]

include run

/-- The unit of the oldest request that will be answered brings its answer. -/
theorem exists_answer (hPending : pending trace = older ++ x :: newer) (hAnswer : x.answer ≠ none)
    (hMmu : ∀ y ∈ older, y.mmu numMMUs ≠ x.mmu numMMUs) :
    ∃ j mmu trace', x.mmu numMMUs = some j ∧ Waits dir trace s trace' (s.setUnit j (s.mmuServers j) mmu) ∧
      ∃ addr t, mmu.get dir.port = some (addr, t) := by
  obtain ⟨P, h⟩ := run_inv run
  obtain ⟨j, hj⟩ := Option.isSome_iff_exists.mp (h.placed x (by simp [hPending]))
  have hDue : (P j).due dir.port ≠ [] := by
    obtain ⟨addr, hAddr⟩ := Option.ne_none_iff_exists'.mp hAnswer
    rw [h.due j, hPending, having_oldest hMmu, having_singleton, if_pos hj, List.singleton_append,
      List.filterMap_cons_some hAddr]
    exact List.cons_ne_nil _ _
  obtain ⟨mmu, Q, later, path, hReached, -, hResponses⟩ :=
    MMU.exists_response (BitVec.ofNat 32 j) (h.abstracts j) hDue []
  refine ⟨j, mmu, _, hj, Waits.of_silent (unit_path path) (silent_map_mmu j _), ?_⟩
  cases hFirst : (Q.flight dir.port).responses with
  | nil => exact absurd hFirst hResponses
  | cons addr rest =>
    obtain ⟨t, ht⟩ := MMU.exists_get hReached.abstracts hFirst
    exact ⟨addr, t, ht⟩

theorem exists_addrResponse {pointer offset : BitVec 32} {outcome : MMU.Outcome addrWidth}
    (hPending : pending trace = older ++ .trans pointer offset outcome :: newer)
    (hAnswer : (Pending.trans pointer offset outcome : Pending nMasters numClients addrWidth).answer ≠ none)
    (hSource : ∀ y ∈ older, y.source ≠ none)
    (hMmu : ∀ y ∈ older, y.mmu numMMUs ≠ mmuOf numMMUs pointer) : Settles dir s trace (older ++ newer) := by
  obtain ⟨j, mmu, trace₁, hj, waits, addr, t, hGet⟩ := exists_answer run hPending hAnswer hMmu
  obtain ⟨Q, hQ⟩ := run_inv (waits.run run)
  have hAsks := hQ.asks
  have hFrom : (Pending.trans pointer offset outcome : Pending nMasters numClients addrWidth).source = none := rfl
  rw [waits.pending, hPending, having_oldest hSource, having_singleton, if_pos hFrom, List.singleton_append,
    List.map_cons] at hAsks
  obtain ⟨q, hq, -⟩ := Fifo.exists_deq hAsks
  have hFire : fire dir .mmuEntry (s.setUnit j (s.mmuServers j) mmu) =
      some ({ s.setUnit j (s.mmuServers j) mmu with addrReqFifo := q }.setUnit j (s.mmuServers j) t,
        [.addrResponse addr, .mmu j (.answered dir.port addr)]) := by
    simp only [fire, mmuEntry, hq, some_bind]
    rw [show mmuOf numMMUs (Pending.sglId (.trans pointer offset outcome : Pending nMasters numClients addrWidth)) =
      some j from hj]
    simp [setUnit, hGet]
  exact settles_of_waits (a := .mmuEntry) waits hPending hSource trivial hFire rfl fun _ => rfl

end Oldest

theorem exists_room (dir : Direction) (s : MemServer nMasters numClients numMMUs numTags tsz addrWidth)
    (trace : List (Event nMasters numClients numMMUs tsz addrWidth)) (i : Fin nMasters) :
    ∃ q trace', Waits dir trace s trace' (s.setServer i { s.servers i with reqFifo := q }) ∧
      q.items.length < 2 := by
  cases hItems : (s.servers i).reqFifo.items with
  | nil =>
    refine ⟨(s.servers i).reqFifo, trace, ⟨?_, rfl, rfl⟩, by simp [hItems]⟩
    rw [show s.setServer i { s.servers i with reqFifo := (s.servers i).reqFifo } = s by simp [setServer]]
    exact .refl
  | cons r rest =>
    obtain ⟨q, hq, hRest⟩ := Fifo.exists_deq hItems
    have hBound := (s.servers i).reqFifo.bound
    have hFire : (machine _ _ _ _ _ _ dir).fire
        (.service i .takeReq) s =
        some (s.setServer i { s.servers i with reqFifo := q }, [.server i (.taken r)]) := by
      simp [machine, fire, RequestPath.serve, hq]
    have path := Machine.Continues.tail (s := s) (c := (s, trace)) .refl
      (show Draining dir trace s (.service i .takeReq) from trivial) hFire
    refine ⟨q, _, Waits.of_silent path ⟨fun _ => rfl, rfl, fun src => by cases src <;> rfl⟩, ?_⟩
    rw [hItems, List.length_cons] at hBound
    rw [hRest]
    omega

theorem exists_tag (hSize : 1 ≤ tsz) (hTags : 2 ^ tsz ≤ numTags)
    (run : (machine _ _ _ _ _ _ dir).Run (Separated dir) s trace)
    (i : Fin nMasters) :
    ∃ tagGen trace', Waits dir trace s trace' (s.setServer i { s.servers i with tagGen }) ∧
      ∃ tag t, tagGen.getTag = some (tag, t) := by
  obtain ⟨L, hInv, hist⟩ := TagGen.run_history (run_tagGen run i)
  obtain ⟨tagGen, tags, path, -, -, -, -, hFree⟩ := TagGen.exists_free hSize hTags hInv hist
  obtain ⟨more, lifted⟩ := tag_path path
  exact ⟨tagGen, _, Waits.of_silent lifted (silent_map_tag i more), hFree⟩

theorem exists_checkMmuResp (dir : Direction) {i : Fin nMasters} {j : Fin numMMUs} {l : LRec numClients}
    {rest : List (LRec numClients)} {tokens : List (Fin nMasters)} {addr : BitVec addrWidth}
    {mmu : MMU addrWidth} {tag : BitVec tsz} {tagGen : TagGen numTags tsz}
    (hl : (s.servers i).lreqFifo.items = l :: rest) (hj : mmuOf numMMUs l.req.sglId = some j)
    (hTok : (s.mmuServers j).tokFifo.items = i :: tokens)
    (hGet : (s.mmus j).get dir.port = some (addr, mmu))
    (hTag : (s.servers i).tagGen.getTag = some (tag, tagGen))
    (hRoom : (s.servers i).reqFifo.items.length < 2) :
    ∃ t r e e', s.checkMmuResp dir i =
      some (t, [.server i (.renamed r), .server i (.tag e), .mmu j e']) := by
  obtain ⟨lq, hlq, -⟩ := Fifo.exists_deq hl
  obtain ⟨tq, htq, -⟩ := Fifo.exists_deq hTok
  obtain ⟨rq, hrq, -⟩ := Fifo.exists_enq hRoom ⟨l.req, addr, tag.setWidth 6, l.client⟩
  have hAnswer : (s.mmuServers j).get i (s.mmus j) dir.port =
      some (addr, { s.mmuServers j with tokFifo := tq }, mmu) := by
    simp [MMUAddrServer.get, htq, guard, hGet]
  have hRename : (s.servers i).checkMmuResp addr = some (⟨l.req, addr, tag.setWidth 6, l.client⟩,
      { s.servers i with lreqFifo := lq, reqFifo := rq, tagGen }) := by
    simp [RequestPath.checkMmuResp, hlq, hTag, hrq]
  exact ⟨_, _, _, _, by simp only [checkMmuResp, hl, List.head?_cons, Option.bind_eq_bind,
    Option.bind_some, hj, hAnswer, hRename]; rfl⟩

section Drained

variable (hSize : 1 ≤ tsz) (hTags : 2 ^ tsz ≤ numTags)
  (run : (machine _ _ _ _ _ _ dir).Run (Separated dir) s trace)

include hSize hTags run

theorem exists_renamed {i : Fin nMasters} {l : LRec numClients} {outcome : MMU.Outcome addrWidth}
    {older newer : List (Pending nMasters numClients addrWidth)}
    (hPending : pending trace = older ++ .request i l outcome :: newer)
    (hAnswer : (Pending.request i l outcome).answer ≠ none)
    (hSource : ∀ y ∈ older, y.source ≠ (Pending.request i l outcome).source)
    (hMmu : ∀ y ∈ older, y.mmu numMMUs ≠ (Pending.request i l outcome).mmu numMMUs) :
    Settles dir s trace (older ++ newer) := by
  have hFrom : (Pending.request i l outcome).source = some i := rfl
  obtain ⟨j, mmu, trace₁, hj, waits₁, addr, t, hGet⟩ := exists_answer run hPending hAnswer hMmu
  obtain ⟨q, trace₂, waits₂, hRoom⟩ :=
    exists_room dir (s.setUnit j (s.mmuServers j) mmu) trace₁ i
  obtain ⟨tagGen, trace₃, waits₃, tag, g, hTag⟩ :=
    exists_tag hSize hTags ((waits₁.trans waits₂).run run) i
  have waits := (waits₁.trans waits₂).trans waits₃
  obtain ⟨Q, hQ⟩ := run_inv (waits.run run)
  have hLreq := hQ.lreq i
  have hTok := hQ.tok j
  rw [waits.pending, hPending, having_oldest hSource, having_singleton, if_pos hFrom, List.singleton_append,
    List.map_cons, List.map_eq_cons_iff] at hLreq
  rw [waits.pending, hPending, having_oldest hMmu, having_singleton, if_pos hj, List.singleton_append,
    List.filterMap_cons_some hFrom] at hTok
  obtain ⟨l', rest, hl, hLabel, -⟩ := hLreq
  obtain rfl : l' = l := Option.some.inj hLabel
  obtain ⟨u, r, e, e', hs⟩ := exists_checkMmuResp dir hl hj hTok
    (by simpa [setServer, setUnit] using hGet) (by simpa [setServer] using hTag)
    (by simpa [setServer] using hRoom)
  exact settles_of_waits (a := .checkMmuResp i) waits hPending hSource trivial hs rfl fun _ => rfl

/-- All requests that can be translated, from clients and from the software, can be
given their addresses while nothing new is sent. -/
theorem exists_all_settled :
    ∃ s' trace', (machine _ _ _ _ _ _ dir).Continues (Draining dir) (s, trace) (s', trace') ∧
      sents trace' = sents trace ∧ ∀ x ∈ pending trace', x.answer = none := by
  let Left (n : Nat) (t : List (Event nMasters numClients numMMUs tsz addrWidth))
      (u : MemServer nMasters numClients numMMUs numTags tsz addrWidth) : Prop :=
    (machine _ _ _ _ _ _ dir).Run (Separated dir) u t ∧
      sents t = sents trace ∧ ((pending t).filterMap Pending.answer).length = n
  have hStart : Left _ trace s := ⟨run, rfl, rfl⟩
  refine Machine.exists_path Left _ ?_ hStart
  rintro n t u ⟨run', hSents, rfl⟩
  by_cases hDone : ∀ x ∈ pending t, x.answer = none
  · exact .inl ⟨hSents, hDone⟩
  · push Not at hDone
    obtain ⟨P, h⟩ := run_inv run'
    obtain ⟨older, x, newer, hPending, hAnswer, hSource, hMmu⟩ := h.clear.exists_next hDone
    obtain ⟨u', t', path, hSame, hLeft⟩ : Settles dir u t (older ++ newer) := by
      cases x with
      | request i l outcome => exact exists_renamed hSize hTags run' hPending hAnswer hSource hMmu
      | trans pointer offset outcome => exact exists_addrResponse run' hPending hAnswer hSource hMmu
    refine .inr ⟨_, ?_, u', t', path, run'.continue (path.weaken fun _ _ _ ha => ha.separated), hSame.trans hSents, rfl⟩
    obtain ⟨addr, hAddr⟩ := Option.ne_none_iff_exists'.mp hAnswer
    rw [hLeft, hPending, List.filterMap_append, List.filterMap_append, List.filterMap_cons_some hAddr]
    simp

end Drained

end MemServer
end Connectal
