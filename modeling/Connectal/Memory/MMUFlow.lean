import Connectal.Memory.MMU

/-! The translation unit as a pipeline of lists. Neighbouring queues that are
always filled and emptied together are one list here, and the answers of the
block memories stand beside the requests that asked for them. Every action of
the unit is one step of this pipeline. -/
namespace Connectal

open Rules

namespace MMU

variable {addrWidth : Nat} {s s' : MMU addrWidth}

/-- Region records and page tables. -/
structure Tables where
  regall : BitVec 5 → Option Region
  pages : BitVec 5 × BitVec 8 → BitVec 32

def tables (s : MMU addrWidth) : Tables := ⟨s.regall.mem, s.pages.mem⟩

/-- The effect of a configuration call on the tables. -/
def Tables.apply (T : Tables) : Config → Tables
  | .sglist pointer pointerIndex addr _ => ⟨T.regall,
      Function.update T.pages (pointer.setWidth 5, pointerIndex.setWidth 8) (addr.setWidth 32)⟩
  | .region pointer barr8 index8 barr4 index4 barr0 index0 => ⟨Function.update T.regall
      (pointer.setWidth 5) (some (regionOf barr8 index8 barr4 index4 barr0 index0)), T.pages⟩
  | .invalidate sglId => ⟨Function.update T.regall (sglId.setWidth 5) none, T.pages⟩

/-- An address, or the error that is reported instead. -/
abbrev Outcome (addrWidth : Nat) := Except MMUError (BitVec addrWidth)

/-- What becomes of a request whose page class is known. -/
def Tables.outcome (addrWidth : Nat) (T : Tables) (x : Selected) : Outcome addrWidth :=
  if x.off.pageSize = 0#2 then .error x.outOfRange else .ok (x.off.address addrWidth (T.pages x.entry))

/-- What becomes of a request whose region record has been read. -/
def Tables.decide (addrWidth : Nat) (T : Tables) (l : ReqTup × Option Region) : Outcome addrWidth :=
  match l.2 with
  | some region => T.outcome addrWidth (Compared.mk l.1 (region.conds l.1.off) region.idxOffsets).select
  | none => .error l.1.invalid

/-- The translation that the tables give. -/
def Tables.translate (addrWidth : Nat) (T : Tables) (req : ReqTup) : Outcome addrWidth :=
  T.decide addrWidth (req, T.regall req.id)

/-- The requests in one port of the pipeline, by stage. -/
structure Flight (addrWidth : Nat) where
  incoming : List ReqTup
  looked : List (ReqTup × Option Region)
  compared : List Compared
  selected : List Selected
  paged : List (Offset × BitVec 32)
  responses : List (BitVec addrWidth)

namespace Flight

def empty : Flight addrWidth := ⟨[], [], [], [], [], []⟩

/-- What becomes of the requests in flight if the tables stay as they are,
oldest first. -/
def outcomes (T : Tables) (F : Flight addrWidth) : List (Outcome addrWidth) :=
  F.responses.map .ok ++ F.paged.map (fun x => .ok (x.1.address addrWidth x.2)) ++
    F.selected.map (T.outcome addrWidth) ++ F.compared.map (fun c => T.outcome addrWidth c.select) ++
    F.looked.map (T.decide addrWidth) ++ F.incoming.map (T.translate addrWidth)

end Flight

/-- The queues of a port, with the unread answers of the two memories, hold the
requests in flight. -/
structure Holds (p : MMUPort addrWidth) (regions : List (Option Region)) (entries : List (BitVec 32))
    (F : Flight addrWidth) : Prop where
  incoming : p.incomingReqs.items = F.incoming
  reqs0 : p.reqs0.items = F.looked.map Prod.fst
  regions : regions = F.looked.map Prod.snd
  reqs1 : p.reqs1.items = F.compared.map Compared.req
  conds : p.conds.items = F.compared.map Compared.conds
  idxOffsets0 : p.idxOffsets0.items = F.compared.map Compared.idxOffsets
  offs0 : p.offs0.items = F.selected.map Selected.off
  pbases : p.pbases.items = F.selected.map Selected.pbase
  idxOffsets1 : p.idxOffsets1.items = F.selected.map Selected.idxOffset
  ptrs1 : p.ptrs1.items = F.selected.map Selected.ptr
  offs1 : p.offs1.items = F.paged.map Prod.fst
  entries : entries = F.paged.map Prod.snd
  responses : p.pageResponseFifo.items = F.responses

def InFlight (s : MMU addrWidth) (i : Fin 2) (F : Flight addrWidth) : Prop :=
  Holds (s.port i) (s.regall.out i).items (s.pages.out i).items F

/-- Tables, requests in flight and unreported errors. -/
structure Pipe (addrWidth : Nat) where
  tables : Tables
  flight : Fin 2 → Flight addrWidth
  errors : List MMUError

def Pipe.setFlight (P : Pipe addrWidth) (i : Fin 2) (F : Flight addrWidth) : Pipe addrWidth :=
  { P with flight := Function.update P.flight i F }

/-- The unit is in the given state of the pipeline. -/
structure Abstracts (s : MMU addrWidth) (P : Pipe addrWidth) : Prop where
  tables : s.tables = P.tables
  flight : ∀ i, s.InFlight i (P.flight i)
  errors : s.dmaErrorFifo.items = P.errors

/-- One step of the pipeline with the events it emits. -/
inductive FlowStep (P : Pipe addrWidth) : Action → Pipe addrWidth → List (Event addrWidth) → Prop
  | put (i : Fin 2) (req : ReqTup) :
      FlowStep P (.put i req)
        (P.setFlight i { P.flight i with incoming := (P.flight i).incoming ++ [req] })
        [.requested i req]
  | look (i : Fin 2) (req : ReqTup) (rest : List ReqTup) (h : (P.flight i).incoming = req :: rest) :
      FlowStep P (.rule (.stage1 i))
        (P.setFlight i { P.flight i with
          incoming := rest
          looked := (P.flight i).looked ++ [(req, P.tables.regall req.id)] })
        [.lookedUp i req]
  | pass (i : Fin 2) (req : ReqTup) (region : Region) (rest : List (ReqTup × Option Region))
      (h : (P.flight i).looked = (req, some region) :: rest) :
      FlowStep P (.rule (.stage2 i))
        (P.setFlight i { P.flight i with
          looked := rest
          compared := (P.flight i).compared ++ [⟨req, region.conds req.off, region.idxOffsets⟩] })
        [.passed i req]
  | invalid (i : Fin 2) (req : ReqTup) (rest : List (ReqTup × Option Region))
      (h : (P.flight i).looked = (req, none) :: rest) :
      FlowStep P (.rule (.stage2 i))
        { P.setFlight i { P.flight i with looked := rest } with errors := P.errors ++ [req.invalid] }
        [.rejected i req.invalid]
  | select (i : Fin 2) (c : Compared) (rest : List Compared) (h : (P.flight i).compared = c :: rest) :
      FlowStep P (.rule (.stage3 i))
        (P.setFlight i { P.flight i with
          compared := rest
          selected := (P.flight i).selected ++ [c.select] }) []
  | outOfRange (i : Fin 2) (x : Selected) (rest : List Selected)
      (h : (P.flight i).selected = x :: rest) (hClass : x.off.pageSize = 0#2) :
      FlowStep P (.rule (.stage4 i))
        { P.setFlight i { P.flight i with selected := rest } with errors := P.errors ++ [x.outOfRange] }
        [.rejected i x.outOfRange]
  | page (i : Fin 2) (x : Selected) (rest : List Selected) (h : (P.flight i).selected = x :: rest)
      (hClass : x.off.pageSize ≠ 0#2) :
      FlowStep P (.rule (.stage4 i))
        (P.setFlight i { P.flight i with
          selected := rest
          paged := (P.flight i).paged ++ [(x.off, P.tables.pages x.entry)] }) []
  | respond (i : Fin 2) (x : Offset × BitVec 32) (rest : List (Offset × BitVec 32))
      (h : (P.flight i).paged = x :: rest) :
      FlowStep P (.rule (.stage5 i))
        (P.setFlight i { P.flight i with
          paged := rest
          responses := (P.flight i).responses ++ [x.1.address addrWidth x.2] }) []
  | get (i : Fin 2) (addr : BitVec addrWidth) (rest : List (BitVec addrWidth))
      (h : (P.flight i).responses = addr :: rest) :
      FlowStep P (.get i) (P.setFlight i { P.flight i with responses := rest }) [.answered i addr]
  | report (e : MMUError) (rest : List MMUError) (h : P.errors = e :: rest) :
      FlowStep P (.rule .dmaError) { P with errors := rest } [.reported e]
  | sglist (pointer pointerIndex : BitVec 32) (addr : BitVec 64) (len : BitVec 32) :
      FlowStep P (.sglist pointer pointerIndex addr len)
        { P with tables := P.tables.apply (.sglist pointer pointerIndex addr len) }
        [.config (.sglist pointer pointerIndex addr len)]
  | region (pointer : BitVec 32) (barr8 : BitVec 64) (index8 : BitVec 32) (barr4 : BitVec 64)
      (index4 : BitVec 32) (barr0 : BitVec 64) (index0 : BitVec 32) :
      FlowStep P (.region pointer barr8 index8 barr4 index4 barr0 index0)
        { P with tables := P.tables.apply (.region pointer barr8 index8 barr4 index4 barr0 index0) }
        [.config (.region pointer barr8 index8 barr4 index4 barr0 index0)]
  | invalidate (sglId : BitVec 32) :
      FlowStep P (.rule .idReturnRule) { P with tables := P.tables.apply (.invalidate sglId) }
        [.config (.invalidate sglId)]
  | configResp (pointer : BitVec 32) : FlowStep P (.rule .sendConfigResp) P [.configResp pointer]
  | idRequest (sglId : BitVec 32) : FlowStep P .idRequest P [.idResponse sglId]
  | idReturn (sglId : BitVec 32) : FlowStep P (.idReturn sglId) P [.idReturned sglId]
  | completeSglId : FlowStep P (.rule .completeSglIdGen) P []
  | tagRule (r : TagGen.Rule) : FlowStep P (.rule (.tagRule r)) P []

variable {P : Pipe addrWidth}

section

variable (h : Abstracts s P)

include h

variable {i : Fin 2}

/-- An action at one port: the port's own queues change, everything else that
the pipeline is made of stays, up to new errors. -/
theorem Abstracts.atPort {F : Flight addrWidth} {errors : List MMUError} {p : MMUPort addrWidth}
    {regions : Fin 2 → Fifo (Option Region) 3} {entries : Fin 2 → Fifo (BitVec 32) 3} {dmaErrorFifo : Fifo MMUError 2}
    (hSelf : Holds p (regions i).items (entries i).items F) (hErrors : dmaErrorFifo.items = errors)
    (hOther : ∀ k, k ≠ i → regions k = s.regall.out k ∧ entries k = s.pages.out k) :
    Abstracts ({ s with
      regall := { s.regall with out := regions }, pages := { s.pages with out := entries }, dmaErrorFifo }.setPort i p)
      { P.setFlight i F with errors } := by
  refine ⟨h.tables, fun k => ?_, hErrors⟩
  simp only [Pipe.setFlight, InFlight, setPort]
  by_cases hk : k = i
  · subst hk
    simpa using hSelf
  · rw [Function.update_of_ne hk, Function.update_of_ne hk, (hOther k hk).1, (hOther k hk).2]
    exact h.flight k

omit h in
/-- A queue that keeps step with a list of the pipeline. -/
theorem snoc_map {α β : Type} {f : α → β} {xs ys : List β} {items : List α} (a : α) (hNew : ys = xs ++ [f a])
    (hOld : xs = items.map f) : ys = (items ++ [a]).map f := by
  rw [hNew, hOld, List.map_append]
  rfl

theorem put_flow {req : ReqTup} (hs : s.put i req = some s') :
    ∃ P', Abstracts s' P' ∧ FlowStep P (.put i req) P' [.requested i req] := by
  simp only [put, firing] at hs
  obtain ⟨incomingReqs, ⟨-, hIn⟩, rfl⟩ := hs
  have hF := h.flight i
  refine ⟨_, h.atPort ?_ h.errors fun _ _ => ⟨rfl, rfl⟩, .put i req⟩
  exact { hF with incoming := by rw [hIn, hF.incoming] }

theorem stage1_flow {req : ReqTup} (hs : s.stage1 i = some (req, s')) :
    ∃ P', Abstracts s' P' ∧ FlowStep P (.rule (.stage1 i)) P' [.lookedUp i req] := by
  simp only [stage1, firing, Bram.read_eq_some] at hs
  obtain ⟨req', incomingReqs, hIn, _, ⟨-, q, hq, rfl⟩, reqs0, ⟨-, hReqs0⟩, rfl, rfl⟩ := hs
  have hF := h.flight i
  refine ⟨_, h.atPort ?_ h.errors fun k hk => ⟨Function.update_of_ne hk _ _, rfl⟩,
    .look i _ incomingReqs.items (hF.incoming.symm.trans hIn)⟩
  rw [Function.update_self, ← h.tables]
  exact { hF with incoming := rfl, reqs0 := snoc_map (_, _) hReqs0 hF.reqs0, regions := snoc_map _ hq hF.regions }

theorem stage2_flow {r : Except MMUError ReqTup} (hs : s.stage2 i = some (r, s')) :
    ∃ P', Abstracts s' P' ∧ FlowStep P (.rule (.stage2 i)) P' [Event.decided i r] := by
  simp only [stage2, firing, Bram.get_eq_some] at hs
  obtain ⟨req, reqs0, hReqs0, m, _, ⟨q, hq, rfl⟩, hs⟩ := hs
  have hF := h.flight i
  obtain ⟨⟨req', m'⟩, rest, hLooked, rfl, hRest⟩ := List.map_eq_cons_iff.mp (hF.reqs0.symm.trans hReqs0)
  have hRegions := hF.regions.symm.trans hq
  rw [hLooked, List.map_cons] at hRegions
  obtain ⟨rfl, hRegionsRest⟩ := List.cons.inj hRegions
  cases m' with
  | some region =>
    simp only [firing] at hs
    obtain ⟨conds, ⟨-, hConds⟩, idxOffsets0, ⟨-, hIdx⟩, reqs1, ⟨-, hReqs1⟩, rfl, rfl⟩ := hs
    refine ⟨_, h.atPort ?_ h.errors fun k hk => ⟨Function.update_of_ne hk _ _, rfl⟩,
      .pass i req' region rest hLooked⟩
    rw [Function.update_self]
    exact { hF with
      reqs0 := hRest.symm, regions := hRegionsRest.symm, reqs1 := snoc_map _ hReqs1 hF.reqs1
      conds := snoc_map _ hConds hF.conds, idxOffsets0 := snoc_map _ hIdx hF.idxOffsets0 }
  | none =>
    simp only [firing] at hs
    obtain ⟨dmaErrorFifo, ⟨-, hError⟩, rfl, rfl⟩ := hs
    refine ⟨_, h.atPort ?_ (hError.trans (by rw [h.errors])) fun k hk => ⟨Function.update_of_ne hk _ _, rfl⟩,
      .invalid i req' rest hLooked⟩
    rw [Function.update_self]
    exact { hF with reqs0 := hRest.symm, regions := hRegionsRest.symm }

theorem stage3_flow (hs : s.stage3 i = some s') :
    ∃ P', Abstracts s' P' ∧ FlowStep P (.rule (.stage3 i)) P' [] := by
  simp only [stage3, firing] at hs
  obtain ⟨req, reqs1, hReqs1, c₁, c₂, c₃, conds, hConds, o₁, o₂, o₃, idxOffsets0, hIdx, offs0,
    ⟨-, hOffs⟩, pbases, ⟨-, hPbases⟩, idxOffsets1, ⟨-, hIdx1⟩, ptrs1, ⟨-, hPtrs⟩, rfl⟩ := hs
  have hF := h.flight i
  obtain ⟨c, rest, hCompared, rfl, hRest⟩ := List.map_eq_cons_iff.mp (hF.reqs1.symm.trans hReqs1)
  have hConds' := hF.conds.symm.trans hConds
  have hIdx' := hF.idxOffsets0.symm.trans hIdx
  rw [hCompared, List.map_cons] at hConds' hIdx'
  obtain ⟨hCond, hCondRest⟩ := List.cons.inj hConds'
  obtain ⟨hOff, hOffRest⟩ := List.cons.inj hIdx'
  rw [← hCond, ← hOff] at hOffs hPbases hIdx1 hPtrs
  refine ⟨_, h.atPort ?_ h.errors fun _ _ => ⟨rfl, rfl⟩, .select i c rest hCompared⟩
  exact { hF with
    reqs1 := hRest.symm, conds := hCondRest.symm, idxOffsets0 := hOffRest.symm
    offs0 := snoc_map _ hOffs hF.offs0, pbases := snoc_map _ hPbases hF.pbases
    idxOffsets1 := snoc_map _ hIdx1 hF.idxOffsets1, ptrs1 := snoc_map _ hPtrs hF.ptrs1 }

theorem stage4_flow {r : Option MMUError} (hs : s.stage4 i = some (r, s')) :
    ∃ P', Abstracts s' P' ∧
      FlowStep P (.rule (.stage4 i)) P' (r.toList.map (.rejected i)) := by
  simp only [stage4, firing] at hs
  obtain ⟨off, offs0, hOffs, pbase, pbases, hPbases, idxOffset, idxOffsets1, hIdx, ptr, ptrs1,
    hPtrs, hs⟩ := hs
  have hF := h.flight i
  obtain ⟨x, rest, hSelected, rfl, hRest⟩ := List.map_eq_cons_iff.mp (hF.offs0.symm.trans hOffs)
  have hPbases' := hF.pbases.symm.trans hPbases
  have hIdx' := hF.idxOffsets1.symm.trans hIdx
  have hPtrs' := hF.ptrs1.symm.trans hPtrs
  rw [hSelected, List.map_cons] at hPbases' hIdx' hPtrs'
  obtain ⟨rfl, hPbasesRest⟩ := List.cons.inj hPbases'
  obtain ⟨rfl, hIdxRest⟩ := List.cons.inj hIdx'
  obtain ⟨rfl, hPtrsRest⟩ := List.cons.inj hPtrs'
  split at hs
  · next hClass =>
    simp only [firing] at hs
    obtain ⟨dmaErrorFifo, ⟨-, hError⟩, rfl, rfl⟩ := hs
    refine ⟨_, h.atPort ?_ (hError.trans (by rw [h.errors])) fun _ _ => ⟨rfl, rfl⟩,
      .outOfRange i x rest hSelected hClass⟩
    exact { hF with
      offs0 := hRest.symm, pbases := hPbasesRest.symm, idxOffsets1 := hIdxRest.symm
      ptrs1 := hPtrsRest.symm }
  · next hClass =>
    simp only [firing, Bram.read_eq_some] at hs
    obtain ⟨_, ⟨-, q, hq, rfl⟩, offs1, ⟨-, hOffs1⟩, rfl, rfl⟩ := hs
    refine ⟨_, h.atPort ?_ h.errors fun k hk => ⟨rfl, Function.update_of_ne hk _ _⟩,
      .page i x rest hSelected hClass⟩
    rw [Function.update_self, ← h.tables]
    exact { hF with
      offs0 := hRest.symm, pbases := hPbasesRest.symm, idxOffsets1 := hIdxRest.symm
      ptrs1 := hPtrsRest.symm, offs1 := snoc_map (_, _) hOffs1 hF.offs1, entries := snoc_map _ hq hF.entries }

theorem stage5_flow (hs : s.stage5 i = some s') :
    ∃ P', Abstracts s' P' ∧ FlowStep P (.rule (.stage5 i)) P' [] := by
  simp only [stage5, firing, Bram.get_eq_some] at hs
  obtain ⟨page, _, ⟨q, hq, rfl⟩, offset, offs1, hOffs1, responses, ⟨-, hResponses⟩, rfl⟩ := hs
  have hF := h.flight i
  obtain ⟨x, rest, hPaged, rfl, hRest⟩ := List.map_eq_cons_iff.mp (hF.offs1.symm.trans hOffs1)
  have hEntries := hF.entries.symm.trans hq
  rw [hPaged, List.map_cons] at hEntries
  obtain ⟨rfl, hEntriesRest⟩ := List.cons.inj hEntries
  refine ⟨_, h.atPort ?_ h.errors fun k hk => ⟨rfl, Function.update_of_ne hk _ _⟩, .respond i x rest hPaged⟩
  rw [Function.update_self]
  exact { hF with
    offs1 := hRest.symm, entries := hEntriesRest.symm
    responses := by rw [hResponses, hF.responses] }

theorem get_flow {addr : BitVec addrWidth} (hs : s.get i = some (addr, s')) :
    ∃ P', Abstracts s' P' ∧ FlowStep P (.get i) P' [.answered i addr] := by
  simp only [get, firing] at hs
  obtain ⟨addr', responses, hResponses, rfl, rfl⟩ := hs
  have hF := h.flight i
  refine ⟨_, h.atPort ?_ h.errors fun _ _ => ⟨rfl, rfl⟩,
    .get i _ responses.items (hF.responses.symm.trans hResponses)⟩
  exact { hF with responses := rfl }

/-- An action that changes at most the tables. -/
theorem Abstracts.atTables {T : Tables} (hTables : s'.tables = T)
    (hErrors : s'.dmaErrorFifo = s.dmaErrorFifo) (hPort : s'.port = s.port)
    (hReg : s'.regall.out = s.regall.out) (hPages : s'.pages.out = s.pages.out) :
    Abstracts s' { P with tables := T } := by
  refine ⟨hTables, ?_, by rw [hErrors, h.errors]⟩
  intro k
  rw [InFlight, hPort, hReg, hPages]
  exact h.flight k

/-- Every action of the unit is a step of the pipeline. -/
theorem fire_flow {iid : BitVec 32} {a : Action} {events : List (Event addrWidth)} (hs : fire iid a s = some (s', events)) :
    ∃ P', Abstracts s' P' ∧ FlowStep P a P' events := by
  cases a with
  | rule r =>
    cases r
    all_goals simp only [fire, runRule, firing] at hs
    case stage1 i =>
      obtain ⟨req, _, hs, rfl, rfl⟩ := hs
      exact stage1_flow h hs
    case stage2 i =>
      obtain ⟨r, _, hs, rfl, rfl⟩ := hs
      exact stage2_flow h hs
    case stage3 i =>
      obtain ⟨_, hs, rfl, rfl⟩ := hs
      exact stage3_flow h hs
    case stage4 i =>
      obtain ⟨r, _, hs, rfl, rfl⟩ := hs
      exact stage4_flow h hs
    case stage5 i =>
      obtain ⟨_, hs, rfl, rfl⟩ := hs
      exact stage5_flow h hs
    case dmaError =>
      simp only [dmaError, firing] at hs
      obtain ⟨_, _, ⟨e, q, hq, rfl, rfl⟩, rfl, rfl⟩ := hs
      exact ⟨{ P with errors := q.items }, ⟨h.tables, h.flight, rfl⟩,
        .report _ _ (h.errors.symm.trans hq)⟩
    case sendConfigResp | completeSglIdGen | tagRule _ =>
      try simp only [sendConfigResp, completeSglIdGen, firing] at hs
      casesm* _ ∧ _, ∃ _, _
      subst_vars
      exact ⟨P, ⟨h.tables, h.flight, h.errors⟩, by constructor⟩
    case idReturnRule =>
      simp only [idReturnRule, firing, Bram.write_eq_some] at hs
      obtain ⟨_, _, ⟨sglId, q, -, g, -, _, ⟨-, rfl⟩, rfl, rfl⟩, rfl, rfl⟩ := hs
      refine ⟨_, h.atTables (T := P.tables.apply (.invalidate sglId)) ?_ rfl rfl rfl rfl,
        .invalidate sglId⟩
      rw [← h.tables]
      rfl
  | put i req =>
    simp only [fire, firing] at hs
    obtain ⟨_, hs, rfl, rfl⟩ := hs
    exact put_flow h hs
  | get i =>
    simp only [fire, firing] at hs
    obtain ⟨addr, _, hs, rfl, rfl⟩ := hs
    exact get_flow h hs
  | idRequest | idReturn _ =>
    simp only [fire, idRequest, idReturn, firing] at hs
    casesm* _ ∧ _, ∃ _, _
    subst_vars
    exact ⟨P, ⟨h.tables, h.flight, h.errors⟩, by constructor⟩
  | region pointer barr8 index8 barr4 index4 barr0 index0 =>
    simp only [fire, region, firing, Bram.write_eq_some] at hs
    obtain ⟨_, ⟨_, ⟨-, rfl⟩, q, -, rfl⟩, rfl, rfl⟩ := hs
    refine ⟨_, h.atTables
      (T := P.tables.apply (.region pointer barr8 index8 barr4 index4 barr0 index0)) ?_
      rfl rfl rfl rfl, .region pointer barr8 index8 barr4 index4 barr0 index0⟩
    rw [← h.tables]
    rfl
  | sglist pointer pointerIndex addr len =>
    simp only [fire, sglist, firing, Bram.write_eq_some] at hs
    obtain ⟨_, ⟨_, ⟨-, rfl⟩, rfl⟩, rfl, rfl⟩ := hs
    refine ⟨_, h.atTables (T := P.tables.apply (.sglist pointer pointerIndex addr len)) ?_
      rfl rfl rfl rfl, .sglist pointer pointerIndex addr len⟩
    rw [← h.tables]
    rfl

end

theorem powerUp_abstracts (tagMem : BitVec 5 → Bool) (regMem : BitVec 5 → Option Region)
    (pageMem : BitVec 5 × BitVec 8 → BitVec 32) :
    Abstracts (powerUp tagMem regMem pageMem : MMU addrWidth)
      ⟨⟨regMem, pageMem⟩, fun _ => Flight.empty, []⟩ := by
  refine ⟨rfl, ?_, rfl⟩
  intro i
  constructor <;> rfl

end MMU
end Connectal
