import Connectal.Memory.MMURun
import Connectal.Memory.TagLife

/-! Scatter list numbers. The translation unit hands them out from a tag
generator; a number that software gives back waits in a queue until a rule frees
it. The ledger of the generator, continued by the numbers that wait, tells which
numbers are out. -/
namespace Connectal

open Rules

namespace MMU

variable {addrWidth : Nat} {s s' : MMU addrWidth} {iid : BitVec 32}

/-- The scatter list number of the allocation with number `n`. -/
def idOf (iid : BitVec 32) (n : Nat) : BitVec 32 := (iid <<< 16) ||| (tagOf 5 n).setWidth 32

def givenIds (trace : List (Event addrWidth)) : List (BitVec 32) :=
  trace.filterMap fun | .idResponse sglId => some sglId | _ => none

def returnedIds (trace : List (Event addrWidth)) : List (BitVec 32) :=
  trace.filterMap fun | .idReturned sglId => some sglId | _ => none

/-- Numbers handed out and not given back. -/
def outIds (trace : List (Event addrWidth)) : Multiset (BitVec 32) :=
  (givenIds trace : Multiset (BitVec 32)) - (returnedIds trace : Multiset (BitVec 32))

@[simp] theorem givenIds_append (first second : List (Event addrWidth)) :
    givenIds (first ++ second) = givenIds first ++ givenIds second := by
  simp [givenIds]

@[simp] theorem returnedIds_append (first second : List (Event addrWidth)) :
    returnedIds (first ++ second) = returnedIds first ++ returnedIds second := by
  simp [returnedIds]

@[simp] theorem idOf_setWidth (iid : BitVec 32) (n : Nat) : (idOf iid n).setWidth 5 = tagOf 5 n := by
  apply BitVec.eq_of_getLsbD_eq
  intro i hi
  simp [idOf, hi]

theorem idOf_inj {lo m n : Nat} (hm : lo ≤ m) (hm' : m < lo + 2 ^ 5) (hn : lo ≤ n)
    (hn' : n < lo + 2 ^ 5) (h : idOf iid m = idOf iid n) : m = n := by
  refine tagOf_inj hm hm' hn hn' ?_
  rw [← idOf_setWidth iid m, h, idOf_setWidth]

/-- What an action does to the generator of numbers and to the queue in front of
it. -/
inductive IdStep (iid : BitVec 32) (s s' : MMU addrWidth) : Action → List (Event addrWidth) → Prop
  | quiet (a : Action) (events : List (Event addrWidth)) (hGen : s'.sglIdGen = s.sglIdGen)
      (hQueue : s'.idReturnFifo = s.idReturnFifo)
      (hEvents : givenIds events = [] ∧ returnedIds events = [])
      (hConfigs : ∀ sglId, .invalidate sglId ∉ configs events) : IdStep iid s s' a events
  | given (tag : BitVec 5) (hGen : s.sglIdGen.getTag = some (tag, s'.sglIdGen))
      (hQueue : s'.idReturnFifo = s.idReturnFifo) :
      IdStep iid s s' .idRequest [.idResponse ((iid <<< 16) ||| tag.setWidth 32)]
  | returned (sglId : BitVec 32) (hGen : s'.sglIdGen = s.sglIdGen)
      (hQueue : s'.idReturnFifo.items = s.idReturnFifo.items ++ [sglId]) :
      IdStep iid s s' (.idReturn sglId) [.idReturned sglId]
  | freed (sglId : BitVec 32) (hGen : s.sglIdGen.returnTag (sglId.setWidth 5) = some s'.sglIdGen)
      (hQueue : s.idReturnFifo.items = sglId :: s'.idReturnFifo.items) :
      IdStep iid s s' (.rule .idReturnRule) [.config (.invalidate sglId)]
  | completed (tag : BitVec 5) (hGen : s.sglIdGen.complete = some (tag, s'.sglIdGen))
      (hQueue : s'.idReturnFifo = s.idReturnFifo) : IdStep iid s s' (.rule .completeSglIdGen) []
  | tagRule (r : TagGen.Rule) (events : List (TagGen.Event 5))
      (hGen : TagGen.runRule r s.sglIdGen = some (s'.sglIdGen, events))
      (hQueue : s'.idReturnFifo = s.idReturnFifo) : IdStep iid s s' (.rule (.tagRule r)) []

theorem stage2_ids {i : Fin 2} {r : Except MMUError ReqTup} (hs : s.stage2 i = some (r, s')) :
    s'.sglIdGen = s.sglIdGen ∧ s'.idReturnFifo = s.idReturnFifo := by
  simp only [stage2, firing] at hs
  obtain ⟨req, reqs0, -, m, regall, -, hs⟩ := hs
  cases m with
  | some _ | none =>
    simp only [firing] at hs
    casesm* _ ∧ _, ∃ _, _
    subst_vars
    exact ⟨rfl, rfl⟩

theorem stage4_ids {i : Fin 2} {r : Option MMUError} (hs : s.stage4 i = some (r, s')) :
    s'.sglIdGen = s.sglIdGen ∧ s'.idReturnFifo = s.idReturnFifo := by
  simp only [stage4, firing] at hs
  obtain ⟨off, offs0, -, pbase, pbases, -, idxOffset, idxOffsets1, -, ptr, ptrs1, -, hs⟩ := hs
  split at hs
  all_goals
    simp only [firing] at hs
    casesm* _ ∧ _, ∃ _, _
    subst_vars
    exact ⟨rfl, rfl⟩

theorem runRule_ids {r : Rule} {events : List (Event addrWidth)}
    (hs : runRule r s = some (s', events)) : IdStep iid s s' (.rule r) events := by
  cases r with
  | stage1 | stage3 | stage5 | dmaError | sendConfigResp =>
    simp only [runRule, stage1, stage3, stage5, dmaError, sendConfigResp, firing] at hs
    casesm* _ ∧ _, ∃ _, _
    subst_vars
    exact .quiet _ _ rfl rfl ⟨rfl, rfl⟩ (by simp [configs])
  | stage2 i =>
    simp only [runRule, firing] at hs
    obtain ⟨r, _, hs, rfl, rfl⟩ := hs
    obtain ⟨hGen, hQueue⟩ := stage2_ids hs
    cases r <;> exact .quiet _ _ hGen hQueue ⟨rfl, rfl⟩ (by simp [configs, Event.decided])
  | stage4 i =>
    simp only [runRule, firing] at hs
    obtain ⟨r, _, hs, rfl, rfl⟩ := hs
    obtain ⟨hGen, hQueue⟩ := stage4_ids hs
    cases r <;> exact .quiet _ _ hGen hQueue ⟨rfl, rfl⟩ (by simp [configs])
  | idReturnRule =>
    simp only [runRule, idReturnRule, firing] at hs
    obtain ⟨_, _, ⟨sglId, _, hQueue, _, hGen, _, -, rfl, rfl⟩, rfl, rfl⟩ := hs
    exact .freed sglId hGen hQueue
  | completeSglIdGen =>
    simp only [runRule, completeSglIdGen, firing] at hs
    obtain ⟨_, ⟨tag, _, hGen, rfl⟩, rfl, rfl⟩ := hs
    exact .completed tag hGen rfl
  | tagRule r =>
    simp only [runRule, firing] at hs
    obtain ⟨_, events, hGen, rfl, rfl⟩ := hs
    exact .tagRule r events hGen rfl

theorem fire_ids {a : Action} {events : List (Event addrWidth)}
    (hs : fire iid a s = some (s', events)) : IdStep iid s s' a events := by
  cases a with
  | rule r => exact runRule_ids hs
  | put | get | region | sglist =>
    simp only [fire, put, get, region, sglist, firing] at hs
    casesm* _ ∧ _, ∃ _, _
    subst_vars
    exact .quiet _ _ rfl rfl ⟨rfl, rfl⟩ (by simp [configs])
  | idRequest =>
    simp only [fire, idRequest, firing] at hs
    obtain ⟨_, _, ⟨tag, _, hGen, rfl, rfl⟩, rfl, rfl⟩ := hs
    exact .given tag hGen rfl
  | idReturn sglId =>
    simp only [fire, idReturn, firing] at hs
    obtain ⟨_, ⟨_, ⟨-, hQueue⟩, rfl⟩, rfl, rfl⟩ := hs
    exact .returned sglId rfl hQueue

/-- The ledger of the generator, with the allocations whose return waits in the
queue, agrees with the history. -/
structure IdInv (iid : BitVec 32) (trace : List (Event addrWidth)) (s : MMU addrWidth) (L : TagLedger)
    (pending : List Nat) : Prop where
  gen : TagGen.Inv s.sglIdGen L
  queue : s.idReturnFifo.items = pending.map (idOf iid)
  out : ∀ n ∈ pending, L.Out n
  nodup : pending.Nodup
  given : givenIds trace = (List.range L.given).map (idOf iid)
  returned : (returnedIds trace).Perm ((L.returned ++ pending).map (idOf iid))

/-- Software gives back only numbers that are out. -/
def ReturnsOut : Machine.Contract (MMU addrWidth) Action (Event addrWidth)
  | trace, _, .idReturn sglId => (returnedIds trace).count sglId < (givenIds trace).count sglId
  | _, _, _ => True

variable {trace events : List (Event addrWidth)} {L L' : TagLedger} {pending : List Nat}

/-- Steps of the generator that callers do not see. -/
theorem IdInv.internal (h : IdInv iid trace s L pending) (hGen : TagGen.Inv s'.sglIdGen L')
    (hQueue : s'.idReturnFifo = s.idReturnFifo) (hGiven : L'.given = L.given)
    (hReturned : L'.returned.Perm L.returned) : IdInv iid trace s' L' pending where
  gen := hGen
  queue := by rw [hQueue, h.queue]
  out n hn := ⟨hGiven ▸ (h.out n hn).1, fun hMem => (h.out n hn).2 (hReturned.mem_iff.mp hMem)⟩
  nodup := h.nodup
  given := by rw [h.given, hGiven]
  returned := h.returned.trans ((hReturned.append_right pending).map _).symm

theorem IdInv.quiet (h : IdInv iid trace s L pending) (hGen : s'.sglIdGen = s.sglIdGen)
    (hQueue : s'.idReturnFifo = s.idReturnFifo)
    (hEvents : givenIds events = [] ∧ returnedIds events = []) :
    IdInv iid (trace ++ events) s' L pending where
  gen := hGen ▸ h.gen
  queue := by rw [hQueue, h.queue]
  out := h.out
  nodup := h.nodup
  given := by rw [givenIds_append, hEvents.1, List.append_nil, h.given]
  returned := by
    rw [returnedIds_append, hEvents.2, List.append_nil]
    exact h.returned

theorem IdInv.step {a : Action} (h : IdInv iid trace s L pending) (hOk : ReturnsOut trace s a)
    (hs : IdStep iid s s' a events) : ∃ L' pending', IdInv iid (trace ++ events) s' L' pending' := by
  cases hs with
  | quiet _ _ hGen hQueue hEvents => exact ⟨L, pending, h.quiet hGen hQueue hEvents⟩
  | given tag hGen hQueue =>
    obtain ⟨rfl, hInv⟩ := TagGen.getTag_inv h.gen hGen
    refine ⟨L.give, pending, hInv, by rw [hQueue, h.queue], ?_, h.nodup, ?_, ?_⟩
    · intro n hn
      exact ⟨Nat.lt_succ_of_lt (h.out n hn).1, (h.out n hn).2⟩
    · rw [givenIds_append, h.given, TagLedger.give_given, List.range_succ, List.map_append]
      rfl
    · simpa [returnedIds] using h.returned
  | returned sglId hGen hQueue =>
    have hCount : ((L.returned ++ pending).map (idOf iid)).count sglId <
        ((List.range L.given).map (idOf iid)).count sglId := by
      rw [← h.given, ← h.returned.count_eq]
      exact hOk
    obtain ⟨n, hn, hUnused, rfl⟩ := exists_unused hCount
    rw [List.mem_append, not_or] at hUnused
    refine ⟨L, pending ++ [n], hGen ▸ h.gen, by simp [hQueue, h.queue], ?_, ?_, ?_, ?_⟩
    · intro m hm
      rcases List.mem_append.mp hm with hm | hm
      · exact h.out m hm
      · rw [List.mem_singleton.mp hm]
        exact ⟨hn, hUnused.1⟩
    · exact List.nodup_append.mpr ⟨h.nodup, List.nodup_singleton n, by
        rintro m hm _ hEq rfl
        exact hUnused.2 (List.mem_singleton.mp hEq ▸ hm)⟩
    · simpa [givenIds] using h.given
    · have hMore := h.returned.append_right [idOf iid n]
      simpa [returnedIds] using hMore
  | freed sglId hGen hQueue =>
    rw [h.queue, List.map_eq_cons_iff] at hQueue
    obtain ⟨n, rest, rfl, rfl, hRest⟩ := hQueue
    rw [idOf_setWidth] at hGen
    have hNodup := List.nodup_cons.mp h.nodup
    refine ⟨L.giveBack n, rest, TagGen.returnTag_inv h.gen (h.out n List.mem_cons_self) hGen,
      hRest.symm, ?_, hNodup.2, ?_, ?_⟩
    · intro m hm
      obtain ⟨hLt, hNot⟩ := h.out m (List.mem_cons_of_mem _ hm)
      refine ⟨hLt, ?_⟩
      rw [TagLedger.returned_giveBack, List.mem_append, not_or]
      refine ⟨hNot, fun hEq => hNodup.1 ?_⟩
      rwa [← List.mem_singleton.mp hEq]
    · simpa [givenIds] using h.given
    · simpa [returnedIds, TagLedger.returned_giveBack] using h.returned
  | completed tag hGen hQueue =>
    obtain ⟨-, -, hInv⟩ := TagGen.complete_inv h.gen hGen
    rw [List.append_nil]
    exact ⟨L.complete, pending, h.internal hInv hQueue rfl (.refl _)⟩
  | tagRule r genEvents hGen hQueue =>
    obtain ⟨L', hInv, hGiven, -, -, hReturned⟩ := TagGen.runRule_inv h.gen hGen
    rw [List.append_nil]
    exact ⟨L', pending, h.internal hInv hQueue hGiven hReturned⟩

theorem powerUp_idInv (tagMem : BitVec 5 → Bool) (regMem : BitVec 5 → Option Region)
    (pageMem : BitVec 5 × BitVec 8 → BitVec 32) :
    IdInv iid [] (powerUp tagMem regMem pageMem : MMU addrWidth) TagLedger.start [] where
  gen := TagGen.powerUp_inv tagMem
  queue := rfl
  out := by simp
  nodup := List.nodup_nil
  given := rfl
  returned := .refl _

theorem returned_nodup {numTags tsz : Nat} {g : TagGen numTags tsz} (h : TagGen.Inv g L) :
    L.returned.Nodup ∧ ∀ n ∈ L.returned, n < L.given := by
  have hPerm : L.returned.Perm (List.range L.retired ++ (L.waiting ++ L.processed)) := by
    rw [TagLedger.returned, List.append_assoc]
    exact List.Perm.append_left _ List.perm_append_comm
  constructor
  · rw [hPerm.nodup_iff, List.nodup_append]
    refine ⟨List.nodup_range, h.nodup, ?_⟩
    rintro m hm n hn rfl
    have hBack := (h.back m hn).1
    rw [List.mem_range] at hm
    omega
  · intro n hn
    rw [hPerm.mem_iff, List.mem_append, List.mem_range] at hn
    rcases hn with hn | hn
    · exact Nat.lt_of_lt_of_le hn h.retired_le
    · exact (h.back n hn).2

theorem IdInv.outIds_nodup (h : IdInv iid trace s L pending) : (outIds trace).Nodup := by
  obtain ⟨hNodup, hBelow⟩ := returned_nodup h.gen
  have hUsed : (L.returned ++ pending).Nodup := by
    refine List.nodup_append.mpr ⟨hNodup, h.nodup, ?_⟩
    rintro m hm n hn rfl
    exact (h.out m hn).2 hm
  have hSub : L.returned ++ pending ⊆ List.range L.given := by
    intro n hn
    rw [List.mem_range]
    rcases List.mem_append.mp hn with hn | hn
    · exact hBelow n hn
    · exact (h.out n hn).1
  have hLe : ((L.returned ++ pending : List Nat) : Multiset Nat) ≤ (List.range L.given : Multiset Nat) :=
    (Multiset.le_iff_subset (Multiset.coe_nodup.mpr hUsed)).mpr hSub
  obtain ⟨rest, hRest⟩ := Multiset.le_iff_exists_add.mp hLe
  have hAll : (((L.returned ++ pending : List Nat) : Multiset Nat) + rest).Nodup :=
    hRest ▸ Multiset.coe_nodup.mpr List.nodup_range
  have hOut : outIds trace = rest.map (idOf iid) := by
    rw [outIds, h.given, Multiset.coe_eq_coe.mpr h.returned, ← Multiset.map_coe, ← Multiset.map_coe,
      hRest, Multiset.map_add, add_tsub_cancel_left]
  have hRange : ∀ n ∈ rest, L.retired ≤ n ∧ n < L.retired + 2 ^ 5 := by
    intro n hn
    have hMem : n ∈ (List.range L.given : Multiset Nat) := hRest ▸ Multiset.mem_add.mpr (.inr hn)
    have hWindow := h.gen.window
    have hLt := List.mem_range.mp (Multiset.mem_coe.mp hMem)
    have hNot : n ∉ L.returned := fun hMem' =>
      Multiset.disjoint_left.mp (Multiset.nodup_add.mp hAll).2.2
        (Multiset.mem_coe.mpr (List.mem_append_left _ hMem')) hn
    exact ⟨TagLedger.retired_le_of_not_mem hNot, by omega⟩
  rw [hOut]
  refine Multiset.Nodup.map_on ?_ (Multiset.nodup_add.mp hAll).2.1
  intro m hm n hn hEq
  exact idOf_inj (hRange m hm).1 (hRange m hm).2 (hRange n hn).1 (hRange n hn).2 hEq

end MMU
end Connectal
