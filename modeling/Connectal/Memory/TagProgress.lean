import Connectal.Memory.TagLife

/-! Progress of the tag generator. Its memory is cleared by one lap of the head
pointer after reset, and whenever all tags are out the oldest one can be given
back and retired, so that the next request for a tag is granted. -/
namespace Connectal

open Rules

namespace TagGen

variable {numTags tsz : Nat} {s s' : TagGen numTags tsz} {L : TagLedger}
  {trace : List (Event tsz)}

/-- The memory has been cleared from the head pointer on. -/
@[simps] def cleared (s : TagGen numTags tsz) : TagGen numTags tsz :=
  { s with
    tags := { s.tags with mem := fun a => if s.headPtr ≤ a then false else s.tags.mem a }
    headPtr := 0
    inited := true }

theorem init_eq_some (hInit : s.inited = false) (hQuiet : (s.tags.out 0).items = []) :
    init s = some { s with
      tags := { s.tags with mem := Function.update s.tags.mem s.headPtr false }
      headPtr := s.headPtr + 1
      inited := s.headPtr + 1 == 0 } := by
  simp [init, hInit, Bram.write, hQuiet]

theorem toNat_succ (x : BitVec tsz) : (x + 1).toNat = (x.toNat + 1) % 2 ^ tsz := by
  simp [BitVec.toNat_add]

/-- Clearing a memory cell and then all cells behind it. -/
theorem cleared_mem_succ (mem : BitVec tsz → Bool) {head : BitVec tsz} (h : head.toNat + 1 < 2 ^ tsz) :
    (fun a => if head + 1 ≤ a then false else Function.update mem head false a) =
      fun a => if head ≤ a then false else mem a := by
  funext a
  have hSucc : (head + 1).toNat = head.toNat + 1 := (toNat_succ head).trans (Nat.mod_eq_of_lt h)
  rcases Nat.lt_trichotomy head.toNat a.toNat with hLess | hSame | hMore
  · rw [if_pos (by rw [BitVec.le_def]; omega), if_pos (by rw [BitVec.le_def]; omega)]
  · obtain rfl : head = a := BitVec.eq_of_toNat_eq hSame
    simp
  · have hne : a ≠ head := fun he => by simp [he] at hMore
    rw [if_neg (by rw [BitVec.le_def]; omega), if_neg (by rw [BitVec.le_def]; omega),
      Function.update_of_ne hne]

theorem cleared_mem_last (mem : BitVec tsz → Bool) {head : BitVec tsz} (h : head.toNat + 1 = 2 ^ tsz) :
    Function.update mem head false = fun a => if head ≤ a then false else mem a := by
  funext a
  have hBound := a.isLt
  by_cases he : a = head
  · simp [he]
  · have hne : a.toNat ≠ head.toNat := fun hSame => he (BitVec.eq_of_toNat_eq hSame)
    rw [Function.update_of_ne he, if_neg (by rw [BitVec.le_def]; omega)]

theorem init_completes (hInit : s.inited = false) (hQuiet : (s.tags.out 0).items = []) :
    (machine numTags tsz).Continues (fun _ _ a => a = .rule .init) (s, trace) (s.cleared, trace) := by
  have hPos := s.headPtr.isLt
  obtain ⟨left, hLeft⟩ : ∃ left, s.headPtr.toNat + 1 + left = 2 ^ tsz :=
    ⟨2 ^ tsz - (s.headPtr.toNat + 1), by omega⟩
  clear hPos
  induction left generalizing s with
  | zero =>
    have hLast : s.headPtr + 1 = 0 := by
      apply BitVec.eq_of_toNat_eq
      rw [toNat_succ, ← Nat.add_zero (s.headPtr.toNat + 1), hLeft, Nat.mod_self]
      simp
    have hFire : (machine numTags tsz).fire (.rule .init) s = some (s.cleared, []) := by
      simp only [machine, fire, runRule, init_eq_some hInit hQuiet, Option.map_some, cleared,
        hLast, cleared_mem_last s.tags.mem hLeft, BEq.rfl]
    simpa using Machine.Continues.tail Relation.ReflTransGen.refl rfl hFire
  | succ left ih =>
    have hBelow : s.headPtr.toNat + 1 < 2 ^ tsz := by omega
    have hSucc := (toNat_succ s.headPtr).trans (Nat.mod_eq_of_lt hBelow)
    have hMore : (s.headPtr + 1 == 0) = false := by
      rw [beq_eq_false_iff_ne]
      intro hZero
      rw [congrArg BitVec.toNat hZero] at hSucc
      simp at hSucc
    have hFire : (machine numTags tsz).fire (.rule .init) s = some ({ s with
        tags := { s.tags with mem := Function.update s.tags.mem s.headPtr false }
        headPtr := s.headPtr + 1 }, []) := by
      simp only [machine, fire, runRule, init_eq_some hInit hQuiet, Option.map_some, hMore, hInit]
    refine Machine.Continues.head rfl hFire ?_
    rw [List.append_nil]
    have rest := @ih { s with
      tags := { s.tags with mem := Function.update s.tags.mem s.headPtr false }
      headPtr := s.headPtr + 1 } hInit hQuiet (by rw [hSucc]; omega)
    simpa only [cleared, cleared_mem_succ s.tags.mem hBelow] using rest

/-- Everything but the handing out of tags, with returns as callers promise. -/
def Recovers : Machine.Contract (TagGen numTags tsz) (Action tsz) (Event tsz) :=
  fun trace s a => ReturnsOutstanding trace s a ∧ a ≠ .getTag

theorem returned_nodup (h : Inv s L) : L.returned.Nodup := by
  have hSplit := h.nodup
  rw [(@List.perm_append_comm _ L.waiting _).nodup_iff] at hSplit
  rw [TagLedger.returned, List.append_assoc]
  refine List.nodup_range.append hSplit ?_
  intro n hn hn'
  have := (h.back n (List.mem_append.mpr (List.mem_append.mp hn').symm)).1
  rw [List.mem_range] at hn
  omega

theorem returned_subset (h : Inv s L) : L.returned ⊆ List.range L.given := by
  intro n hn
  have hRetired := h.retired_le
  simp only [TagLedger.returned, List.append_assoc, List.mem_append, List.mem_range] at hn ⊢
  rcases hn with hn | hn
  · omega
  · exact (h.back n (List.mem_append.mpr hn.symm)).2

theorem History.returns (hist : History trace L) (h : Inv s L) {n : Nat} (hOut : L.Out n) :
    ReturnsOutstanding trace s (.returnTag (tagOf tsz n)) := by
  have hSub : n :: L.returned ⊆ List.range L.given :=
    List.cons_subset.mpr ⟨List.mem_range.mpr hOut.1, returned_subset h⟩
  obtain ⟨some, hPerm, hSome⟩ :=
    List.subperm_of_subset (List.nodup_cons.mpr ⟨hOut.2, returned_nodup h⟩) hSub
  have hCount := (hSome.map (tagOf tsz)).count_le (tagOf tsz n)
  rw [(hPerm.map (tagOf tsz)).count_eq, List.map_cons, List.count_cons_self] at hCount
  simp only [ReturnsOutstanding]
  rw [hist.given, hist.returned.count_eq]
  omega

/-- How far the oldest allocation is from being retired: it has to come back, to
be recorded and to be read as recorded. -/
def toGo (s : TagGen numTags tsz) (L : TagLedger) : Nat :=
  (if L.retired ∈ L.waiting ++ L.processed then 0 else 20) + 6 * L.waiting.length +
    s.compFifo.items.length +
    match (s.tags.out 1).items with
    | [] => 4
    | true :: _ => 5
    | false :: _ => 3

theorem toGo_pos (s : TagGen numTags tsz) (L : TagLedger) : 0 < toGo s L := by
  refine Nat.add_pos_right _ ?_
  split <;> decide

theorem bit_of_ones_pos {x : BitVec numTags} {ones : Nat} (h : x.toNat = 2 ^ ones - 1)
    (hOnes : 0 < ones) : x.getLsbD 0 = true := by
  rw [BitVec.getLsbD, h, Nat.testBit_two_pow_sub_one, decide_eq_true hOnes]

/-- What one step towards the next free tag achieves: the oldest allocation is
retired, or it is nearer to that. -/
structure Nearer (trace : List (Event tsz)) (s : TagGen numTags tsz) (L : TagLedger)
    (trace' : List (Event tsz)) (s' : TagGen numTags tsz) (L' : TagLedger) : Prop where
  inv : Inv s' L'
  history : History trace' L'
  inited : s'.inited = s.inited
  given : L'.given = L.given
  progress : L'.retired = L.retired + 1 ∨ L'.retired = L.retired ∧ toGo s' L' < toGo s L

theorem exists_inspect (h : Inv s L) (hist : History trace L) {v : Bool} {rest : List Bool}
    (hAnswer : (s.tags.out 1).items = v :: rest) :
    ∃ a s' events L', Recovers trace s a ∧ fire a s = some (s', events) ∧
      Nearer trace s L (trace ++ events) s' L' := by
  have hBit := bit_of_ones_pos h.unary (h.busy (by simp [hAnswer]))
  obtain ⟨q, hq, hItems⟩ := Fifo.exists_deq hAnswer
  have hRest : rest = [] := by
    have hOne := (s.tags.out 1).bound
    simp only [hAnswer, List.length_cons] at hOne
    exact List.length_eq_zero_iff.mp (by omega)
  cases v with
  | true =>
    have hs : completeRule1 s = some ({ s with
        tags := { s.tags with out := Function.update s.tags.out 1 q } }, none) := by
      simp [completeRule1, hBit, Bram.get, hq]
    refine ⟨.rule .completeRule1, _, [], L, ⟨trivial, (fun h => by cases h)⟩,
      by simp only [fire, runRule, hs]; rfl, ?_, by simpa using hist, by rfl, rfl, .inr ⟨rfl, ?_⟩⟩
    · rcases completeRule1_inv h hs with ⟨-, hInv⟩ | ⟨hNot, -⟩
      · exact hInv
      · cases hNot
    · simp [toGo, hAnswer, hItems, hRest]
  | false =>
    by_cases hRoom : s.compFifo.items.length < 2
    · obtain ⟨c, hc, -⟩ := Fifo.exists_enq hRoom s.tailPtr
      have hs : completeRule1 s = some ({ s with
          tags := { s.tags with out := Function.update s.tags.out 1 q }
          tailPtr := s.tailPtr + 1
          compState := s.compState >>> 1
          compFifo := c }, some s.tailPtr) := by
        simp [completeRule1, hBit, Bram.get, hq, hc]
      rcases completeRule1_inv h hs with ⟨hNot, -⟩ | ⟨hTag, hBack, hInv⟩
      · cases hNot
      · refine ⟨.rule .completeRule1, _, [⟨.retired, tagOf tsz L.retired⟩], L.retire,
          ⟨trivial, (fun h => by cases h)⟩, by simp only [fire, runRule, hs, hTag]; rfl, hInv, hist.retire hBack,
          rfl, rfl, .inl rfl⟩
    · cases hComp : s.compFifo.items with
      | nil => simp [hComp] at hRoom
      | cons tag others =>
        obtain ⟨c, hc, hOthers⟩ := Fifo.exists_deq hComp
        have hs : complete s = some (tag, { s with compFifo := c }) := by
          simp [complete, hc]
        obtain ⟨-, rfl, hInv⟩ := complete_inv h hs
        refine ⟨.complete, _, [⟨.completed, tagOf tsz L.completed⟩], L.complete,
          ⟨trivial, (fun h => by cases h)⟩, by simp only [fire, hs]; rfl, hInv, hist.complete, rfl, rfl,
          .inr ⟨rfl, ?_⟩⟩
        simp [toGo, hComp, hOthers]

theorem exists_record (h : Inv s L) (hist : History trace L) (hAnswer : (s.tags.out 1).items = [])
    {n : Nat} {rest : List Nat} (hWaiting : L.waiting = n :: rest) :
    ∃ a s' events L', Recovers trace s a ∧ fire a s = some (s', events) ∧
      Nearer trace s L (trace ++ events) s' L' := by
  obtain ⟨q, hq, -⟩ := Fifo.exists_deq (h.wait.trans (by rw [hWaiting]; rfl))
  have hs : ret s = some ({ s with
      tags := { s.tags with mem := Function.update s.tags.mem (tagOf tsz n) false }
      retFifo := q
      compState := 1 ||| (s.compState <<< 1) }, tagOf tsz n) := by
    simp [ret, hq, Bram.write, hAnswer]
  obtain ⟨-, -, -, -, hInv⟩ := ret_inv h hs
  refine ⟨.rule .ret, _, [⟨.processed, tagOf tsz n⟩], L.process numTags, ⟨trivial, (fun h => by cases h)⟩,
    by simp only [fire, runRule, hs]; rfl, hInv, hist.process numTags hWaiting, rfl, rfl,
    .inr ⟨rfl, ?_⟩⟩
  have hSame : L.retired ∈ rest ++ (L.processed ++ [n]) ↔ L.retired ∈ n :: rest ++ L.processed := by
    simp only [List.mem_append, List.mem_cons, List.not_mem_nil, or_false]
    tauto
  simp only [toGo, TagLedger.process, hWaiting, hAnswer, List.tail_cons, List.head?_cons,
    Option.toList_some, hSame, List.length_cons]
  omega

/-- The oldest allocation is recorded, and the memory is free to be read. -/
theorem exists_probe (hTags : 2 ^ tsz ≤ numTags) (h : Inv s L) (hist : History trace L)
    (hAnswer : (s.tags.out 1).items = []) (hBack : L.retired ∈ L.processed) :
    ∃ a s' events L', Recovers trace s a ∧ fire a s = some (s', events) ∧
      Nearer trace s L (trace ++ events) s' L' := by
  have hBounds := h.back L.retired (List.mem_append_right _ hBack)
  have hBit := bit_of_ones_pos h.unary
    (by rw [h.ones_eq hTags]; exact List.length_pos_of_mem hBack)
  have hRead : s.tags.mem s.tailPtr = false := by
    rw [h.tail, ← Bool.not_eq_true, h.mem L.retired le_rfl hBounds.2]
    exact not_not.mpr hBack
  obtain ⟨q, hq, hItems⟩ := Fifo.exists_enq_nil hAnswer
    (s.tags.mem s.tailPtr)
  have hs : completeRule0 s = some { s with
      tags := { s.tags with out := Function.update s.tags.out 1 q } } := by
    simp [completeRule0, hBit, Bram.read, hq]
  refine ⟨.rule .completeRule0, _, [], L, ⟨trivial, (fun h => by cases h)⟩,
    by simp only [fire, runRule, hs]; rfl, completeRule0_inv h hs, by simpa using hist, rfl, rfl,
    .inr ⟨rfl, ?_⟩⟩
  simp [toGo, hAnswer, hItems, hRead]

theorem exists_giveBack (h : Inv s L) (hist : History trace L) (hInited : s.inited = true)
    (hWaiting : L.waiting = []) (hOut : L.Out L.retired) :
    ∃ a s' events L', Recovers trace s a ∧ fire a s = some (s', events) ∧
      Nearer trace s L (trace ++ events) s' L' := by
  have hEmpty : s.retFifo.items = [] := by simp [h.wait, hWaiting]
  obtain ⟨q, hq, -⟩ := Fifo.exists_enq_nil hEmpty (tagOf tsz L.retired)
  have hs : returnTag s (tagOf tsz L.retired) = some { s with retFifo := q } := by
    simp [returnTag, hInited, hq]
  refine ⟨.returnTag (tagOf tsz L.retired), _, [⟨.returned, tagOf tsz L.retired⟩],
    L.giveBack L.retired, ⟨hist.returns h hOut, (fun h => by cases h)⟩, by simp only [fire, hs]; rfl,
    returnTag_inv h hOut hs, hist.giveBack _, rfl, rfl, .inr ⟨rfl, ?_⟩⟩
  have hNot : L.retired ∉ L.processed := by
    intro hMem
    exact hOut.2 (by simp [TagLedger.returned, hMem])
  simp [toGo, TagLedger.giveBack, hWaiting, hNot]

/-- As long as any tag is out or waits to be retired, the oldest one can be
brought nearer to its retirement. -/
theorem exists_nearer (hTags : 2 ^ tsz ≤ numTags) (h : Inv s L) (hist : History trace L)
    (hInited : s.inited = true) (hSome : L.retired < L.given) :
    ∃ a s' events L', Recovers trace s a ∧ fire a s = some (s', events) ∧
      Nearer trace s L (trace ++ events) s' L' := by
  cases hAnswer : (s.tags.out 1).items with
  | cons v rest => exact exists_inspect h hist hAnswer
  | nil =>
  cases hWaiting : L.waiting with
  | cons n rest => exact exists_record h hist hAnswer hWaiting
  | nil =>
    by_cases hBack : L.retired ∈ L.processed
    · exact exists_probe hTags h hist hAnswer hBack
    · refine exists_giveBack h hist hInited hWaiting ⟨hSome, ?_⟩
      simp [TagLedger.returned, hWaiting, hBack]

theorem exists_getTag (h : Inv s L) (hInited : s.inited = true)
    (hRoom : L.given + 1 < L.retired + 2 ^ tsz) : ∃ tag s', getTag s = some (tag, s') := by
  have hRetired := h.retired_le
  have hFree : s.headPtr + 1 ≠ s.tailPtr := by
    rw [h.head hInited, h.tail, ← tagOf_succ]
    intro hSame
    have := tagOf_inj (Nat.le_succ_of_le hRetired) hRoom le_rfl (by omega) hSame
    omega
  have hGuard : (s.inited && s.headPtr + 1 != s.tailPtr) = true := by
    rw [hInited, Bool.true_and, bne_iff_ne]
    exact hFree
  rw [getTag, hGuard]
  simp [guard, Bram.write, h.quiet]

/-- With at least two tags, a tag can always be had: some continuation in which
callers give back what they hold, and in which no tag is handed out, ends in a
state in which the next one is. -/
theorem exists_free (hSize : 1 ≤ tsz) (hTags : 2 ^ tsz ≤ numTags) (h : Inv s L)
    (hist : History trace L) :
    ∃ s' trace', (machine numTags tsz).Continues Recovers (s, trace) (s', trace') ∧
      ∃ L', Inv s' L' ∧ History trace' L' ∧ L'.given = L.given ∧ ∃ tag t, getTag s' = some (tag, t) := by
  have hTwo : 2 ≤ 2 ^ tsz := Nat.pow_le_pow_right (show 0 < 2 by decide) hSize
  cases hInit : s.inited with
  | false =>
    have path : (machine numTags tsz).Continues Recovers (s, trace) (s.cleared, trace) := by
      refine (init_completes hInit h.quiet).weaken ?_
      rintro _ _ _ rfl
      exact ⟨trivial, (fun h => by cases h)⟩
    have hGiven := h.idle hInit
    have hRetired := h.retired_le
    have hInv : Inv s.cleared L := by
      refine { h with head := fun _ => ?_, idle := fun _ => hGiven, mem := fun n _ hn => ?_ }
      · simp [tagOf, hGiven]
      · omega
    exact ⟨s.cleared, trace, path, L, hInv, hist, rfl, exists_getTag hInv rfl (by omega)⟩
  | true =>
    refine Machine.exists_continues (fun n t u => ∃ L', Inv u L' ∧ History t L' ∧ u.inited = true ∧
      L'.given = L.given ∧ (L.given + 1 < L'.retired + 2 ^ tsz ∨ toGo u L' = n)) _ ?_
      ⟨L, h, hist, hInit, rfl, .inr rfl⟩
    rintro n t u ⟨L', hInv, hHist, hInited, hGiven, hLeft⟩
    by_cases hRoom : L.given + 1 < L'.retired + 2 ^ tsz
    · exact .inl ⟨L', hInv, hHist, hGiven, exists_getTag hInv hInited (by omega)⟩
    · obtain ⟨a, u', events, L'', hOk, hs, hNear⟩ :=
        exists_nearer hTags hInv hHist hInited (by omega)
      have hWindow := hInv.window
      have hToGo := hLeft.resolve_left hRoom
      rcases hNear.progress with hRetired | ⟨hRetired, hLess⟩
      · exact .inr ⟨0, hToGo ▸ toGo_pos u L', a, u', events, hOk, hs, L'', hNear.inv, hNear.history,
          hNear.inited.trans hInited, hNear.given.trans hGiven, .inl (by omega)⟩
      · exact .inr ⟨toGo u' L'', hToGo ▸ hLess, a, u', events, hOk, hs, L'', hNear.inv,
          hNear.history, hNear.inited.trans hInited, hNear.given.trans hGiven, .inr rfl⟩

end TagGen
end Connectal
