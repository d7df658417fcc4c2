import Connectal.Memory.TagLedger
import Mathlib.Algebra.Order.Group.Multiset

/-! The life of every tag through whole runs of the generator. The ledger's
positions determine the history of each stage up to the order in which tags
come back, so the ordering claims are statements about number ranges. -/
namespace Connectal

open Rules

theorem range_split {m n : Nat} (h : m ≤ n) :
    List.range n = List.range m ++ List.range' m (n - m) := by
  obtain ⟨d, rfl⟩ := Nat.exists_eq_add_of_le h
  rw [Nat.add_sub_cancel_left, List.range_eq_range', List.range_eq_range', ← List.range'_append_1,
    Nat.zero_add]

theorem range_front {m n : Nat} (h : m ≤ n) : List.range m <+: List.range n :=
  ⟨_, (range_split h).symm⟩

namespace TagGen

variable {numTags tsz : Nat} {s s' : TagGen numTags tsz} {L : TagLedger}
  {trace : List (Event tsz)}

@[simp] theorem tagsAt_append (stage : Stage) (first second : List (Event tsz)) :
    tagsAt stage (first ++ second) = tagsAt stage first ++ tagsAt stage second := by
  simp [tagsAt]

@[simp] theorem tagsAt_nil (stage : Stage) : tagsAt stage ([] : List (Event tsz)) = [] := rfl

@[simp] theorem tagsAt_singleton (stage : Stage) (e : Event tsz) :
    tagsAt stage [e] = if e.stage = stage then [e.tag] else [] := by
  by_cases h : e.stage = stage <;> simp [tagsAt, h]

/-- The history of each stage, read off the ledger. Tags come back in any
order, so the two middle stages are known only up to permutation. -/
structure History (trace : List (Event tsz)) (L : TagLedger) : Prop where
  given : tagsAt .given trace = (List.range L.given).map (tagOf tsz)
  retired : tagsAt .retired trace = (List.range L.retired).map (tagOf tsz)
  completed : tagsAt .completed trace = (List.range L.completed).map (tagOf tsz)
  processed : (tagsAt .processed trace).Perm
    ((List.range L.retired ++ L.processed).map (tagOf tsz))
  returned : (tagsAt .returned trace).Perm (L.returned.map (tagOf tsz))

/-- A return that the callers' contract admits names an allocation that is out. -/
theorem History.exists_out (hist : History trace L) {tag : BitVec tsz}
    (h : (tagsAt .returned trace).count tag < (tagsAt .given trace).count tag) :
    ∃ n, L.Out n ∧ tagOf tsz n = tag := by
  rw [hist.given, hist.returned.count_eq] at h
  obtain ⟨n, hn, hUnused, hTag⟩ := exists_unused h
  exact ⟨n, ⟨hn, hUnused⟩, hTag⟩

namespace History

section

variable (hist : History trace L)

include hist

theorem give : History (trace ++ [⟨.given, tagOf tsz L.given⟩]) L.give := by
  constructor
  · simp [hist.given, TagLedger.give, List.range_succ]
  · simpa using hist.retired
  · simpa using hist.completed
  · simpa using hist.processed
  · simpa using hist.returned

theorem giveBack (n : Nat) : History (trace ++ [⟨.returned, tagOf tsz n⟩]) (L.giveBack n) := by
  constructor
  · simpa using hist.given
  · simpa using hist.retired
  · simpa using hist.completed
  · simpa using hist.processed
  · have := hist.returned.append_right [tagOf tsz n]
    simpa [TagLedger.returned_giveBack] using this

theorem process (numTags : Nat) {n : Nat} {rest : List Nat} (hWaiting : L.waiting = n :: rest) :
    History (trace ++ [⟨.processed, tagOf tsz n⟩]) (L.process numTags) := by
  constructor
  · simpa using hist.given
  · simpa using hist.retired
  · simpa using hist.completed
  · have := hist.processed.append_right [tagOf tsz n]
    simpa [TagLedger.process, hWaiting] using this
  · have := hist.returned
    simpa [TagLedger.returned, TagLedger.process, hWaiting] using this

theorem retire (hBack : L.retired ∈ L.processed) :
    History (trace ++ [⟨.retired, tagOf tsz L.retired⟩]) L.retire := by
  have hPerm := TagLedger.retire_perm hBack
  constructor
  · simpa using hist.given
  · simp [hist.retired, TagLedger.retire, List.range_succ]
  · simpa using hist.completed
  · simpa using hist.processed.trans (hPerm.map (tagOf tsz)).symm
  · simpa [TagLedger.returned] using
      hist.returned.trans ((hPerm.append_right L.waiting).map (tagOf tsz)).symm

theorem complete : History (trace ++ [⟨.completed, tagOf tsz L.completed⟩]) L.complete := by
  constructor
  · simpa using hist.given
  · simpa using hist.retired
  · simp [hist.completed, TagLedger.complete, List.range_succ]
  · simpa using hist.processed
  · simpa using hist.returned

end

end History

/-- The generator's own rules keep state, ledger and history in agreement. -/
theorem runRule_history {r : Rule} {events : List (Event tsz)} (h : Inv s L)
    (hist : History trace L) (hs : runRule r s = some (s', events)) :
    ∃ L', Inv s' L' ∧ History (trace ++ events) L' := by
  cases r
  all_goals simp only [runRule, firing] at hs
  case completeRule0 =>
    obtain ⟨_, hs, rfl, rfl⟩ := hs
    exact ⟨L, completeRule0_inv h hs, by simpa using hist⟩
  case completeRule1 =>
    obtain ⟨_, r, hs, rfl, rfl⟩ := hs
    rcases completeRule1_inv h hs with ⟨rfl, hInv⟩ | ⟨rfl, hBack, hInv⟩
    · exact ⟨L, hInv, by simpa using hist⟩
    · exact ⟨L.retire, hInv, hist.retire hBack⟩
  case ret =>
    obtain ⟨_, tag, hs, rfl, rfl⟩ := hs
    obtain ⟨n, rest, hWaiting, rfl, hInv⟩ := ret_inv h hs
    exact ⟨L.process numTags, hInv, hist.process numTags hWaiting⟩
  case init =>
    obtain ⟨_, hs, rfl, rfl⟩ := hs
    exact ⟨L, init_inv h hs, by simpa using hist⟩

/-- Every admitted action keeps state, ledger and history in agreement. -/
theorem fire_history {action : Action tsz} {events : List (Event tsz)} (h : Inv s L)
    (hist : History trace L) (hOk : ReturnsOutstanding trace s action)
    (hs : fire action s = some (s', events)) :
    ∃ L', Inv s' L' ∧ History (trace ++ events) L' := by
  cases action with
  | rule r => exact runRule_history h hist hs
  | getTag =>
    simp only [fire, firing] at hs
    obtain ⟨tag, _, hs, rfl, rfl⟩ := hs
    obtain ⟨rfl, hInv⟩ := getTag_inv h hs
    exact ⟨L.give, hInv, hist.give⟩
  | returnTag tag =>
    simp only [fire, firing] at hs
    obtain ⟨_, hs, rfl, rfl⟩ := hs
    obtain ⟨n, hOut, rfl⟩ := hist.exists_out hOk
    exact ⟨L.giveBack n, returnTag_inv h hOut hs, hist.giveBack n⟩
  | complete =>
    simp only [fire, firing] at hs
    obtain ⟨tag, _, hs, rfl, rfl⟩ := hs
    obtain ⟨hLt, rfl, hInv⟩ := complete_inv h hs
    exact ⟨L.complete, hInv, hist.complete⟩

/-- In every run whose callers return only outstanding tags some ledger
describes both the state and the history. -/
theorem run_history (run : (machine numTags tsz).Run ReturnsOutstanding s trace) :
    ∃ L, Inv s L ∧ History trace L := by
  refine run.invariant (fun trace s => ∃ L, Inv s L ∧ History trace L) ?_ ?_
  · rintro s ⟨mem, rfl⟩
    exact ⟨TagLedger.start, powerUp_inv mem, by constructor <;> simp [TagLedger.start, TagLedger.returned]⟩
  · rintro trace s action s' events ⟨L, h, hist⟩ hOk hs
    exact fire_history h hist hOk hs

/-- The history of the stages decides which tags are outstanding. -/
theorem History.outstanding_eq (h : Inv s L) (hist : History trace L) :
    outstanding trace =
      ((List.range' L.retired (L.given - L.retired)).map (tagOf tsz) : Multiset (BitVec tsz)) := by
  rw [outstanding, hist.given, hist.retired, range_split h.retired_le, List.map_append,
    ← Multiset.coe_add, add_tsub_cancel_left]

theorem onesCount_unary {width ones : Nat} {x : BitVec width} (h : x.toNat = 2 ^ ones - 1) :
    onesCount x = ones := by
  have hLe := ones_le_width h
  have hBit : ∀ i, x.getLsbD i = decide (i < ones) := by
    intro i
    rw [BitVec.getLsbD, h, Nat.testBit_two_pow_sub_one]
  rw [onesCount, range_split hLe, List.countP_append, List.countP_eq_length.mpr, List.countP_eq_zero.mpr]
  · simp
  · intro i hi
    simp only [List.mem_range'_1] at hi
    simp only [hBit, decide_eq_true_eq]
    omega
  · intro i hi
    simpa [hBit] using hi

/-- With `2 ^ k` tags and callers that return only outstanding tags, in every
reachable state: outstanding tags are pairwise distinct and the next tag is
none of them; tags are retired and completed in the order of allocation, each
once for each allocation and never before it came back; and the unary counter
has one bit for every recorded tag that the tail has yet to pass, with its top
bit clear so that no recorded tag is ever shifted out. -/
theorem tags_live_and_complete_in_order (k : Nat) {s : TagGen (2 ^ k) k} {trace : List (Event k)}
    (run : (machine (2 ^ k) k).Run ReturnsOutstanding s trace) :
    (outstanding trace).Nodup ∧
    (∀ tag s', getTag s = some (tag, s') → tag ∉ outstanding trace) ∧
    tagsAt .retired trace <+: tagsAt .given trace ∧
    tagsAt .completed trace <+: tagsAt .given trace ∧
    (∀ tag, (tagsAt .completed trace).count tag ≤ (tagsAt .returned trace).count tag) ∧
    (tagsAt .processed trace).length =
      (tagsAt .retired trace).length + onesCount s.compState ∧
    s.compState.msb = false := by
  obtain ⟨L, h, hist⟩ := run_history run
  have hWindow := h.window
  have hRetired := h.retired_le
  have hOnes := h.ones_eq le_rfl
  have hLen := window_length h
  refine ⟨?_, ?_, ?_, ?_, ?_, ?_, ?_⟩
  · rw [hist.outstanding_eq h, Multiset.coe_nodup]
    refine List.Nodup.map_on ?_ List.nodup_range'
    intro m hm n hn he
    simp only [List.mem_range'_1] at hm hn
    exact tagOf_inj hm.1 (by omega) hn.1 (by omega) he
  · intro tag s' hGet
    obtain ⟨rfl, hNext⟩ := getTag_inv h hGet
    rw [hist.outstanding_eq h, Multiset.mem_coe, List.mem_map]
    rintro ⟨n, hn, he⟩
    simp only [List.mem_range'_1] at hn
    have hBelow := hNext.window
    simp only [TagLedger.give_given, TagLedger.give_retired] at hBelow
    have := tagOf_inj hn.1 (by omega) hRetired (by omega) he
    omega
  · rw [hist.retired, hist.given]
    exact (range_front hRetired).map _
  · rw [hist.completed, hist.given]
    exact (range_front (h.completed_le.trans hRetired)).map _
  · intro tag
    rw [hist.completed, hist.returned.count_eq, TagLedger.returned, List.append_assoc,
      List.map_append]
    refine ((range_front h.completed_le).map (tagOf k)).sublist.count_le tag |>.trans ?_
    rw [List.count_append]
    exact Nat.le_add_right _ _
  · rw [onesCount_unary h.unary, hist.processed.length_eq, hist.retired, hOnes]
    simp
  · rw [BitVec.msb_eq_decide, decide_eq_false_iff_not, h.unary, hOnes]
    have hSmall : L.processed.length ≤ 2 ^ k - 1 := by omega
    have := Nat.pow_le_pow_right (show 0 < 2 by decide) hSmall
    have := Nat.two_pow_pos (2 ^ k - 1)
    omega

/-- One tag of a two-tag generator is handed out, comes back and is completed. -/
theorem tags_live_and_complete_in_order_one_tag :
    ∃ d, (machine (2 ^ 1) 1).exec ReturnsOutstanding
        [.rule .init, .rule .init, .getTag, .returnTag 0, .rule .ret, .rule .completeRule0,
          .rule .completeRule1, .complete]
        (powerUp fun _ => true, []) = some d ∧
      tagsAt .completed d.2 = [0] ∧ (outstanding d.2).Nodup := by
  obtain ⟨d, hd, hTags⟩ := Option.map_eq_some_iff.mp
    (show ((machine (2 ^ 1) 1).exec ReturnsOutstanding
        [.rule .init, .rule .init, .getTag, .returnTag 0, .rule .ret, .rule .completeRule0,
          .rule .completeRule1, .complete]
        (powerUp fun _ => true, [])).map (fun d => tagsAt .completed d.2) = some [0] by decide)
  exact ⟨d, hd, hTags, (tags_live_and_complete_in_order 1 (Machine.exec_run ⟨_, rfl⟩ hd)).1⟩

end TagGen
end Connectal
