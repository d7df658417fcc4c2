import Connectal.Strstr.MPEngineRun

/-! A search that has been started ends, if its haystack is short enough to be filled up to whole
words. Otherwise the reader is asked for nothing. -/
namespace Connectal.Strstr

open Rules

namespace MPEngine

variable {k : Nat} {mem : Memory} {sglId : BitVec 32} {s s' : MPEngine k} {locs : List (BitVec 32)}
  {i j delivered : Nat}

theorem haystackLenBytes_toNat (hk : k < 32) (len : BitVec 32) :
    (haystackLenBytes k len).toNat = (len.toNat + (2 ^ k - 1)) % 2 ^ 32 / 2 ^ k * 2 ^ k := by
  have hPow : 2 ^ k < 2 ^ 32 := Nat.pow_lt_pow_right (by decide) hk
  have hPos : 0 < 2 ^ k := Nat.two_pow_pos k
  rw [haystackLenBytes, BitVec.toNat_mul, BitVec.toNat_ushiftRight, BitVec.toNat_add, BitVec.toNat_ofNat,
    BitVec.toNat_ofNat, Nat.mod_eq_of_lt hPow, Nat.mod_eq_of_lt (show 2 ^ k - 1 < 2 ^ 32 by omega),
    Nat.shiftRight_eq_div_pow]
  refine Nat.mod_eq_of_lt (Nat.lt_of_le_of_lt (Nat.div_mul_le_self _ _) (Nat.mod_lt _ (by decide)))

/-- A length that can be filled up is covered. -/
theorem le_haystackLenBytes (hk : k < 32) {len : BitVec 32} (h : Paddable k len) :
    len.toNat ≤ (haystackLenBytes k len).toNat := by
  have hPos : 0 < 2 ^ k := Nat.two_pow_pos k
  rw [Paddable] at h
  rw [haystackLenBytes_toNat hk, Nat.mod_eq_of_lt h]
  have hDiv := Nat.div_add_mod (len.toNat + (2 ^ k - 1)) (2 ^ k)
  have hMod := Nat.mod_lt (len.toNat + (2 ^ k - 1)) hPos
  rw [Nat.mul_comm] at hDiv
  omega

/-- For a longer one the sum wraps and nothing is read. -/
theorem haystackLenBytes_eq_zero (hk : k < 32) {len : BitVec 32} (h : 2 ^ 32 ≤ len.toNat + (2 ^ k - 1)) :
    (haystackLenBytes k len).toNat = 0 := by
  have hLen := len.isLt
  have hPow : 2 ^ k < 2 ^ 32 := Nat.pow_lt_pow_right (by decide) hk
  have hPos : 0 < 2 ^ k := Nat.two_pow_pos k
  have hWrap : (len.toNat + (2 ^ k - 1)) % 2 ^ 32 = len.toNat + (2 ^ k - 1) - 2 ^ 32 := by
    rw [Nat.mod_eq_sub_mod h, Nat.mod_eq_of_lt (by omega)]
  rw [haystackLenBytes_toNat hk, hWrap, Nat.div_eq_of_lt (by omega), Nat.zero_mul]

/-- An answer at the heads of the queues, in a search that has room for its result. -/
theorem exists_matchNeedleResp {r : Answer} (hStage : s.stage = .search) (hPopped : Popped s r)
    (hLocf : s.locf.items = [])
    (hNeeded : r.epoch = s.epochReg → ¬s.haystackLenReg < s.jReg → r.index ≠ s.needleLenReg + 1 →
      s.haystack.items ≠ []) : ∃ s' events, matchNeedleResp s = some (s', events) := by
  obtain ⟨needleOut, hNeedle, -⟩ := Fifo.exists_deq hPopped.needle
  obtain ⟨mpNextOut, hNext, -⟩ := Fifo.exists_deq hPopped.mpNext
  obtain ⟨efifo, hQueue, -⟩ := Fifo.exists_deq hPopped.queue
  have hRoom : s.locf.items.length < 2 := by simp [hLocf]
  simp only [matchNeedleResp, hStage, guard, if_true, some_bind, hNeedle, hNext, hQueue]
  by_cases hEpoch : r.epoch = s.epochReg
  · rw [if_pos hEpoch]
    by_cases hEnd : s.haystackLenReg < s.jReg
    · obtain ⟨locf, hEnq, -⟩ := Fifo.exists_enq hRoom (-1)
      rw [if_pos hEnd, hEnq]
      exact ⟨_, _, rfl⟩
    · rw [if_neg hEnd]
      by_cases hFull : r.index = s.needleLenReg + 1
      · obtain ⟨locf, hEnq, -⟩ := Fifo.exists_enq hRoom (s.haystackBase + s.jReg - r.index)
        rw [if_pos hFull, hEnq]
        exact ⟨_, _, rfl⟩
      · obtain ⟨hv, haystack, hDeq, hItems⟩ := Fifo.exists_deq_of_ne_nil (hNeeded hEpoch hEnd hFull)
        rw [if_neg hFull, hDeq, some_bind]
        split_ifs <;> exact ⟨_, _, rfl⟩
  · rw [if_neg hEpoch]
    exact ⟨_, _, rfl⟩

/-- A running search that is covered by its reader, with what is left to be done. -/
structure Underway (mem : Memory) (sglId : BitVec 32) (job : Job) (finished : List (Job × List (BitVec 32)))
    (rank : Nat) (trace : List Event) (s : MPEngine k) (locs : List (BitVec 32)) (i j delivered : Nat) : Prop where
  search : Searching mem sglId s locs i j delivered
  job_eq : s.job mem sglId = job
  covered : job.n ≤ s.total
  tally_eq : tally trace = ⟨some (job, locs), finished⟩
  rank_eq : rank = 8 * job.distance i j + s.load

section Underway

variable {job : Job} {finished : List (Job × List (BitVec 32))} {rank : Nat} {trace : List Event}

/-- One action brings a running search closer to its end. -/
def Nears (mem : Memory) (sglId : BitVec 32) (job : Job) (finished : List (Job × List (BitVec 32)))
    (rank : Nat) (trace : List Event) (s : MPEngine k) : Prop :=
  ∃ action s' events, noRequests trace s action ∧ (machine k mem).fire action s = some (s', events) ∧
    ((∃ locs, tally (trace ++ events) = ⟨none, finished ++ [(job, locs)]⟩) ∨
      ∃ less < rank, ∃ locs i j delivered,
        Underway mem sglId job finished less (trace ++ events) s' locs i j delivered)

variable (h : Underway mem sglId job finished rank trace s locs i j delivered)

include h

theorem Underway.nears_resp (hk : 1 ≤ k)
    {events : List Event} (hFire : matchNeedleResp s = some (s', events)) :
    Nears mem sglId job finished rank trace s := by
  obtain ⟨-, hResp⟩ := responds hFire
  have hLoad := hResp.load_le
  have hTotal : s'.total = s.total := by cases hResp <;> rfl
  have hRank := h.rank_eq
  refine ⟨.matchNeedleResp, s', events, trivial, hFire, ?_⟩
  cases h.search.answered hk hResp with
  | same hJob hNext hLess =>
    rw [List.append_nil]
    exact .inr ⟨_, by omega, _, _, _, _, hNext, hJob.trans h.job_eq, hTotal ▸ h.covered, h.tally_eq, rfl⟩
  | goes hJob hNext hCloser =>
    rw [h.job_eq] at hCloser
    refine .inr ⟨_, by omega, _, _, _, _, hNext, hJob.trans h.job_eq, hTotal ▸ h.covered, ?_, rfl⟩
    rw [tally_append, h.tally_eq, foldl_writes]
  | stops hStage hLock hTurns =>
    refine .inl ⟨locs ++ [-1], ?_⟩
    rw [tally_append, h.tally_eq]
    rfl

theorem Underway.nears_locdone (hLocf : s.locf.items ≠ []) : Nears mem sglId job finished rank trace s := by
  obtain ⟨x, locf, hDeq, hItems⟩ := Fifo.exists_deq_of_ne_nil hLocf
  have hRank := h.rank_eq
  have hLess : ({ s with locf } : MPEngine k).load < s.load := by
    show s.behind + _ + locf.items.length < s.behind + _ + s.locf.items.length
    simp [hItems]
  refine ⟨.locdone, { s with locf }, [], trivial, ?_, .inr ⟨_, by omega, locs, i, j, delivered, h.search.frame,
    h.job_eq, h.covered, by rw [List.append_nil, h.tally_eq], rfl⟩⟩
  simp [machine, MPEngine.locdone, hDeq]

theorem Underway.nears_req (hQueue : s.efifo.items = []) : Nears mem sglId job finished rank trace s := by
  have hNeedle : s.needleOut.items = [] := by rw [h.search.needle, hQueue]; rfl
  have hNext : s.mpNextOut.items = [] := by rw [h.search.mpNext, hQueue]; rfl
  obtain ⟨needleOut, hEnq₁, -⟩ := Fifo.exists_enq_nil hNeedle
    (s.needle ((s.iReg - 1).setWidth 10))
  obtain ⟨mpNextOut, hEnq₂, -⟩ := Fifo.exists_enq_nil hNext
    (s.mpNext (s.iReg.setWidth 10))
  obtain ⟨efifo, hEnq₃, hItems⟩ := Fifo.exists_enq_nil hQueue (s.epochReg, s.iReg)
  have hFire : MPEngine.matchNeedleReq s = some ({ s with needleOut, mpNextOut, efifo, iReg := 1 }, []) := by
    simp only [MPEngine.matchNeedleReq, h.search.stage, guard, if_true, hEnq₁, hEnq₂, hEnq₃]
    rfl
  have hRank := h.rank_eq
  have hLess : ({ s with needleOut, mpNextOut, efifo, iReg := 1 } : MPEngine k).load < s.load := by
    simp [load, behind, hQueue, hItems]
  exact ⟨.matchNeedleReq, _, [], trivial, hFire, .inr ⟨_, by omega, locs, i, j, delivered,
    (h.search.matchNeedleReq hFire).2.2, h.job_eq, h.covered, by rw [List.append_nil, h.tally_eq], rfl⟩⟩

/-- Where a character is needed and there is none, the reader still has some. -/
theorem Underway.nears_haystackResp
    (hHaystack : s.haystack.items = []) (hMore : j ≤ job.n) : Nears mem sglId job finished rank trace s := by
  have hStream := h.search.stream
  have hEmpty : delivered + 1 - j = 0 := by
    have hLength := congrArg List.length (hHaystack.symm.trans hStream.items)
    simpa using hLength.symm
  have hCovered := h.covered
  have hPos : 0 < 2 ^ k := Nat.two_pow_pos k
  rcases hStream.reader with hReader | ⟨-, hAll⟩
  · obtain ⟨haystack, hEnq, -⟩ := Fifo.exists_enqAll (q := s.haystack)
      ((List.range (2 ^ k)).map fun a => mem sglId (s.haystackBase.toNat + delivered + a))
      (by rw [hHaystack, List.length_map, List.length_range, List.length_nil]; omega)
    have hFire : MPEngine.haystackResp mem s = some ({ s with
        haystack
        reader := some ⟨sglId, s.haystackBase.toNat + delivered + 2 ^ k, s.total - delivered - 2 ^ k⟩ }, []) := by
      simp only [MPEngine.haystackResp, hReader, some_bind, hEnq, guard,
        if_pos (show 0 < s.total - delivered by omega), Option.pure_def]
    have hRank := h.rank_eq
    obtain ⟨-, hJob, -, delivered', hNext⟩ := h.search.haystackResp hFire
    have hLess : ({ s with
        haystack
        reader := some ⟨sglId, s.haystackBase.toNat + delivered + 2 ^ k, s.total - delivered - 2 ^ k⟩ } :
          MPEngine k).load < s.load := by
      show s.behind + (s.total - delivered - 2 ^ k) + s.locf.items.length <
        s.behind + (s.reader.map Reader.left).getD 0 + s.locf.items.length
      rw [hReader, Option.map_some, Option.getD_some]
      have hSome : s.total - delivered - 2 ^ k < s.total - delivered := Nat.sub_lt (by omega) hPos
      exact Nat.add_lt_add_right (Nat.add_lt_add_left hSome _) _
    exact ⟨.haystackResp, _, [], trivial, hFire, .inr ⟨_, by omega, locs, i, j, delivered', hNext, hJob.trans h.job_eq,
      h.covered, by rw [List.append_nil, h.tally_eq], rfl⟩⟩
  · omega

theorem Underway.nears (hk : 1 ≤ k) :
    Nears mem sglId job finished rank trace s := by
  by_cases hLocf : s.locf.items = []
  · cases hQueue : s.efifo.items with
    | nil => exact h.nears_req hQueue
    | cons e rest =>
      obtain ⟨epoch, index⟩ := e
      obtain ⟨efifo, -, hq⟩ := Fifo.exists_deq hQueue
      have hNeedle := h.search.needle
      have hNext := h.search.mpNext
      rw [hQueue, List.map_cons] at hNeedle hNext
      obtain ⟨needleOut, -, hn⟩ := Fifo.exists_deq hNeedle
      obtain ⟨mpNextOut, -, hm⟩ := Fifo.exists_deq hNext
      have hPopped : Popped s ⟨_, _, epoch, index, needleOut, mpNextOut, efifo⟩ :=
        ⟨by rw [hNeedle, hn], by rw [hNext, hm], by rw [hQueue, hq]⟩
      by_cases hNeeded : epoch = s.epochReg → ¬s.haystackLenReg < s.jReg → index ≠ s.needleLenReg + 1 →
          s.haystack.items ≠ []
      · obtain ⟨s', events, hFire⟩ := exists_matchNeedleResp h.search.stage hPopped hLocf hNeeded
        exact h.nears_resp hk hFire
      · simp only [not_forall, not_not] at hNeeded
        obtain ⟨-, hMore, -, hHaystack⟩ := hNeeded
        have hNot := mt (h.search.ended_iff hk).mpr hMore
        rw [h.job_eq] at hNot
        exact h.nears_haystackResp hHaystack (by omega)
  · exact h.nears_locdone hLocf

/-- A covered search can be brought to its end. -/
theorem Underway.exists_finished (hk : 1 ≤ k) :
    ∃ s' trace', (machine k mem).Continues noRequests (s, trace) (s', trace') ∧
      ∃ locs, tally trace' = ⟨none, finished ++ [(job, locs)]⟩ := by
  refine Machine.exists_continues (n := rank)
    (fun n trace' s' => (∃ locs, tally trace' = ⟨none, finished ++ [(job, locs)]⟩) ∨
      ∃ locs i j delivered, Underway mem sglId job finished n trace' s' locs i j delivered)
    (fun trace' _ => ∃ locs, tally trace' = ⟨none, finished ++ [(job, locs)]⟩) ?_
    (.inr ⟨locs, i, j, delivered, h⟩)
  rintro n trace' s' (hDone | ⟨locs', i', j', delivered', h'⟩)
  · exact .inl hDone
  · obtain ⟨action, s'', events, hOk, hFire, hDone | ⟨less, hLess, hNext⟩⟩ := h'.nears hk
    · have hPos : 0 < n := by
        have hRank := h'.rank_eq
        have hi := h'.search.one_le_i
        rw [Job.distance] at hRank
        omega
      exact .inr ⟨0, hPos, action, s'', events, hOk, hFire, .inl hDone⟩
    · exact .inr ⟨less, hLess, action, s'', events, hOk, hFire, .inr hNext⟩

end Underway

theorem run_fitting (hk : 1 ≤ k) (hk' : k < 32) {trace : List Event}
    (run : (machine k mem).Run (fitting mem) s trace) : Inv (Paddable k) mem (tally trace) s :=
  run_inv hk hk' (fun _ _ _ hOk => hOk.1) (fun _ _ hOk => hOk.2) run

section Overflow

variable {a : Tally} {Len : BitVec 32 → Prop} {events trace : List Event}

/-- Only an answer can end a search or write something. -/
theorem Searching.stays (h : Searching mem sglId s locs i j delivered) {action : Action}
    (hFire : (machine k mem).fire action s = some (s', events)) (hNot : action ≠ .matchNeedleResp) :
    events = [] ∧ s'.stage = .search ∧ s'.job mem sglId = s.job mem sglId := by
  have hStage := h.stage
  cases action with
  | matchNeedleResp => exact absurd rfl hNot
  | setsearch | locdone | finishSearch =>
    simp only [machine, MPEngine.setsearch, MPEngine.locdone, MPEngine.finishSearch, firing] at hFire
    casesm* _ ∧ _, ∃ _, _
    subst_vars
    exact ⟨rfl, hStage, rfl⟩
  | haystackResp =>
    obtain ⟨hEvents, hJob, -, _, hNext⟩ := h.haystackResp hFire
    exact ⟨hEvents, hNext.stage, hJob⟩
  | matchNeedleReq =>
    obtain ⟨hEvents, hJob, hNext⟩ := h.matchNeedleReq hFire
    exact ⟨hEvents, hNext.stage, hJob⟩
  | finishSetupN2b | finishSetupMp2b =>
    simp [machine, MPEngine.finishSetupN2b, MPEngine.finishSetupMp2b, h.idle] at hFire
  | haystackDrain | bramDrain | setupNeedle | setupMpNext | search =>
    simp [machine, MPEngine.haystackDrain, MPEngine.bramDrain, MPEngine.setupNeedle, MPEngine.setupMpNext,
      MPEngine.search, hStage, guard] at hFire

/-- A search whose reader was asked for nothing stays where it began. -/
theorem Searching.starved (hk : 1 ≤ k) (h : Searching mem sglId s locs i j delivered) (hTotal : s.total = 0)
    (hPos : 0 < (s.job mem sglId).n) {action : Action} (hFire : (machine k mem).fire action s = some (s', events)) :
    locs = [] ∧ events = [] ∧ s'.stage = .search ∧ s'.job mem sglId = s.job mem sglId := by
  obtain ⟨turns, hTurns⟩ := h.turns
  have hLe := h.stream.le
  have hBound := h.stream.bound
  have hj := h.one_le_j
  obtain rfl : j = 1 := by omega
  obtain ⟨rfl, hLocs⟩ := (h.legal.after_first hTurns).2 rfl
  refine ⟨hLocs, ?_⟩
  by_cases hAction : action = .matchNeedleResp
  · subst hAction
    obtain ⟨-, hResp⟩ := responds hFire
    have hNone : ∀ {hv : BitVec 8} {haystack : Fifo (BitVec 8) (2 * 2 ^ k)},
        s.haystack.items = hv :: haystack.items → False := fun hFront => by
      obtain ⟨-, hMore, -⟩ := h.front hFront
      omega
    cases hResp with
    | discard hPopped hEpoch => exact ⟨rfl, h.stage, rfl⟩
    | stop hPopped hEpoch hEnd hLocf =>
      have := (h.ended_iff hk).mp hEnd
      omega
    | found hPopped hEpoch hEnd hFull hLocf =>
      rw [(h.wanted hPopped hEpoch).1] at hFull
      have := h.full_iff.mp hFull
      have := h.legal.pos
      omega
    | restart hCompares | fall hCompares | same hCompares => exact (hNone hCompares.front).elim
  · exact h.stays hFire hAction

/-- If the length of a haystack cannot be filled up to whole words, its search never writes
anything. -/
theorem Inv.starved (hk : 1 ≤ k) (hk' : k < 32) (h : Inv (fun _ => True) mem (tally trace) s)
    (hStage : s.stage = .search) (hLen : ¬Paddable k s.haystackLenReg) {trace' : List Event}
    (path : (machine k mem).Continues (legal mem) (s, trace) (s', trace')) : tally trace' = tally trace := by
  have hPow : 2 ^ k < 2 ^ 32 := Nat.pow_lt_pow_right (by decide) hk'
  suffices hAll : Inv (fun _ => True) mem (tally trace') s' ∧ s'.stage = .search ∧
      ¬Paddable k s'.haystackLenReg ∧ tally trace' = tally trace from hAll.2.2.2
  refine path.invariant (fun trace' s' => Inv (fun _ => True) mem (tally trace') s' ∧ s'.stage = .search ∧
    ¬Paddable k s'.haystackLenReg ∧ tally trace' = tally trace) ?_ ⟨h, hStage, hLen, rfl⟩
  rintro trace₁ s₁ action s₂ events ⟨h₁, hStage₁, hLen₁, hTally⟩ hOk hFire
  obtain ⟨sglId, locs, i, j, delivered, -, hSearch⟩ := h₁.phase.exists_searching hStage₁
  have hWrap : 2 ^ 32 ≤ s₁.haystackLenReg.toNat + (2 ^ k - 1) := Nat.not_lt.mp hLen₁
  have hPos : 0 < (s₁.job mem sglId).n := by
    show 0 < s₁.haystackLenReg.toNat
    omega
  obtain ⟨-, rfl, hStage₂, hJob⟩ := hSearch.starved hk (haystackLenBytes_eq_zero hk' hWrap) hPos hFire
  have hSame : s₂.haystackLenReg = s₁.haystackLenReg := BitVec.eq_of_toNat_eq (congrArg Job.n hJob)
  have h₂ := h₁.step hk hk' hOk (fun _ _ _ => trivial) hFire
  rw [List.append_nil]
  exact ⟨h₂, hStage₂, by rwa [hSame], hTally⟩

end Overflow

instance (job : Job) : Decidable job.Legal :=
  decidable_of_iff (1 ≤ job.m ∧ job.m ≤ 1022 ∧ ∀ i < job.m + 1, 1 ≤ i → job.mpNext i < i)
    ⟨fun ⟨hPos, hLe, hDown⟩ => ⟨hPos, hLe, fun i hi him => hDown i (Nat.lt_succ_of_le him) hi⟩,
      fun h => ⟨h.pos, h.le, fun i him hi => h.down i hi (Nat.le_of_lt_succ him)⟩⟩

instance (mem : Memory) (trace : List Event) (s : MPEngine k) : (action : Action) → Decidable (legal mem trace s action)
  | .search => inferInstanceAs (Decidable (s.job mem 0).Legal)
  | .setsearch _ | .haystackResp | .haystackDrain | .bramDrain | .matchNeedleReq | .matchNeedleResp => .isTrue trivial
  | .finishSetupN2b | .finishSetupMp2b | .finishSearch | .setupNeedle | .setupMpNext | .locdone => .isTrue trivial

instance (len : BitVec 32) : Decidable (Paddable k len) :=
  inferInstanceAs (Decidable (len.toNat + (2 ^ k - 1) < 2 ^ 32))

instance (s : MPEngine k) : (action : Action) → Decidable (Fits s action)
  | .search => decidable_of_iff (s.ssfifo.items.head?.all fun x => decide (Paddable k x.2.1)) (by
      simp [Fits, Option.all_eq_true])
  | .setsearch _ | .haystackResp | .haystackDrain | .bramDrain | .matchNeedleReq | .matchNeedleResp => .isTrue trivial
  | .finishSetupN2b | .finishSetupMp2b | .finishSearch | .setupNeedle | .setupMpNext | .locdone => .isTrue trivial

instance (mem : Memory) (trace : List Event) (s : MPEngine k) (action : Action) :
    Decidable (fitting mem trace s action) :=
  inferInstanceAs (Decidable (legal mem trace s action ∧ Fits s action))

/-- The needle `a` in object 1, its table in object 2 and a haystack that begins with `ba` in
object 3. -/
def smallMemory : Memory := fun sglId a =>
  if sglId = 1 then 0x61 else if sglId = 3 then (if a = 1 then 0x61 else 0x62) else 0

/-- Set up the needle and start a search in a haystack of a given length. -/
def startSmall (len : BitVec 32) : List Action :=
  [.setsearch (1, 2, 1), .setupNeedle, .finishSetupN2b, .setupMpNext, .finishSetupMp2b,
    .setsearch (3, len, 0), .search]

end MPEngine
end Connectal.Strstr
