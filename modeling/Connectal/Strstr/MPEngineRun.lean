import Connectal.Strstr.MPEngine

/-! Runs of `mkMPEngine`: what it writes is what the sequential algorithm writes. -/
namespace Connectal.Strstr

open Rules

section Sequential

variable {job : Job} {turns i j i' j' : Nat} {out more : List (BitVec 32)}

theorem Job.after_turn (h : job.after turns = (out, some (i, j)))
    (hTurn : job.turn i j = (more, some (i', j'))) :
    job.after (turns + 1) = (out ++ more, some (i', j')) := by
  rw [Job.after, h]
  simp only [hTurn]

theorem Job.after_stop (h : job.after turns = (out, some (i, j))) (hTurn : job.turn i j = (more, none)) :
    job.after (turns + 1) = (out ++ more, none) := by
  rw [Job.after, h]
  simp only [hTurn]

/-- How far the sequential algorithm is from its end. -/
def Job.distance (job : Job) (i j : Nat) : Nat := (job.n + 1 - j) * (job.m + 3) + i

theorem Job.distance_advance (hj : j ≤ job.n) : job.distance i j = job.distance i (j + 1) + (job.m + 3) := by
  rw [Job.distance, Job.distance, show job.n + 1 - j = job.n + 1 - (j + 1) + 1 by omega, Nat.succ_mul]
  omega

/-- A turn that does not stop stays inside needle and haystack and comes closer to the end. -/
theorem Job.Legal.turn (h : job.Legal) (hi : 1 ≤ i) (him : i ≤ job.m + 1) (hj : 1 ≤ j)
    (hTurn : job.turn i j = (more, some (i', j'))) :
    1 ≤ i' ∧ i' ≤ job.m + 1 ∧ 1 ≤ j' ∧ j' ≤ job.n + 1 ∧ job.distance i' j' < job.distance i j := by
  have hPos := h.pos
  have hDown := h.down i hi
  have hAdvance : j ≤ job.n → _ := job.distance_advance (i := i)
  simp only [Job.distance] at hAdvance ⊢
  rw [Job.turn] at hTurn
  split_ifs at hTurn with hEnd hFull hSame hZero <;> cases hTurn <;>
    exact ⟨by omega, by omega, by omega, by omega, by omega⟩

/-- The sequential algorithm stops, and the last thing it writes is -1. -/
theorem Job.Legal.exists_stop (h : job.Legal) (hAfter : job.after turns = (out, some (i, j))) (hi : 1 ≤ i)
    (him : i ≤ job.m + 1) (hj : 1 ≤ j) : ∃ turns' more, job.after turns' = (out ++ more ++ [-1], none) := by
  generalize hd : job.distance i j = d
  induction d using Nat.strongRecOn generalizing turns out i j with
  | _ d ih =>
  cases hTurn : job.turn i j with
  | mk more next =>
    cases next with
    | none =>
      have hLast : more = [-1] := by
        rw [Job.turn] at hTurn
        split_ifs at hTurn with hEnd <;> cases hTurn
        rfl
      exact ⟨turns + 1, [], by rw [Job.after_stop hAfter hTurn, hLast, List.append_nil]⟩
    | some next =>
      obtain ⟨i', j'⟩ := next
      obtain ⟨hi', him', hj', -, hCloser⟩ := h.turn hi him hj hTurn
      obtain ⟨turns', later, hStop⟩ := ih _ (hd ▸ hCloser) (Job.after_turn hAfter hTurn) hi' him' hj' rfl
      exact ⟨turns', more ++ later, by rw [hStop, List.append_assoc out]⟩

/-- Nothing is written before the first character has been dealt with. -/
theorem Job.Legal.after_first (h : job.Legal) (hAfter : job.after turns = (out, some (i, j))) :
    1 ≤ j ∧ (j = 1 → i = 1 ∧ out = []) := by
  induction turns generalizing out i j with
  | zero =>
    cases hAfter
    exact ⟨Nat.le_refl 1, fun _ => ⟨rfl, rfl⟩⟩
  | succ turns ih =>
    have hPos := h.pos
    rw [Job.after] at hAfter
    cases hPrior : job.after turns with
    | mk prior at? =>
      rw [hPrior] at hAfter
      cases at? with
      | none => cases hAfter
      | some p =>
        obtain ⟨i₀, j₀⟩ := p
        obtain ⟨hj₀, hFirst⟩ := ih hPrior
        cases hTurn : job.turn i₀ j₀ with
        | mk more next =>
          simp only [hTurn, Prod.mk.injEq] at hAfter
          obtain ⟨rfl, rfl⟩ := hAfter
          rw [Job.turn] at hTurn
          split_ifs at hTurn with hEnd hFull hSame hZero <;> cases hTurn
          · refine ⟨hj₀, fun hj => ?_⟩
            obtain ⟨rfl, -⟩ := hFirst hj
            omega
          · exact ⟨by omega, fun hj => by omega⟩
          · exact ⟨by omega, fun hj => by omega⟩
          · refine ⟨hj₀, fun hj => ?_⟩
            obtain ⟨rfl, -⟩ := hFirst hj
            have := h.down 1 (Nat.le_refl 1) hPos
            omega

end Sequential

/-- The requests that are under way. Those of the last epoch come first and are no longer wanted.
The first one of this epoch is for `i`; those behind it were guessed to be for 1. If there is none,
`i` is still in the register. -/
inductive Awaiting (epoch : BitVec 2) (iReg i : BitVec 32) : List (BitVec 2 × BitVec 32) → Prop where
  | none (hReg : iReg = i) : Awaiting epoch iReg i []
  | stale {a : BitVec 32} {rest : List (BitVec 2 × BitVec 32)} (h : Awaiting epoch iReg i rest) :
      Awaiting epoch iReg i ((epoch - 1, a) :: rest)
  | current {rest : List (BitVec 2 × BitVec 32)} (hReg : iReg = 1) (hRest : ∀ e ∈ rest, e = (epoch, 1)) :
      Awaiting epoch iReg i ((epoch, i) :: rest)

namespace Awaiting

variable {epoch e : BitVec 2} {iReg i a : BitVec 32} {q rest : List (BitVec 2 × BitVec 32)}

theorem sub_one_ne (epoch : BitVec 2) : epoch - 1 ≠ epoch := by
  revert epoch
  decide

theorem enq (h : Awaiting epoch iReg i q) : Awaiting epoch 1 i (q ++ [(epoch, iReg)]) := by
  induction h with
  | none hReg =>
    rw [hReg]
    exact .current rfl fun _ hNone => (by cases hNone)
  | stale _ ih => exact .stale ih
  | current hReg hRest =>
    refine .current rfl fun e he => ?_
    rcases List.mem_append.mp he with hOld | hNew
    · exact hRest e hOld
    · rw [List.mem_singleton.mp hNew, hReg]

/-- An answer of another epoch is thrown away. -/
theorem discard (h : Awaiting epoch iReg i ((e, a) :: rest)) (hEpoch : e ≠ epoch) : Awaiting epoch iReg i rest := by
  cases h with
  | stale h => exact h
  | current _ _ => exact absurd rfl hEpoch

/-- An answer of this epoch is the one that is waited for. -/
theorem head (h : Awaiting epoch iReg i ((epoch, a) :: rest)) :
    a = i ∧ iReg = 1 ∧ ∀ e ∈ rest, e = (epoch, 1) := by
  generalize hq : (epoch, a) :: rest = q at h
  cases h with
  | none _ => cases hq
  | stale _ => exact absurd (congrArg Prod.fst (List.cons.inj hq).1).symm (sub_one_ne epoch)
  | current hReg hRest =>
    obtain ⟨hHead, rfl⟩ := List.cons.inj hq
    exact ⟨congrArg Prod.snd hHead, hReg, hRest⟩

/-- The guess was right: the next answer is for 1. -/
theorem again (hRest : ∀ e ∈ rest, e = (epoch, 1)) : Awaiting epoch 1 1 rest := by
  cases rest with
  | nil => exact .none rfl
  | cons e rest =>
    rw [hRest e List.mem_cons_self]
    exact .current rfl fun e' he' => hRest e' (List.mem_cons_of_mem _ he')

/-- The guess was wrong: with a new epoch all requests are out of date. -/
theorem bump (hRest : ∀ e ∈ rest, e = (epoch, 1)) (i : BitVec 32) : Awaiting (epoch + 1) i i rest := by
  induction rest with
  | nil => exact .none rfl
  | cons e rest ih =>
    rw [hRest e List.mem_cons_self, show epoch = epoch + 1 - 1 by simp]
    have hLater := ih fun e' he' => hRest e' (List.mem_cons_of_mem _ he')
    simpa using hLater.stale

end Awaiting

namespace MPEngine

variable {k : Nat}

/-- The searches that have been seen, each with the positions that were written for it. -/
structure Tally where
  running : Option (Job × List (BitVec 32))
  finished : List (Job × List (BitVec 32))

def Tally.see (a : Tally) : Event → Tally
  | .searches job => { a with running := some (job, []) }
  | .writes loc => { a with running := a.running.map fun (job, locs) => (job, locs ++ [loc]) }
  | .ends => ⟨none, a.finished ++ a.running.toList⟩

def tally (trace : List Event) : Tally := trace.foldl Tally.see ⟨none, []⟩

/-- Searches are only started with needles that fit and tables that go down. -/
def legal (mem : Memory) (_ : List Event) (s : MPEngine k) : Action → Prop
  | .search => (s.job mem 0).Legal
  | _ => True

/-- The length of a haystack can be filled up to whole words without leaving its register. -/
def Paddable (k : Nat) (len : BitVec 32) : Prop := len.toNat + (2 ^ k - 1) < 2 ^ 32

def Fits (s : MPEngine k) : Action → Prop
  | .search => ∀ x ∈ s.ssfifo.items.head?, Paddable k x.2.1
  | _ => True

def fitting (mem : Memory) (trace : List Event) (s : MPEngine k) (action : Action) : Prop :=
  legal mem trace s action ∧ Fits s action

/-- No further search is asked for or started. -/
def noRequests (_ : List Event) (_ : MPEngine k) : Action → Prop
  | .setsearch _ => False
  | .search => False
  | _ => True

/-- How many bytes the reader is asked for. -/
def total (s : MPEngine k) : Nat := (haystackLenBytes k s.haystackLenReg).toNat

/-- The characters from position `j` on that have been delivered are in the queue, and the reader
works on the rest. -/
structure Stream (mem : Memory) (sglId : BitVec 32) (s : MPEngine k) (j delivered : Nat) : Prop where
  items : s.haystack.items = (List.range' j (delivered + 1 - j)).map (s.job mem sglId).t
  le : j ≤ delivered + 1
  bound : delivered ≤ s.total
  words : 2 ^ k ∣ s.total - delivered
  reader : s.reader = some ⟨sglId, s.haystackBase.toNat + delivered, s.total - delivered⟩ ∨
    s.reader = none ∧ delivered = s.total

/-- A search is at position `(i, j)` of the sequential algorithm. -/
structure Searching (mem : Memory) (sglId : BitVec 32) (s : MPEngine k) (locs : List (BitVec 32))
    (i j delivered : Nat) : Prop where
  stage : s.stage = .search
  legal : (s.job mem sglId).Legal
  turns : ∃ turns, (s.job mem sglId).after turns = (locs, some (i, j))
  one_le_i : 1 ≤ i
  i_le : i ≤ (s.job mem sglId).m + 1
  one_le_j : 1 ≤ j
  j_le : j ≤ (s.job mem sglId).n + 1
  jReg : s.jReg = BitVec.ofNat 32 j
  queue : Awaiting s.epochReg s.iReg (BitVec.ofNat 32 i) s.efifo.items
  needle : s.needleOut.items = s.efifo.items.map fun e => s.needle ((e.2 - 1).setWidth 10)
  mpNext : s.mpNextOut.items = s.efifo.items.map fun e => s.mpNext (e.2.setWidth 10)
  idle : s.n2b = none ∧ s.mp2b = none
  stream : Stream mem sglId s j delivered

/-- For each request there is one answer of each BRAM. -/
def Lockstep (s : MPEngine k) : Prop :=
  s.needleOut.items.length = s.efifo.items.length ∧ s.mpNextOut.items.length = s.efifo.items.length

/-- Either no search is running, or one is. -/
inductive Phase (mem : Memory) (s : MPEngine k) : Option (Job × List (BitVec 32)) → Prop where
  | waiting (hStage : s.stage ≠ .search) (hLock : Lockstep s) : Phase mem s none
  | searching {sglId : BitVec 32} {locs : List (BitVec 32)} {i j delivered : Nat}
      (h : Searching mem sglId s locs i j delivered) : Phase mem s (some (s.job mem sglId, locs))

/-- What holds in all stages: `conff` is taken for each command that has not been answered. `Len`
is what is known of the lengths of haystacks. -/
structure Inv (Len : BitVec 32 → Prop) (mem : Memory) (a : Tally) (s : MPEngine k) : Prop where
  conff : s.conff.items.length = s.n2b.toList.length + s.mp2b.toList.length + s.reader.toList.length
  len : s.stage = .search → Len s.haystackLenReg
  phase : Phase mem s a.running
  finished : ∀ x ∈ a.finished, ∃ turns, x.1.after turns = (x.2, none)

variable {mem : Memory} {sglId : BitVec 32} {s s' : MPEngine k} {events : List Event} {locs : List (BitVec 32)}
  {i j delivered : Nat}

/-- Positions stay clear of the end of a register, because the reader is asked for whole words. -/
theorem total_lt (hk : 1 ≤ k) (s : MPEngine k) : s.total + 1 < 2 ^ 32 := by
  have hEven : 2 ∣ s.total := by
    rw [total, haystackLenBytes, BitVec.toNat_mul, BitVec.toNat_ofNat]
    refine (Nat.dvd_mod_iff (by decide)).mpr (Dvd.dvd.mul_left ?_ _)
    exact (Nat.dvd_mod_iff (by decide)).mpr (dvd_pow_self 2 (by omega))
  have hLt : s.total < 2 ^ 32 := (haystackLenBytes k s.haystackLenReg).isLt
  omega

theorem pow_dvd_total (hk : k < 32) (s : MPEngine k) : 2 ^ k ∣ s.total := by
  have hWord : 2 ^ k ∣ 2 ^ 32 := Nat.pow_dvd_pow 2 (by omega)
  rw [total, haystackLenBytes, BitVec.toNat_mul, BitVec.toNat_ofNat]
  exact (Nat.dvd_mod_iff hWord).mpr (Dvd.dvd.mul_left ((Nat.dvd_mod_iff hWord).mpr dvd_rfl) _)

theorem toNat_ofNat_of_lt {a : Nat} (h : a < 2 ^ 32) : (BitVec.ofNat 32 a).toNat = a := by
  rw [BitVec.toNat_ofNat, Nat.mod_eq_of_lt h]

/-- An answer at the heads of the three queues, with what is behind it. -/
structure Answer where
  nv : BitVec 8
  mp : BitVec 32
  epoch : BitVec 2
  index : BitVec 32
  needleOut : Fifo (BitVec 8) 3
  mpNextOut : Fifo (BitVec 32) 3
  efifo : Fifo (BitVec 2 × BitVec 32) 2

structure Popped (s : MPEngine k) (r : Answer) : Prop where
  needle : s.needleOut.items = r.nv :: r.needleOut.items
  mpNext : s.mpNextOut.items = r.mp :: r.mpNextOut.items
  queue : s.efifo.items = (r.epoch, r.index) :: r.efifo.items

def pop (s : MPEngine k) (r : Answer) : MPEngine k :=
  { s with needleOut := r.needleOut, mpNextOut := r.mpNextOut, efifo := r.efifo }

/-- An answer of this epoch to which a character of the haystack is compared. -/
structure Compares (s : MPEngine k) (r : Answer) (hv : BitVec 8) (haystack : Fifo (BitVec 8) (2 * 2 ^ k)) :
    Prop where
  popped : Popped s r
  epoch : r.epoch = s.epochReg
  more : ¬s.haystackLenReg < s.jReg
  part : r.index ≠ s.needleLenReg + 1
  front : s.haystack.items = hv :: haystack.items

/-- Everything that `matchNeedleResp` can do. -/
inductive Responds (s : MPEngine k) : MPEngine k → List Event → Prop where
  | discard {r : Answer} (h : Popped s r) (hEpoch : r.epoch ≠ s.epochReg) : Responds s (s.pop r) []
  | stop {r : Answer} {locf : Fifo (BitVec 32) 2} (h : Popped s r) (hEpoch : r.epoch = s.epochReg)
      (hEnd : s.haystackLenReg < s.jReg) (hLocf : locf.items = s.locf.items ++ [-1]) :
      Responds s { s.pop r with stage := .configNeedle, locf } [.writes (-1), .ends]
  | found {r : Answer} {locf : Fifo (BitVec 32) 2} (h : Popped s r) (hEpoch : r.epoch = s.epochReg)
      (hEnd : ¬s.haystackLenReg < s.jReg) (hFull : r.index = s.needleLenReg + 1)
      (hLocf : locf.items = s.locf.items ++ [s.haystackBase + s.jReg - r.index]) :
      Responds s { s.pop r with locf } [.writes (s.haystackBase + s.jReg - r.index)]
  | restart {r : Answer} {hv : BitVec 8} {haystack : Fifo (BitVec 8) (2 * 2 ^ k)} (h : Compares s r hv haystack)
      (hChar : r.nv ≠ hv) (hZero : r.mp = 0) :
      Responds s { s.pop r with iReg := 1, jReg := s.jReg + 1, haystack } []
  | fall {r : Answer} {hv : BitVec 8} {haystack : Fifo (BitVec 8) (2 * 2 ^ k)} (h : Compares s r hv haystack)
      (hChar : r.nv ≠ hv) (hZero : r.mp ≠ 0) :
      Responds s { s.pop r with epochReg := s.epochReg + 1, iReg := r.mp } []
  | same {r : Answer} {hv : BitVec 8} {haystack : Fifo (BitVec 8) (2 * 2 ^ k)} (h : Compares s r hv haystack)
      (hChar : r.nv = hv) :
      Responds s { s.pop r with haystack, jReg := s.jReg + 1, epochReg := s.epochReg + 1, iReg := r.index + 1 } []

theorem responds (hFire : matchNeedleResp s = some (s', events)) : s.stage = .search ∧ Responds s s' events := by
  simp only [matchNeedleResp, firing] at hFire
  obtain ⟨hStage, nv, needleOut, hNeedle, mp, mpNextOut, hNext, epoch, index, efifo, hQueue, hFire⟩ := hFire
  refine ⟨hStage, ?_⟩
  have hPopped : Popped s ⟨nv, mp, epoch, index, needleOut, mpNextOut, efifo⟩ := ⟨hNeedle, hNext, hQueue⟩
  by_cases hEpoch : epoch = s.epochReg
  · rw [if_pos hEpoch] at hFire
    by_cases hEnd : s.haystackLenReg < s.jReg
    · simp only [if_pos hEnd, firing] at hFire
      obtain ⟨locf, ⟨-, hLocf⟩, rfl, rfl⟩ := hFire
      exact .stop hPopped hEpoch hEnd hLocf
    rw [if_neg hEnd] at hFire
    by_cases hFull : index = s.needleLenReg + 1
    · simp only [if_pos hFull, firing] at hFire
      obtain ⟨locf, ⟨-, hLocf⟩, rfl, rfl⟩ := hFire
      exact .found hPopped hEpoch hEnd hFull hLocf
    simp only [if_neg hFull, firing] at hFire
    obtain ⟨hv, haystack, hHaystack, hFire⟩ := hFire
    have hCompares : Compares s ⟨nv, mp, epoch, index, needleOut, mpNextOut, efifo⟩ hv haystack :=
      ⟨hPopped, hEpoch, hEnd, hFull, hHaystack⟩
    split_ifs at hFire with hChar hZero <;>
      simp only [firing] at hFire <;> obtain ⟨rfl, rfl⟩ := hFire
    · exact .restart hCompares hChar hZero
    · exact .fall hCompares hChar hZero
    · exact .same hCompares (not_not.mp hChar)
  · rw [if_neg hEpoch, Option.some.injEq, Prod.mk.injEq] at hFire
    obtain ⟨rfl, rfl⟩ := hFire
    exact .discard hPopped hEpoch

/-- Requests that are out of date, and whether a request of this epoch is still to be made. -/
def behind (s : MPEngine k) : Nat :=
  2 * s.efifo.items.countP (fun e => e.1 != s.epochReg) +
    (s.efifo.items.all fun e => e.1 != s.epochReg).toNat

/-- What the engine has to do besides the turns of the sequential algorithm. -/
def load (s : MPEngine k) : Nat := s.behind + (s.reader.map Reader.left).getD 0 + s.locf.items.length

variable {r : Answer}

theorem Popped.behind_le (h : Popped s r) (hQueue : s'.efifo = r.efifo) : s'.behind ≤ 3 := by
  have hBound := s.efifo.bound
  rw [h.queue, List.length_cons] at hBound
  have hCount : s'.efifo.items.countP (fun e => e.1 != s'.epochReg) ≤ s'.efifo.items.length := List.countP_le_length
  rw [hQueue] at hCount
  have hAll := Bool.toNat_le (r.efifo.items.all fun e => e.1 != s'.epochReg)
  rw [behind, hQueue]
  omega

/-- An answer leaves little behind. -/
theorem Responds.load_le (h : Responds s s' events) : s'.load ≤ s.load + 4 := by
  have hParts : s'.behind ≤ 3 ∧ s'.reader = s.reader ∧ s'.locf.items.length ≤ s.locf.items.length + 1 := by
    cases h with
    | discard hPopped hEpoch => exact ⟨hPopped.behind_le rfl, rfl, Nat.le_succ _⟩
    | stop hPopped hEpoch hEnd hLocf | found hPopped hEpoch hEnd hFull hLocf =>
      exact ⟨hPopped.behind_le rfl, rfl, by simp [hLocf]⟩
    | restart hCompares | fall hCompares | same hCompares =>
      exact ⟨hCompares.popped.behind_le rfl, rfl, Nat.le_succ _⟩
  obtain ⟨hBehind, hReader, hLocf⟩ := hParts
  rw [load, load, hReader]
  omega

theorem Popped.load_lt (h : Popped s r) (hEpoch : r.epoch ≠ s.epochReg) : (s.pop r).load < s.load := by
  have hBehind : (s.pop r).behind < s.behind := by
    rw [behind, behind, h.queue, List.countP_cons_of_pos (by simpa using hEpoch), List.all_cons]
    rw [show (r.epoch != s.epochReg) = true by simpa using hEpoch, Bool.true_and]
    simp only [pop]
    omega
  show (s.pop r).behind + (s.reader.map Reader.left).getD 0 + s.locf.items.length < s.load
  rw [load]
  omega

namespace Searching

variable (h : Searching mem sglId s locs i j delivered)

include h

theorem j_lt (hk : 1 ≤ k) : j < 2 ^ 32 := by
  have := h.stream.le
  have := h.stream.bound
  have := total_lt hk s
  omega

theorem i_lt : i < 2 ^ 10 := by
  have := h.i_le
  have := h.legal.le
  omega

/-- The registers say whether the haystack is at its end. -/
theorem ended_iff (hk : 1 ≤ k) :
    s.haystackLenReg < s.jReg ↔ (s.job mem sglId).n < j := by
  rw [BitVec.lt_def, h.jReg, toNat_ofNat_of_lt (h.j_lt hk)]
  rfl

theorem jReg_next : s.jReg + 1 = BitVec.ofNat 32 (j + 1) := by
  rw [h.jReg, BitVec.ofNat_add]
  rfl

theorem full_iff :
    BitVec.ofNat 32 i = s.needleLenReg + 1 ↔ i = (s.job mem sglId).m + 1 := by
  have hi := h.i_lt
  have hm : s.needleLenReg.toNat ≤ 1022 := h.legal.le
  rw [← BitVec.toNat_inj, toNat_ofNat_of_lt (by omega), BitVec.toNat_add]
  show i = (s.needleLenReg.toNat + 1) % 2 ^ 32 ↔ i = s.needleLenReg.toNat + 1
  rw [Nat.mod_eq_of_lt (by omega)]

/-- The character of the needle and the entry of the table are read at the right addresses. -/
theorem needle_eq :
    s.needle ((BitVec.ofNat 32 i - 1).setWidth 10) = (s.job mem sglId).x i := by
  have hi := h.i_lt
  have hPos := h.one_le_i
  show _ = s.needle (BitVec.ofNat 10 (i - 1))
  congr 1
  refine BitVec.eq_of_toNat_eq ?_
  rw [BitVec.toNat_setWidth, BitVec.toNat_sub, BitVec.toNat_ofNat, BitVec.toNat_ofNat]
  show (2 ^ 32 - 1 + i % 2 ^ 32) % 2 ^ 32 % 2 ^ 10 = (i - 1) % 2 ^ 10
  omega

theorem mpNext_eq :
    (s.mpNext ((BitVec.ofNat 32 i).setWidth 10)).toNat = (s.job mem sglId).mpNext i := by
  have hi := h.i_lt
  show _ = (s.mpNext (BitVec.ofNat 10 i)).toNat
  congr 2
  refine BitVec.eq_of_toNat_eq ?_
  rw [BitVec.toNat_setWidth, BitVec.toNat_ofNat, BitVec.toNat_ofNat]
  omega

/-- What a search does not touch may change. -/
theorem frame
    {ssfifo : Fifo (BitVec 32 × BitVec 32 × BitVec 32) 2} {locf : Fifo (BitVec 32) 2} {conff : Fifo Unit 1} :
    Searching mem sglId { s with ssfifo, locf, conff } locs i j delivered :=
  { h with stream := { h.stream with } }

theorem haystackResp (hFire : haystackResp mem s = some (s', events)) :
    events = [] ∧ s'.job mem sglId = s.job mem sglId ∧ s'.reader.isSome = s.reader.isSome ∧
      ∃ delivered', Searching mem sglId s' locs i j delivered' := by
  simp only [MPEngine.haystackResp, firing, Fifo.enqAll_eq_some] at hFire
  obtain ⟨r, hr, hLeft, haystack, ⟨-, hItems⟩, rfl, rfl⟩ := hFire
  refine ⟨rfl, rfl, by rw [hr]; rfl, delivered + 2 ^ k, ?_⟩
  rcases h.stream.reader with hReader | ⟨hNone, -⟩
  · obtain rfl := Option.some.inj (hr.symm.trans hReader)
    have hWord : 2 ^ k ≤ s.total - delivered := Nat.le_of_dvd hLeft h.stream.words
    have hPos : 0 < 2 ^ k := Nat.two_pow_pos k
    have hLe := h.stream.le
    refine { h with stream := ⟨?_, by omega, ?_, ?_, .inl ?_⟩ }
    · show haystack.items = (List.range' j (delivered + 2 ^ k + 1 - j)).map (s.job mem sglId).t
      have hSplit : delivered + 2 ^ k + 1 - j = (delivered + 1 - j) + 2 ^ k := by omega
      have hNext : j + (delivered + 1 - j) = delivered + 1 := by omega
      rw [hItems, h.stream.items, hSplit, ← List.range'_append_1, List.map_append, hNext]
      congr 1
      rw [List.range'_eq_map_range, List.map_map]
      refine List.map_congr_left fun a _ => ?_
      show mem sglId (s.haystackBase.toNat + delivered + a) =
        mem sglId (s.haystackBase.toNat + (delivered + 1 + a - 1))
      congr 1
      omega
    · show delivered + 2 ^ k ≤ s.total
      omega
    · show 2 ^ k ∣ s.total - (delivered + 2 ^ k)
      rw [Nat.sub_add_eq]
      exact Nat.dvd_sub h.stream.words (Nat.dvd_refl _)
    · show some _ = some _
      rw [Nat.add_assoc, Nat.sub_add_eq]
      rfl
  · rw [hNone] at hr
    cases hr

theorem finishSearch {r : Reader} (hr : s.reader = some r)
    (hLeft : r.left = 0) {conff : Fifo Unit 1} :
    Searching mem sglId { s with reader := none, conff } locs i j delivered := by
  rcases h.stream.reader with hReader | ⟨hNone, -⟩
  · obtain rfl := Option.some.inj (hr.symm.trans hReader)
    have hBound := h.stream.bound
    have hLeft' : s.total - delivered = 0 := hLeft
    exact { h with stream := { h.stream with reader := .inr ⟨rfl, show delivered = s.total by omega⟩ } }
  · rw [hNone] at hr
    cases hr

theorem matchNeedleReq (hFire : matchNeedleReq s = some (s', events)) :
    events = [] ∧ s'.job mem sglId = s.job mem sglId ∧ Searching mem sglId s' locs i j delivered := by
  simp only [MPEngine.matchNeedleReq, firing] at hFire
  obtain ⟨-, needleOut, ⟨-, hNeedle⟩, mpNextOut, ⟨-, hNext⟩, efifo, ⟨-, hQueue⟩, rfl, rfl⟩ := hFire
  refine ⟨rfl, rfl, { h with queue := ?_, needle := ?_, mpNext := ?_, stream := { h.stream with } }⟩
  · show Awaiting s.epochReg 1 (BitVec.ofNat 32 i) efifo.items
    rw [hQueue]
    exact h.queue.enq
  · show needleOut.items = efifo.items.map fun e => s.needle ((e.2 - 1).setWidth 10)
    rw [hNeedle, hQueue, List.map_append, h.needle]
    rfl
  · show mpNextOut.items = efifo.items.map fun e => s.mpNext (e.2.setWidth 10)
    rw [hNext, hQueue, List.map_append, h.mpNext]
    rfl

theorem outs (hPopped : Popped s r) :
    r.nv = s.needle ((r.index - 1).setWidth 10) ∧ r.mp = s.mpNext (r.index.setWidth 10) ∧
      (r.needleOut.items = r.efifo.items.map fun e => s.needle ((e.2 - 1).setWidth 10)) ∧
      r.mpNextOut.items = r.efifo.items.map fun e => s.mpNext (e.2.setWidth 10) := by
  obtain ⟨hNeedle, hNext, hQueue⟩ := hPopped
  rw [h.needle, hQueue, List.map_cons] at hNeedle
  rw [h.mpNext, hQueue, List.map_cons] at hNext
  obtain ⟨hNv, hNeedle⟩ := List.cons.inj hNeedle
  obtain ⟨hMp, hNext⟩ := List.cons.inj hNext
  exact ⟨hNv.symm, hMp.symm, hNeedle.symm, hNext.symm⟩

/-- An answer of this epoch is for the position of the sequential algorithm. -/
theorem wanted (hPopped : Popped s r) (hEpoch : r.epoch = s.epochReg) :
    r.index = BitVec.ofNat 32 i ∧ s.iReg = 1 ∧ ∀ e ∈ r.efifo.items, e = (s.epochReg, 1) := by
  have hQueue := h.queue
  rw [hPopped.queue, hEpoch] at hQueue
  exact hQueue.head

variable {haystack : Fifo (BitVec 8) (2 * 2 ^ k)}

theorem front {hv : BitVec 8} (hHaystack : s.haystack.items = hv :: haystack.items) :
    hv = (s.job mem sglId).t j ∧ j + 1 ≤ delivered + 1 ∧
      haystack.items = (List.range' (j + 1) (delivered + 1 - (j + 1))).map (s.job mem sglId).t := by
  rw [h.stream.items] at hHaystack
  have hMore : j + 1 ≤ delivered + 1 := by
    by_contra hNot
    rw [Nat.sub_eq_zero_of_le (by omega)] at hHaystack
    cases hHaystack
  rw [show delivered + 1 - j = delivered + 1 - (j + 1) + 1 by omega, List.range'_succ, List.map_cons] at hHaystack
  obtain ⟨hHv, hRest⟩ := List.cons.inj hHaystack
  exact ⟨hHv.symm, hMore, hRest.symm⟩

/-- An answer is thrown away, or it takes the search one turn of the sequential algorithm
further, or it ends the search. -/
inductive Answered (mem : Memory) (sglId : BitVec 32) (s : MPEngine k) (locs : List (BitVec 32))
    (i j delivered : Nat) (s' : MPEngine k) : List Event → Prop where
  | same (hJob : s'.job mem sglId = s.job mem sglId) (h : Searching mem sglId s' locs i j delivered)
      (hLess : s'.load < s.load) : Answered mem sglId s locs i j delivered s' []
  | goes {more : List (BitVec 32)} {i' j' : Nat} (hJob : s'.job mem sglId = s.job mem sglId)
      (h : Searching mem sglId s' (locs ++ more) i' j' delivered)
      (hCloser : (s.job mem sglId).distance i' j' < (s.job mem sglId).distance i j) :
      Answered mem sglId s locs i j delivered s' (more.map .writes)
  | stops (hStage : s'.stage ≠ .search) (hLock : Lockstep s')
      (hTurns : ∃ turns, (s.job mem sglId).after turns = (locs ++ [-1], none)) :
      Answered mem sglId s locs i j delivered s' [.writes (-1), .ends]

theorem goes {more : List (BitVec 32)} {i' j' : Nat}
    (hTurn : (s.job mem sglId).turn i j = (more, some (i', j'))) (hJob : s'.job mem sglId = s.job mem sglId)
    (hStage : s'.stage = .search) (hjReg : s'.jReg = BitVec.ofNat 32 j')
    (hQueue : Awaiting s'.epochReg s'.iReg (BitVec.ofNat 32 i') s'.efifo.items)
    (hNeedle : s'.needleOut.items = s'.efifo.items.map fun e => s'.needle ((e.2 - 1).setWidth 10))
    (hNext : s'.mpNextOut.items = s'.efifo.items.map fun e => s'.mpNext (e.2.setWidth 10))
    (hIdle : s'.n2b = none ∧ s'.mp2b = none) (hStream : Stream mem sglId s' j' delivered) :
    Answered mem sglId s locs i j delivered s' (more.map .writes) := by
  obtain ⟨turns, hTurns⟩ := h.turns
  obtain ⟨hi, him, hj, hjn, hCloser⟩ := h.legal.turn h.one_le_i h.i_le h.one_le_j hTurn
  refine .goes hJob ⟨hStage, ?_, ⟨turns + 1, ?_⟩, hi, ?_, hj, ?_, hjReg, hQueue, hNeedle, hNext, hIdle, hStream⟩
    hCloser
  · rw [hJob]
    exact h.legal
  · rw [hJob]
    exact Job.after_turn hTurns hTurn
  · rw [hJob]
    exact him
  · rw [hJob]
    exact hjn

/-- A comparison is that of the sequential algorithm. -/
theorem compared (hk : 1 ≤ k) {hv : BitVec 8} (hCompares : Compares s r hv haystack) :
    (s.job mem sglId).turn i j =
      if r.nv = hv then ([], some (i + 1, j + 1)) else if r.mp = 0 then ([], some (1, j + 1))
      else ([], some (r.mp.toNat, j)) := by
  obtain ⟨hIndex, -, -⟩ := h.wanted hCompares.popped hCompares.epoch
  obtain ⟨hNv, hMp, -, -⟩ := h.outs hCompares.popped
  obtain ⟨hHv, -, -⟩ := h.front hCompares.front
  have hPart := hCompares.part
  rw [hIndex] at hNv hMp hPart
  rw [Job.turn, if_neg (mt (h.ended_iff hk).mpr hCompares.more), if_neg (mt h.full_iff.mpr hPart), hNv,
    h.needle_eq, hHv, ← h.mpNext_eq, ← hMp]
  have hZero : r.mp = 0 ↔ r.mp.toNat = 0 := BitVec.toNat_inj.symm
  simp only [hZero]

theorem answered (hk : 1 ≤ k) (hResp : Responds s s' events) :
    Answered mem sglId s locs i j delivered s' events := by
  have hStream := h.stream
  cases hResp with
  | @discard r hPopped hEpoch =>
    obtain ⟨-, -, hNeedle, hNext⟩ := h.outs hPopped
    have hQueue := h.queue
    rw [hPopped.queue] at hQueue
    exact .same rfl { h with
      queue := hQueue.discard hEpoch
      needle := hNeedle
      mpNext := hNext
      stream := { hStream with } } (hPopped.load_lt hEpoch)
  | stop hPopped hEpoch hEnd =>
    obtain ⟨turns, hTurns⟩ := h.turns
    obtain ⟨-, -, hNeedle, hNext⟩ := h.outs hPopped
    have hLock := And.intro (congrArg List.length hNeedle) (congrArg List.length hNext)
    rw [List.length_map, List.length_map] at hLock
    refine .stops (by simp) hLock ⟨turns + 1, Job.after_stop hTurns ?_⟩
    rw [Job.turn, if_pos ((h.ended_iff hk).mp hEnd)]
  | @found r locf hPopped hEpoch hEnd hFull =>
    obtain ⟨-, -, hNeedle, hNext⟩ := h.outs hPopped
    obtain ⟨hIndex, hReg, hRest⟩ := h.wanted hPopped hEpoch
    rw [hIndex] at hFull
    have hTurn : (s.job mem sglId).turn i j = ([s.haystackBase + s.jReg - r.index], some (1, j)) := by
      rw [Job.turn, if_neg (mt (h.ended_iff hk).mpr hEnd), if_pos (h.full_iff.mp hFull), h.jReg, hIndex]
      rfl
    refine h.goes hTurn rfl h.stage h.jReg ?_ hNeedle hNext h.idle { hStream with }
    show Awaiting s.epochReg s.iReg 1 r.efifo.items
    rw [hReg]
    exact Awaiting.again hRest
  | @restart r hv haystack hCompares hChar hZero =>
    obtain ⟨-, -, hNeedle, hNext⟩ := h.outs hCompares.popped
    obtain ⟨-, -, hRest⟩ := h.wanted hCompares.popped hCompares.epoch
    obtain ⟨-, hMore, hItems⟩ := h.front hCompares.front
    have hTurn := h.compared hk hCompares
    rw [if_neg hChar, if_pos hZero] at hTurn
    exact h.goes hTurn rfl h.stage h.jReg_next (Awaiting.again hRest) hNeedle hNext h.idle
      { hStream with items := hItems, le := hMore }
  | @fall r hv haystack hCompares hChar hZero =>
    obtain ⟨-, -, hNeedle, hNext⟩ := h.outs hCompares.popped
    obtain ⟨-, -, hRest⟩ := h.wanted hCompares.popped hCompares.epoch
    have hTurn := h.compared hk hCompares
    rw [if_neg hChar, if_neg hZero] at hTurn
    refine h.goes hTurn rfl h.stage h.jReg ?_ hNeedle hNext h.idle { hStream with }
    show Awaiting (s.epochReg + 1) r.mp (BitVec.ofNat 32 r.mp.toNat) r.efifo.items
    rw [BitVec.ofNat_toNat, BitVec.setWidth_eq]
    exact Awaiting.bump hRest r.mp
  | @same r hv haystack hCompares hChar =>
    obtain ⟨-, -, hNeedle, hNext⟩ := h.outs hCompares.popped
    obtain ⟨hIndex, -, hRest⟩ := h.wanted hCompares.popped hCompares.epoch
    obtain ⟨-, hMore, hItems⟩ := h.front hCompares.front
    have hTurn := h.compared hk hCompares
    rw [if_pos hChar] at hTurn
    refine h.goes hTurn rfl h.stage h.jReg_next ?_ hNeedle hNext h.idle
      { hStream with items := hItems, le := hMore }
    show Awaiting (s.epochReg + 1) (r.index + 1) (BitVec.ofNat 32 (i + 1)) r.efifo.items
    rw [hIndex, BitVec.ofNat_add]
    exact Awaiting.bump hRest _

end Searching

variable {r : Option (Job × List (BitVec 32))}

theorem Phase.lockstep (h : Phase mem s r) : Lockstep s := by
  cases h with
  | waiting _ hLock => exact hLock
  | searching hSearch =>
    rw [Lockstep, hSearch.needle, hSearch.mpNext, List.length_map, List.length_map]
    exact ⟨rfl, rfl⟩

theorem Phase.eq_none (h : Phase mem s r) (hStage : s.stage ≠ .search) :
    r = none := by
  cases h with
  | waiting => rfl
  | searching hSearch => exact absurd hSearch.stage hStage

theorem Phase.exists_searching (h : Phase mem s r)
    (hStage : s.stage = .search) : ∃ sglId locs i j delivered,
      r = some (s.job mem sglId, locs) ∧ Searching mem sglId s locs i j delivered := by
  cases h with
  | waiting hNot _ => exact absurd hStage hNot
  | searching hSearch => exact ⟨_, _, _, _, _, rfl, hSearch⟩

theorem Phase.of_searching {job : Job} (h : Searching mem sglId s' locs i j delivered)
    (hJob : s'.job mem sglId = job) : Phase mem s' (some (job, locs)) :=
  hJob ▸ .searching h

theorem Phase.keep (h : Phase mem s r)
    (hStage : s'.stage = s.stage) (hLock : Lockstep s → Lockstep s')
    (hSearch : ∀ sglId locs i j delivered, Searching mem sglId s locs i j delivered →
      s'.job mem sglId = s.job mem sglId ∧ ∃ delivered', Searching mem sglId s' locs i j delivered') :
    Phase mem s' r := by
  cases h with
  | waiting hNot hLock' => exact .waiting (hStage ▸ hNot) (hLock hLock')
  | searching h =>
    obtain ⟨hJob, delivered', h'⟩ := hSearch _ _ _ _ _ h
    exact Phase.of_searching h' hJob

variable {a : Tally} {Len : BitVec 32 → Prop}

theorem eq_none_of_toList {α : Type*} {o : Option α} (h : o.toList.length = 0) : o = none := by
  cases o with
  | none => rfl
  | some _ => simp at h

/-- A search starts at the beginning of the sequential algorithm. -/
theorem Inv.search (hk : k < 32) (h : Inv Len mem a s) (hLegal : (s.job mem 0).Legal)
    (hLen : ∀ x ∈ s.ssfifo.items.head?, Len x.2.1)
    (hFire : MPEngine.search mem s = some (s', events)) : Inv Len mem (events.foldl Tally.see a) s' := by
  simp only [MPEngine.search, firing] at hFire
  obtain ⟨-, hEmpty, hHaystack, conff, ⟨hRoom, hConff⟩, haystackSglId, haystackLen, haystackBase, ssfifo, hFirst,
    hReader, rfl, rfl⟩ := hFire
  have hCount := h.conff
  have hn2b : s.n2b = none := eq_none_of_toList (by omega)
  have hmp2b : s.mp2b = none := eq_none_of_toList (by omega)
  have hLock := h.phase.lockstep
  have hNeedle : s.needleOut.items = [] := List.eq_nil_of_length_eq_zero (by rw [hLock.1, hEmpty]; rfl)
  have hNext : s.mpNextOut.items = [] := List.eq_nil_of_length_eq_zero (by rw [hLock.2, hEmpty]; rfl)
  refine ⟨?_, fun _ => hLen (haystackSglId, haystackLen, haystackBase) (by rw [hFirst]; rfl),
    Phase.of_searching (show Searching mem haystackSglId _ [] 1 1 0 from ?_) rfl, h.finished⟩
  · show conff.items.length = s.n2b.toList.length + s.mp2b.toList.length + 1
    rw [hConff, List.length_append, List.length_singleton]
    omega
  · refine ⟨rfl, ⟨hLegal.pos, hLegal.le, hLegal.down⟩, ⟨0, rfl⟩, by omega, by omega, by omega, by omega, rfl, ?_, ?_, ?_,
      ⟨hn2b, hmp2b⟩, ⟨by rw [hHaystack]; rfl, by omega, Nat.zero_le _, ?_, .inl rfl⟩⟩
    · rw [hEmpty]
      exact .none rfl
    · rw [hEmpty, hNeedle]
      rfl
    · rw [hEmpty, hNext]
      rfl
    · exact pow_dvd_total hk _

theorem foldl_writes (more locs : List (BitVec 32)) (job : Job) (finished : List (Job × List (BitVec 32))) :
    (more.map Event.writes).foldl Tally.see ⟨some (job, locs), finished⟩ =
      ⟨some (job, locs ++ more), finished⟩ := by
  induction more generalizing locs with
  | nil => rw [List.append_nil]; rfl
  | cons loc more ih =>
    rw [List.map_cons, List.foldl_cons]
    refine (ih (locs ++ [loc])).trans ?_
    rw [List.append_assoc]
    rfl

/-- An answer that is thrown away or used. -/
theorem Inv.matchNeedleResp (hk : 1 ≤ k) (h : Inv Len mem a s)
    (hFire : MPEngine.matchNeedleResp s = some (s', events)) : Inv Len mem (events.foldl Tally.see a) s' := by
  obtain ⟨hStage, hResp⟩ := responds hFire
  obtain ⟨sglId, locs, i, j, delivered, hRunning, hSearch⟩ := h.phase.exists_searching hStage
  have hConff : s'.conff.items.length =
      s'.n2b.toList.length + s'.mp2b.toList.length + s'.reader.toList.length := by
    have hCount := h.conff
    cases hResp <;> exact hCount
  have hLen : s'.stage = .search → Len s'.haystackLenReg := by
    have hOld := h.len hStage
    cases hResp <;> exact fun _ => hOld
  obtain ⟨running, finished⟩ := a
  obtain rfl : running = _ := hRunning
  cases hSearch.answered hk hResp with
  | same hJob hNext _ => exact ⟨hConff, hLen, Phase.of_searching hNext hJob, h.finished⟩
  | goes hJob hNext _ =>
    rw [foldl_writes]
    exact ⟨hConff, hLen, Phase.of_searching hNext hJob, h.finished⟩
  | stops hStage' hLock hTurns =>
    refine ⟨hConff, hLen, .waiting hStage' hLock, fun x hx => ?_⟩
    rcases List.mem_append.mp hx with hOld | hNew
    · exact h.finished x hOld
    · rw [List.mem_singleton.mp hNew]
      exact hTurns

/-- Between searches the engine is set up and drained. -/
theorem Inv.waits (h : Inv Len mem a s) (hStage : s.stage ≠ .search) (hStage' : s'.stage ≠ .search)
    (hLock : Lockstep s')
    (hConff : s'.conff.items.length = s'.n2b.toList.length + s'.mp2b.toList.length + s'.reader.toList.length) :
    Inv Len mem a s' := by
  refine ⟨hConff, fun hNot => absurd hNot hStage', ?_, h.finished⟩
  rw [h.phase.eq_none hStage]
  exact .waiting hStage' hLock

theorem Inv.step (hk : 1 ≤ k) (hk' : k < 32) (h : Inv Len mem a s) {trace : List Event} {action : Action}
    (hOk : legal mem trace s action) (hLen : action = .search → ∀ x ∈ s.ssfifo.items.head?, Len x.2.1)
    (hFire : (machine k mem).fire action s = some (s', events)) :
    Inv Len mem (events.foldl Tally.see a) s' := by
  have hCount := h.conff
  have hLock := h.phase.lockstep
  cases action with
  | setsearch | locdone =>
    simp only [machine, MPEngine.setsearch, MPEngine.locdone, firing] at hFire
    casesm* _ ∧ _, ∃ _, _
    subst_vars
    exact ⟨hCount, h.len, h.phase.keep rfl id fun _ _ _ _ _ hSearch => ⟨rfl, _, hSearch.frame⟩, h.finished⟩
  | haystackResp =>
    have hResp : MPEngine.haystackResp mem s = some (s', events) := hFire
    simp only [machine, MPEngine.haystackResp, firing] at hFire
    obtain ⟨r, hr, -, haystack, -, rfl, rfl⟩ := hFire
    refine ⟨?_, h.len, h.phase.keep rfl id fun _ _ _ _ _ hSearch => ⟨rfl, (hSearch.haystackResp hResp).2.2.2⟩, h.finished⟩
    rw [hr] at hCount
    exact hCount
  | haystackDrain =>
    simp only [machine, MPEngine.haystackDrain, firing] at hFire
    obtain ⟨hStage, _, haystack, -, rfl, rfl⟩ := hFire
    exact h.waits hStage hStage hLock hCount
  | bramDrain =>
    simp only [machine, MPEngine.bramDrain, firing] at hFire
    obtain ⟨hStage, _, mpNextOut, hNext, _, needleOut, hNeedle, _, _, efifo, hQueue, rfl, rfl⟩ := hFire
    refine h.waits hStage hStage ?_ hCount
    rw [Lockstep, hNeedle, hNext, hQueue] at hLock
    simpa [Lockstep] using hLock
  | matchNeedleReq =>
    have hReq : MPEngine.matchNeedleReq s = some (s', events) := hFire
    simp only [machine, MPEngine.matchNeedleReq, firing] at hFire
    obtain ⟨hStage, needleOut, ⟨-, hNeedle⟩, mpNextOut, ⟨-, hNext⟩, efifo, ⟨-, hQueue⟩, rfl, rfl⟩ := hFire
    refine ⟨hCount, h.len, h.phase.keep rfl ?_ fun _ _ _ _ _ hSearch => ⟨rfl, _, (hSearch.matchNeedleReq hReq).2.2⟩, h.finished⟩
    intro hLock
    simp [Lockstep, hNeedle, hNext, hQueue, hLock.1, hLock.2]
  | matchNeedleResp => exact h.matchNeedleResp hk hFire
  | finishSetupN2b | finishSetupMp2b =>
    simp only [machine, MPEngine.finishSetupN2b, MPEngine.finishSetupMp2b, firing] at hFire
    obtain ⟨sglId, last, hLoad, _, conff, hConff, rfl, rfl⟩ := hFire
    refine h.waits ?_ (by simp) hLock ?_
    · intro hStage
      obtain ⟨_, _, _, _, _, -, hSearch⟩ := h.phase.exists_searching hStage
      simp [hSearch.idle] at hLoad
    · simp only [hConff, hLoad, counting, Option.toList_some, Option.toList_none] at hCount ⊢
      omega
  | finishSearch =>
    simp only [machine, MPEngine.finishSearch, firing] at hFire
    obtain ⟨r, hr, hLeft, _, conff, hConff, rfl, rfl⟩ := hFire
    refine ⟨?_, h.len, h.phase.keep rfl id fun _ _ _ _ _ hSearch => ⟨rfl, _, hSearch.finishSearch hr hLeft⟩, h.finished⟩
    simp only [hConff, hr, counting, Option.toList_some, Option.toList_none] at hCount ⊢
    omega
  | setupNeedle | setupMpNext =>
    simp only [machine, MPEngine.setupNeedle, MPEngine.setupMpNext, firing] at hFire
    obtain ⟨hStage, conff, ⟨-, hConff⟩, _, _, len, ssfifo, -, hNone, rfl, rfl⟩ := hFire
    refine h.waits (by simp [hStage]) (by simp [hStage]) hLock ?_
    simp only [hConff, hNone, counting, Option.toList_some, Option.toList_none] at hCount ⊢
    omega
  | search => exact h.search hk' hOk (hLen rfl) hFire

theorem tally_append (trace events : List Event) : tally (trace ++ events) = events.foldl Tally.see (tally trace) :=
  List.foldl_append

theorem inv_reset (needle : BitVec 10 → BitVec 8) (mpNext : BitVec 10 → BitVec 32) :
    Inv Len mem ⟨none, []⟩ (reset needle mpNext : MPEngine k) :=
  ⟨rfl, fun hNot => (by cases hNot), .waiting (by simp [reset]) ⟨rfl, rfl⟩, fun _ hx => (by cases hx)⟩

/-- Whatever is known of the lengths of the haystacks. -/
theorem run_inv (hk : 1 ≤ k) (hk' : k < 32) {ok : Machine.Contract (MPEngine k) Action Event}
    (hLegal : ∀ trace s action, ok trace s action → legal mem trace s action)
    (hLen : ∀ trace s, ok trace s .search → ∀ x ∈ s.ssfifo.items.head?, Len x.2.1)
    {trace : List Event} (run : (machine k mem).Run ok s trace) : Inv Len mem (tally trace) s := by
  refine run.invariant (fun trace s => Inv Len mem (tally trace) s) ?_ ?_
  · rintro _ ⟨needle, mpNext, rfl⟩
    exact inv_reset needle mpNext
  · intro trace s action s' events h hOk hFire
    rw [tally_append]
    refine h.step hk hk' (hLegal trace s action hOk) ?_ hFire
    rintro rfl
    exact hLen trace s hOk

end MPEngine
end Connectal.Strstr
