import Connectal.Rules.Batch
import Connectal.Rules.Machine
import Mathlib.Data.BitVec

/-! `mkMPEngine`: one search through a haystack. The characters of the needle and the entries of
its table are fetched ahead of their use. An epoch tells the answers that are still wanted from
those whose index was guessed wrong. -/
namespace Connectal.Strstr

open Rules

/-- What the read engines find at an offset of a memory object. -/
abbrev Memory := BitVec 32 → Nat → BitVec 8

/-- The little-endian words of a memory object. -/
def Memory.word (mem : Memory) (sglId : BitVec 32) (a : Nat) : BitVec 32 :=
  mem sglId (4 * a + 3) ++ mem sglId (4 * a + 2) ++ mem sglId (4 * a + 1) ++ mem sglId (4 * a)

/-- One search, as the sequential algorithm sees it: needle, table and haystack have indices
that start at 1. -/
structure Job where
  x : Nat → BitVec 8
  mpNext : Nat → Nat
  m : Nat
  t : Nat → BitVec 8
  n : Nat
  base : BitVec 32

/-- One turn of the sequential algorithm: what it writes, and where it goes on. -/
def Job.turn (job : Job) (i j : Nat) : List (BitVec 32) × Option (Nat × Nat) :=
  if job.n < j then ([-1], none)
  else if i = job.m + 1 then ([job.base + BitVec.ofNat 32 j - BitVec.ofNat 32 i], some (1, j))
  else if job.x i = job.t j then ([], some (i + 1, j + 1))
  else if job.mpNext i = 0 then ([], some (1, j + 1))
  else ([], some (job.mpNext i, j))

/-- What the sequential algorithm has written after some turns, and where it is unless it has
stopped. -/
def Job.after (job : Job) : Nat → List (BitVec 32) × Option (Nat × Nat)
  | 0 => ([], some (1, 1))
  | k + 1 =>
    match job.after k with
    | (out, some (i, j)) => (out ++ (job.turn i j).1, (job.turn i j).2)
    | (out, none) => (out, none)

/-- The needles that fit into the BRAMs, with tables that go down. -/
structure Job.Legal (job : Job) : Prop where
  pos : 1 ≤ job.m
  le : job.m ≤ 1022
  down : ∀ i, 1 ≤ i → i ≤ job.m → job.mpNext i < i

inductive Stage where
  | configNeedle
  | configMpNext
  | initialized
  | search
  deriving DecidableEq, Repr

/-- The command that the haystack reader works on: where it is and how much is left. -/
structure Reader where
  sglId : BitVec 32
  offset : Nat
  left : Nat
  deriving DecidableEq, Repr

/-- An engine whose haystack comes in words of `2 ^ k` characters. `needle` and `mpNext` are the
BRAMs, `n2b` and `mp2b` the loads that have been started, with their memory object and last index. -/
structure MPEngine (k : Nat) where
  locf : Fifo (BitVec 32) 2
  conff : Fifo Unit 1
  needle : BitVec 10 → BitVec 8
  mpNext : BitVec 10 → BitVec 32
  haystack : Fifo (BitVec 8) (2 * 2 ^ k)
  stage : Stage
  needleLenReg : BitVec 32
  haystackLenReg : BitVec 32
  haystackBase : BitVec 32
  jReg : BitVec 32
  iReg : BitVec 32
  epochReg : BitVec 2
  n2b : Option (BitVec 32 × BitVec 10)
  mp2b : Option (BitVec 32 × BitVec 10)
  efifo : Fifo (BitVec 2 × BitVec 32) 2
  needleOut : Fifo (BitVec 8) 3
  mpNextOut : Fifo (BitVec 32) 3
  ssfifo : Fifo (BitVec 32 × BitVec 32 × BitVec 32) 2
  reader : Option Reader

namespace MPEngine

variable {k : Nat}

inductive Event where
  | searches (job : Job)
  | writes (loc : BitVec 32)
  | ends

inductive Action where
  | setsearch (x : BitVec 32 × BitVec 32 × BitVec 32)
  | haystackResp
  | haystackDrain
  | bramDrain
  | matchNeedleReq
  | matchNeedleResp
  | finishSetupN2b
  | finishSetupMp2b
  | finishSearch
  | setupNeedle
  | setupMpNext
  | search
  | locdone
  deriving DecidableEq, Repr

/-- The search that the registers describe, on a given haystack. -/
def job (mem : Memory) (haystackSglId : BitVec 32) (s : MPEngine k) : Job where
  x i := s.needle (BitVec.ofNat 10 (i - 1))
  mpNext i := (s.mpNext (BitVec.ofNat 10 i)).toNat
  m := s.needleLenReg.toNat
  t j := mem haystackSglId (s.haystackBase.toNat + (j - 1))
  n := s.haystackLenReg.toNat
  base := s.haystackBase

def setsearch (x : BitVec 32 × BitVec 32 × BitVec 32) (s : MPEngine k) : Option (MPEngine k × List Event) := do
  let ssfifo ← s.ssfifo.enq x
  return ({ s with ssfifo }, [])

/-- The next word of the haystack. -/
def haystackResp (mem : Memory) (s : MPEngine k) : Option (MPEngine k × List Event) := do
  let r ← s.reader
  guard (0 < r.left)
  let haystack ← s.haystack.enqAll ((List.range (2 ^ k)).map fun a => mem r.sglId (r.offset + a))
  return ({ s with haystack, reader := some ⟨r.sglId, r.offset + 2 ^ k, r.left - 2 ^ k⟩ }, [])

def haystackDrain (s : MPEngine k) : Option (MPEngine k × List Event) := do
  guard (s.stage ≠ .search)
  let (_, haystack) ← s.haystack.deq
  return ({ s with haystack }, [])

def bramDrain (s : MPEngine k) : Option (MPEngine k × List Event) := do
  guard (s.stage ≠ .search)
  let (_, mpNextOut) ← s.mpNextOut.deq
  let (_, needleOut) ← s.needleOut.deq
  let (_, efifo) ← s.efifo.deq
  return ({ s with mpNextOut, needleOut, efifo }, [])

def matchNeedleReq (s : MPEngine k) : Option (MPEngine k × List Event) := do
  guard (s.stage = .search)
  let needleOut ← s.needleOut.enq (s.needle ((s.iReg - 1).setWidth 10))
  let mpNextOut ← s.mpNextOut.enq (s.mpNext (s.iReg.setWidth 10))
  let efifo ← s.efifo.enq (s.epochReg, s.iReg)
  return ({ s with needleOut, mpNextOut, efifo, iReg := 1 }, [])

/-- The haystack is only looked at where characters are compared. -/
def matchNeedleResp (s : MPEngine k) : Option (MPEngine k × List Event) := do
  guard (s.stage = .search)
  let (nv, needleOut) ← s.needleOut.deq
  let (mp, mpNextOut) ← s.mpNextOut.deq
  let ((epoch, i), efifo) ← s.efifo.deq
  if epoch = s.epochReg then
    if s.haystackLenReg < s.jReg then
      let locf ← s.locf.enq (-1)
      return ({ s with needleOut, mpNextOut, efifo, stage := .configNeedle, locf }, [.writes (-1), .ends])
    else if i = s.needleLenReg + 1 then
      let locf ← s.locf.enq (s.haystackBase + s.jReg - i)
      return ({ s with needleOut, mpNextOut, efifo, locf }, [.writes (s.haystackBase + s.jReg - i)])
    else
      let (hv, haystack) ← s.haystack.deq
      if nv ≠ hv then
        if mp = 0 then
          return ({ s with needleOut, mpNextOut, efifo, iReg := 1, jReg := s.jReg + 1, haystack }, [])
        else
          return ({ s with needleOut, mpNextOut, efifo, epochReg := s.epochReg + 1, iReg := mp }, [])
      else
        return ({ s with needleOut, mpNextOut, efifo, haystack, jReg := s.jReg + 1,
                         epochReg := s.epochReg + 1, iReg := i + 1 }, [])
  else
    return ({ s with needleOut, mpNextOut, efifo }, [])

/-- The BRAM of the needle has what the load has read. -/
def finishSetupN2b (mem : Memory) (s : MPEngine k) : Option (MPEngine k × List Event) := do
  let (sglId, last) ← s.n2b
  let (_, conff) ← s.conff.deq
  return ({ s with n2b := none, conff, stage := .configMpNext,
                   needle := fun a => if a ≤ last then mem sglId a.toNat else s.needle a }, [])

def finishSetupMp2b (mem : Memory) (s : MPEngine k) : Option (MPEngine k × List Event) := do
  let (sglId, last) ← s.mp2b
  let (_, conff) ← s.conff.deq
  return ({ s with mp2b := none, conff, stage := .initialized,
                   mpNext := fun a => if a ≤ last then mem.word sglId a.toNat else s.mpNext a }, [])

/-- The haystack reader reports its command as done after the last of its data. -/
def finishSearch (s : MPEngine k) : Option (MPEngine k × List Event) := do
  let r ← s.reader
  guard (r.left = 0)
  let (_, conff) ← s.conff.deq
  return ({ s with reader := none, conff }, [])

def setupNeedle (s : MPEngine k) : Option (MPEngine k × List Event) := do
  guard (s.stage = .configNeedle)
  let conff ← s.conff.enq ()
  let ((needleSglId, _, needleLen), _) ← s.ssfifo.deq
  guard (s.n2b = none)
  return ({ s with conff, needleLenReg := needleLen, n2b := some (needleSglId, needleLen.setWidth 10) }, [])

def setupMpNext (s : MPEngine k) : Option (MPEngine k × List Event) := do
  guard (s.stage = .configMpNext)
  let conff ← s.conff.enq ()
  let ((_, mpNextSglId, needleLen), ssfifo) ← s.ssfifo.deq
  guard (s.mp2b = none)
  return ({ s with conff, needleLenReg := needleLen, mp2b := some (mpNextSglId, needleLen.setWidth 10),
                   ssfifo }, [])

/-- The length of a haystack, filled up to whole words. -/
def haystackLenBytes (k : Nat) (haystackLen : BitVec 32) : BitVec 32 :=
  let haystackLenDs := haystackLen + BitVec.ofNat 32 (2 ^ k - 1)
  haystackLenDs >>> k * BitVec.ofNat 32 (2 ^ k)

def search (mem : Memory) (s : MPEngine k) : Option (MPEngine k × List Event) := do
  guard (s.stage = .initialized)
  guard (s.efifo.items = [])
  guard (s.haystack.items = [])
  let conff ← s.conff.enq ()
  let ((haystackSglId, haystackLen, haystackBase), ssfifo) ← s.ssfifo.deq
  guard (s.reader = none)
  let s' := { s with stage := .search, conff, ssfifo, haystackLenReg := haystackLen, haystackBase, iReg := 1,
                     jReg := 1, epochReg := 0,
                     reader := some ⟨haystackSglId, haystackBase.toNat, (haystackLenBytes k haystackLen).toNat⟩ }
  return (s', [.searches (s'.job mem haystackSglId)])

def locdone (s : MPEngine k) : Option (MPEngine k × List Event) := do
  let (_, locf) ← s.locf.deq
  return ({ s with locf }, [])

/-- The engine after reset, with whatever is in the BRAMs. -/
def reset (needle : BitVec 10 → BitVec 8) (mpNext : BitVec 10 → BitVec 32) : MPEngine k where
  locf := .empty
  conff := .empty
  needle
  mpNext
  haystack := .empty
  stage := .configNeedle
  needleLenReg := 0
  haystackLenReg := 0
  haystackBase := 0
  jReg := 0
  iReg := 0
  epochReg := 0
  n2b := none
  mp2b := none
  efifo := .empty
  needleOut := .empty
  mpNextOut := .empty
  ssfifo := .empty
  reader := none

def machine (k : Nat) (mem : Memory) : Machine (MPEngine k) Action Event where
  init s := ∃ needle mpNext, s = reset needle mpNext
  fire
    | .setsearch x => setsearch x
    | .haystackResp => haystackResp mem
    | .haystackDrain => haystackDrain
    | .bramDrain => bramDrain
    | .matchNeedleReq => matchNeedleReq
    | .matchNeedleResp => matchNeedleResp
    | .finishSetupN2b => finishSetupN2b mem
    | .finishSetupMp2b => finishSetupMp2b mem
    | .finishSearch => finishSearch
    | .setupNeedle => setupNeedle
    | .setupMpNext => setupMpNext
    | .search => search mem
    | .locdone => locdone

end MPEngine
end Connectal.Strstr
