import Connectal.Rules.Machine
import Mathlib.Algebra.BigOperators.Group.Finset.Basic
import Mathlib.Algebra.Ring.Defs

/-! The dot product server `mkSharedInterleavedDotProdServerConfig`. It multiplies
two streams of tokens and adds up `k` interleaved sums with one adder. The running
sums go around through the adder and a queue behind it, as `k * gatherSz` partial
sums, so that the adder's latency does not matter; after the last row of a batch
they are added up pass by pass in the same circle. -/
namespace Connectal

open Rules

/-- A token of a matrix. -/
structure MmToken (S : Type) where
  v : S
  first : Bool
  last : Bool
  deriving DecidableEq, Repr

namespace DotProd

/-- Upper bounds on the latencies of multiplier and adder. -/
def ubMulLat : Nat := 8

def ubAddLat : Nat := 8

/-- How many partial sums there are for each dot product. -/
def gatherSz (k : Nat) : Nat := (ubAddLat + k - 1) / k

end DotProd

open DotProd in
/-- State of the server. Multiplier and adder are queues of results in the order
of the requests. -/
structure DotProd (S : Type) (k mulDepth addDepth : Nat) where
  afifo : Fifo (MmToken S) 2
  bfifo : Fifo (MmToken S) 2
  flFifo : Fifo (Bool × Bool) ubMulLat
  mul : Fifo S mulDepth
  adder : Fifo S addDepth
  adderBuffer : Fifo S (k * gatherSz k)
  gFifo : Fifo S k
  dotfifos : Fin k → Fifo S 1
  firstCnt : Nat
  lastCnt : Nat
  gatherCnt : Nat
  rowReg : Fin k
  lastRowReg : Bool
  lastPassReg : Bool
  gReg : Bool
  gatherPhase : Bool

namespace DotProd

variable {S : Type} {k mulDepth addDepth : Nat} [NeZero k]

def reset : DotProd S k mulDepth addDepth where
  afifo := .empty
  bfifo := .empty
  flFifo := .empty
  mul := .empty
  adder := .empty
  adderBuffer := .empty
  gFifo := .empty
  dotfifos _ := .empty
  firstCnt := 0
  lastCnt := 0
  gatherCnt := 0
  rowReg := 0
  lastRowReg := false
  lastPassReg := 0 + 1 == gatherSz k
  gReg := false
  gatherPhase := false

inductive Action (S : Type) (k : Nat) where
  | aPut (tok : MmToken S)
  | bPut (tok : MmToken S)
  | multiply
  | accumulate
  | connectAdderBuffer
  | gather
  | pipeDeq (c : Fin k)

inductive Event (S : Type) (k : Nat) where
  | aPut (tok : MmToken S)
  | bPut (tok : MmToken S)
  | delivered (c : Fin k) (v : S)
  deriving DecidableEq

variable (s : DotProd S k mulDepth addDepth)

def aPut (tok : MmToken S) : Option (DotProd S k mulDepth addDepth) := do
  let afifo ← s.afifo.enq tok
  return { s with afifo }

def bPut (tok : MmToken S) : Option (DotProd S k mulDepth addDepth) := do
  let bfifo ← s.bfifo.enq tok
  return { s with bfifo }

def multiply [Mul S] : Option (DotProd S k mulDepth addDepth) := do
  let (a, afifo) ← s.afifo.deq
  let (b, bfifo) ← s.bfifo.deq
  let flFifo ← s.flFifo.enq (a.first, a.last)
  let mul ← s.mul.enq (a.v * b.v)
  return { s with
    afifo
    bfifo
    flFifo
    mul }

/-- The next row and whether it is the last one. -/
def incrementRowReg (row : Fin k) : Fin k × Bool :=
  if h : row.val + 1 = k then (0, 0 == k - 1)
  else (⟨row + 1, Nat.lt_of_le_of_ne row.isLt h⟩, row.val == k - 2)

/-- The first tokens of a batch start new partial sums, the others take up the
oldest one. -/
def partialSum [Zero S] : Option (S × Fifo S (k * gatherSz k)) :=
  if s.firstCnt = k * gatherSz k then s.adderBuffer.deq else some (0, s.adderBuffer)

def accumulate [Add S] [Zero S] : Option (DotProd S k mulDepth addDepth) := do
  guard (s.gatherPhase = false)
  let (rowReg, lastRowReg) := incrementRowReg s.rowReg
  let ((_, last), flFifo) ← s.flFifo.deq
  let (resp, mul) ← s.mul.deq
  let (acc, adderBuffer) ← s.partialSum
  let adder ← s.adder.enq (resp + acc)
  return { s with
    rowReg
    lastRowReg
    flFifo
    mul
    adderBuffer
    adder
    firstCnt := if s.firstCnt = k * gatherSz k then s.firstCnt else s.firstCnt + 1
    lastCnt := if last then s.lastCnt + 1 else s.lastCnt
    gatherPhase := if last then s.lastCnt == k - 1 else s.gatherPhase }

def connectAdderBuffer : Option (DotProd S k mulDepth addDepth) := do
  let (acc, adder) ← s.adder.deq
  let adderBuffer ← s.adderBuffer.enq acc
  return { s with
    adder
    adderBuffer }

/-- The counters of `gather` outside of the last pass. -/
def gatherCounters : DotProd S k mulDepth addDepth :=
  if s.lastRowReg then
    { s with
      gatherCnt := if s.gReg then s.gatherCnt + 1 else s.gatherCnt
      lastPassReg := if s.gReg then s.gatherCnt + 2 == gatherSz k else s.lastPassReg
      gReg := !s.gReg }
  else s

/-- The counters of `gather` in the last pass. -/
def finishCounters : DotProd S k mulDepth addDepth :=
  if s.lastRowReg then
    { s with
      gatherCnt := 0
      lastPassReg := 0 + 1 == gatherSz k
      lastCnt := 0
      firstCnt := 0
      gatherPhase := false }
  else s

/-- One pass sets the first partial sums aside and adds them to the next ones; the
last pass delivers the sums that are left. -/
def gather [Add S] : Option (DotProd S k mulDepth addDepth) := do
  guard (s.gatherPhase = true)
  let (rowReg, lastRowReg) := incrementRowReg s.rowReg
  let (x, adderBuffer) ← s.adderBuffer.deq
  if s.lastPassReg then
    let dotfifo ← (s.dotfifos s.rowReg).enq x
    return { s.finishCounters with
      rowReg
      lastRowReg
      adderBuffer
      dotfifos := Function.update s.dotfifos s.rowReg dotfifo }
  else if s.gReg then
    let (y, gFifo) ← s.gFifo.deq
    let adder ← s.adder.enq (x + y)
    return { s.gatherCounters with
      rowReg
      lastRowReg
      adderBuffer
      gFifo
      adder }
  else
    let gFifo ← s.gFifo.enq x
    return { s.gatherCounters with
      rowReg
      lastRowReg
      adderBuffer
      gFifo }

def pipeDeq (c : Fin k) : Option (S × DotProd S k mulDepth addDepth) := do
  let (v, dotfifo) ← (s.dotfifos c).deq
  return (v, { s with dotfifos := Function.update s.dotfifos c dotfifo })

def fire [Add S] [Zero S] [Mul S] :
    Action S k → DotProd S k mulDepth addDepth → Option (DotProd S k mulDepth addDepth × List (Event S k))
  | .aPut tok, s => (s.aPut tok).map fun s' => (s', [.aPut tok])
  | .bPut tok, s => (s.bPut tok).map fun s' => (s', [.bPut tok])
  | .multiply, s => s.multiply.map fun s' => (s', [])
  | .accumulate, s => s.accumulate.map fun s' => (s', [])
  | .connectAdderBuffer, s => s.connectAdderBuffer.map fun s' => (s', [])
  | .gather, s => s.gather.map fun s' => (s', [])
  | .pipeDeq c, s => (s.pipeDeq c).map fun r => (r.2, [.delivered c r.1])

def machine (S : Type) [Add S] [Zero S] [Mul S] (k mulDepth addDepth : Nat) [NeZero k] :
    Machine (DotProd S k mulDepth addDepth) (Action S k) (Event S k) where
  init s := s = reset
  fire := fire

end DotProd
end Connectal
