import Connectal.Rules.Batch
import Connectal.Rules.Machine
import Mathlib.Data.BitVec

/-! The matcher of `RegexpEngine.bsv` and its software reference `sw_ref`. Both walk through
the same automaton: characters and states are mapped to small numbers, bit 7 of a mapped state
says that the state accepts, and a third table has the next states. -/
namespace Connectal.Regexp

open Rules

/-- The tables as bytes in memory. -/
structure Tables where
  charMap : Nat → BitVec 8
  stateMap : Nat → BitVec 8
  stateTransitions : Nat → BitVec 8

/-- The three tables, one for each `BRAMWriter`. -/
inductive Table where
  | charMap
  | stateMap
  | stateTransitions
  deriving DecidableEq, Repr

def Tables.set (t : Tables) (m : Nat → BitVec 8) : Table → Tables
  | .charMap => { t with charMap := m }
  | .stateMap => { t with stateMap := m }
  | .stateTransitions => { t with stateTransitions := m }

/-- Mapped characters and states are below 32, apart from the bit that accepts. -/
structure Tables.Legal (t : Tables) : Prop where
  chars : ∀ k < 256, (t.charMap k).toNat < 32
  states : ∀ k < 32, (t.stateMap k).toNat % 128 < 32
  next : ∀ k < 1024, (t.stateTransitions k).toNat < 32

/-- One turn of the loop of `sw_ref` on its variables `state` and `matches`. The bytes are of
type `char`, which is signed. -/
def swStep (t : Tables) (s : BitVec 32 × Nat) (c : BitVec 8) : BitVec 32 × Nat :=
  let mappedC := (t.charMap (c.signExtend 32).toNat).signExtend 32
  let mappedState := (t.stateMap s.1.toNat).signExtend 32
  let accept := mappedState &&& 0x80 ≠ 0
  let mappedState := if accept then 0 else mappedState
  ((t.stateTransitions (mappedState <<< 5 ||| mappedC).toNat).signExtend 32,
    if accept then s.2 + 1 else s.2)

def swRef (t : Tables) (haystack : List (BitVec 8)) : Nat := (haystack.foldl (swStep t) (0, 0)).2

/-- What the engine reports. -/
inductive LDR (tw : Nat) where
  | loc (iid : BitVec tw) (pos : BitVec 32)
  | done (iid : BitVec tw)
  | ready (iid : BitVec tw)
  | config (iid : BitVec tw)
  deriving DecidableEq, Repr

/-- What the engine is told. A table or a haystack comes with what is in its memory. -/
inductive SSV (tw : Nat) where
  | charMap (contents : Nat → BitVec 8)
  | stateMap (contents : Nat → BitVec 8)
  | stateTransitions (contents : Nat → BitVec 8)
  | search (haystack : List (BitVec 8))
  | retire (token : BitVec tw)

/-- The table that a request loads, with its contents. -/
def SSV.load? {tw : Nat} : SSV tw → Option (Table × (Nat → BitVec 8))
  | .charMap m => some (.charMap, m)
  | .stateMap m => some (.stateMap, m)
  | .stateTransitions m => some (.stateTransitions, m)
  | .search _ => none
  | .retire _ => none

def SSV.search? {tw : Nat} : SSV tw → Option (List (BitVec 8))
  | .search h => some h
  | _ => none

/-- The engine. `tables` are the contents of the three BRAMs, `writers` has what a writer that
has been started stores into its BRAM, and `reader` the bytes that the read engine still has to
deliver for its command. -/
structure RegexpEngine (tw : Nat) where
  readyr : Bool
  setsearchFIFO : Fifo (SSV tw) 4
  ldrFIFO : Fifo (LDR tw) 2
  conff : Fifo Unit 1
  tables : Tables
  writers : Table → Option (Nat → BitVec 8)
  reader : Option (List (BitVec 8))
  haystack : Fifo (BitVec 8) 16
  fsmState : Fifo (BitVec 5) 1
  charMapOut : Fifo (BitVec 8) 3
  stateMapOut : Fifo (BitVec 8) 3
  stateTransitionsOut : Fifo (BitVec 8) 3
  charCnt : BitVec 64
  resCnt : BitVec 64
  accepted : Bool

namespace RegexpEngine

variable {tw : Nat}

inductive Event (tw : Nat) where
  | searches (t : Tables) (haystack : List (BitVec 8))
  | emits (x : LDR tw)

inductive Action (tw : Nat) where
  | setsearch (x : SSV tw)
  | setsearchR0
  | setsearchR1
  | setsearchR2
  | setsearchR3
  | setsearchR4
  | readyR
  | haystackResp
  | haystackFinish
  | finishCharMapWriter
  | finishStateMapWriter
  | finishStateTransitionsWriter
  | lookupState
  | resolveState
  | nextState
  | ldrGet

def setsearch (x : SSV tw) (s : RegexpEngine tw) : Option (RegexpEngine tw × List (Event tw)) := do
  let setsearchFIFO ← s.setsearchFIFO.enq x
  return ({ s with setsearchFIFO }, [])

/-- Starts the writer of a table, for the request at the head of the queue. -/
def startWriter (w : Table) (s : RegexpEngine tw) : Option (RegexpEngine tw × List (Event tw)) := do
  let (x, setsearchFIFO) ← s.setsearchFIFO.deq
  let (w', m) ← x.load?
  guard (w' = w)
  let conff ← s.conff.enq ()
  guard ((s.writers w).isNone = true)
  return ({ s with setsearchFIFO, conff, writers := Function.update s.writers w (some m) }, [])

def setsearchR0 : RegexpEngine tw → Option (RegexpEngine tw × List (Event tw)) := startWriter .charMap
def setsearchR1 : RegexpEngine tw → Option (RegexpEngine tw × List (Event tw)) := startWriter .stateMap
def setsearchR2 : RegexpEngine tw → Option (RegexpEngine tw × List (Event tw)) :=
  startWriter .stateTransitions

def setsearchR3 (s : RegexpEngine tw) : Option (RegexpEngine tw × List (Event tw)) := do
  let (x, setsearchFIFO) ← s.setsearchFIFO.deq
  match x with
  | .search h =>
    let conff ← s.conff.enq ()
    guard (s.reader = none)
    let fsmState ← s.fsmState.enq 0
    return ({ s with setsearchFIFO, conff, reader := some h, charCnt := 0, resCnt := 0, fsmState },
      [.searches s.tables h])
  | _ => none

def setsearchR4 (s : RegexpEngine tw) : Option (RegexpEngine tw × List (Event tw)) := do
  let (x, setsearchFIFO) ← s.setsearchFIFO.deq
  match x with
  | .retire _ => return ({ s with setsearchFIFO, readyr := true }, [])
  | _ => none

def readyR (iid : BitVec tw) (s : RegexpEngine tw) : Option (RegexpEngine tw × List (Event tw)) := do
  guard (s.readyr = true)
  let ldrFIFO ← s.ldrFIFO.enq (.ready iid)
  return ({ s with ldrFIFO, readyr := false }, [.emits (.ready iid)])

/-- The read engine delivers the next eight characters. -/
def haystackResp (s : RegexpEngine tw) : Option (RegexpEngine tw × List (Event tw)) := do
  let h ← s.reader
  guard (h ≠ [])
  let haystack ← s.haystack.enqAll (h.take 8)
  return ({ s with haystack, reader := some (h.drop 8) }, [])

/-- The read engine reports its command as done after the last of its data. -/
def haystackFinish (iid : BitVec tw) (s : RegexpEngine tw) : Option (RegexpEngine tw × List (Event tw)) := do
  guard (s.haystack.items = [])
  guard (s.reader = some [])
  let ldrFIFO ← s.ldrFIFO.enq (.done iid)
  let (_, conff) ← s.conff.deq
  let (_, fsmState) ← s.fsmState.deq
  return ({ s with reader := none, ldrFIFO, conff, fsmState }, [.emits (.done iid)])

/-- A writer is done: its table is in the BRAM. -/
def finishWriter (w : Table) (s : RegexpEngine tw) : Option (RegexpEngine tw × List (Event tw)) := do
  let (_, conff) ← s.conff.deq
  let m ← s.writers w
  return ({ s with conff, tables := s.tables.set m w, writers := Function.update s.writers w none }, [])

def finishCharMapWriter : RegexpEngine tw → Option (RegexpEngine tw × List (Event tw)) :=
  finishWriter .charMap

def finishStateMapWriter : RegexpEngine tw → Option (RegexpEngine tw × List (Event tw)) :=
  finishWriter .stateMap

/-- The transitions come last and are reported. -/
def finishStateTransitionsWriter (iid : BitVec tw) (s : RegexpEngine tw) :
    Option (RegexpEngine tw × List (Event tw)) := do
  let (s, _) ← finishWriter .stateTransitions s
  let ldrFIFO ← s.ldrFIFO.enq (.config iid)
  return ({ s with ldrFIFO }, [.emits (.config iid)])

def lookupState (s : RegexpEngine tw) : Option (RegexpEngine tw × List (Event tw)) := do
  let (c, haystack) ← s.haystack.deq
  let (fsmAddr, fsmState) ← s.fsmState.deq
  let charMapOut ← s.charMapOut.enq (s.tables.charMap c.toNat)
  let stateMapOut ← s.stateMapOut.enq (s.tables.stateMap fsmAddr.toNat)
  return ({ s with haystack, charCnt := s.charCnt + 1, fsmState, charMapOut, stateMapOut }, [])

def resolveState (iid : BitVec tw) (s : RegexpEngine tw) : Option (RegexpEngine tw × List (Event tw)) := do
  let (mappedChar, charMapOut) ← s.charMapOut.deq
  let (mappedState, stateMapOut) ← s.stateMapOut.deq
  let nsAddr : BitVec 10 := mappedState.extractLsb' 0 5 ++ mappedChar.extractLsb' 0 5
  let resCnt := s.resCnt + 1
  if mappedState.getLsbD 7 then
    let ldrFIFO ← s.ldrFIFO.enq (.loc iid (s.resCnt.setWidth 32))
    let fsmState ← s.fsmState.enq 0
    return ({ s with charMapOut, stateMapOut, resCnt, ldrFIFO, accepted := true, fsmState },
      [.emits (.loc iid (s.resCnt.setWidth 32))])
  else
    let stateTransitionsOut ← s.stateTransitionsOut.enq (s.tables.stateTransitions nsAddr.toNat)
    return ({ s with charMapOut, stateMapOut, resCnt, stateTransitionsOut }, [])

def nextState (s : RegexpEngine tw) : Option (RegexpEngine tw × List (Event tw)) := do
  let (newState, stateTransitionsOut) ← s.stateTransitionsOut.deq
  let fsmState ← s.fsmState.enq (newState.setWidth 5)
  return ({ s with stateTransitionsOut, fsmState }, [])

def ldrGet (s : RegexpEngine tw) : Option (RegexpEngine tw × List (Event tw)) := do
  let (_, ldrFIFO) ← s.ldrFIFO.deq
  return ({ s with ldrFIFO }, [])

/-- The engine after reset, with whatever is in the BRAMs. -/
def reset (t : Tables) : RegexpEngine tw where
  readyr := true
  setsearchFIFO := .empty
  ldrFIFO := .empty
  conff := .empty
  tables := t
  writers _ := none
  reader := none
  haystack := .empty
  fsmState := .empty
  charMapOut := .empty
  stateMapOut := .empty
  stateTransitionsOut := .empty
  charCnt := 0
  resCnt := 0
  accepted := false

def machine (iid : BitVec tw) : Machine (RegexpEngine tw) (Action tw) (Event tw) where
  init s := ∃ t, s = reset t
  fire
    | .setsearch x => setsearch x
    | .setsearchR0 => setsearchR0
    | .setsearchR1 => setsearchR1
    | .setsearchR2 => setsearchR2
    | .setsearchR3 => setsearchR3
    | .setsearchR4 => setsearchR4
    | .readyR => readyR iid
    | .haystackResp => haystackResp
    | .haystackFinish => haystackFinish iid
    | .finishCharMapWriter => finishCharMapWriter
    | .finishStateMapWriter => finishStateMapWriter
    | .finishStateTransitionsWriter => finishStateTransitionsWriter iid
    | .lookupState => lookupState
    | .resolveState => resolveState iid
    | .nextState => nextState
    | .ldrGet => ldrGet

end RegexpEngine
end Connectal.Regexp
