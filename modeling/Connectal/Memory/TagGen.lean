import Connectal.Rules.Machine
import Connectal.Rules.Bram
import Mathlib.Data.Multiset.AddSub

/-! The tag generator of `CompletionBuffer.bsv`. Tags are handed out from the
head of a circular buffer, returned in any order, and completed in order from
its tail. A block memory remembers which tags are still out, and a unary
counter says how many returned tags the tail has yet to pass. -/
namespace Connectal

open Rules

/-- Registers, memory and queues of `mkTagGen`. Pointers have
`tsz = log2 numTags` bits and the unary counter has `numTags` bits. -/
structure TagGen (numTags tsz : Nat) where
  tags : Bram (BitVec tsz) Bool 1
  headPtr : BitVec tsz
  tailPtr : BitVec tsz
  inited : Bool
  compFifo : Fifo (BitVec tsz) 2
  compState : BitVec numTags
  retFifo : Fifo (BitVec tsz) 2

namespace TagGen

variable {numTags tsz : Nat}

/-- Reset state. The contents of the block memory are unspecified. -/
def powerUp (mem : BitVec tsz → Bool) : TagGen numTags tsz where
  tags := Bram.powerUp mem
  headPtr := 0
  tailPtr := 0
  inited := false
  compFifo := Fifo.empty
  compState := 0
  retFifo := Fifo.empty

/-- Speculatively read the status of the oldest tag that is still out. -/
def completeRule0 (s : TagGen numTags tsz) : Option (TagGen numTags tsz) := do
  guard (s.compState.getLsbD 0)
  let tags ← s.tags.read 1 s.tailPtr
  return { s with tags }

/-- Inspect the answer. A tag that is back is retired: it moves to `compFifo`
and the tail passes it. -/
def completeRule1 (s : TagGen numTags tsz) :
    Option (TagGen numTags tsz × Option (BitVec tsz)) := do
  guard (s.compState.getLsbD 0)
  let (rv, tags) ← s.tags.get 1
  if !rv then
    let compFifo ← s.compFifo.enq s.tailPtr
    return ({ s with
      tags
      tailPtr := s.tailPtr + 1
      compState := s.compState >>> 1
      compFifo }, some s.tailPtr)
  else
    return ({ s with tags }, none)

/-- Record one returned tag in the memory and in the unary counter. -/
def ret (s : TagGen numTags tsz) : Option (TagGen numTags tsz × BitVec tsz) := do
  let (tag, retFifo) ← s.retFifo.deq
  let tags ← s.tags.write 1 tag false
  return ({ s with tags, retFifo, compState := 1 ||| (s.compState <<< 1) }, tag)

/-- Clear the memory once after reset. -/
def init (s : TagGen numTags tsz) : Option (TagGen numTags tsz) := do
  guard !s.inited
  let tags ← s.tags.write 0 s.headPtr false
  return { s with tags, headPtr := s.headPtr + 1, inited := s.headPtr + 1 == 0 }

/-- Hand out the tag at the head. -/
def getTag (s : TagGen numTags tsz) : Option (BitVec tsz × TagGen numTags tsz) := do
  guard (s.inited && s.headPtr + 1 != s.tailPtr)
  let tags ← s.tags.write 0 s.headPtr true
  return (s.headPtr, { s with tags, headPtr := s.headPtr + 1 })

def returnTag (s : TagGen numTags tsz) (tag : BitVec tsz) : Option (TagGen numTags tsz) := do
  guard s.inited
  let retFifo ← s.retFifo.enq tag
  return { s with retFifo }

/-- Deliver the oldest retired tag. -/
def complete (s : TagGen numTags tsz) : Option (BitVec tsz × TagGen numTags tsz) := do
  let (tag, compFifo) ← s.compFifo.deq
  return (tag, { s with compFifo })

/-- The rules of the generator itself, which fire without any caller. -/
inductive Rule where
  | completeRule0
  | completeRule1
  | ret
  | init
  deriving DecidableEq, Repr

/-- Internal rules and method calls of the generator. -/
inductive Action (tsz : Nat) where
  | rule (r : Rule)
  | getTag
  | returnTag (tag : BitVec tsz)
  | complete
  deriving DecidableEq, Repr

/-- What can happen to one tag, in the order of its life. -/
inductive Stage where
  | given
  | returned
  | processed
  | retired
  | completed
  deriving DecidableEq, Repr

structure Event (tsz : Nat) where
  stage : Stage
  tag : BitVec tsz
  deriving DecidableEq, Repr

def runRule : Rule → TagGen numTags tsz → Option (TagGen numTags tsz × List (Event tsz))
  | .completeRule0, s => (completeRule0 s).map fun s' => (s', [])
  | .completeRule1, s => (completeRule1 s).map fun r => (r.1, r.2.toList.map (Event.mk .retired))
  | .ret, s => (ret s).map fun r => (r.1, [⟨.processed, r.2⟩])
  | .init, s => (init s).map fun s' => (s', [])

def fire : Action tsz → TagGen numTags tsz → Option (TagGen numTags tsz × List (Event tsz))
  | .rule r, s => runRule r s
  | .getTag, s => (getTag s).map fun r => (r.2, [⟨.given, r.1⟩])
  | .returnTag tag, s => (returnTag s tag).map fun s' => (s', [⟨.returned, tag⟩])
  | .complete, s => (complete s).map fun r => (r.2, [⟨.completed, r.1⟩])

/-- The generator on its own, from any power-up contents of its memory. -/
def machine (numTags tsz : Nat) : Machine (TagGen numTags tsz) (Action tsz) (Event tsz) where
  init s := ∃ mem, s = powerUp mem
  fire := fire

/-- The tags that went through one stage, in order. -/
def tagsAt (stage : Stage) (trace : List (Event tsz)) : List (BitVec tsz) :=
  (trace.filter fun e => e.stage = stage).map Event.tag

/-- Callers return only tags that are out: the tag has been handed out more
often than it has been given back. -/
def ReturnsOutstanding : Machine.Contract (TagGen numTags tsz) (Action tsz) (Event tsz)
  | trace, _, .returnTag tag =>
    (tagsAt .returned trace).count tag < (tagsAt .given trace).count tag
  | _, _, _ => True

instance (trace : List (Event tsz)) (s : TagGen numTags tsz) (action : Action tsz) :
    Decidable (ReturnsOutstanding trace s action) :=
  match action with
  | .returnTag _ => inferInstanceAs (Decidable (_ < _))
  | .rule _ | .getTag | .complete => .isTrue trivial

/-- The number of bits that are set. -/
def onesCount {width : Nat} (x : BitVec width) : Nat := (List.range width).countP x.getLsbD

/-- Tags handed out and not yet retired. -/
def outstanding (trace : List (Event tsz)) : Multiset (BitVec tsz) :=
  (tagsAt .given trace : Multiset (BitVec tsz)) - (tagsAt .retired trace : Multiset (BitVec tsz))

end TagGen
end Connectal
