import Connectal.Memory.ReadInternal

/-! What the memory returns and what the clients of the read server are owed.
A burst is a request that the memory has taken together with the beats it has
returned; a client is owed the complete bursts of its own requests, in order. -/
namespace Connectal

open Rules

/-- A request that the memory has taken and the data returned for it so far. -/
structure Burst (numClients addrWidth : Nat) (Data : Type) where
  req : RRec numClients addrWidth
  beats : List Data
  deriving DecidableEq, Repr

namespace Burst

variable {numClients addrWidth : Nat} {Data : Type} (beatShift : Nat)

/-- The memory has returned every beat of the burst. -/
def Complete (b : Burst numClients addrWidth Data) : Prop :=
  b.beats.length = b.req.req.beats beatShift

instance (b : Burst numClients addrWidth Data) : Decidable (b.Complete beatShift) :=
  inferInstanceAs (Decidable (_ = _))

/-- Beat number `i` of the burst as its client should see it. -/
def beat (b : Burst numClients addrWidth Data) (i : Nat) (d : Data) : MemData Data :=
  ⟨d, b.req.req.tag, i + 1 = b.req.req.beats beatShift⟩

/-- The whole burst as its client should see it. -/
def out (b : Burst numClients addrWidth Data) : List (MemData Data) :=
  b.beats.mapIdx (b.beat beatShift)

/-- A returned beat belongs to the oldest incomplete burst with its tag. -/
def receive (tag : BitVec 6) (d : Data) :
    List (Burst numClients addrWidth Data) → List (Burst numClients addrWidth Data)
  | [] => []
  | b :: rest =>
    if b.req.renameTag = tag ∧ ¬ b.Complete beatShift then
      { b with beats := b.beats ++ [d] } :: rest
    else b :: receive tag d rest

variable {beatShift}

/-- If an incomplete burst has the tag, the first such burst grows by one beat. -/
theorem receive_eq_set {tag : BitVec 6} (d : Data) {bursts : List (Burst numClients addrWidth Data)}
    (h : ∃ b ∈ bursts, b.req.renameTag = tag ∧ ¬ b.Complete beatShift) :
    ∃ i b, bursts[i]? = some b ∧ b.req.renameTag = tag ∧ ¬ b.Complete beatShift ∧
      receive beatShift tag d bursts = bursts.set i { b with beats := b.beats ++ [d] } := by
  induction bursts with
  | nil => simp at h
  | cons b rest ih =>
    by_cases hb : b.req.renameTag = tag ∧ ¬ b.Complete beatShift
    · exact ⟨0, b, rfl, hb.1, hb.2, by simp [receive, hb]⟩
    · have hRest : ∃ b ∈ rest, b.req.renameTag = tag ∧ ¬ b.Complete beatShift := by
        obtain ⟨b', hMem, hb'⟩ := h
        rcases List.mem_cons.mp hMem with rfl | hMem
        · exact absurd hb' hb
        · exact ⟨b', hMem, hb'⟩
      obtain ⟨i, b', hGet, hTag, hOpen, hSet⟩ := ih hRest
      refine ⟨i + 1, b', hGet, hTag, hOpen, ?_⟩
      rw [receive, if_neg hb, hSet, List.set_cons_succ]

end Burst

namespace MemReadInternal

variable {numClients numTags tsz addrWidth beatShift : Nat} {Data : Type}

/-- Requests that were accepted from the clients, in order. -/
def loaded (trace : List (Event numClients addrWidth Data)) : List (LRec numClients) :=
  trace.filterMap fun | .loaded client req => some ⟨req, client⟩ | _ => none

/-- Requests that got a tag of their own, in order. -/
def renamed (trace : List (Event numClients addrWidth Data)) : List (RRec numClients addrWidth) :=
  trace.filterMap fun | .renamed r => some r | _ => none

/-- Bursts in the order in which the memory took their requests. -/
def served (beatShift : Nat) (trace : List (Event numClients addrWidth Data)) :
    List (Burst numClients addrWidth Data) :=
  trace.foldl (fun bursts => fun
    | .handed r => bursts ++ [⟨r, []⟩]
    | .beat d => Burst.receive beatShift d.tag d.data bursts
    | _ => bursts) []

/-- Beats delivered to the clients, in order. -/
def delivered (trace : List (Event numClients addrWidth Data)) :
    List (Fin numClients × MemData Data) :=
  trace.filterMap fun | .delivered client d => some (client, d) | _ => none

/-- Clients send well-formed bursts. The memory answers only what it was asked
for, under the renamed tag, and never interrupts a burst that it has begun. -/
def FaithfulMemory :
    Machine.Contract (MemReadInternal numClients numTags tsz addrWidth beatShift Data)
      (Action numClients addrWidth Data) (Event numClients addrWidth Data)
  | _, _, .loadClient _ req => req.WellFormed beatShift
  | trace, _, .readDataPut response =>
    (∃ b ∈ served beatShift trace, b.req.renameTag = response.tag ∧ ¬ b.Complete beatShift) ∧
    ∀ b ∈ served beatShift trace, b.beats ≠ [] → ¬ b.Complete beatShift →
      b.req.renameTag = response.tag
  | _, _, _ => True

instance (trace : List (Event numClients addrWidth Data))
    (s : MemReadInternal numClients numTags tsz addrWidth beatShift Data)
    (action : Action numClients addrWidth Data) : Decidable (FaithfulMemory trace s action) :=
  match action with
  | .loadClient _ req => inferInstanceAs (Decidable (req.WellFormed beatShift))
  | .readDataPut response =>
    have (b : Burst numClients addrWidth Data) : Decidable (b.beats ≠ []) :=
      decidable_of_iff (b.beats.isEmpty = false) (by simp)
    inferInstanceAs (Decidable (_ ∧ ∀ b ∈ served beatShift trace, _ → ¬ b.Complete beatShift →
      b.req.renameTag = response.tag))
  | .checkMmuResp _ | .completeBurst0 | .completeBurst1a | .completeBurst1b | .completeBurst2
  | .readData | .readReqGet | .dmaError | .tagRule _ => .isTrue trivial

/-- The tag of the next physical request is not among the completed tags whose
request is still to be looked up. -/
def KeepsRequest (s : MemReadInternal numClients numTags tsz addrWidth beatShift Data) : Prop :=
  ∀ r ∈ s.reqFifo.items.head?, r.renameTag.setWidth tsz ∉ s.tagGen.compFifo.items

/-- The slot of the next beat is not one that a completed burst still has to
be drained from: neither the burst that is being drained nor one that waits. -/
def KeepsSlot (s : MemReadInternal numClients numTags tsz addrWidth beatShift Data) : Prop :=
  ∀ response ∈ s.readDataPipelineFifo.items.head?, ∀ drq ∈ (s.dreqFifos.out 0).items.head?,
    (s.compReg1 = response.tag.setWidth tsz → s.compReg0 < s.burstLen drq) ∧
    ∀ p ∈ s.compFifo1.items.zip (s.dreqFifos.out 1).items,
      p.1 = response.tag.setWidth tsz → p.2.req.burstLen >>> beatShift < s.burstLen drq

instance (s : MemReadInternal numClients numTags tsz addrWidth beatShift Data) :
    Decidable (KeepsRequest s) :=
  inferInstanceAs (Decidable (∀ r ∈ s.reqFifo.items.head?, _))

instance (s : MemReadInternal numClients numTags tsz addrWidth beatShift Data) :
    Decidable (KeepsSlot s) :=
  inferInstanceAs (Decidable (∀ response ∈ s.readDataPipelineFifo.items.head?,
    ∀ drq ∈ (s.dreqFifos.out 0).items.head?, _ ∧
      ∀ p ∈ s.compFifo1.items.zip (s.dreqFifos.out 1).items, _))

/-- A faithful memory, and no overwritten request or data. -/
def FaithfulMemoryKeepingData :
    Machine.Contract (MemReadInternal numClients numTags tsz addrWidth beatShift Data)
      (Action numClients addrWidth Data) (Event numClients addrWidth Data)
  | trace, s, action =>
    FaithfulMemory trace s action ∧ (action matches .readReqGet → KeepsRequest s) ∧
      (action matches .readData → KeepsSlot s)

instance (trace : List (Event numClients addrWidth Data))
    (s : MemReadInternal numClients numTags tsz addrWidth beatShift Data)
    (action : Action numClients addrWidth Data) :
    Decidable (FaithfulMemoryKeepingData trace s action) :=
  inferInstanceAs (Decidable (_ ∧ _ ∧ _))

/-- Nothing is on its way to a client. -/
def Idle (s : MemReadInternal numClients numTags tsz addrWidth beatShift Data) : Prop :=
  s.readDataPipelineFifo.items = [] ∧ s.tagGen.retFifo.items = [] ∧ s.tagGen.compState = 0 ∧
    s.tagGen.compFifo.items = [] ∧ s.compFifo1.items = [] ∧ s.compReg0 = 0 ∧ s.compFifo0.items = []

/-- Every client receives its own bursts in the order of its requests, each
with exactly the data that the memory returned for that request, under the
client's own tag and with `last` on the final beat; and none gets lost. -/
structure ReadCorrect (trace : List (Event numClients addrWidth Data))
    (s : MemReadInternal numClients numTags tsz addrWidth beatShift Data) : Prop where
  requests : ∀ client,
    ((served beatShift trace).filter fun b => b.req.client = client).map (fun b => b.req.req) <+:
      ((loaded trace).filter fun l => l.client = client).map LRec.req
  data : ∀ client,
    ((delivered trace).filter fun d => d.1 = client).map Prod.snd <+:
      (((served beatShift trace).filter fun b => b.req.client = client).takeWhile
        fun b => b.Complete beatShift).flatMap (Burst.out beatShift)
  noLoss : 2 ^ tsz ≤ numTags → s.Idle → ∀ client,
    ((delivered trace).filter fun d => d.1 = client).map Prod.snd =
      ((served beatShift trace).filter fun b =>
        b.req.client = client ∧ b.Complete beatShift).flatMap (Burst.out beatShift)

end MemReadInternal
end Connectal
