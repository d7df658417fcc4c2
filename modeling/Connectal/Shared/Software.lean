import Connectal.Shared.Sender

/-! Two programs that share a ring: the sender, and a receiver that polls with
`event_shared`. Their accesses to the memory interleave in every way. -/
namespace Connectal.Shared

open Layout Rules

/-- Where a receiver stands in `event_shared` and in the handler of a message. -/
inductive ReceiverPc where
  | idle
  | polled (read : Nat)
  | header
  | handler (hdr : BitVec 32) (got : List (BitVec 32))
  | advance (hdr : BitVec 32)
  deriving DecidableEq

/-- What an observer of both programs sees: a message is published, it is handed to the
handler, its space is given back. -/
inductive RingEvent where
  | sent (m : Message)
  | handled (num : BitVec 16) (words : List (BitVec 32))
  | released
  deriving DecidableEq

/-- The words by which `event_shared` goes on. -/
def eventWords (hdr : BitVec 32) : Nat := (headerWords hdr + 1) &&& 0xfffe

/-- One step of the receiver. The handler of a method reads the words of the message one
by one, from the address of `mapchannel_sharedInd`. -/
def receiverStep (reqsize : Nat) (mem : Memory) :
    ReceiverPc → ReceiverPc × Option Store × List RingEvent
  | .idle => (.polled (mem.index sharedRead), none, [])
  | .polled read => (if read ≠ mem.index sharedWrite then .header else .idle, none, [])
  | .header =>
    let hdr := mem (mem.index sharedRead)
    (if (hdr >>> 16).setWidth 16 ≠ 0xffff#16 then .handler hdr [] else .advance hdr, none, [])
  | .handler hdr got =>
    if got.length + 1 < headerWords hdr then
      (.handler hdr (got ++ [mem (mem.index sharedRead + 1 + got.length)]), none, [])
    else (.advance hdr, none, [.handled ((hdr >>> 16).setWidth 16) got])
  | .advance hdr =>
    (.idle, some ⟨sharedRead, BitVec.ofNat 32
      (incrementShared reqsize mem (mem.index sharedRead + eventWords hdr)), .index⟩, [.released])

structure Software where
  mem : Memory
  sender : SenderPc
  receiver : ReceiverPc

namespace Software

inductive Action where
  | call (m : Message)
  | sender
  | receiver
  deriving DecidableEq

def store (mem : Memory) (st : Option Store) : Memory := st.elim mem (Store.apply mem)

def fire (reqsize : Nat) : Action → Software → Option (Software × List RingEvent)
  | .call m, s => do
      let sender ← callProxy s.mem m s.sender
      return ({ s with sender }, [])
  | .sender, s => do
      let (sender, st) ← senderStep reqsize s.mem s.sender
      return ({ s with sender, mem := store s.mem st }, s.sender.publishes.map .sent)
  | .receiver, s =>
    let (receiver, st, events) := receiverStep reqsize s.mem s.receiver
    some ({ s with receiver, mem := store s.mem st }, events)

/-- The three kinds of steps. -/
inductive Moves (reqsize : Nat) (s : Software) : Action → Software → List RingEvent → Prop where
  | call {m : Message} : s.sender = .idle →
      Moves reqsize s (.call m) { s with sender := .busywait m (s.mem.index sharedWrite + 1) } []
  | sender {pc : SenderPc} {st : Option Store} : senderStep reqsize s.mem s.sender = some (pc, st) →
      Moves reqsize s .sender { s with sender := pc, mem := store s.mem st }
        (s.sender.publishes.map .sent)
  | receiver {pc : ReceiverPc} {st : Option Store} {events : List RingEvent} :
      receiverStep reqsize s.mem s.receiver = (pc, st, events) →
      Moves reqsize s .receiver { s with receiver := pc, mem := store s.mem st } events

theorem fire_moves {reqsize : Nat} {action : Action} {s s' : Software} {events : List RingEvent}
    (h : fire reqsize action s = some (s', events)) : Moves reqsize s action s' events := by
  cases action with
  | call m =>
    simp only [fire, firing] at h
    obtain ⟨pc, hCall, rfl, rfl⟩ := h
    cases hPc : s.sender with
    | idle =>
      rw [hPc] at hCall
      cases hCall
      exact .call hPc
    | _ =>
      rw [hPc] at hCall
      cases hCall
  | sender =>
    simp only [fire, firing] at h
    obtain ⟨pc, st, hStep, rfl, rfl⟩ := h
    exact .sender hStep
  | receiver =>
    simp only [fire, firing] at h
    obtain ⟨rfl, rfl⟩ := h
    exact .receiver rfl

/-- After `init_shared` the ring is empty. -/
def Init (c : SharedParam) (s : Software) : Prop :=
  s.mem.index sharedLimit = c.limit ∧ s.mem.index sharedWrite = sharedStart ∧
    s.mem.index sharedRead = sharedStart ∧ s.mem sharedStart = 0 ∧ s.sender = .idle ∧
    s.receiver = .idle

def machine (c : SharedParam) : Machine Software Action RingEvent := ⟨Init c, fire c.reqsize⟩

/-- The messages that are sent fit. -/
def Fitting (c : SharedParam) : Machine.Contract Software Action RingEvent :=
  fun _ _ action => ∀ m, action = .call m → c.Fits m

instance (c : SharedParam) (trace : List RingEvent) (s : Software) (action : Action) :
    Decidable (Fitting c trace s action) :=
  match action with
  | .call m => decidable_of_iff (c.Fits m) ⟨fun h _ hm => Action.call.inj hm ▸ h, fun h => h m rfl⟩
  | .sender => .isTrue fun _ hm => by cases hm
  | .receiver => .isTrue fun _ hm => by cases hm

/-- The memory after `init_shared`, with zeros everywhere else. -/
def fresh (c : SharedParam) : Software where
  mem i := if i = sharedLimit then BitVec.ofNat 32 c.limit
    else if i = sharedWrite ∨ i = sharedRead then BitVec.ofNat 32 sharedStart else 0
  sender := .idle
  receiver := .idle

end Software

/-- The messages that were published. -/
def sents (trace : List RingEvent) : List Message :=
  trace.filterMap fun
    | .sent m => some m
    | _ => none

/-- The messages that a handler got. -/
def handled (trace : List RingEvent) : List (BitVec 16 × List (BitVec 32)) :=
  trace.filterMap fun
    | .handled num words => some (num, words)
    | _ => none

/-- The number of messages whose space was given back. -/
def releases (trace : List RingEvent) : Nat := trace.count .released

/-- The messages that are still in the ring. -/
def unread (trace : List RingEvent) : List Message := (sents trace).drop (releases trace)

theorem sents_append (t t' : List RingEvent) : sents (t ++ t') = sents t ++ sents t' :=
  List.filterMap_append

theorem handled_append (t t' : List RingEvent) : handled (t ++ t') = handled t ++ handled t' :=
  List.filterMap_append

theorem sents_publishes (pc : SenderPc) : sents (pc.publishes.map .sent) = pc.publishes := by
  cases pc <;> rfl

theorem releases_append (t t' : List RingEvent) : releases (t ++ t') = releases t + releases t' :=
  List.count_append

end Connectal.Shared
