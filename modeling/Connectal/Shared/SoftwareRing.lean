import Connectal.Shared.Software

/-! The ring of two programs is a queue of messages: what is published is handed over in
order and intact, whatever the two programs do between their accesses to the memory. -/
namespace Connectal.Shared

open Layout Rules

/-- The words of a message are in memory from index `p` on. -/
def Stored (mem : Memory) (p : Nat) (m : Message) : Prop :=
  mem p = m.hdr ∧ ∀ i x, m.payload[i]? = some x → mem (p + 1 + i) = x

/-- The first words of a payload are in memory. -/
def Written (mem : Memory) (p : Nat) (m : Message) (n : Nat) : Prop :=
  ∀ i x, i < n → m.payload[i]? = some x → mem (p + 1 + i) = x

variable {c : SharedParam} {mem : Memory} {m : Message} {i : Nat} {v : BitVec 32}

theorem Stored.congr {mem' : Memory} {p : Nat} (h : Stored mem p m)
    (hSame : ∀ i, p ≤ i → i < p + m.size → mem' i = mem i) : Stored mem' p m := by
  have hSize := m.words_le_size
  rw [Message.words] at hSize
  refine ⟨(hSame p (Nat.le_refl p) (by omega)).trans h.1, fun i x hx => ?_⟩
  have hi := (List.getElem_of_getElem? hx).1
  rw [hSame _ (by omega) (by omega)]
  exact h.2 i x hx

theorem Written.congr {mem' : Memory} {p n : Nat} (h : Written mem p m n)
    (hSame : ∀ i, p < i → mem' i = mem i) : Written mem' p m n := by
  intro i x hi hx
  rw [hSame _ (by omega)]
  exact h i x hi hx

/-- The indices in memory describe a queue of messages. -/
def Queued (c : SharedParam) (mem : Memory) (items : List Message) : Prop :=
  c.ring.Queue (Stored mem) Message.size (mem.index sharedRead) items (mem.index sharedWrite)

/-- A write outside of the messages and of the indices. -/
theorem Queued.update {items : List Message} (h : Queued c mem items)
    (hFree : ¬ c.ring.Used (mem.index sharedRead) (mem.index sharedWrite) i) (hi : 4 ≤ i) :
    Queued c (Function.update mem i v) items := by
  have hRead : Memory.index (Function.update mem i v) sharedRead = mem.index sharedRead := by
    rw [Memory.index, Function.update_of_ne (show sharedRead ≠ i by rw [sharedRead]; omega)]
    rfl
  have hWrite : Memory.index (Function.update mem i v) sharedWrite = mem.index sharedWrite := by
    rw [Memory.index, Function.update_of_ne (show sharedWrite ≠ i by rw [sharedWrite]; omega)]
    rfl
  rw [Queued, hRead, hWrite]
  refine h.mono fun p m hUsed hStored => hStored.congr fun j hj hLess => ?_
  rw [Function.update_of_ne]
  rintro rfl
  exact hFree (hUsed j hj hLess)

theorem Memory.index_update_ne {j : Nat} (h : j ≠ i) :
    Memory.index (Function.update mem i v) j = mem.index j := by
  rw [Memory.index, Function.update_of_ne h]
  rfl

theorem Memory.index_update_self {n : Nat} (hn : n < 2 ^ 32) :
    Memory.index (Function.update mem i (BitVec.ofNat 32 n)) i = n := by
  rw [Memory.index, Function.update_self, BitVec.toNat_ofNat, Nat.mod_eq_of_lt hn]

/-- The sender has polled the ring and found room for its message. -/
def Granted (c : SharedParam) (mem : Memory) (m : Message) : Prop :=
  c.Fits m ∧ c.ring.HasRoom (mem.index sharedRead) (mem.index sharedWrite)

theorem Granted.store (h : Granted c mem m)
    (hRead : Memory.index (Function.update mem i v) sharedRead = mem.index sharedRead)
    (hWrite : Memory.index (Function.update mem i v) sharedWrite = mem.index sharedWrite) :
    Granted c (Function.update mem i v) m := by
  rw [Granted, hRead, hWrite]
  exact h

/-- The cells of a message behind the write index are free. -/
theorem Granted.free (h : Granted c mem m) (hi : mem.index sharedWrite ≤ i)
    (hLess : i < mem.index sharedWrite + m.size) :
    ¬ c.ring.Used (mem.index sharedRead) (mem.index sharedWrite) i :=
  h.2.not_used hi (Nat.lt_of_lt_of_le hLess (Nat.add_le_add_left h.1.size_le _))

/-- What holds where the sender stands. -/
def SenderOk (c : SharedParam) (mem : Memory) : SenderPc → Prop
  | .idle | .terminate => True
  | .busywait m addr => c.Fits m ∧ addr = mem.index sharedWrite + 1
  | .polled m addr write =>
    c.Fits m ∧ addr = mem.index sharedWrite + 1 ∧ write = mem.index sharedWrite
  | .marshall m addr i =>
    Granted c mem m ∧ addr = mem.index sharedWrite + 1 ∧ Written mem (mem.index sharedWrite) m i
  | .header m => Granted c mem m ∧ Written mem (mem.index sharedWrite) m m.payload.length
  | .pad m =>
    Granted c mem m ∧ Stored mem (mem.index sharedWrite) m ∧ needsPadding m.hdr = true
  | .publish m => Granted c mem m ∧ Stored mem (mem.index sharedWrite) m

/-- What a step of the sender does to the ring. -/
structure SenderEffect (c : SharedParam) (mem mem' : Memory) (items : List Message)
    (pc pc' : SenderPc) : Prop where
  limit : mem'.index sharedLimit = mem.index sharedLimit
  read : mem'.index sharedRead = mem.index sharedRead
  queue : Queued c mem' (items ++ pc.publishes)
  ok : SenderOk c mem' pc'
  spares : ∀ i, c.ring.Used (mem.index sharedRead) (mem.index sharedWrite) i → mem' i = mem i

section SenderSteps

variable {items : List Message} (hLimit : mem.index sharedLimit = c.limit)
  (hQueue : Queued c mem items)
include hQueue

/-- A store behind the write index, or at it. -/
theorem sender_effect_store {pc pc' : SenderPc} (hPc : pc.publishes = [])
    (hFree : ¬ c.ring.Used (mem.index sharedRead) (mem.index sharedWrite) i)
    (hi : mem.index sharedWrite ≤ i)
    (hOk : Memory.index (Function.update mem i v) sharedRead = mem.index sharedRead →
      Memory.index (Function.update mem i v) sharedWrite = mem.index sharedWrite →
      SenderOk c (Function.update mem i v) pc') :
    SenderEffect c mem (Function.update mem i v) items pc pc' := by
  have hStart := hQueue.bounds.2.2.1
  rw [SharedParam.ring_start] at hStart
  have hWrite : Memory.index (Function.update mem i v) sharedWrite = mem.index sharedWrite :=
    Memory.index_update_ne (by rw [sharedWrite]; omega)
  have hRead : Memory.index (Function.update mem i v) sharedRead = mem.index sharedRead :=
    Memory.index_update_ne (by rw [sharedRead]; omega)
  refine ⟨Memory.index_update_ne (by rw [sharedLimit]; omega), hRead, ?_, hOk hRead hWrite, ?_⟩
  · rw [hPc, List.append_nil]
    exact hQueue.update hFree (by omega)
  · intro j hj
    rw [Function.update_of_ne]
    rintro rfl
    exact hFree hj

theorem sender_marshall {x : BitVec 32} {addr : Nat} (hOk : SenderOk c mem (.marshall m addr i))
    (hx : m.payload[i]? = some x) :
    SenderEffect c mem (Function.update mem (addr + i) x) items (.marshall m addr i)
      (.marshall m addr (i + 1)) := by
  obtain ⟨hGranted, rfl, hWritten⟩ := hOk
  have hi := (List.getElem_of_getElem? hx).1
  have hSize := m.words_le_size
  rw [Message.words] at hSize
  refine sender_effect_store hQueue rfl (hGranted.free (by omega) (by omega)) (by omega)
    fun hRead hWrite => ⟨hGranted.store hRead hWrite, by rw [hWrite], ?_⟩
  rw [hWrite]
  intro j y hj hy
  rcases Nat.lt_succ_iff_lt_or_eq.mp hj with hj | rfl
  · rw [Function.update_of_ne (by omega)]
    exact hWritten j y hj hy
  · rw [Function.update_self]
    exact Option.some.inj (hx.symm.trans hy)

theorem sender_header (hOk : SenderOk c mem (.header m)) :
    SenderEffect c mem (Function.update mem (mem.index sharedWrite) m.hdr) items (.header m)
      (if needsPadding m.hdr then .pad m else .publish m) := by
  obtain ⟨hGranted, hWritten⟩ := hOk
  have hPos := m.size_pos
  refine sender_effect_store hQueue rfl (hGranted.free (Nat.le_refl _) (by omega)) (Nat.le_refl _)
    fun hRead hWrite => ?_
  have hStored : Stored (Function.update mem (mem.index sharedWrite) m.hdr)
      (mem.index sharedWrite) m := by
    refine ⟨Function.update_self .., fun j x hx => ?_⟩
    rw [Function.update_of_ne (by omega)]
    exact hWritten j x (List.getElem_of_getElem? hx).1 hx
  split
  · next hPad => exact ⟨hGranted.store hRead hWrite, by rwa [hWrite], hPad⟩
  · exact ⟨hGranted.store hRead hWrite, by rwa [hWrite]⟩

theorem sender_pad (hOk : SenderOk c mem (.pad m)) :
    SenderEffect c mem (Function.update mem (mem.index sharedWrite + headerWords m.hdr) padHdr) items
      (.pad m) (.publish m) := by
  obtain ⟨hGranted, hStored, hPad⟩ := hOk
  rw [hGranted.1.needsPadding_hdr, beq_iff_eq] at hPad
  have hSize : m.words < m.size := by
    rw [Message.size]
    omega
  rw [hGranted.1.headerWords_hdr]
  refine sender_effect_store hQueue rfl (hGranted.free (by omega) (by omega)) (by omega)
    fun hRead hWrite => ⟨hGranted.store hRead hWrite, ?_⟩
  rw [hWrite]
  refine ⟨?_, fun j x hx => ?_⟩
  · rw [Function.update_of_ne (by rw [Message.words]; omega)]
    exact hStored.1
  · have hj := (List.getElem_of_getElem? hx).1
    rw [Function.update_of_ne (by rw [Message.words]; omega)]
    exact hStored.2 j x hx

theorem sender_terminate :
    SenderEffect c mem (Function.update mem (mem.index sharedWrite) 0) items .terminate .idle :=
  sender_effect_store hQueue rfl (c.ring.not_used_write _ _) (Nat.le_refl _) fun _ _ => trivial

include hLimit in
/-- The message at the write index becomes part of the queue. -/
theorem sender_publish (hOk : SenderOk c mem (.publish m)) :
    SenderEffect c mem (Function.update mem sharedWrite (BitVec.ofNat 32
      (incrementShared c.reqsize mem (mem.index sharedWrite + sendWords m.hdr)))) items (.publish m)
      .terminate := by
  obtain ⟨hGranted, hStored⟩ := hOk
  rw [hGranted.1.sendWords_hdr, SharedParam.incrementShared_eq hLimit]
  have hPush := hQueue.push hGranted.2 hStored m.size_pos hGranted.1.size_le
  have hBounds := hPush.bounds
  have hLess := c.limit_lt
  rw [SharedParam.ring_limit] at hBounds
  have hRead : ∀ w, Memory.index (Function.update mem sharedWrite w) sharedRead =
      mem.index sharedRead := fun w => Memory.index_update_ne (by decide)
  refine ⟨Memory.index_update_ne (by decide), hRead _, ?_, trivial, ?_⟩
  · rw [Queued, hRead, Memory.index_update_self (by omega)]
    refine hPush.mono fun p a hUsed hStored => hStored.congr fun j hj hEnd => ?_
    have hStart : 4 ≤ j := hPush.start_le (hUsed j hj hEnd)
    exact Function.update_of_ne (by rw [sharedWrite]; omega) ..
  · intro j hUsed
    have hStart : 4 ≤ j := hQueue.start_le hUsed
    exact Function.update_of_ne (by rw [sharedWrite]; omega) ..

include hLimit in
theorem sender_effect {pc pc' : SenderPc} {st : Option Store} (hOk : SenderOk c mem pc)
    (h : senderStep c.reqsize mem pc = some (pc', st)) :
    SenderEffect c mem (Software.store mem st) items pc pc' := by
  have hQuiet : ∀ {pc pc' : SenderPc}, pc.publishes = [] → SenderOk c mem pc' →
      SenderEffect c mem mem items pc pc' := by
    intro pc pc' hPc hOk
    exact ⟨rfl, rfl, by rwa [hPc, List.append_nil], hOk, fun _ _ => rfl⟩
  cases pc with
  | idle => simp [senderStep] at h
  | busywait m addr =>
    cases h
    exact hQuiet rfl ⟨hOk.1, hOk.2, rfl⟩
  | polled m addr write =>
    obtain ⟨hFits, hAddr, rfl⟩ := hOk
    simp only [senderStep] at h
    split at h
    · next hRoom =>
      rw [hLimit, SharedParam.avail_iff] at hRoom
      cases h
      exact hQuiet rfl ⟨⟨hFits, hRoom⟩, hAddr, fun i x hi => absurd hi (Nat.not_lt_zero i)⟩
    · cases h
      exact hQuiet rfl ⟨hFits, hAddr⟩
  | marshall m addr i =>
    simp only [senderStep] at h
    cases hx : m.payload[i]? with
    | none =>
      rw [hx] at h
      cases h
      have hEnd := List.getElem?_eq_none_iff.mp hx
      exact hQuiet rfl ⟨hOk.1, fun j x hj => hOk.2.2 j x (by omega)⟩
    | some x =>
      rw [hx] at h
      cases h
      exact sender_marshall hQueue hOk hx
  | header m =>
    cases h
    exact sender_header hQueue hOk
  | pad m =>
    cases h
    exact sender_pad hQueue hOk
  | publish m =>
    cases h
    exact sender_publish hLimit hQueue hOk
  | terminate =>
    cases h
    exact sender_terminate hQueue

end SenderSteps

/-- What holds where the receiver stands, given the messages in the ring. -/
def ReceiverOk (mem : Memory) (items : List Message) : ReceiverPc → Prop
  | .idle => True
  | .polled read => read = mem.index sharedRead
  | .header => items ≠ []
  | .handler hdr got =>
    ∃ m ∈ items.head?, hdr = m.hdr ∧ got = m.payload.take got.length
  | .advance hdr => ∃ m ∈ items.head?, hdr = m.hdr

/-- What a handler gets of a message. -/
def Message.content (m : Message) : BitVec 16 × List (BitVec 32) := (m.num, m.payload)

/-- The message at the read index that was handed over already. -/
def ReceiverPc.ahead : ReceiverPc → Nat
  | .advance _ => 1
  | _ => 0

/-- What a step of the receiver does to the ring. -/
structure ReceiverEffect (c : SharedParam) (mem mem' : Memory) (items : List Message)
    (pc pc' : ReceiverPc) (events : List RingEvent) : Prop where
  limit : mem'.index sharedLimit = mem.index sharedLimit
  write : mem'.index sharedWrite = mem.index sharedWrite
  above : ∀ i, 4 ≤ i → mem' i = mem i
  room : c.ring.HasRoom (mem.index sharedRead) (mem.index sharedWrite) →
    c.ring.HasRoom (mem'.index sharedRead) (mem'.index sharedWrite)
  sents : sents events = []
  released : releases events ≤ items.length
  queue : Queued c mem' (items.drop (releases events))
  ok : ReceiverOk mem' (items.drop (releases events)) pc'
  handed : (items.take pc.ahead).map Message.content ++ handled events =
    (items.take (releases events + pc'.ahead)).map Message.content

section ReceiverSteps

variable {items : List Message} (hLimit : mem.index sharedLimit = c.limit)
  (hQueue : Queued c mem items) (hFits : ∀ m ∈ items, c.Fits m)
include hQueue

theorem receiver_effect_quiet {pc pc' : ReceiverPc} (hOk : ReceiverOk mem items pc')
    (hAhead : pc'.ahead = pc.ahead) : ReceiverEffect c mem mem items pc pc' [] :=
  ⟨rfl, rfl, fun _ _ => rfl, id, rfl, Nat.zero_le _, hQueue, hOk, by simp [handled, releases, hAhead]⟩

include hFits

theorem receiver_header (hOk : ReceiverOk mem items .header) :
    ReceiverEffect c mem mem items .header
      (if (mem (mem.index sharedRead) >>> 16).setWidth 16 ≠ 0xffff#16 then
        .handler (mem (mem.index sharedRead)) [] else .advance (mem (mem.index sharedRead))) [] := by
  cases items with
  | nil => exact absurd rfl hOk
  | cons m rest =>
    have hStored := hQueue.first.1
    have hNum := (hFits m List.mem_cons_self).num_hdr
    rw [hStored.1, hNum, if_pos m.notPad]
    exact receiver_effect_quiet hQueue ⟨m, rfl, rfl, rfl⟩ rfl

theorem receiver_handler {hdr : BitVec 32} {got : List (BitVec 32)}
    (hOk : ReceiverOk mem items (.handler hdr got)) (hMore : got.length + 1 < headerWords hdr) :
    ReceiverEffect c mem mem items (.handler hdr got)
      (.handler hdr (got ++ [mem (mem.index sharedRead + 1 + got.length)])) [] := by
  obtain ⟨m, hm, rfl, hGot⟩ := hOk
  refine receiver_effect_quiet hQueue ⟨m, hm, rfl, ?_⟩ rfl
  obtain ⟨rest, rfl⟩ : ∃ rest, items = m :: rest := by
    cases items with
    | nil => cases hm
    | cons a rest => exact ⟨rest, by rw [Option.mem_some_iff.mp hm]⟩
  rw [(hFits m List.mem_cons_self).headerWords_hdr, Message.words] at hMore
  have hLess : got.length < m.payload.length := by omega
  have hWord := hQueue.first.1.2 got.length _ (List.getElem?_eq_getElem hLess)
  rw [List.length_append, List.length_singleton, List.take_succ_eq_append_getElem hLess, ← hGot, hWord]

theorem receiver_handled {hdr : BitVec 32} {got : List (BitVec 32)}
    (hOk : ReceiverOk mem items (.handler hdr got)) (hLast : ¬ got.length + 1 < headerWords hdr) :
    ReceiverEffect c mem mem items (.handler hdr got) (.advance hdr)
      [.handled ((hdr >>> 16).setWidth 16) got] := by
  obtain ⟨m, hm, rfl, hGot⟩ := hOk
  cases items with
  | nil => cases hm
  | cons a rest =>
    cases hm
    have hFit := hFits m List.mem_cons_self
    rw [hFit.headerWords_hdr, Message.words] at hLast
    rw [List.take_of_length_le (by omega)] at hGot
    subst hGot
    rw [hFit.num_hdr]
    exact ⟨rfl, rfl, fun _ _ => rfl, id, rfl, Nat.zero_le _, hQueue, ⟨m, rfl, rfl⟩, rfl⟩

include hLimit in
theorem receiver_advance {hdr : BitVec 32} (hOk : ReceiverOk mem items (.advance hdr)) :
    ReceiverEffect c mem (Function.update mem sharedRead (BitVec.ofNat 32
      (incrementShared c.reqsize mem (mem.index sharedRead + eventWords hdr)))) items
      (.advance hdr) .idle [.released] := by
  obtain ⟨m, hm, rfl⟩ := hOk
  cases items with
  | nil => cases hm
  | cons a rest =>
    cases hm
    have hFit := hFits m List.mem_cons_self
    have hEvent : eventWords m.hdr = m.size := by
      rw [eventWords, hFit.headerWords_hdr, and_fffe hFit.words_lt, Message.size]
    rw [hEvent, SharedParam.incrementShared_eq hLimit]
    have hPop := hQueue.pop
    have hBounds := hPop.bounds
    have hLess := c.limit_lt
    rw [SharedParam.ring_limit] at hBounds
    have hAbove : ∀ w i, 4 ≤ i → Function.update mem sharedRead w i = mem i :=
      fun w i hi => Function.update_of_ne (by rw [sharedRead]; omega) ..
    have hWrite : ∀ w, Memory.index (Function.update mem sharedRead w) sharedWrite =
        mem.index sharedWrite := fun w => Memory.index_update_ne (by decide)
    refine ⟨Memory.index_update_ne (by decide), hWrite _, hAbove _, fun hRoom => ?_, rfl,
      by simp [releases], ?_, trivial, rfl⟩
    · rw [hWrite, Memory.index_update_self (by omega)]
      exact hRoom.pop hQueue
    · rw [Queued, hWrite, Memory.index_update_self (by omega)]
      exact hPop.mono fun p a hUsed hStored => hStored.congr fun j hj hEnd =>
        hAbove _ _ (hPop.start_le (hUsed j hj hEnd))

include hLimit in
theorem receiver_effect {pc pc' : ReceiverPc} {st : Option Store} {events : List RingEvent}
    (hOk : ReceiverOk mem items pc) (h : receiverStep c.reqsize mem pc = (pc', st, events)) :
    ReceiverEffect c mem (Software.store mem st) items pc pc' events := by
  cases pc with
  | idle =>
    cases h
    exact receiver_effect_quiet hQueue rfl rfl
  | polled read =>
    cases h
    split
    · next hNe =>
      refine receiver_effect_quiet hQueue (fun hNil => hNe ?_) rfl
      exact hOk.trans (hQueue.read_eq_write_iff.mpr hNil)
    · exact receiver_effect_quiet hQueue trivial rfl
  | header =>
    cases h
    exact receiver_header hQueue hFits hOk
  | handler hdr got =>
    simp only [receiverStep] at h
    split at h
    · next hMore =>
      cases h
      exact receiver_handler hQueue hFits hOk hMore
    · next hLast =>
      cases h
      exact receiver_handled hQueue hFits hOk hLast
  | advance hdr =>
    cases h
    exact receiver_advance hLimit hQueue hFits hOk

end ReceiverSteps

end Connectal.Shared
