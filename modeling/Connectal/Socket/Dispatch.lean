import Connectal.C.Counted
import Connectal.Layout.Bytes
import Connectal.Rules.Machine

/-! `event_socket` of `portalSocket.c` with any number of clients: the first client with something
to report is served, a client that is gone is removed from `client_fd`, and a new connection is
appended to it. -/
namespace Connectal.Socket

open C Layout Rules

/-- What `recvmsg` finds at a client: at least one byte, perhaps with a file descriptor (`-1`
without), nothing yet, or the end of the stream. -/
inductive Stream where
  | data (byte : Byte) (more : List Byte) (recvFd : Int)
  | nothing
  | eof
  deriving DecidableEq

/-- The places of `client_fd`. -/
def maxClientFd : Nat := 10

/-- The fields that `event_socket` uses. -/
structure PortalInternal where
  fpgaFd : Int
  mapBase : Buffer
  handler : Bool
  indicationIndex : Nat
  clientFd : Counted Int

/-- The calls that the function makes. The handler gets the upper half of the word. -/
inductive DispatchEvent where
  | handler (word : BitVec 32) (indicationIndex : Nat) (messageFd : Int)
  | close (fd : Int)
  | accept (fd : Int)
  deriving DecidableEq

namespace PortalInternal

/-- The end of an iteration that does not go on to the next client. -/
def dispatch (s : PortalInternal) (i : Nat) (messageFd : Int) : PortalInternal × List DispatchEvent :=
  ({ s with indicationIndex := i }, if s.handler then [.handler (s.mapBase.word 0) i messageFd] else [])

/-- An iteration with a client that has something to report. -/
def serve (streams : Int → Stream) (s : PortalInternal) (i : Nat) : PortalInternal × List DispatchEvent :=
  let fd := s.clientFd.cells i
  match streams fd with
  | .nothing => (s, [])
  | .eof =>
    let (s, events) := { s with clientFd := s.clientFd.removeAt i }.dispatch i (-1)
    (s, .close fd :: events)
  | .data byte more recvFd => { s with mapBase := s.mapBase.put 0 ((byte :: more).take 4) }.dispatch i recvFd

/-- The loop goes on to the next client only if there is nothing at this one. -/
def receive (streams : Int → Stream) (s : PortalInternal) : PortalInternal × List DispatchEvent :=
  let i := Counted.search (fun fd => streams fd ≠ .nothing) s.clientFd.cells 0 s.clientFd.num.toNat
  if (i : Int) < s.clientFd.num then s.serve streams i else (s, [])

/-- A new connection is stored behind the last client. There must be a place for it. -/
def accept (s : PortalInternal) (sockfd : Option Int) : Option (PortalInternal × List DispatchEvent) :=
  match sockfd with
  | some sockfd =>
    if s.fpgaFd ≠ -1 then do
      guard (s.clientFd.num < maxClientFd)
      let clientFd ← s.clientFd.push sockfd
      return ({ s with clientFd }, [.accept sockfd])
    else some (s, [])
  | none => some (s, [])

def eventSocket (streams : Int → Stream) (sockfd : Option Int) (s : PortalInternal) :
    Option (PortalInternal × List DispatchEvent) := do
  let (s, events) := s.receive streams
  let (s, more) ← s.accept sockfd
  return (s, events ++ more)

/-- A call of `event_socket`, with what it finds at the clients and at the listening socket, or the
connection that `init_socketInit` makes. -/
inductive Action where
  | connect (fd : Int)
  | eventSocket (streams : Int → Stream) (sockfd : Option Int)

def fire : Action → PortalInternal → Option (PortalInternal × List DispatchEvent)
  | .connect fd, s => do
      guard (s.clientFd.num < maxClientFd)
      let clientFd ← s.clientFd.push fd
      return ({ s with clientFd }, [.accept fd])
  | .eventSocket streams sockfd, s => s.eventSocket streams sockfd

def machine : Machine PortalInternal Action DispatchEvent := ⟨fun s => s.clientFd.num = 0, fire⟩

/-! ### What a call should do -/

/-- The first client with something to report. -/
def first (streams : Int → Stream) (fds : List Int) : Nat := fds.findIdx fun fd => streams fd ≠ .nothing

/-- The client that is gone, if the first one that has something to report is. -/
def leaving (streams : Int → Stream) (fds : List Int) : List Int :=
  fds[first streams fds]?.toList.filter fun fd => streams fd = .eof

/-- The other clients. -/
def staying (streams : Int → Stream) (fds : List Int) : List Int :=
  if leaving streams fds = [] then fds else fds.eraseIdx (first streams fds)

/-- The new connection. -/
def coming (s : PortalInternal) (sockfd : Option Int) : List Int := if s.fpgaFd ≠ -1 then sockfd.toList else []

def closes (events : List DispatchEvent) : List Int := events.filterMap fun
  | .close fd => some fd
  | _ => none

def accepts (events : List DispatchEvent) : List Int := events.filterMap fun
  | .accept fd => some fd
  | _ => none

/-- The handler gets a word that this call received from the client that it names, and not if a
client is gone. -/
def Handled (streams : Int → Stream) (fds : List Int) (events : List DispatchEvent) : Prop :=
  ∀ word i messageFd, .handler word i messageFd ∈ events → leaving streams fds = [] ∧
    ∃ fd byte more, fds[i]? = some fd ∧ streams fd = .data byte more messageFd ∧ bytes [word] <+: byte :: more

/-- The handler is called as it should be, a client that is gone is closed and removed, and new
connections come behind the clients that stay. -/
structure Proper (streams : Int → Stream) (sockfd : Option Int) (s s' : PortalInternal) (events : List DispatchEvent) :
    Prop where
  handled : Handled streams s.clientFd.entries events
  closed : closes events = leaving streams s.clientFd.entries
  accepted : accepts events = s.coming sockfd
  clients : s'.clientFd.entries = staying streams s.clientFd.entries ++ s.coming sockfd

/-- If there is a handler, the first client with something to report is not gone, and its data are
at least a word. -/
def Readable (streams : Int → Stream) (s : PortalInternal) : Prop := s.handler = true →
  leaving streams s.clientFd.entries = [] ∧ ∀ fd byte more recvFd,
    s.clientFd.entries[first streams s.clientFd.entries]? = some fd → streams fd = .data byte more recvFd →
      4 ≤ (byte :: more).length

/-- There is a place for a new connection. -/
def Roomy (streams : Int → Stream) (sockfd : Option Int) (s : PortalInternal) : Prop :=
  (staying streams s.clientFd.entries ++ s.coming sockfd).length ≤ maxClientFd

/-- The counter is between zero and the number of places. -/
def Sound (s : PortalInternal) : Prop := 0 ≤ s.clientFd.num ∧ s.clientFd.num ≤ maxClientFd

variable {s s' : PortalInternal} {streams : Int → Stream} {events : List DispatchEvent} {sockfd : Option Int} {fd : Int}

theorem closes_append (events more : List DispatchEvent) : closes (events ++ more) = closes events ++ closes more :=
  List.filterMap_append

theorem accepts_append (events more : List DispatchEvent) : accepts (events ++ more) = accepts events ++ accepts more :=
  List.filterMap_append

theorem Sound.length_le (h : s.Sound) : s.clientFd.entries.length ≤ maxClientFd := by
  have hNum := h.2
  rw [Counted.length_entries]
  omega

theorem search_first (streams : Int → Stream) (v : Counted Int) :
    Counted.search (fun fd => streams fd ≠ .nothing) v.cells 0 v.num.toNat = first streams v.entries := by
  rw [Counted.search_eq, Nat.zero_add, ← List.range_eq_range']
  rfl

theorem receive_none (h : s.clientFd.entries[first streams s.clientFd.entries]? = none) : s.receive streams = (s, []) := by
  have hFirst := List.getElem?_eq_none_iff.mp h
  rw [Counted.length_entries] at hFirst
  simp only [receive, search_first]
  exact if_neg (by omega)

theorem receive_some (h : s.clientFd.entries[first streams s.clientFd.entries]? = some fd) :
    s.receive streams = s.serve streams (first streams s.clientFd.entries) ∧
      s.clientFd.cells (first streams s.clientFd.entries) = fd ∧ streams fd ≠ .nothing := by
  obtain ⟨hFirst, hFd⟩ := List.getElem_of_getElem? h
  refine ⟨?_, by simpa [Counted.entries] using hFd, ?_⟩
  · rw [Counted.length_entries] at hFirst
    simp only [receive, search_first]
    exact if_pos (by omega)
  · have hFound := List.findIdx_getElem (w := hFirst)
    rw [← hFd]
    exact of_decide_eq_true hFound

/-- What the loop over the clients does, apart from calls of the handler. -/
structure Received (streams : Int → Stream) (s s' : PortalInternal) (events : List DispatchEvent) : Prop where
  fpgaFd : s'.fpgaFd = s.fpgaFd
  num : 0 ≤ s'.clientFd.num
  clients : s'.clientFd.entries = staying streams s.clientFd.entries
  closed : closes events = leaving streams s.clientFd.entries
  accepted : accepts events = []
  handled : Handled streams s.clientFd.entries events ↔ Readable streams s

theorem closes_dispatch (s : PortalInternal) (i : Nat) (messageFd : Int) : closes (s.dispatch i messageFd).2 = [] ∧
    accepts (s.dispatch i messageFd).2 = [] := by
  unfold dispatch
  cases s.handler <;> exact ⟨rfl, rfl⟩

theorem mem_dispatch {i j : Nat} {messageFd recvFd : Int} {word : BitVec 32} :
    .handler word j recvFd ∈ (s.dispatch i messageFd).2 ↔
      s.handler = true ∧ word = s.mapBase.word 0 ∧ j = i ∧ recvFd = messageFd := by
  unfold dispatch
  cases s.handler <;> simp

theorem receive_spec (hs : s.Sound) : Received streams s (s.receive streams).1 (s.receive streams).2 := by
  cases h : s.clientFd.entries[first streams s.clientFd.entries]? with
  | none =>
    have hStay : leaving streams s.clientFd.entries = [] := by simp [leaving, h]
    rw [receive_none h]
    refine ⟨rfl, hs.1, by rw [staying, if_pos hStay], hStay.symm, rfl, fun _ _ => ⟨hStay, ?_⟩, ?_⟩
    · rintro fd byte more recvFd hFd
      rw [h] at hFd
      cases hFd
    · rintro - word i messageFd hMem
      cases hMem
  | some fd =>
    obtain ⟨hReceive, hCell, hSome⟩ := receive_some h
    obtain ⟨hFirst, -⟩ := List.getElem_of_getElem? h
    rw [Counted.length_entries] at hFirst
    rw [hReceive, serve, hCell]
    cases hStream : streams fd with
    | nothing => exact absurd hStream hSome
    | eof =>
      have hLeave : leaving streams s.clientFd.entries = [fd] := by simp [leaving, h, hStream]
      have hNone : leaving streams s.clientFd.entries ≠ [] := by simp [hLeave]
      have hQuiet := closes_dispatch { s with clientFd := s.clientFd.removeAt (first streams s.clientFd.entries) }
        (first streams s.clientFd.entries) (-1)
      refine ⟨rfl, show 0 ≤ s.clientFd.num - 1 by omega, ?_, ?_, hQuiet.2, ?_, ?_⟩
      · rw [staying, if_neg hNone]
        refine (Counted.entries_removeAt _ _).trans ?_
        rw [Nat.min_eq_left (by omega)]
      · rw [hLeave]
        exact congrArg (fd :: ·) hQuiet.1
      · intro hHandled hHandler
        -- the handler is called with what the buffer held before
        have hCall := hHandled _ _ _ (List.mem_cons_of_mem _ (mem_dispatch.mpr ⟨hHandler, rfl, rfl, rfl⟩))
        exact absurd hCall.1 hNone
      · intro hReadable word i messageFd hMem
        obtain hClose | hMem := List.mem_cons.mp hMem
        · cases hClose
        · exact absurd (hReadable (mem_dispatch.mp hMem).1).1 hNone
    | data byte more recvFd =>
      have hStay : leaving streams s.clientFd.entries = [] := by simp [leaving, h, hStream]
      have hQuiet := closes_dispatch { s with mapBase := s.mapBase.put 0 ((byte :: more).take 4) }
        (first streams s.clientFd.entries) recvFd
      refine ⟨rfl, hs.1, by rw [staying, if_pos hStay]; rfl, hQuiet.1.trans hStay.symm, hQuiet.2, ?_, ?_⟩
      · intro hHandled hHandler
        refine ⟨hStay, ?_⟩
        rintro fd' byte' more' recvFd' hFd hStream'
        obtain rfl : fd = fd' := Option.some.inj (h.symm.trans hFd)
        obtain ⟨rfl, rfl, rfl⟩ := Stream.data.inj (hStream.symm.trans hStream')
        obtain ⟨-, fd', byte', more', hFd', hStream', hPrefix⟩ :=
          hHandled _ _ _ (mem_dispatch.mpr ⟨hHandler, rfl, rfl, rfl⟩)
        obtain rfl : fd = fd' := Option.some.inj (h.symm.trans hFd')
        obtain ⟨rfl, rfl, -⟩ := Stream.data.inj (hStream.symm.trans hStream')
        exact (length_bytes _).symm.trans_le hPrefix.length_le
      · intro hReadable word i messageFd hMem
        obtain ⟨hHandler, rfl, rfl, rfl⟩ := mem_dispatch.mp hMem
        have hWhole := (hReadable hHandler).2 fd byte more _ h hStream
        refine ⟨hStay, fd, byte, more, h, hStream, ?_⟩
        rw [Buffer.bytes_word_put _ (by rw [List.length_take]; omega)]
        exact List.take_prefix _ _

/-- A new connection is stored exactly if there is a place for it. -/
theorem accept_spec (hs : s.Sound) (sockfd : Option Int) :
    ((s.clientFd.entries ++ s.coming sockfd).length ≤ maxClientFd ↔ ∃ s' events, s.accept sockfd = some (s', events)) ∧
    ∀ s' events, s.accept sockfd = some (s', events) → s'.Sound ∧ closes events = [] ∧
      accepts events = s.coming sockfd ∧ (∀ word i messageFd, .handler word i messageFd ∉ events) ∧
      s'.clientFd.entries = s.clientFd.entries ++ s.coming sockfd := by
  have hSame (hComing : s.coming sockfd = []) (hAccept : s.accept sockfd = some (s, [])) :
      ((s.clientFd.entries ++ s.coming sockfd).length ≤ maxClientFd ↔ ∃ s' events, s.accept sockfd = some (s', events)) ∧
      ∀ s' events, s.accept sockfd = some (s', events) → s'.Sound ∧ closes events = [] ∧
        accepts events = s.coming sockfd ∧ (∀ word i messageFd, .handler word i messageFd ∉ events) ∧
        s'.clientFd.entries = s.clientFd.entries ++ s.coming sockfd := by
    rw [hComing, List.append_nil]
    refine ⟨⟨fun _ => ⟨s, [], hAccept⟩, fun _ => hs.length_le⟩, ?_⟩
    rintro s' events h
    obtain ⟨rfl, rfl⟩ := Prod.mk.inj (Option.some.inj (hAccept.symm.trans h))
    exact ⟨hs, rfl, rfl, fun _ _ _ => List.not_mem_nil, rfl⟩
  cases sockfd with
  | none => exact hSame (by simp [coming]) rfl
  | some fd =>
    by_cases hListen : s.fpgaFd ≠ -1
    · have hComing : s.coming (some fd) = [fd] := if_pos hListen
      obtain ⟨clients, hPush⟩ := Counted.exists_push hs.1 fd
      have hRoom : (s.clientFd.entries ++ [fd]).length ≤ maxClientFd ↔ s.clientFd.num < maxClientFd := by
        have hNum := hs.1
        rw [List.length_append, Counted.length_entries, List.length_singleton]
        omega
      have hAccept (s' : PortalInternal) (events : List DispatchEvent) : s.accept (some fd) = some (s', events) ↔
          s.clientFd.num < maxClientFd ∧ { s with clientFd := clients } = s' ∧ [.accept fd] = events := by
        simp only [accept, if_pos hListen, hPush, firing, exists_eq_left']
      rw [hComing, hRoom]
      refine ⟨⟨fun h => ⟨_, _, (hAccept _ _).mpr ⟨h, rfl, rfl⟩⟩, ?_⟩, ?_⟩
      · rintro ⟨s', events, h⟩
        exact ((hAccept s' events).mp h).1
      · rintro s' events h
        obtain ⟨hNum, rfl, rfl⟩ := (hAccept s' events).mp h
        obtain ⟨hPos, hCount, hEntries⟩ := Counted.entries_push hPush
        refine ⟨⟨?_, ?_⟩, rfl, rfl, ?_, hEntries⟩
        · show 0 ≤ clients.num
          omega
        · show clients.num ≤ maxClientFd
          omega
        · rintro word i messageFd hMem
          cases List.mem_singleton.mp hMem
    · have hNot : ¬ s.fpgaFd ≠ -1 := hListen
      exact hSame (if_neg hNot) (by simp only [accept, if_neg hNot])

theorem staying_length_le (streams : Int → Stream) (fds : List Int) : (staying streams fds).length ≤ fds.length := by
  unfold staying
  split
  · exact Nat.le_refl _
  · exact List.length_eraseIdx_le _ _

/-- A file descriptor stays or leaves. -/
theorem count_staying (streams : Int → Stream) (fds : List Int) (fd : Int) :
    fds.count fd = (leaving streams fds).count fd + (staying streams fds).count fd := by
  unfold staying
  split
  · next h => simp [h]
  · next h =>
    cases hFirst : fds[first streams fds]? with
    | none => exact absurd (by simp [leaving, hFirst]) h
    | some gone =>
      have hEof : streams gone = .eof := by
        by_contra hNot
        exact h (by simp [leaving, hFirst, hNot])
      obtain ⟨hBound, rfl⟩ := List.getElem_of_getElem? hFirst
      have hPerm := (List.getElem_cons_eraseIdx_perm hBound).count_eq fd
      simp only [leaving, hFirst, Option.toList_some, List.filter_cons, hEof, decide_true, if_true, List.filter_nil]
      rw [← hPerm, ← List.singleton_append, List.count_append]

/-- A call is as it should be exactly if there is something whole to read and a place for a new
connection, and in any case the file descriptors are accounted for. -/
theorem eventSocket_spec (hs : s.Sound) (streams : Int → Stream) (sockfd : Option Int) :
    ((∃ s' events, s.eventSocket streams sockfd = some (s', events) ∧ Proper streams sockfd s s' events) ↔
      Readable streams s ∧ Roomy streams sockfd s) ∧
    ∀ s' events, s.eventSocket streams sockfd = some (s', events) → s'.Sound ∧
      closes events = leaving streams s.clientFd.entries ∧ accepts events = s.coming sockfd ∧
      s'.clientFd.entries = staying streams s.clientFd.entries ++ s.coming sockfd := by
  obtain ⟨t, events, hReceive⟩ : ∃ t events, s.receive streams = (t, events) := ⟨_, _, rfl⟩
  have hReceived : Received streams s _ _ := receive_spec hs
  rw [hReceive] at hReceived
  have hComing : t.coming sockfd = s.coming sockfd := by rw [coming, hReceived.fpgaFd]; rfl
  have hSound : t.Sound := by
    refine ⟨hReceived.num, ?_⟩
    have hLength : t.clientFd.num.toNat ≤ maxClientFd := by
      rw [← Counted.length_entries, hReceived.clients]
      exact (staying_length_le _ _).trans hs.length_le
    omega
  obtain ⟨hRoom, hAccept⟩ := accept_spec hSound sockfd
  rw [hComing, hReceived.clients] at hRoom hAccept
  have hFire (s' : PortalInternal) (more : List DispatchEvent) : s.eventSocket streams sockfd = some (s', more) ↔
      ∃ late, t.accept sockfd = some (s', late) ∧ events ++ late = more := by
    simp only [eventSocket, hReceive, firing]
    constructor
    · rintro ⟨s', late, h, rfl, rfl⟩
      exact ⟨late, h, rfl⟩
    · rintro ⟨late, h, rfl⟩
      exact ⟨s', late, h, rfl, rfl⟩
  have hCalls (late : List DispatchEvent) (hLate : ∀ word i messageFd, .handler word i messageFd ∉ late) :
      Handled streams s.clientFd.entries (events ++ late) ↔ Readable streams s := by
    rw [← hReceived.handled]
    refine ⟨fun h word i messageFd hMem => h _ _ _ (List.mem_append_left _ hMem), fun h word i messageFd hMem => ?_⟩
    exact h _ _ _ ((List.mem_append.mp hMem).resolve_right (hLate _ _ _))
  refine ⟨⟨?_, ?_⟩, ?_⟩
  · rintro ⟨s', more, h, hProper⟩
    obtain ⟨late, hLate, rfl⟩ := (hFire s' more).mp h
    exact ⟨(hCalls late (hAccept _ _ hLate).2.2.2.1).mp hProper.handled, hRoom.mpr ⟨_, _, hLate⟩⟩
  · rintro ⟨hReadable, hRoomy⟩
    obtain ⟨s', late, hLate⟩ := hRoom.mp hRoomy
    obtain ⟨-, hClosed, hAccepted, hQuiet, hClients⟩ := hAccept _ _ hLate
    refine ⟨s', _, (hFire _ _).mpr ⟨late, hLate, rfl⟩, (hCalls late hQuiet).mpr hReadable, ?_, ?_, hClients⟩
    · rw [closes_append, hReceived.closed, hClosed, List.append_nil]
    · rw [accepts_append, hReceived.accepted, hAccepted, List.nil_append]
  · rintro s' more h
    obtain ⟨late, hLate, rfl⟩ := (hFire s' more).mp h
    obtain ⟨hSound', hClosed, hAccepted, -, hClients⟩ := hAccept _ _ hLate
    refine ⟨hSound', ?_, ?_, hClients⟩
    · rw [closes_append, hReceived.closed, hClosed, List.append_nil]
    · rw [accepts_append, hReceived.accepted, hAccepted, List.nil_append]

/-- Every connection was closed or is still in the array. -/
def Accounted (trace : List DispatchEvent) (s : PortalInternal) : Prop :=
  ∀ fd, (accepts trace).count fd = (closes trace).count fd + s.clientFd.entries.count fd

variable {ok : Machine.Contract PortalInternal Action DispatchEvent} {trace : List DispatchEvent}

theorem run_sound (run : machine.Run ok s trace) : s.Sound ∧ Accounted trace s := by
  refine run.invariant (fun trace s => s.Sound ∧ Accounted trace s) ?_ ?_
  · intro s hs
    have hNum : s.clientFd.num = 0 := hs
    refine ⟨⟨Int.le_of_eq hNum.symm, ?_⟩, fun fd => ?_⟩
    · rw [hNum]
      decide
    · simp [accepts, closes, Counted.entries, hNum]
  · rintro trace s action s' events ⟨hSound, hCount⟩ - hFire
    cases action with
    | connect fd =>
      simp only [machine, fire, firing] at hFire
      obtain ⟨hNum, clients, hPush, rfl, rfl⟩ := hFire
      obtain ⟨hPos, hSucc, hEntries⟩ := Counted.entries_push hPush
      refine ⟨⟨show 0 ≤ clients.num by omega, show clients.num ≤ maxClientFd by omega⟩, fun other => ?_⟩
      have hOther := hCount other
      rw [accepts_append, closes_append, hEntries]
      simp only [accepts, closes, counting, List.count_append] at hOther ⊢
      omega
    | eventSocket streams sockfd =>
      obtain ⟨hSound', hClosed, hAccepted, hClients⟩ := (eventSocket_spec hSound streams sockfd).2 s' events hFire
      refine ⟨hSound', fun other => ?_⟩
      have hOther := hCount other
      have hParts := count_staying streams s.clientFd.entries other
      rw [accepts_append, closes_append, hClosed, hAccepted, hClients]
      simp only [List.count_append]
      omega

/-- In every state of every run, each connection that was made was closed once or is still in
the array, and the next call does what it should exactly if the first client with something to
report brings at least a word, or there is no handler, and a new connection has a place. -/
theorem event_socket_proper_iff (run : machine.Run ok s trace) : Accounted trace s ∧ ∀ streams sockfd,
    (∃ s' events, s.eventSocket streams sockfd = some (s', events) ∧ Proper streams sockfd s s' events) ↔
      Readable streams s ∧ Roomy streams sockfd s := by
  obtain ⟨hSound, hCount⟩ := run_sound run
  exact ⟨hCount, fun streams sockfd => (eventSocket_spec hSound streams sockfd).1⟩

/-- A listening portal with a handler and no client yet. -/
def listening : PortalInternal := ⟨3, fun _ => 0, true, 0, ⟨fun _ => 0, 0⟩⟩

/-- One client sends a word, another one connects. -/
theorem event_socket_proper_two : ∃ s trace, s.clientFd.entries = [5, 6] ∧ Accounted trace s ∧ ∀ streams sockfd,
    (∃ s' events, s.eventSocket streams sockfd = some (s', events) ∧ Proper streams sockfd s s' events) ↔
      Readable streams s ∧ Roomy streams sockfd s := by
  obtain ⟨⟨s, trace⟩, hExec, hEnd⟩ := Option.map_eq_some_iff.mp (show
    (machine.exec (fun _ _ _ => True) [.connect 5, .eventSocket (fun _ => .data 1 [0, 2, 0] (-1)) (some 6)]
      (listening, [])).map (·.1.clientFd.entries) = some [5, 6] by decide +kernel)
  exact ⟨s, trace, hEnd, event_socket_proper_iff (Machine.exec_run rfl hExec)⟩

/-- The handler is called with the word of an earlier call when the client is gone. -/
theorem event_socket_repeats_word : (machine.exec (fun _ _ _ => True) [.connect 5,
    .eventSocket (fun _ => .data 1 [0, 2, 0] (-1)) none, .eventSocket (fun _ => .eof) none] (listening, [])).map
      (fun c => (c.1.clientFd.entries, c.2)) =
    some ([], [.accept 5, .handler 0x20001#32 0 (-1), .close 5, .handler 0x20001#32 0 (-1)]) := by
  decide +kernel

end PortalInternal
end Connectal.Socket
