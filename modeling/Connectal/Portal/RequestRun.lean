import Connectal.Portal.RequestFlow
import Connectal.Rules.Bank
import Mathlib.Algebra.BigOperators.Fin

/-! Runs of the request side of a portal: no word of a message is refused, and every message
becomes one struct. -/
namespace Connectal.Portal

open Rules

namespace RequestPortal

variable {n : Nat} {asz : Fin n → Nat}

/-- The accesses on the bus are those of the thread. -/
structure OnBus (slaves : Fin n → PipeInMemSlave) (thread : Thread n) : Prop where
  reads : ∀ j, (slaves j).fifoReadAddrGenerator.Words 2 (thread.asked j)
  writes : ∀ j, (slaves j).fifoWriteAddrGenerator.Words 2 (thread.ahead j)

/-- The methods have got the messages that were sent and the words of the unfinished one.
While a message is written its method has room for it. -/
structure Feeding (methods : (i : Fin n) → FromBit 32 (asz i)) (thread : Thread n)
    (fed : Fin n → List (BitVec 32)) (sent : Fin n → List (List (BitVec 32))) : Prop where
  legal : thread.Legal asz
  counts : ∀ j, (methods j).count = (thread.written j).length
  room : ∀ i written left ahead, thread = .marshall i written left ahead → (methods i).fifo.items = []
  fed_eq : ∀ j, fed j = (sent j).flatten ++ thread.written j
  full : ∀ j, ∀ words ∈ sent j, words.length = nwords 32 (asz j)

variable {slaves : Fin n → PipeInMemSlave} {methods : (i : Fin n) → FromBit 32 (asz i)}
  {thread thread' : Thread n} {fed : Fin n → List (BitVec 32)} {sent : Fin n → List (List (BitVec 32))}
  {i : Fin n} {slave : PipeInMemSlave}

/-- One slave changes, with the accesses of the thread to it. -/
theorem OnBus.update (h : OnBus slaves thread)
    (hRead : slave.fifoReadAddrGenerator.Words 2 (thread'.asked i))
    (hWrite : slave.fifoWriteAddrGenerator.Words 2 (thread'.ahead i))
    (hOther : ∀ j, j ≠ i → thread'.asked j = thread.asked j ∧ thread'.ahead j = thread.ahead j) :
    OnBus (Function.update slaves i slave) thread' := by
  constructor <;> intro j <;> by_cases hj : j = i
  · subst hj
    rwa [Function.update_self]
  · rw [Function.update_of_ne hj, (hOther j hj).1]
    exact h.reads j
  · subst hj
    rwa [Function.update_self]
  · rw [Function.update_of_ne hj, (hOther j hj).2]
    exact h.writes j

/-- The thread goes on without writing a word. -/
theorem Feeding.rethread (h : Feeding methods thread fed sent) (hLegal : thread'.Legal asz)
    (hWritten : ∀ j, thread'.written j = thread.written j)
    (hRoom : ∀ i written left ahead, thread' = .marshall i written left ahead → (methods i).fifo.items = []) :
    Feeding methods thread' fed sent where
  legal := hLegal
  counts j := by rw [hWritten, h.counts]
  room := hRoom
  fed_eq j := by rw [hWritten, h.fed_eq]
  full := h.full

/-- A method takes a word if it is in the middle of a message or has room for a struct. -/
theorem exists_enq_word {n asz : Nat} {m : FromBit n asz} (hRoom : m.fifo.items = []) (w : BitVec n) :
    ∃ m', m.enq w = some m' := by
  have hFree : m.fifo.items.length < 1 := by rw [hRoom]; exact Nat.one_pos
  by_cases hLast : m.count = nwords n asz - 1
  · obtain ⟨fifo, hEnq, -⟩ := Fifo.exists_enq hFree ((FromBit.shiftIn m.fbnbuff w).setWidth asz)
    exact ⟨⟨FromBit.shiftIn m.fbnbuff w, 0, fifo⟩, by simp [FromBit.enq, hFree, hLast, hEnq, guard]⟩
  · exact ⟨{ m with fbnbuff := FromBit.shiftIn m.fbnbuff w, count := m.count + 1 },
      by simp [FromBit.enq, hFree, hLast, guard]⟩

theorem count_of_enq {n asz : Nat} {m m' : FromBit n asz} {w : BitVec n} (hFire : m.enq w = some m') :
    m.count = nwords n asz - 1 ∧ m'.count = 0 ∨
      m.count ≠ nwords n asz - 1 ∧ m'.count = m.count + 1 ∧ m'.fifo = m.fifo := by
  simp only [FromBit.enq, firing] at hFire
  obtain ⟨-, hFire⟩ := hFire
  split at hFire
  · next hLast =>
    simp only [firing] at hFire
    obtain ⟨fifo, -, rfl⟩ := hFire
    exact .inl ⟨hLast, rfl⟩
  · next hMore =>
    simp only [firing] at hFire
    subst hFire
    exact .inr ⟨hMore, rfl, rfl⟩

variable {written left : List (BitVec 32)} {w : BitVec 32} {ahead : Nat} {m : FromBit 32 (asz i)}

/-- A word of the message goes to its method; after the last one the message is sent. -/
theorem Feeding.word (h : Feeding methods (.marshall i written (w :: left) ahead) fed sent)
    (hAhead : 0 < ahead) (hFire : (methods i).enq w = some m) : if left = [] then
      Feeding (Function.update methods i m) .idle (fun j => fed j ++ if i = j then [w] else [])
        (fun j => sent j ++ if i = j then [written ++ [w]] else [])
    else Feeding (Function.update methods i m) (.marshall i (written ++ [w]) left (ahead - 1))
      (fun j => fed j ++ if i = j then [w] else []) sent := by
  obtain ⟨-, hLe, hWords⟩ := h.legal
  have hCount := h.counts i
  rw [List.length_cons] at hWords hLe
  simp only [Thread.written, if_true] at hCount
  have hOther : ∀ j, j ≠ i → (Function.update methods i m j).count = 0 := by
    intro j hj
    rw [Function.update_of_ne hj, h.counts j, Thread.written, if_neg (Ne.symm hj)]
    rfl
  have hFed : ∀ j, fed j = (sent j).flatten ++ if i = j then written else [] := h.fed_eq
  split
  · next hLast =>
    subst hLast
    rcases count_of_enq hFire with ⟨-, hZero⟩ | ⟨hMore, -, -⟩
    · refine ⟨trivial, fun j => ?_, fun _ _ _ _ hNot => (by cases hNot), fun j => ?_, fun j => ?_⟩
      · by_cases hj : j = i
        · subst hj
          rwa [Function.update_self]
        · exact hOther j hj
      · by_cases hj : i = j <;> simp [hFed, hj, Thread.written]
      · by_cases hj : i = j
        · subst hj
          rw [if_pos rfl, List.forall_mem_append, List.forall_mem_singleton, List.length_append]
          exact ⟨h.full i, hWords⟩
        · rw [if_neg hj, List.append_nil]
          exact h.full j
    · rw [List.length_nil] at hWords
      omega
  · next hMore =>
    have hLeft : 0 < left.length := List.length_pos_iff.mpr hMore
    rcases count_of_enq hFire with ⟨hLast, -⟩ | ⟨-, hNext, hFifo⟩
    · omega
    · refine ⟨⟨hMore, by omega, ?_⟩, fun j => ?_, ?_, fun j => ?_, h.full⟩
      · rw [List.length_append, List.length_singleton]
        omega
      · by_cases hj : j = i
        · subst hj
          simp [Thread.written, hNext, hCount]
        · rw [hOther j hj, Thread.written, if_neg (Ne.symm hj)]
          rfl
      · intro i' written' left' ahead' hThread
        cases hThread
        rw [Function.update_self, hFifo]
        exact h.room i written (w :: left) ahead rfl
      · by_cases hj : i = j <;> simp [hFed, hj, Thread.written]

theorem Feeding.take {val : BitVec (asz i)} (h : Feeding methods thread fed sent)
    (hFire : (methods i).take = some (val, m)) : Feeding (Function.update methods i m) thread fed sent := by
  simp only [FromBit.take, firing] at hFire
  obtain ⟨_, fifo, hItems, rfl, rfl⟩ := hFire
  refine { h with counts := ?_, room := ?_ }
  · intro j
    by_cases hj : j = i
    · subst hj
      rw [Function.update_self]
      exact h.counts j
    · rw [Function.update_of_ne hj]
      exact h.counts j
  · intro i' written left ahead hThread
    have hEmpty := h.room i' written left ahead hThread
    by_cases hi : i' = i
    · subst hi
      exact absurd (hItems.symm.trans hEmpty) (List.cons_ne_nil _ _)
    · rwa [Function.update_of_ne hi]

/-- The thread, the bus and the methods agree on what is under way. -/
def Inv (trace : List (Event asz)) (s : RequestPortal asz) : Prop :=
  OnBus s.slaves s.thread ∧ Feeding s.methods s.thread
    (fun j => FromBit.fed (trace.filterMap (method? j))) (fun j => trace.filterMap (sent? j))

variable {trace : List (Event asz)} {s s' : RequestPortal asz} {events : List (Event asz)}

/-- The status word is not zero only if the method has room. -/
theorem readDataGet_eq_some {notFull : Bool} {slave slave' : PipeInMemSlave} {d : MemData (BitVec 32)}
    (h : slave.readDataGet notFull = some (d, slave')) :
    (∃ beat g, slave.fifoReadAddrGenerator.addrBeat = some (beat, g) ∧
      slave' = { slave with fifoReadAddrGenerator := g }) ∧ (d.data ≠ 0 → notFull = true) := by
  simp only [PipeInMemSlave.readDataGet, firing] at h
  obtain ⟨beat, g, hBeat, rfl, rfl⟩ := h
  refine ⟨⟨beat, g, hBeat, rfl⟩, fun hNonzero => ?_⟩
  cases notFull with
  | true => rfl
  | false => exact absurd (by simp) hNonzero

theorem writeDataPut_eq_some {M : Type} {enq : BitVec 32 → Option M} {d : BitVec 32} {m : M}
    {slave slave' : PipeInMemSlave} (h : slave.writeDataPut enq d = some (m, slave')) :
    ∃ beat g q, slave.fifoWriteAddrGenerator.addrBeat = some (beat, g) ∧ enq d = some m ∧
      slave' = { slave with fifoWriteAddrGenerator := g, fifoWriteDoneFifo := q } := by
  simp only [PipeInMemSlave.writeDataPut, firing] at h
  obtain ⟨beat, g, hBeat, q, -, m', hEnq, rfl, rfl⟩ := h
  exact ⟨beat, g, q, hBeat, hEnq, rfl⟩

/-- What a written word adds for the methods; `more` are events that no method sees. -/
theorem fed_wrote (j : Fin n) (w : BitVec 32) {more : List (Event asz)}
    (hMore : more.filterMap (method? j) = []) :
    FromBit.fed ((.wrote i w :: more).filterMap (method? j)) = if i = j then [w] else [] := by
  by_cases hj : i = j
  · rw [List.filterMap_cons_some (b := .fed w) (by simp [method?, hj]), hMore, if_pos hj]
    rfl
  · rw [List.filterMap_cons_none (by simp [method?, hj]), hMore, if_neg hj]
    rfl

theorem sent_wrote (j : Fin n) (w : BitVec 32) (words : List (BitVec 32)) :
    ([.wrote i w, .sent i words] : List (Event asz)).filterMap (sent? j) = if i = j then [words] else [] := by
  by_cases hj : i = j <;> simp [List.filterMap_cons, sent?, hj]

/-- What channel `j` sees of a struct that is taken. -/
theorem method?_delivered (j : Fin n) (val : BitVec (asz i)) :
    ([.delivered i val] : List (Event asz)).filterMap (method? j) =
      if h : i = j then [.got (h ▸ val)] else [] := by
  by_cases hj : i = j
  · rw [List.filterMap_cons_some (b := .got (hj ▸ val)) (by simp [method?, hj]), dif_pos hj]
    rfl
  · rw [List.filterMap_cons_none (by simp [method?, hj]), dif_neg hj]
    rfl

variable {words : List (BitVec 32)}

/-- A poll of channel `i` leaves no status read on the bus. -/
theorem OnBus.polled {count : Nat} {notFull : Bool} {d : MemData (BitVec 32)} (h : OnBus slaves (.busywait i words count true))
    (hGet : (slaves i).readDataGet notFull = some (d, slave))
    (hQuiet : ∀ j, thread'.asked j = 0 ∧ thread'.ahead j = 0) :
    OnBus (Function.update slaves i slave) thread' := by
  obtain ⟨⟨beat, g, hBeat, rfl⟩, -⟩ := readDataGet_eq_some hGet
  have hRead : g.Words 2 0 := by
    simpa [Thread.asked] using ((h.reads i).addrBeat hBeat).2.2.1
  refine h.update (by rw [(hQuiet i).1]; exact hRead) (by rw [(hQuiet i).2]; exact h.writes i)
    fun j hj => ⟨?_, (hQuiet j).2⟩
  rw [(hQuiet j).1, Thread.asked, if_neg (Ne.symm hj)]

/-- A word uses up one of the addresses that are on the bus. -/
theorem OnBus.word {M : Type} {enq : BitVec 32 → Option M} {m : M}
    (h : OnBus slaves (.marshall i written left ahead))
    (thread' : Thread n) (hPut : (slaves i).writeDataPut enq w = some (m, slave)) (hAhead : thread'.ahead i = ahead - 1)
    (hQuiet : ∀ j, thread'.asked j = 0 ∧ (j ≠ i → thread'.ahead j = 0)) :
    OnBus (Function.update slaves i slave) thread' ∧ 0 < ahead ∧ enq w = some m := by
  obtain ⟨beat, g, q, hBeat, hEnq, rfl⟩ := writeDataPut_eq_some hPut
  obtain ⟨-, hPos, hWords, -⟩ := (h.writes i).addrBeat hBeat
  simp only [Thread.ahead, if_true] at hPos hWords
  refine ⟨h.update (by rw [(hQuiet i).1]; exact h.reads i) (by rw [hAhead]; exact hWords) fun j hj => ?_,
    hPos, hEnq⟩
  rw [(hQuiet j).1, (hQuiet j).2 hj, Thread.ahead, if_neg (Ne.symm hj)]
  exact ⟨rfl, rfl⟩

variable {action : Action n}

theorem Inv.step (hSize : ∀ i, 0 < asz i) (h : Inv trace s)
    (hOk : fitting asz trace s action) (hFire : fire action s = some (s', events)) :
    Inv (trace ++ events) s' := by
  obtain ⟨hBus, hFeed⟩ := h
  have hNone : ∀ i words count asked i' written left ahead,
      (.busywait i words count asked : Thread n) = .marshall i' written left ahead → (s.methods i').fifo.items = [] :=
    fun _ _ _ _ _ _ _ _ hNot => (by cases hNot)
  cases fire_moves hFire with
  | call hThread =>
    rw [hThread] at hBus hFeed
    rw [List.append_nil]
    exact ⟨⟨hBus.reads, hBus.writes⟩, hFeed.rethread hOk (fun _ => rfl) (hNone _ _ _ _)⟩
  | @readReq i words count tag g hThread hRequest =>
    rw [hThread] at hBus hFeed
    rw [List.append_nil]
    refine ⟨hBus.update ?_ (hBus.writes i) fun j hj => ⟨?_, rfl⟩, hFeed.rethread hFeed.legal (fun _ => rfl) (hNone _ _ _ _)⟩
    · simpa [Thread.asked] using ((hBus.reads i).request rfl hRequest).1
    · simp [Thread.asked, Ne.symm hj]
  | @readBeat i g hRule =>
    rw [List.append_nil]
    exact ⟨hBus.update ((hBus.reads i).addrBeatRule hRule).1 (hBus.writes i) fun _ _ => ⟨rfl, rfl⟩, hFeed⟩
  | again hThread hGet hPoll =>
    rw [hThread] at hBus hFeed
    rw [List.append_nil]
    exact ⟨hBus.polled hGet fun _ => ⟨rfl, rfl⟩, hFeed.rethread hFeed.legal (fun _ => rfl) (hNone _ _ _ _)⟩
  | @send i words count left d slave hThread hGet hPoll hReturn =>
    rw [hThread] at hBus hFeed
    rw [List.append_nil]
    have hWords : words.length = nwords 32 (asz i) := hFeed.legal
    have hFree := of_decide_eq_true ((readDataGet_eq_some hGet).2 (ne_zero_of_busyPoll hPoll hReturn))
    refine ⟨hBus.polled hGet fun j => ⟨rfl, by simp [Thread.ahead]⟩, hFeed.rethread
      ⟨?_, Nat.zero_le _, by simpa using hWords⟩ (fun j => by simp [Thread.written]) ?_⟩
    · rintro rfl
      exact absurd hWords.symm (Nat.ne_of_gt (nwords_pos (by decide) (hSize i)))
    · intro i' written' left' ahead' hThread'
      cases hThread'
      exact List.length_eq_zero_iff.mp (Nat.lt_one_iff.mp hFree)
  | drop hThread hGet hPoll hReturn =>
    rw [hThread] at hBus hFeed
    have hIdle : Feeding s.methods .idle _ _ := hFeed.rethread trivial (fun _ => rfl)
      fun _ _ _ _ hNot => (by cases hNot)
    exact ⟨hBus.polled hGet fun _ => ⟨rfl, rfl⟩, by simpa [List.filterMap_cons, method?, sent?] using hIdle⟩
  | @writeReq i written left ahead tag g hThread hMore hRequest =>
    rw [hThread] at hBus hFeed
    rw [List.append_nil]
    obtain ⟨hLeft, -, hWords⟩ := hFeed.legal
    refine ⟨hBus.update (hBus.reads i) ?_ fun j hj => ⟨rfl, ?_⟩, hFeed.rethread ⟨hLeft, hMore, hWords⟩
      (fun _ => rfl) ?_⟩
    · simpa [Thread.ahead] using ((hBus.writes i).request rfl hRequest).1
    · simp [Thread.ahead, Ne.symm hj]
    · intro i' written' left' ahead' hThread'
      cases hThread'
      exact hFeed.room i written left ahead rfl
  | @writeBeat i g hRule =>
    rw [List.append_nil]
    exact ⟨hBus.update (hBus.reads i) ((hBus.writes i).addrBeatRule hRule).1 fun _ _ => ⟨rfl, rfl⟩, hFeed⟩
  | @word i written left w ahead method slave hThread hMore hPut =>
    rw [hThread] at hBus hFeed
    obtain ⟨hBus', hPos, hEnq⟩ := hBus.word (.marshall i (written ++ [w]) left (ahead - 1)) hPut
      (by simp [Thread.ahead]) fun j => ⟨rfl, fun hj => by simp [Thread.ahead, Ne.symm hj]⟩
    have hWord := hFeed.word hPos hEnq
    rw [if_neg hMore] at hWord
    have hFed : ∀ j, FromBit.fed (([.wrote i w] : List (Event asz)).filterMap (method? j)) =
        if i = j then [w] else [] := fun j => fed_wrote j w rfl
    have hSent : ∀ j, ([.wrote i w] : List (Event asz)).filterMap (sent? j) = [] := fun _ => rfl
    refine ⟨hBus', ?_⟩
    simpa only [List.filterMap_append, FromBit.fed_append, hFed, hSent, List.append_nil] using hWord
  | @last i written w ahead method slave hThread hPut =>
    rw [hThread] at hBus hFeed
    have hOne : ahead ≤ 1 := hFeed.legal.2.1
    obtain ⟨hBus', hPos, hEnq⟩ := hBus.word .idle hPut
      (by rw [Nat.sub_eq_zero_of_le hOne]; rfl) fun j => ⟨rfl, fun _ => rfl⟩
    have hWord := hFeed.word hPos hEnq
    rw [if_pos rfl] at hWord
    have hFed : ∀ j, FromBit.fed
        (([.wrote i w, .sent i (written ++ [w])] : List (Event asz)).filterMap (method? j)) =
          if i = j then [w] else [] := fun j => fed_wrote j w rfl
    refine ⟨hBus', ?_⟩
    simpa only [List.filterMap_append, FromBit.fed_append, hFed, sent_wrote] using hWord
  | @writeDone i tag slave hGet =>
    simp only [PipeInMemSlave.writeDoneGet, firing] at hGet
    obtain ⟨_, q, -, rfl, rfl⟩ := hGet
    rw [List.append_nil]
    exact ⟨hBus.update (hBus.reads i) (hBus.writes i) fun _ _ => ⟨rfl, rfl⟩, hFeed⟩
  | @take i val method hTake =>
    have hFed : ∀ j, FromBit.fed (([.delivered i val] : List (Event asz)).filterMap (method? j)) = [] := by
      intro j
      rw [method?_delivered]
      split <;> rfl
    have hSent : ∀ j, ([.delivered i val] : List (Event asz)).filterMap (sent? j) = [] := fun _ => rfl
    refine ⟨hBus, ?_⟩
    simpa only [List.filterMap_append, FromBit.fed_append, hFed, hSent, List.append_nil] using hFeed.take hTake

theorem run_inv (hSize : ∀ i, 0 < asz i) (run : (machine asz).Run (fitting asz) s trace) : Inv trace s := by
  refine run.invariant Inv ?_ fun trace s action s' events h hOk hFire => h.step hSize hOk hFire
  rintro _ rfl
  exact ⟨⟨fun _ => AddressGenerator.words_powerUp, fun _ => AddressGenerator.words_powerUp⟩, trivial,
    fun _ => rfl, fun _ _ _ _ hNot => (by cases hNot), fun _ => rfl, fun _ _ hNone => (by cases hNone)⟩

theorem continues_enq {n asz : Nat} {m m' : FromBit n asz} {w : BitVec n} (h : m.enq w = some m')
    (trace : List (FromBit.Event n asz)) :
    (FromBit.machine n asz).Continues (fun _ _ _ => True) (m, trace) (m', trace ++ [.fed w]) :=
  Machine.Continues.tail .refl trivial
    (show (FromBit.machine n asz).fire (.enq w) m = some (m', [.fed w]) by simp [FromBit.machine, FromBit.fire, h])

theorem continues_take {n asz : Nat} {m m' : FromBit n asz} {val : BitVec asz} (h : m.take = some (val, m'))
    (trace : List (FromBit.Event n asz)) :
    (FromBit.machine n asz).Continues (fun _ _ _ => True) (m, trace) (m', trace ++ [.got val]) :=
  Machine.Continues.tail .refl trivial
    (show (FromBit.machine n asz).fire .take m = some (m', [.got val]) by simp [FromBit.machine, FromBit.fire, h])

/-- A word goes to one of the methods; `more` are events that no method sees. -/
theorem method_word (j : Fin n) (hEnq : (methods i).enq w = some m)
    {more : List (Event asz)} (hMore : more.filterMap (method? j) = []) :
    (FromBit.machine 32 (asz j)).Continues (fun _ _ _ => True) (methods j, trace.filterMap (method? j))
      (Function.update methods i m j, (trace ++ .wrote i w :: more).filterMap (method? j)) := by
  rw [List.filterMap_append]
  by_cases hj : i = j
  · subst hj
    rw [Function.update_self, List.filterMap_cons_some (b := .fed w) (by simp [method?]), hMore]
    exact continues_enq hEnq _
  · rw [Function.update_of_ne (Ne.symm hj), List.filterMap_cons_none (by simp [method?, hj]), hMore,
      List.append_nil]
    exact .refl

/-- The part of `mkFromBit` of one channel in a step of the portal. -/
theorem method_step (j : Fin n) (hFire : fire action s = some (s', events)) :
    (FromBit.machine 32 (asz j)).Continues (fun _ _ _ => True) (s.methods j, trace.filterMap (method? j))
      (s'.methods j, (trace ++ events).filterMap (method? j)) := by
  cases fire_moves hFire with
  | word hThread hMore hPut | last hThread hPut =>
    obtain ⟨-, -, -, -, hEnq, -⟩ := writeDataPut_eq_some hPut
    exact method_word j hEnq rfl
  | @take i val method hTake =>
    rw [List.filterMap_append, method?_delivered]
    dsimp only
    by_cases hj : i = j
    · subst hj
      rw [Function.update_self, dif_pos rfl]
      exact continues_take hTake _
    · rw [Function.update_of_ne (Ne.symm hj), dif_neg hj, List.append_nil]
      exact .refl
  | drop hThread hGet hPoll hReturn =>
    rw [List.filterMap_append, List.filterMap_cons_none rfl, List.filterMap_nil, List.append_nil]
    exact .refl
  | _ =>
    rw [List.append_nil]
    exact .refl

/-- A run of the portal, seen at one channel, is a run of its `mkFromBit`. -/
theorem run_method (run : (machine asz).Run (fitting asz) s trace) (j : Fin n) :
    (FromBit.machine 32 (asz j)).Run (fun _ _ _ => True) (s.methods j) (trace.filterMap (method? j)) := by
  refine run.project (fun s => s.methods j) (fun trace => trace.filterMap (method? j)) rfl ?_
    fun trace s action s' events _ hFire => method_step j hFire
  rintro _ rfl
  rfl

/-- The structs of a channel are those of its messages, in their order. -/
theorem delivered_eq (hSize : ∀ i, 0 < asz i) (run : (machine asz).Run (fitting asz) s trace) (j : Fin n) :
    delivered j trace ++ (s.methods j).fifo.items =
      (trace.filterMap (sent? j)).map (FromBit.rebuild (asz j)) := by
  obtain ⟨-, hFeed⟩ := run_inv hSize run
  obtain ⟨sets, part, hInv⟩ := FromBit.run_inv (by decide) (hSize j) (run_method run j)
  have hBoth := hInv.fed_eq.symm.trans (hFeed.fed_eq j)
  obtain ⟨rfl, -⟩ := FromBit.sets_unique hInv.full (hFeed.full j) (hInv.count_eq ▸ hInv.count_lt)
    (hFeed.counts j ▸ hInv.count_lt) hBoth
  exact hInv.messages

/-- The message of channel `j` that is being written. -/
def pending (j : Fin n) : Thread n → List (List (BitVec 32))
  | .marshall i written left _ => if i = j then [written ++ left] else []
  | _ => []

/-- A message that is being written will be sent. -/
theorem sent_step (j : Fin n) (hFire : fire action s = some (s', events)) :
    trace.filterMap (sent? j) ++ pending j s.thread <+:
      (trace ++ events).filterMap (sent? j) ++ pending j s'.thread := by
  rw [List.filterMap_append]
  cases fire_moves hFire with
  | call hThread | readReq hThread | again hThread | send hThread | writeReq hThread => simp [hThread, pending]
  | drop hThread | word hThread => simp [hThread, pending, List.filterMap_cons, sent?]
  | last hThread hPut => simp [hThread, pending, sent_wrote]
  | take hTake => simp [List.filterMap_cons, sent?]
  | _ => simp

/-- The thread calls nothing new. -/
def noCalls (_ : List (Event asz)) (_ : RequestPortal asz) : Action n → Prop
  | .call _ _ => False
  | _ => True

/-- How far the thread is from the end of its call. -/
def threadRank : Thread n → Nat
  | .idle => 0
  | .busywait _ words count false => 4 * count + 5 + 9 * words.length
  | .busywait _ words count true => 4 * count + 2 + 9 * words.length
  | .marshall _ _ left ahead => 5 * (left.length - ahead) + 4 * left.length

def slaveRank (slave : PipeInMemSlave) : Nat :=
  slave.fifoReadAddrGenerator.load + slave.fifoWriteAddrGenerator.load + slave.fifoWriteDoneFifo.items.length

/-- How far the call of the thread and the structs in the methods are from being done. -/
def rank (_ : List (Event asz)) (s : RequestPortal asz) : Nat :=
  threadRank s.thread + ∑ j, slaveRank (s.slaves j) + ∑ j, (s.methods j).fifo.items.length

/-- Some action brings the call and the structs closer to being done. -/
abbrev Advances (trace : List (Event asz)) (s : RequestPortal asz) : Prop :=
  (machine asz).Advances noCalls (fun _ => (none : Option Unit)) rank trace s

theorem sum_methods (methods : (i : Fin n) → FromBit 32 (asz i)) (i : Fin n) (m : FromBit 32 (asz i)) :
    ∑ j, (Function.update methods i m j).fifo.items.length + (methods i).fifo.items.length =
      ∑ j, (methods j).fifo.items.length + m.fifo.items.length := by
  have h := sum_update (fun _ k => k) (fun j => (methods j).fifo.items.length) i m.fifo.items.length
  rw [← h]
  congr 1
  exact Finset.sum_congr rfl fun j _ =>
    Function.apply_update (fun k (m : FromBit 32 (asz k)) => m.fifo.items.length) methods i m j

/-- An action that only changes the thread and one slave lowers the rank if their ranks go
down together. -/
theorem rank_lt (trace trace' : List (Event asz)) (thread' : Thread n)
    (h : threadRank thread' + slaveRank slave < threadRank s.thread + slaveRank (s.slaves i)) :
    rank trace' { s with slaves := Function.update s.slaves i slave, thread := thread' } < rank trace s := by
  have hSum := sum_update (fun _ => slaveRank) s.slaves i slave
  simp only [rank]
  omega

theorem advances_readReq {count : Nat} (h : OnBus s.slaves s.thread)
    (hThread : s.thread = .busywait i words count false) :
    Advances trace s := by
  have hReads := h.reads i
  rw [hThread] at hReads
  obtain ⟨g, hRequest⟩ := hReads.exists_request ⟨4, 4, 0⟩
  refine ⟨.readReq 0, _, [], trivial, (Moves.readReq hThread hRequest).fires, rfl, rank_lt _ _ _ ?_⟩
  have hLoad := (hReads.request rfl hRequest).2
  simp only [threadRank, slaveRank, hThread, hLoad]
  omega

/-- A status read comes to its end, whatever it finds. -/
theorem advances_poll {count : Nat} (h : OnBus s.slaves s.thread)
    (hThread : s.thread = .busywait i words count true) :
    Advances trace s := by
  have hReads := h.reads i
  rw [hThread] at hReads
  simp only [Thread.asked, if_true] at hReads
  cases hBeats : (s.slaves i).fifoReadAddrGenerator.addrBeatFifo.items with
  | nil =>
    obtain ⟨g, hRule⟩ := hReads.exists_addrBeatRule Nat.one_pos hBeats
    refine ⟨.readBeat i, _, [], trivial, (Moves.readBeat hRule).fires, rfl, rank_lt _ _ _ ?_⟩
    have hLoad := (hReads.addrBeatRule hRule).2
    simp only [slaveRank]
    omega
  | cons beat rest =>
    obtain ⟨g, hBeat⟩ := AddressGenerator.exists_addrBeat hBeats
    have hLoad := (hReads.addrBeat hBeat).2.2.2
    obtain ⟨d, hGet⟩ : ∃ d, (s.slaves i).readDataGet ((s.methods i).fifo.items.length < 1) =
        some (d, { s.slaves i with fifoReadAddrGenerator := g }) :=
      ⟨_, by simp only [PipeInMemSlave.readDataGet, hBeat]; rfl⟩
    cases hPoll : busyPoll d.data count with
    | inl count' =>
      refine ⟨.readData, _, [], trivial, (Moves.again hThread hGet hPoll).fires, rfl, rank_lt _ _ _ ?_⟩
      have hLess : count' < count := by
        cases count with
        | zero => simp [busyPoll] at hPoll
        | succ count =>
          simp only [busyPoll] at hPoll
          split at hPoll
          · cases hPoll
          · cases hPoll
            exact Nat.lt_succ_self _
      simp only [threadRank, slaveRank, hThread]
      omega
    | inr left =>
      by_cases hReturn : busyReturn left = 0
      · refine ⟨.readData, _, [], trivial, (Moves.send hThread hGet hPoll hReturn).fires, rfl, rank_lt _ _ _ ?_⟩
        simp only [threadRank, slaveRank, hThread]
        omega
      · refine ⟨.readData, _, [.dropped i words], trivial, (Moves.drop hThread hGet hPoll hReturn).fires, rfl,
          rank_lt _ _ _ ?_⟩
        simp only [threadRank, slaveRank, hThread]
        omega

section

variable {beat : AddrBeat 8} {rest : List (AddrBeat 8)} (h : Inv trace s)
  (hThread : s.thread = .marshall i written (w :: left) ahead)
  (hBeats : (s.slaves i).fifoWriteAddrGenerator.addrBeatFifo.items = beat :: rest)
  (hDone : (s.slaves i).fifoWriteDoneFifo.items.length < 2)

include h hThread hBeats hDone

/-- A word whose address beat is there and whose completion can be queued is taken. -/
theorem exists_writeData : ∃ m slave, (s.slaves i).writeDataPut (s.methods i).enq w = some (m, slave) ∧
    slaveRank slave ≤ slaveRank (s.slaves i) ∧ m.fifo.items.length ≤ 1 := by
  obtain ⟨m, hEnq⟩ := exists_enq_word (h.2.room i written (w :: left) ahead hThread) w
  obtain ⟨g, hBeat⟩ := AddressGenerator.exists_addrBeat hBeats
  obtain ⟨q, hq, hLength⟩ := Fifo.exists_enqIf (beat.last = true) hDone beat.tag
  refine ⟨m, { s.slaves i with fifoWriteAddrGenerator := g, fifoWriteDoneFifo := q }, ?_, ?_, m.fifo.bound⟩
  · simp only [PipeInMemSlave.writeDataPut, hBeat, some_bind, hq, hEnq]
    rfl
  · have hLoad := ((h.1.writes i).addrBeat hBeat).2.2.2
    simp only [slaveRank]
    omega

theorem advances_writeData : Advances trace s := by
  obtain ⟨m, slave, hPut, hSlave, hFifo⟩ := exists_writeData h hThread hBeats hDone
  have hSlaves := sum_update (fun _ => slaveRank) s.slaves i slave
  have hMethods := sum_methods s.methods i m
  by_cases hLast : left = []
  · subst hLast
    refine ⟨.writeData, _, _, trivial, (Moves.last hThread hPut).fires, rfl, ?_⟩
    simp only [rank, threadRank, hThread, List.length_cons]
    omega
  · refine ⟨.writeData, _, _, trivial, (Moves.word hThread hLast hPut).fires, rfl, ?_⟩
    simp only [rank, threadRank, hThread, List.length_cons]
    omega

end

/-- A message that is being written goes on. -/
theorem advances_marshall (h : Inv trace s) (hThread : s.thread = .marshall i written left ahead) :
    Advances trace s := by
  have hWrites := h.1.writes i
  have hLegal := h.2.legal
  rw [hThread] at hWrites hLegal
  simp only [Thread.ahead, if_true] at hWrites
  cases left with
  | nil => exact absurd rfl hLegal.1
  | cons w left =>
  cases hBeats : (s.slaves i).fifoWriteAddrGenerator.addrBeatFifo.items with
  | cons beat rest =>
    by_cases hDone : (s.slaves i).fifoWriteDoneFifo.items.length < 2
    · exact advances_writeData h hThread hBeats hDone
    · cases hTags : (s.slaves i).fifoWriteDoneFifo.items with
      | nil => simp [hTags] at hDone
      | cons tag tags =>
        obtain ⟨q, hDeq, hq⟩ := Fifo.exists_deq hTags
        refine ⟨.writeDone i, _, [], trivial, (Moves.writeDone (by rw [PipeInMemSlave.writeDoneGet, hDeq]; rfl)).fires,
          rfl, rank_lt _ _ _ ?_⟩
        simp only [slaveRank, hq, hTags, List.length_cons]
        omega
  | nil =>
    rcases Nat.eq_zero_or_pos ahead with rfl | hPos
    · obtain ⟨g, hRequest⟩ := hWrites.exists_request ⟨0, 4, 0⟩
      refine ⟨.writeReq 0, _, [], trivial, (Moves.writeReq hThread (Nat.zero_lt_succ _) hRequest).fires, rfl,
        rank_lt _ _ _ ?_⟩
      have hLoad := (hWrites.request rfl hRequest).2
      simp only [threadRank, slaveRank, hThread, hLoad, List.length_cons]
      omega
    · obtain ⟨g, hRule⟩ := hWrites.exists_addrBeatRule hPos hBeats
      refine ⟨.writeBeat i, _, [], trivial, (Moves.writeBeat hRule).fires, rfl, rank_lt _ _ _ ?_⟩
      have hLoad := (hWrites.addrBeatRule hRule).2
      simp only [slaveRank]
      omega

theorem advances_take {val : BitVec (asz i)} {rest : List (BitVec (asz i))}
    (hItems : (s.methods i).fifo.items = val :: rest) :
    Advances trace s := by
  obtain ⟨q, hDeq, hq⟩ := Fifo.exists_deq hItems
  refine ⟨.take i, _, _, trivial, (Moves.take (by rw [FromBit.take, hDeq]; rfl)).fires, rfl, ?_⟩
  have hMethods := sum_methods s.methods i ⟨(s.methods i).fbnbuff, (s.methods i).count, q⟩
  rw [hItems, hq, List.length_cons] at hMethods
  simp only [rank]
  omega

/-- The thread is done and no struct waits, or some action brings that closer. -/
theorem Inv.progress (h : Inv trace s) : (s.thread = .idle ∧ ∀ j, (s.methods j).fifo.items = []) ∨
    Advances trace s := by
  cases hThread : s.thread with
  | busywait i words count asked =>
    cases asked with
    | false => exact .inr (advances_readReq h.1 hThread)
    | true => exact .inr (advances_poll h.1 hThread)
  | marshall i written left ahead => exact .inr (advances_marshall h hThread)
  | idle =>
    by_cases hEmpty : ∀ j, (s.methods j).fifo.items = []
    · exact .inl ⟨rfl, hEmpty⟩
    · push Not at hEmpty
      obtain ⟨j, hj⟩ := hEmpty
      obtain ⟨val, rest, hItems⟩ := List.exists_cons_of_ne_nil hj
      exact .inr (advances_take hItems)

/-- The word that the thread has to write next finds its method ready, so that only the bus
itself and the queue of completions can hold it up. -/
def Unblocked (s : RequestPortal asz) : Prop :=
  ∀ i written w left ahead, s.thread = .marshall i written (w :: left) ahead →
    (∃ m, (s.methods i).enq w = some m) ∧
    ((s.slaves i).fifoWriteAddrGenerator.addrBeatFifo.items ≠ [] →
      (s.slaves i).fifoWriteDoneFifo.items.length < 2 → ∃ result, fire .writeData s = some result)

theorem Inv.unblocked (h : Inv trace s) : Unblocked s := by
  intro i written w left ahead hThread
  refine ⟨exists_enq_word (h.2.room i written (w :: left) ahead hThread) w, fun hBeats hDone => ?_⟩
  obtain ⟨beat, rest, hBeats⟩ := List.exists_cons_of_ne_nil hBeats
  obtain ⟨m, slave, hPut, -⟩ := exists_writeData h hThread hBeats hDone
  simp only [fire, hThread, hPut, some_bind]
  split <;> exact ⟨_, rfl⟩

end RequestPortal

open RequestPortal

/-- In every run no word of a message is refused by its method; the structs of each channel are
those of the messages sent to it, in their order; and without a further call the message that
is being written is sent and all structs are delivered. -/
theorem messages_become_structs {n : Nat} {asz : Fin n → Nat} (hSize : ∀ i, 0 < asz i)
    {s : RequestPortal asz} {trace : List (Event asz)} (run : (machine asz).Run (fitting asz) s trace) :
    Unblocked s ∧
      (∀ j, delivered j trace ++ (s.methods j).fifo.items =
        (trace.filterMap (sent? j)).map (FromBit.rebuild (asz j))) ∧
      ∃ s' trace', (machine asz).Continues noCalls (s, trace) (s', trace') ∧ s'.thread = .idle ∧
        ∀ j, delivered j trace' = (trace'.filterMap (sent? j)).map (FromBit.rebuild (asz j)) ∧
          trace.filterMap (sent? j) ++ pending j s.thread <+: trace'.filterMap (sent? j) := by
  have hInv := run_inv hSize run
  refine ⟨hInv.unblocked, delivered_eq hSize run, ?_⟩
  have hFits : ∀ (trace : List (Event asz)) (s : RequestPortal asz) (action : Action n),
      noCalls trace s action → fitting asz trace s action := by
    intro trace s action hNone
    cases action with
    | call i words => exact absurd hNone id
    | _ => trivial
  obtain ⟨s', trace', path, -, hIdle, hEmpty⟩ := Machine.exists_drained rank
    (fun trace s action s' events h hOk hFire => h.step hSize (hFits _ _ _ hOk) hFire)
    (fun trace' s' h' _ => h'.progress) hInv
  refine ⟨s', trace', path, hIdle, fun j => ⟨?_, ?_⟩⟩
  · have hAll := delivered_eq hSize (run.continue (path.weaken hFits)) j
    rwa [hEmpty j, List.append_nil] at hAll
  · have hPending := path.invariant
      (fun t u => trace.filterMap (sent? j) ++ pending j s.thread <+: t.filterMap (sent? j) ++ pending j u.thread)
      (fun t u action u' events h _ hFire => h.trans (sent_step j hFire)) (List.prefix_refl _)
    have hNone : pending j s'.thread = [] := by rw [hIdle]; rfl
    rwa [hNone, List.append_nil] at hPending

/-- A message of two words whose second word is still to be written. -/
theorem messages_become_structs_two_words :
    ∃ (s : RequestPortal ![40, 8]) (trace : List (Event ![40, 8])),
      (machine ![40, 8]).Run (fitting ![40, 8]) s trace ∧ s.thread = .marshall 0 [0x12] [0x34] 1 ∧ Unblocked s ∧
        ∃ s' trace', (machine ![40, 8]).Continues noCalls (s, trace) (s', trace') ∧
          [[0x12, 0x34]] <+: trace'.filterMap (sent? 0) := by
  obtain ⟨s, trace, hRun, hResult⟩ := Machine.exists_run
    (show ((machine ![40, 8]).exec (fitting ![40, 8])
      [.call 0 [0x12, 0x34], .readReq 0, .readBeat 0, .readData, .writeReq 0, .writeBeat 0, .writeReq 0,
        .writeBeat 0, .writeData] (⟨fun _ => .powerUp, fun _ => .powerUp, .idle⟩, [])).map
      (fun d => (d.1.thread, d.2.filterMap (sent? 0))) = some (.marshall 0 [0x12] [0x34] 1, []) by decide +kernel) rfl
  obtain ⟨hThread, hSent⟩ := Prod.mk.inj hResult
  obtain ⟨hFree, -, s', trace', path, -, hAll⟩ := messages_become_structs (by decide) hRun
  refine ⟨s, trace, hRun, hThread, hFree, s', trace', path, ?_⟩
  have hPending := (hAll 0).2
  rw [hSent, hThread] at hPending
  exact hPending

end Connectal.Portal
