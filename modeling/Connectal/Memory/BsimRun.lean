import Connectal.Memory.BsimDma

/-! Whole runs of the simulated host. A translation unit does not notice the
simulator around it; the table of the simulator follows the calls for each
scatter list; and a memory port makes the beats of its requests one after the
other. -/
namespace Connectal

open Rules MMU SendFd Layout

namespace Bsim

variable {ports : Nat} {files : BitVec 32 → Buffer} {bus : Bus} {s s' : Host ports}

/-! Translation units -/
variable {ok : Machine.Contract (Host ports) (Action ports) (Event ports)}
  {trace events : List (Event ports)} {a : Action ports}

section Units

/-- What translation unit `iid` did. -/
def unitTrace (iid : Fin 4) (trace : List (Event ports)) : List (MMU.Event 40) :=
  trace.filterMap fun
    | .mmu j e => if j = iid then some e else none
    | _ => none

@[simp] theorem unitTrace_append (iid : Fin 4) (trace events : List (Event ports)) :
    unitTrace iid (trace ++ events) = unitTrace iid trace ++ unitTrace iid events :=
  List.filterMap_append

theorem unitTrace_seen (iid j : Fin 4) (events : List (MMU.Event 40)) :
    unitTrace iid (events.flatMap (seen j) : List (Event ports)) = if j = iid then events else [] := by
  induction events with
  | nil => simp [unitTrace]
  | cons e rest ih =>
    have hOne : unitTrace iid (seen j e : List (Event ports)) = if j = iid then [e] else [] := by
      by_cases hj : j = iid <;> cases e <;> simp [seen, unitTrace, hj]
    rw [List.flatMap_cons, unitTrace_append, ih, hOne]
    split <;> rfl

@[simp] theorem unitTrace_master (iid : Fin 4) (i : Fin ports) (events : List DmaMaster.Event) :
    unitTrace iid (events.map (.master i)) = [] := by
  simp [unitTrace]

/-- An action of the host is one of the translation unit, or leaves it alone. -/
theorem fire_unit (iid : Fin 4) (hFire : fire files bus a s = some (s', events)) :
    (s'.mmu iid = s.mmu iid ∧ unitTrace iid events = []) ∨
      ∃ b, MMU.fire (BitVec.ofNat 32 iid) b (s.mmu iid) = some (s'.mmu iid, unitTrace iid events) := by
  cases a with
  | mmu j fd b =>
    simp only [fire, firing] at hFire
    obtain ⟨unit, unitEvents, hUnit, dma, -, rfl, rfl⟩ := hFire
    rw [unitTrace_seen]
    by_cases hj : j = iid
    · subst hj
      rw [if_pos rfl]
      refine .inr ⟨b, hUnit.trans ?_⟩
      simp only [Function.update_self]
    · rw [if_neg hj]
      exact .inl ⟨Function.update_of_ne (Ne.symm hj) _ _, rfl⟩
  | master i b =>
    simp only [fire, firing] at hFire
    obtain ⟨m, dma, portEvents, -, rfl, rfl⟩ := hFire
    exact .inl ⟨rfl, unitTrace_master iid i portEvents⟩

/-- A run of the host is a run of each translation unit. -/
theorem run_unit (run : (host ports files bus).Run ok s trace) (iid : Fin 4) :
    (machine 40 (BitVec.ofNat 32 iid)).Run (fun _ _ _ => True) (s.mmu iid) (unitTrace iid trace) := by
  refine run.project (N := host ports files bus) (fun s => s.mmu iid) (unitTrace iid) rfl
    (fun s hs => hs.1 iid) ?_
  intro trace s action s' events _ hFire
  rw [unitTrace_append]
  rcases fire_unit iid hFire with ⟨hSame, hNone⟩ | ⟨b, hUnit⟩
  · rw [hSame, hNone, List.append_nil]
    exact Relation.ReflTransGen.refl
  · exact Machine.Continues.tail .refl trivial hUnit

/-- The addresses that left a port of translation unit `iid`. -/
def answered (iid : Fin 4) (i : Fin 2) (trace : List (Event ports)) : List (BitVec 40) :=
  trace.filterMap fun
    | .answered j k addr => if j = iid ∧ k = i then some addr else none
    | _ => none

theorem answered_append (iid : Fin 4) (i : Fin 2) (trace events : List (Event ports)) :
    answered iid i (trace ++ events) = answered iid i trace ++ answered iid i events :=
  List.filterMap_append

theorem answered_seen_one (iid j : Fin 4) (i : Fin 2) (e : MMU.Event 40) :
    answered iid i (seen j e : List (Event ports)) =
      (answers i (unitTrace iid (seen j e : List (Event ports)))).map (physAddr iid) := by
  cases e with
  | answered k rv =>
    by_cases hj : j = iid
    · by_cases hk : k = i <;> simp [seen, answered, unitTrace, answers, hj, hk]
    · simp [seen, answered, unitTrace, answers, hj]
  | _ => by_cases hj : j = iid <;> simp [seen, answered, unitTrace, answers, hj]

theorem answered_seen (iid j : Fin 4) (i : Fin 2) (events : List (MMU.Event 40)) :
    answered iid i (events.flatMap (seen j) : List (Event ports)) =
      (answers i (unitTrace iid (events.flatMap (seen j) : List (Event ports)))).map (physAddr iid) := by
  induction events with
  | nil => rfl
  | cons e rest ih =>
    rw [List.flatMap_cons, answered_append, unitTrace_append, answers_append, List.map_append, ih,
      answered_seen_one]

/-- Every address leaves the unit with the number of the unit in it. -/
theorem run_answered (run : (host ports files bus).Run ok s trace) (iid : Fin 4) (i : Fin 2) :
    answered iid i trace = (answers i (unitTrace iid trace)).map (physAddr iid) := by
  refine run.invariant (fun trace _ =>
    answered iid i trace = (answers i (unitTrace iid trace)).map (physAddr iid)) (fun _ _ => rfl) ?_
  intro trace s action s' events h _ hFire
  rw [answered_append, unitTrace_append, answers_append, List.map_append, h]
  refine congrArg _ ?_
  cases action with
  | mmu j fd b =>
    simp only [host, fire, firing] at hFire
    obtain ⟨unit, unitEvents, -, dma, -, rfl, rfl⟩ := hFire
    exact answered_seen iid j i unitEvents
  | master j b =>
    simp only [host, fire, firing] at hFire
    obtain ⟨m, dma, portEvents, -, rfl, rfl⟩ := hFire
    rw [unitTrace_master]
    simp [answered, answers]

end Units

/-! Memory ports -/
section Ports

/-- What memory port `i` did. -/
def portTrace (i : Fin ports) (trace : List (Event ports)) : List DmaMaster.Event :=
  trace.filterMap fun
    | .master j e => if j = i then some e else none
    | _ => none

@[simp] theorem portTrace_append (i : Fin ports) (trace events : List (Event ports)) :
    portTrace i (trace ++ events) = portTrace i trace ++ portTrace i events :=
  List.filterMap_append

@[simp] theorem portTrace_seen (i : Fin ports) (iid : Fin 4) (events : List (MMU.Event 40)) :
    portTrace i (events.flatMap (seen iid)) = [] := by
  induction events with
  | nil => simp [portTrace]
  | cons e rest ih =>
    rw [List.flatMap_cons, portTrace_append, ih, List.append_nil]
    cases e <;> simp [seen, portTrace]

theorem portTrace_master (i j : Fin ports) (events : List DmaMaster.Event) :
    portTrace i (events.map (.master j)) = if j = i then events else [] := by
  by_cases hj : j = i
  · simp [portTrace, hj, List.filterMap_map, Function.comp_def]
  · simp [portTrace, hj]

/-- An action of the host is one of the memory port, or leaves it alone. -/
theorem fire_port (i : Fin ports) (hFire : fire files bus a s = some (s', events)) :
    (s'.master i = s.master i ∧ portTrace i events = []) ∨
      ∃ b, (s.master i).fire bus s.dma b = some ((s'.master i, s'.dma), portTrace i events) := by
  cases a with
  | mmu j fd b =>
    simp only [fire, firing] at hFire
    obtain ⟨unit, unitEvents, -, dma, -, rfl, rfl⟩ := hFire
    exact .inl ⟨rfl, portTrace_seen i j unitEvents⟩
  | master j b =>
    simp only [fire, firing] at hFire
    obtain ⟨m, dma, portEvents, hPort, rfl, rfl⟩ := hFire
    rw [portTrace_master]
    by_cases hj : j = i
    · subst hj
      rw [if_pos rfl]
      refine .inr ⟨b, hPort.trans ?_⟩
      simp only [Function.update_self]
    · rw [if_neg hj]
      exact .inl ⟨Function.update_of_ne (Ne.symm hj) _ _, rfl⟩

/-- The addresses of the beats of a burst. -/
def burst (bus : Bus) (addr : BitVec 40) (len : Nat) : List (BitVec 40) :=
  (List.range len).map fun b => addr + BitVec.ofNat 40 (b * bus.bytes)

/-- The beats of a request. The counter is one ahead when the first beat is made,
so a request for no beats goes once around. -/
def beats (bus : Bus) (req : PhysMemRequest 40) : List (BitVec 40) :=
  burst bus req.addr ((req.burstLen >>> bus.beatShift - 1).toNat + 1)

theorem burst_succ (bus : Bus) (addr : BitVec 40) (len : Nat) :
    burst bus addr (len + 1) = addr :: burst bus (addr + BitVec.ofNat 40 bus.bytes) len := by
  rw [burst, List.range_succ_eq_map, List.map_cons, List.map_map, burst]
  refine congrArg₂ List.cons ?_ (List.map_congr_left ?_)
  · simp
  · intro b _
    rw [Function.comp_apply, Nat.succ_mul, Nat.add_comm, BitVec.ofNat_add, BitVec.add_assoc]

/-- The beats that a channel still has to make. -/
def Channel.due (bus : Bus) (c : Channel) : List (BitVec 40) :=
  burst bus c.addrr c.len.toNat ++ (c.delayFifo.items.map Prod.snd).flatMap (beats bus)

theorem Channel.put_due {c c' : Channel} {cycles : BitVec 64} {req : PhysMemRequest 40}
    (h : c.put cycles req = some c') : c'.due bus = c.due bus ++ beats bus req := by
  simp only [Channel.put, firing] at h
  obtain ⟨delayFifo, ⟨-, hItems⟩, rfl⟩ := h
  simp [Channel.due, hItems]

theorem Channel.beat_due {c c' : Channel} {cycles : BitVec 64} {b : Beat}
    (h : c.beat bus cycles = some (b, c')) : c.due bus = b.addr :: c'.due bus := by
  rw [Channel.beat] at h
  split at h
  · next hLen =>
    simp only [firing] at h
    obtain ⟨start, req, delayFifo, hItems, -, rfl, rfl⟩ := h
    have hNone : burst bus c.addrr c.len.toNat = [] := by simp [hLen, burst]
    rw [Channel.due, hNone, hItems, List.nil_append, List.map_cons, List.flatMap_cons, beats, burst_succ]
    rfl
  · next hLen =>
    simp only [firing] at h
    obtain ⟨rfl, rfl⟩ := h
    obtain ⟨n, hn⟩ : ∃ n, c.len.toNat = n + 1 :=
      Nat.exists_eq_succ_of_ne_zero fun h => hLen (BitVec.eq_of_toNat_eq h)
    have hRest : (c.len - 1).toNat = n := by
      rw [BitVec.toNat_sub, hn]
      have := c.len.isLt
      simp
      omega
    simp only [Channel.due, hn, burst_succ, List.cons_append]
    rw [hRest]

/-- The requests that a memory port took, by direction. -/
def readReqs (trace : List DmaMaster.Event) : List (PhysMemRequest 40) :=
  trace.filterMap fun | .readReq req => some req | _ => none

def writeReqs (trace : List DmaMaster.Event) : List (PhysMemRequest 40) :=
  trace.filterMap fun | .writeReq req => some req | _ => none

/-- The addresses of the beats that a memory port made. -/
def readAddrs (trace : List DmaMaster.Event) : List (BitVec 40) :=
  trace.filterMap fun | .readData addr _ => some addr | _ => none

def writeAddrs (trace : List DmaMaster.Event) : List (BitVec 40) :=
  trace.filterMap fun | .writeData addr _ => some addr | _ => none

/-- The beats made and the beats to come are those of the requests, in order. -/
structure Accounts (bus : Bus) (trace : List DmaMaster.Event) (m : DmaMaster) : Prop where
  read : readAddrs trace ++ m.read.due bus = (readReqs trace).flatMap (beats bus)
  write : writeAddrs trace ++ m.write.due bus = (writeReqs trace).flatMap (beats bus)

attribute [local simp] readAddrs readReqs writeAddrs writeReqs List.filterMap_append

theorem Accounts.step {m m' : DmaMaster} {dma dma' : DmaTable} {a : DmaMaster.Action}
    {trace events : List DmaMaster.Event} (h : Accounts bus trace m)
    (hFire : m.fire bus dma a = some ((m', dma'), events)) : Accounts bus (trace ++ events) m' := by
  obtain ⟨hRead, hWrite⟩ := h
  cases a with
  | incrementCycle =>
    cases hFire
    rw [List.append_nil]
    exact ⟨hRead, hWrite⟩
  | readReq req =>
    simp only [DmaMaster.fire, DmaMaster.readReq, firing] at hFire
    obtain ⟨_, ⟨read, hPut, rfl⟩, ⟨rfl, -⟩, rfl⟩ := hFire
    have hNext := congrArg (· ++ beats bus req) hRead
    exact ⟨by simpa [Channel.put_due hPut] using hNext, by simpa using hWrite⟩
  | readData =>
    simp only [DmaMaster.fire, DmaMaster.readData, firing] at hFire
    obtain ⟨_, _, _, ⟨b, read, hBeat, v, -, ⟨rfl, rfl⟩, rfl⟩, ⟨rfl, -⟩, rfl⟩ := hFire
    rw [Channel.beat_due hBeat] at hRead
    exact ⟨by simpa using hRead, by simpa using hWrite⟩
  | writeReq req =>
    simp only [DmaMaster.fire, DmaMaster.writeReq, firing] at hFire
    obtain ⟨_, ⟨write, hPut, rfl⟩, ⟨rfl, -⟩, rfl⟩ := hFire
    have hNext := congrArg (· ++ beats bus req) hWrite
    exact ⟨by simpa using hRead, by simpa [Channel.put_due hPut] using hNext⟩
  | writeData data =>
    simp only [DmaMaster.fire, DmaMaster.writeData, firing] at hFire
    obtain ⟨_, _, _, ⟨-, b, write, hBeat, _, -, bFifo, -, rfl, rfl, rfl⟩, ⟨rfl, -⟩, rfl⟩ := hFire
    rw [Channel.beat_due hBeat] at hWrite
    exact ⟨by simpa using hRead, by simpa using hWrite⟩
  | writeDone =>
    simp only [DmaMaster.fire, DmaMaster.writeDone, firing] at hFire
    obtain ⟨_, _, ⟨_, _, bFifo, -, _, -, rfl, rfl⟩, ⟨rfl, -⟩, rfl⟩ := hFire
    exact ⟨by simpa using hRead, by simpa using hWrite⟩

theorem run_accounts (run : (host ports files bus).Run ok s trace) (i : Fin ports) :
    Accounts bus (portTrace i trace) (s.master i) := by
  refine run.invariant (fun trace s => Accounts bus (portTrace i trace) (s.master i)) ?_ ?_
  · intro s hs
    rw [hs.2.2 i]
    exact ⟨rfl, rfl⟩
  · intro trace s action s' events h _ hFire
    rw [portTrace_append]
    rcases fire_port i hFire with ⟨hSame, hNone⟩ | ⟨b, hPort⟩
    · rw [hSame, hNone, List.append_nil]
      exact h
    · exact h.step hPort

end Ports

/-! The table of the simulator -/
section Table

/-- The same sizes, and mapped or not mapped alike. -/
structure Alike (info info' : DmaInfo) : Prop where
  mapped : info.buffer.isSome = info'.buffer.isSome
  bufferLen : info.bufferLen = info'.bufferLen
  sizeAccum : info.sizeAccum = info'.sizeAccum

theorem Alike.refl (info : DmaInfo) : Alike info info := ⟨rfl, rfl, rfl⟩

theorem Alike.trans {a b c : DmaInfo} (h : Alike a b) (h' : Alike b c) : Alike a c :=
  ⟨h.mapped.trans h'.mapped, h.bufferLen.trans h'.bufferLen, h.sizeAccum.trans h'.sizeAccum⟩

theorem Alike.init {info info' : DmaInfo} (h : Alike info info') (size : BitVec 32) :
    Alike (info.init files size) (info'.init files size) := by
  obtain ⟨hMapped, hLen, hAccum⟩ := h
  simp only [DmaInfo.init, hAccum]
  split
  · exact ⟨rfl, rfl, rfl⟩
  · exact ⟨hMapped, hLen, rfl⟩

/-- An update that does not matter at one entry matters nowhere. -/
theorem alike_update {dma : DmaTable} {key : BitVec 32 × BitVec 32} {info : DmaInfo}
    (h : Alike info (dma key)) (key' : BitVec 32 × BitVec 32) :
    Alike (Function.update dma key info key') (dma key') := by
  by_cases hKey : key' = key
  · rw [hKey, Function.update_self]
    exact h
  · rw [Function.update_of_ne hKey]
    exact Alike.refl _

variable {dma dma' : DmaTable}

theorem writePareff_alike {pref offset : BitVec 32} {data : List Byte}
    (h : writePareff pref offset data dma = some dma') (key : BitVec 32 × BitVec 32) :
    Alike (dma' key) (dma key) := by
  simp only [writePareff, firing] at h
  obtain ⟨buffer, hBuffer, -, rfl⟩ := h
  have hAlike : Alike { dma (entry pref) with buffer := some (buffer.put offset.toNat data) }
      (dma (entry pref)) := ⟨by rw [hBuffer]; rfl, rfl, rfl⟩
  exact alike_update hAlike key

theorem Bus.writePareff_alike {pref offset : BitVec 32} {data : List Byte}
    (h : bus.writePareff pref offset data dma = some dma') (key : BitVec 32 × BitVec 32) :
    Alike (dma' key) (dma key) := by
  cases bus with
  | w32 | w64 => exact Bsim.writePareff_alike h key
  | w128 =>
    obtain ⟨half, hLow, hHigh⟩ := Option.bind_eq_some_iff.mp h
    exact (Bsim.writePareff_alike hHigh key).trans (Bsim.writePareff_alike hLow key)

theorem DmaMaster.fire_alike {m m' : DmaMaster} {a : DmaMaster.Action}
    {events : List DmaMaster.Event} (hFire : m.fire bus dma a = some ((m', dma'), events))
    (key : BitVec 32 × BitVec 32) : Alike (dma' key) (dma key) := by
  cases a with
  | writeData data =>
    simp only [DmaMaster.fire, DmaMaster.writeData, firing] at hFire
    obtain ⟨_, _, _, ⟨-, b, write, -, dma₁, hWrite, bFifo, -, rfl, rfl, rfl⟩, ⟨-, rfl⟩, -⟩ := hFire
    exact Bus.writePareff_alike hWrite key
  | incrementCycle =>
    cases hFire
    exact Alike.refl _
  | readReq | readData | writeReq | writeDone =>
    obtain ⟨_, -, hEq⟩ := Option.map_eq_some_iff.mp hFire
    cases hEq
    exact Alike.refl _

/-- The element sizes that software sent for a scatter list. -/
def lens (sglId : BitVec 5) (calls : List Config) : List (BitVec 32) :=
  calls.filterMap fun
    | .sglist pointer _ _ len => if pointer.setWidth 5 = sglId then some len else none
    | _ => none

@[simp] theorem lens_append (sglId : BitVec 5) (calls calls' : List Config) :
    lens sglId (calls ++ calls') = lens sglId calls ++ lens sglId calls' :=
  List.filterMap_append

/-- The entry of a scatter list in the table. -/
def key (iid : Fin 4) (sglId : BitVec 5) : BitVec 32 × BitVec 32 :=
  (BitVec.ofNat 32 iid, sglId.setWidth 32)

variable {iid : Fin 4}

theorem key_fst_injective {j : Fin 4} (h : BitVec.ofNat 32 iid = BitVec.ofNat 32 j) : iid = j := by
  have hNat := congrArg BitVec.toNat h
  rw [BitVec.toNat_ofNat, BitVec.toNat_ofNat] at hNat
  omega

/-- The number of a scatter list, as far as the simulator accepts it. -/
theorem low_half {pointer : BitVec 32} (h : pointer &&& 0xffff < 32) :
    pointer &&& 0xffff = (pointer.setWidth 5).setWidth 32 := by
  have hMask : (pointer &&& 0xffff).toNat = pointer.toNat % 2 ^ 16 :=
    Nat.and_two_pow_sub_one_eq_mod _ 16
  have hSmall : (pointer &&& 0xffff).toNat < 32 := h
  apply BitVec.eq_of_toNat_eq
  rw [BitVec.toNat_setWidth, BitVec.toNat_setWidth, hMask]
  omega

theorem pareffInit_apply {pointer len : BitVec 32} (hUnit : pointer >>> 16 = BitVec.ofNat 32 iid)
    (h : pareffInit files (pointer >>> 16) (pointer &&& 0xffff) len dma = some dma') :
    dma' = Function.update dma (key iid (pointer.setWidth 5))
      ((dma (key iid (pointer.setWidth 5))).init files len) := by
  simp only [pareffInit, firing] at h
  obtain ⟨hSmall, rfl⟩ := h
  rw [low_half hSmall, hUnit]
  rfl

/-- The element sizes for a scatter list of unit `j` in an event of unit `iid`. -/
def recorded (iid j : Fin 4) (sglId : BitVec 5) (events : List (MMU.Event 40)) : List (BitVec 32) :=
  if iid = j then lens sglId (configs events) else []

theorem recorded_cons (iid j : Fin 4) (sglId : BitVec 5) (e : MMU.Event 40)
    (rest : List (MMU.Event 40)) :
    recorded iid j sglId (e :: rest) = recorded iid j sglId [e] ++ recorded iid j sglId rest := by
  simp only [recorded]
  split
  · rw [← lens_append, ← configs_append, List.singleton_append]
  · rfl

theorem recorded_sglist (iid j : Fin 4) (sglId : BitVec 5) (pointer pointerIndex : BitVec 32)
    (addr : BitVec 64) (len : BitVec 32) :
    recorded iid j sglId [.config (.sglist pointer pointerIndex addr len)] =
      if key j sglId = key iid (pointer.setWidth 5) then [len] else [] := by
  by_cases hj : iid = j
  · subst hj
    rw [recorded, if_pos rfl]
    by_cases hId : pointer.setWidth 5 = sglId
    · simp [configs, lens, hId]
    · have hKey : key iid sglId ≠ key iid (pointer.setWidth 5) := by
        intro hKey
        have hNarrow := congrArg (BitVec.setWidth 5) (congrArg Prod.snd hKey)
        exact hId (by simpa [key] using hNarrow.symm)
      simp [configs, lens, hId, hKey]
  · have hKey : key j sglId ≠ key iid (pointer.setWidth 5) := fun hKey =>
      hj (key_fst_injective (congrArg Prod.fst hKey)).symm
    rw [recorded, if_neg hj, if_neg hKey]

/-- The entry of a scatter list follows the element sizes that are sent for it. -/
def Follows (files : BitVec 32 → Buffer) (info : DmaInfo) (sizes : List (BitVec 32)) (info' : DmaInfo) :
    Prop :=
  Alike info' (sizes.foldl (fun info len => info.init files len) info)

theorem Follows.trans {info info' info'' : DmaInfo} {sizes sizes' : List (BitVec 32)}
    (h : Follows files info sizes info') (h' : Follows files info' sizes' info'') :
    Follows files info (sizes ++ sizes') info'' := by
  rw [Follows, List.foldl_append]
  refine Alike.trans h' ?_
  have hFold : ∀ (l : List (BitVec 32)) (a b : DmaInfo), Alike a b →
      Alike (l.foldl (fun info len => info.init files len) a)
        (l.foldl (fun info len => info.init files len) b) := by
    intro l
    induction l with
    | nil => exact fun a b hab => hab
    | cons len rest ih => exact fun a b hab => ih _ _ (hab.init len)
  exact hFold sizes' _ _ h

/-- What one event of unit `iid` does to the entry of a scatter list of unit `j`. -/
theorem simulate_follows {fd : BitVec 32} {e : MMU.Event 40}
    (h : simulate files iid fd dma e = some dma') (j : Fin 4) (sglId : BitVec 5) :
    Follows files (dma (key j sglId)) (recorded iid j sglId [e]) (dma' (key j sglId)) := by
  have hNone : ∀ {e : MMU.Event 40}, lens sglId (configs [e]) = [] →
      Alike (dma' (key j sglId)) (dma (key j sglId)) →
      Follows files (dma (key j sglId)) (recorded iid j sglId [e]) (dma' (key j sglId)) := by
    intro e hLens hAlike
    rw [recorded, hLens, ite_self]
    exact hAlike
  cases e with
  | config c =>
    cases c with
    | sglist pointer pointerIndex addr len =>
      obtain ⟨_, hGuard, hInit⟩ := Option.bind_eq_some_iff.mp h
      rw [pareffInit_apply (guard_eq_some.mp hGuard) hInit, recorded_sglist]
      by_cases hKey : key j sglId = key iid (pointer.setWidth 5)
      · rw [if_pos hKey, hKey, Function.update_self]
        exact Alike.refl _
      · rw [if_neg hKey, Function.update_of_ne hKey]
        exact Alike.refl _
    | region | invalidate =>
      cases h
      exact hNone rfl (Alike.refl _)
  | idResponse resp =>
    cases h
    have hAlike : Alike { dma (resp >>> 16, resp &&& 0xffff) with fd }
        (dma (resp >>> 16, resp &&& 0xffff)) := ⟨rfl, rfl, rfl⟩
    exact hNone rfl (alike_update hAlike _)
  | _ =>
    cases h
    exact hNone rfl (Alike.refl _)

theorem simulate_all {fd : BitVec 32} {events : List (MMU.Event 40)}
    (h : events.foldlM (simulate files iid fd) dma = some dma') (j : Fin 4) (sglId : BitVec 5) :
    Follows files (dma (key j sglId)) (recorded iid j sglId events) (dma' (key j sglId)) := by
  induction events generalizing dma with
  | nil =>
    cases h
    rw [recorded, show lens sglId (configs []) = [] from rfl, ite_self]
    exact Alike.refl _
  | cons e rest ih =>
    rw [List.foldlM_cons] at h
    obtain ⟨dma₁, hFirst, hRest⟩ := Option.bind_eq_some_iff.mp h
    rw [recorded_cons]
    exact (simulate_follows hFirst j sglId).trans (ih hRest)

theorem fire_follows (hFire : fire files bus a s = some (s', events)) (j : Fin 4) (sglId : BitVec 5) :
    Follows files (s.dma (key j sglId)) (lens sglId (configs (unitTrace j events)))
      (s'.dma (key j sglId)) := by
  cases a with
  | mmu iid fd b =>
    simp only [fire, firing] at hFire
    obtain ⟨unit, unitEvents, -, dma, hDma, rfl, rfl⟩ := hFire
    have hAll := simulate_all hDma j sglId
    rw [unitTrace_seen]
    rw [recorded] at hAll
    split
    · next hj => rwa [if_pos hj] at hAll
    · next hj => rwa [if_neg hj] at hAll
  | master i b =>
    simp only [fire, firing] at hFire
    obtain ⟨m, dma, portEvents, hPort, rfl, rfl⟩ := hFire
    rw [unitTrace_master]
    exact DmaMaster.fire_alike hPort _

theorem run_follows (run : (host ports files bus).Run ok s trace) (iid : Fin 4) (sglId : BitVec 5) :
    Follows files ⟨0, none, 0, 0⟩ (lens sglId (configs (unitTrace iid trace))) (s.dma (key iid sglId)) := by
  refine run.invariant (fun trace s => Follows files ⟨0, none, 0, 0⟩
    (lens sglId (configs (unitTrace iid trace))) (s.dma (key iid sglId))) ?_ ?_
  · intro s hs
    rw [hs.2.1]
    exact Alike.refl _
  · intro trace s action s' events h _ hFire
    rw [unitTrace_append, configs_append, lens_append]
    exact h.trans (fire_follows hFire iid sglId)

end Table

end Bsim
end Connectal
