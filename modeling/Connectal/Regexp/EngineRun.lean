import Connectal.Regexp.Engine

/-! Runs of the matcher against its software reference. -/
namespace Connectal.Regexp

open Rules

/-- The three rules of the matcher on one character: the state and the number of matches. -/
def advance (t : Tables) (s : BitVec 5 × Nat) (c : BitVec 8) : BitVec 5 × Nat :=
  if (t.stateMap s.1.toNat).getLsbD 7 then (0, s.2 + 1)
  else ((t.stateTransitions ((t.stateMap s.1.toNat).extractLsb' 0 5 ++
    (t.charMap c.toNat).extractLsb' 0 5).toNat).setWidth 5, s.2)

def walk (t : Tables) (haystack : List (BitVec 8)) : BitVec 5 × Nat := haystack.foldl (advance t) (0, 0)

theorem walk_append (t : Tables) (h : List (BitVec 8)) (c : BitVec 8) :
    walk t (h ++ [c]) = advance t (walk t h) c := List.foldl_append

section Reference

variable {t : Tables} {b c : BitVec 8} {st : BitVec 5} {n : Nat}

theorem signExtend_eq (h : b.toNat < 128) : b.signExtend 32 = b.setWidth 32 := by
  refine BitVec.signExtend_eq_setWidth_of_msb_false ?_
  rw [BitVec.msb_eq_decide, decide_eq_false_iff_not, Nat.not_le]
  exact h

theorem accept_iff (b : BitVec 8) : b.signExtend 32 &&& 0x80 ≠ 0 ↔ b.getLsbD 7 = true := by
  revert b
  decide +kernel

theorem toNat_lt_of_not_accept (hBits : b.toNat % 128 < 32) (h : ¬b.getLsbD 7 = true) : b.toNat < 32 := by
  rw [← BitVec.msb_eq_getLsbD_last b, BitVec.msb_eq_decide, decide_eq_true_iff, Nat.not_le] at h
  omega

/-- The address of a transition, shifted together by the software and cut out by the hardware. -/
theorem nsAddr_eq (hb : b.toNat < 32) (hc : c.toNat < 32) :
    (b.signExtend 32 <<< 5 ||| c.signExtend 32).toNat =
      (b.extractLsb' 0 5 ++ c.extractLsb' 0 5).toNat := by
  have hShift : b.toNat <<< 5 < 2 ^ 32 := by
    rw [Nat.shiftLeft_eq]
    omega
  rw [signExtend_eq (by omega), signExtend_eq (by omega), BitVec.toNat_append, BitVec.toNat_or,
    BitVec.toNat_shiftLeft]
  simp only [BitVec.toNat_setWidth, BitVec.extractLsb'_toNat, Nat.shiftRight_zero]
  rw [Nat.mod_eq_of_lt (show b.toNat < 2 ^ 32 by omega), Nat.mod_eq_of_lt (show c.toNat < 2 ^ 32 by omega),
    Nat.mod_eq_of_lt hShift, Nat.mod_eq_of_lt (show b.toNat < 2 ^ 5 from hb),
    Nat.mod_eq_of_lt (show c.toNat < 2 ^ 5 from hc)]

/-- What the software reads as its next state is what the hardware keeps of it. -/
theorem next_eq (hb : b.toNat < 32) : b.signExtend 32 = (b.setWidth 5).setWidth 32 := by
  rw [signExtend_eq (by omega)]
  refine BitVec.eq_of_toNat_eq ?_
  simp only [BitVec.toNat_setWidth]
  omega

/-- One turn of the reference is one character of the hardware, unless a state accepts on a
character that leads away from the start. -/
theorem swStep_eq (hLegal : t.Legal) (hc : c.toNat < 128)
    (hRestart : (t.stateMap st.toNat).getLsbD 7 = true → t.stateTransitions (t.charMap c.toNat).toNat = 0) :
    swStep t (st.setWidth 32, n) c =
      ((advance t (st, n) c).1.setWidth 32, (advance t (st, n) c).2) := by
  have hState : (st.setWidth 32).toNat = st.toNat := by
    rw [BitVec.toNat_setWidth]
    omega
  have hChar : (c.signExtend 32).toNat = c.toNat := by
    rw [signExtend_eq hc, BitVec.toNat_setWidth]
    omega
  have hMapped := hLegal.chars c.toNat (by omega)
  simp only [swStep, advance, hState, hChar, accept_iff]
  split
  · next hAccept =>
    -- the software takes a transition from the start, the hardware stays there
    have hAddr : ((0 : BitVec 32) <<< 5 ||| (t.charMap c.toNat).signExtend 32).toNat =
        (t.charMap c.toNat).toNat := by
      change (0#32 <<< 5 ||| _).toNat = _
      rw [signExtend_eq (by omega), BitVec.zero_shiftLeft, BitVec.zero_or, BitVec.toNat_setWidth]
      omega
    rw [hAddr, hRestart hAccept]
    rfl
  · next hAccept =>
    have hSmall := toNat_lt_of_not_accept (hLegal.states st.toNat (by omega)) hAccept
    rw [nsAddr_eq hSmall hMapped, next_eq (hLegal.next _ (by omega))]

/-- On what has been read so far the hardware and the reference agree. -/
def Follows (t : Tables) (h : List (BitVec 8)) : Prop :=
  t.Legal → (∀ c ∈ h, c.toNat < 128) → h.foldl (swStep t) (0, 0) = ((walk t h).1.setWidth 32, (walk t h).2)

theorem follows_nil : Follows t [] := fun _ _ => rfl

theorem Follows.snoc {h : List (BitVec 8)} (hFollows : Follows t h)
    (hRestart : (t.stateMap (walk t h).1.toNat).getLsbD 7 = true →
      t.stateTransitions (t.charMap c.toNat).toNat = 0) : Follows t (h ++ [c]) := by
  intro hLegal hPlain
  have hPrior := hFollows hLegal fun x hx => hPlain x (List.mem_append_left _ hx)
  rw [List.foldl_append, hPrior, walk_append]
  exact swStep_eq hLegal (hPlain c (by simp)) hRestart

theorem Follows.count {h : List (BitVec 8)} (hFollows : Follows t h) (hLegal : t.Legal)
    (hPlain : ∀ c ∈ h, c.toNat < 128) : (walk t h).2 = swRef t h :=
  (congrArg Prod.snd (hFollows hLegal hPlain)).symm

end Reference

namespace RegexpEngine

variable {tw : Nat}

/-- The searches that have been seen: the one that is running with the number of matches it has
reported, and those that are done. -/
structure Tally where
  running : Option (Tables × List (BitVec 8) × Nat)
  finished : List (Tables × List (BitVec 8) × Nat)

def Tally.see (a : Tally) : Event tw → Tally
  | .searches t h => { a with running := some (t, h, 0) }
  | .emits (.loc _ _) => { a with running := a.running.map fun (t, h, n) => (t, h, n + 1) }
  | .emits (.done _) => ⟨none, a.finished ++ a.running.toList⟩
  | .emits (.ready _) => a
  | .emits (.config _) => a

def tally (trace : List (Event tw)) : Tally := trace.foldl Tally.see ⟨none, []⟩

/-- Haystacks are read in words of eight characters. -/
def words (_ : List (Event tw)) (_ : RegexpEngine tw) : Action tw → Prop
  | .setsearch (.search h) => 8 ∣ h.length
  | _ => True

/-- A state that accepts is only resolved with a character that stays at the start. -/
def Restarts (s : RegexpEngine tw) : Action tw → Prop
  | .resolveState => ∀ mappedChar ∈ s.charMapOut.items.head?, ∀ mappedState ∈ s.stateMapOut.items.head?,
      mappedState.getLsbD 7 = true → s.tables.stateTransitions mappedChar.toNat = 0
  | _ => True

def restarting (trace : List (Event tw)) (s : RegexpEngine tw) (action : Action tw) : Prop :=
  words trace s action ∧ Restarts s action

/-- No further request is made. -/
def noRequests (_ : List (Event tw)) (_ : RegexpEngine tw) : Action tw → Prop
  | .setsearch _ => False
  | _ => True

/-- The haystacks that are still to be searched. -/
def queued (s : RegexpEngine tw) : List (List (BitVec 8)) := s.setsearchFIFO.items.filterMap SSV.search?

/-- There is one token. It is a state that waits for a character, a pair of lookups or a
transition. -/
inductive Token (s : RegexpEngine tw) : List (BitVec 8) → BitVec 5 → Prop where
  | waits {st : BitVec 5} (hState : s.fsmState.items = [st]) (hChar : s.charMapOut.items = [])
      (hMap : s.stateMapOut.items = []) (hNext : s.stateTransitionsOut.items = []) : Token s [] st
  | looks {c : BitVec 8} {st : BitVec 5} (hState : s.fsmState.items = [])
      (hChar : s.charMapOut.items = [s.tables.charMap c.toNat])
      (hMap : s.stateMapOut.items = [s.tables.stateMap st.toNat])
      (hNext : s.stateTransitionsOut.items = []) : Token s [c] st
  | moves {x : BitVec 8} (hState : s.fsmState.items = []) (hChar : s.charMapOut.items = [])
      (hMap : s.stateMapOut.items = []) (hNext : s.stateTransitionsOut.items = [x]) :
      Token s [] (x.setWidth 5)

/-- No search is in the engine. -/
structure Still (s : RegexpEngine tw) : Prop where
  reader : s.reader = none
  haystack : s.haystack.items = []
  state : s.fsmState.items = []
  chars : s.charMapOut.items = []
  states : s.stateMapOut.items = []
  next : s.stateTransitionsOut.items = []

/-- `conff` lets one thing happen at a time. During a search the tables stay as they are; what
has been read of the haystack, `done`, is known to be `good`. -/
inductive Phase (good : Tables → List (BitVec 8) → Prop) (s : RegexpEngine tw) :
    Option (Tables × List (BitVec 8) × Nat) → Prop where
  | idle (hConff : s.conff.items = []) (hWriters : s.writers = fun _ => none) (hStill : Still s) :
      Phase good s none
  | loading {w : Table} {m : Nat → BitVec 8} (hConff : s.conff.items = [()])
      (hWriters : s.writers = Function.update (fun _ => none) w (some m)) (hStill : Still s) :
      Phase good s none
  | searching {done flight rest : List (BitVec 8)} {st : BitVec 5} {n : Nat}
      (hConff : s.conff.items = [()]) (hWriters : s.writers = fun _ => none)
      (hReader : s.reader = some rest) (hToken : Token s flight st)
      (hWalk : walk s.tables done = (st, n)) (hGood : good s.tables done) :
      Phase good s (some (s.tables, done ++ flight ++ s.haystack.items ++ rest, n))

/-- The running search is somewhere in the engine, and those that are done were walked through. -/
structure Inv (good : Tables → List (BitVec 8) → Prop) (a : Tally) (s : RegexpEngine tw) : Prop where
  phase : Phase good s a.running
  finished : ∀ x ∈ a.finished, good x.1 x.2.1 ∧ x.2.2 = (walk x.1 x.2.1).2

variable {good : Tables → List (BitVec 8) → Prop} {s s' : RegexpEngine tw} {events : List (Event tw)}
  {r : Option (Tables × List (BitVec 8) × Nat)} {iid : BitVec tw}

theorem Still.frame (h : Still s) {readyr : Bool} {setsearchFIFO : Fifo (SSV tw) 4} {ldrFIFO : Fifo (LDR tw) 2}
    {conff : Fifo Unit 1} {tables : Tables} {writers : Table → Option (Nat → BitVec 8)} :
    Still { s with readyr, setsearchFIFO, ldrFIFO, conff, tables, writers } :=
  ⟨h.reader, h.haystack, h.state, h.chars, h.states, h.next⟩

theorem Token.frame {flight : List (BitVec 8)} {st : BitVec 5} (h : Token s flight st) {readyr : Bool}
    {setsearchFIFO : Fifo (SSV tw) 4} {ldrFIFO : Fifo (LDR tw) 2} {haystack : Fifo (BitVec 8) 16}
    {reader : Option (List (BitVec 8))} :
    Token { s with readyr, setsearchFIFO, ldrFIFO, haystack, reader } flight st := by
  cases h with
  | waits hState hChar hMap hNext => exact .waits hState hChar hMap hNext
  | looks hState hChar hMap hNext => exact .looks hState hChar hMap hNext
  | moves hState hChar hMap hNext => exact .moves hState hChar hMap hNext

/-- What a search does not touch may change. -/
theorem Phase.frame (h : Phase good s r) {readyr : Bool} {setsearchFIFO : Fifo (SSV tw) 4}
    {ldrFIFO : Fifo (LDR tw) 2} : Phase good { s with readyr, setsearchFIFO, ldrFIFO } r := by
  cases h with
  | idle hConff hWriters hStill => exact .idle hConff hWriters hStill.frame
  | loading hConff hWriters hStill => exact .loading hConff hWriters hStill.frame
  | @searching done flight rest st n hConff hWriters hReader hToken hWalk hGood =>
    exact .searching (s := { s with readyr, setsearchFIFO, ldrFIFO }) hConff hWriters hReader hToken.frame hWalk hGood

theorem queued_load {x : SSV tw} {q : Fifo (SSV tw) 4} {w : Table} {m : Nat → BitVec 8}
    (hQueue : s.setsearchFIFO.items = x :: q.items) (hLoad : x.load? = some (w, m)) :
    queued s = q.items.filterMap SSV.search? := by
  rw [queued, hQueue]
  cases x with
  | search | retire => cases hLoad
  | _ => rfl

theorem Phase.of_eq {r' : Option (Tables × List (BitVec 8) × Nat)} (h : Phase good s r) (hr : r = r') :
    Phase good s r' := hr ▸ h

/-- A writer starts when nothing else happens. -/
theorem Phase.startWriter (h : Phase good s r) {w : Table} (hFire : startWriter w s = some (s', events)) :
    events = [] ∧ queued s' = queued s ∧ Phase good s' r := by
  simp only [RegexpEngine.startWriter, firing] at hFire
  obtain ⟨x, q, hQueue, w', m, hLoad, -, conff, ⟨hRoom, hConff'⟩, -, rfl, rfl⟩ := hFire
  refine ⟨rfl, (queued_load hQueue hLoad).symm, ?_⟩
  cases h with
  | idle hConff hWriters hStill =>
    exact .loading (w := w) (m := m) (by rw [hConff', hConff]; rfl) (by rw [hWriters]) hStill.frame
  | loading hConff | searching hConff => simp [hConff] at hRoom

theorem Phase.finishWriter (h : Phase good s r) {w : Table} (hFire : finishWriter w s = some (s', events)) :
    events = [] ∧ queued s' = queued s ∧ Phase good s' r := by
  simp only [RegexpEngine.finishWriter, firing] at hFire
  obtain ⟨_, conff, hConff', m, hm, rfl, rfl⟩ := hFire
  refine ⟨rfl, rfl, ?_⟩
  cases h with
  | idle hConff hWriters | searching hConff hWriters =>
    rw [hWriters] at hm
    cases hm
  | @loading v m' hConff hWriters hStill =>
    -- the only writer that has been started is the one that finishes
    have hv : w = v := by
      by_contra hNe
      rw [hWriters, Function.update_of_ne hNe] at hm
      cases hm
    subst hv
    refine .idle (List.cons.inj (hConff'.symm.trans hConff)).2 ?_ hStill.frame
    rw [hWriters, Function.update_idem]
    exact Function.update_eq_self w (fun _ => none)

theorem Phase.setsearchR3 (hNil : ∀ t, good t []) (h : Phase good s r)
    (hFire : setsearchR3 s = some (s', events)) :
    r = none ∧ ∃ h, events = [.searches s.tables h] ∧ queued s = h :: queued s' ∧
      Phase good s' (some (s.tables, h, 0)) := by
  simp only [RegexpEngine.setsearchR3, firing] at hFire
  obtain ⟨x, q, hQueue, hFire⟩ := hFire
  cases x with
  | search haystack =>
    simp only [firing] at hFire
    obtain ⟨conff, ⟨hRoom, hConff'⟩, -, fsmState, ⟨-, hState⟩, rfl, rfl⟩ := hFire
    cases h with
    | idle hConff hWriters hStill =>
      refine ⟨rfl, haystack, rfl, by rw [queued, hQueue]; rfl, ?_⟩
      refine Phase.of_eq (.searching (by rw [hConff', hConff]; rfl) hWriters rfl
        (.waits (by rw [hState, hStill.state]; rfl) hStill.chars hStill.states hStill.next) rfl (hNil _)) ?_
      rw [hStill.haystack]
      rfl
    | loading hConff => simp [hConff] at hRoom
    | searching hConff => simp [hConff] at hRoom
  | charMap | stateMap | stateTransitions | retire => cases hFire

section

variable (h : Phase good s r)

include h

theorem Phase.haystackResp (hFire : haystackResp s = some (s', events)) :
    events = [] ∧ queued s' = queued s ∧ Phase good s' r := by
  simp only [RegexpEngine.haystackResp, firing, Fifo.enqAll_eq_some] at hFire
  obtain ⟨bytes, hBytes, -, haystack, ⟨-, hHaystack⟩, rfl, rfl⟩ := hFire
  refine ⟨rfl, rfl, ?_⟩
  cases h with
  | idle _ _ hStill | loading _ _ hStill =>
    rw [hStill.reader] at hBytes
    cases hBytes
  | @searching done flight rest st n hConff hWriters hReader hToken hWalk hGood =>
    obtain rfl : rest = bytes := Option.some.inj (hReader.symm.trans hBytes)
    refine Phase.of_eq (.searching hConff hWriters rfl hToken.frame hWalk hGood) ?_
    simp [hHaystack]

theorem Phase.haystackFinish (hFire : haystackFinish iid s = some (s', events)) :
    events = [.emits (.done iid)] ∧ queued s' = queued s ∧ Phase good s' none ∧
      ∃ t h, r = some (t, h, (walk t h).2) ∧ good t h := by
  simp only [RegexpEngine.haystackFinish, firing] at hFire
  obtain ⟨hEmpty, hRest, ldrFIFO, -, _, conff, hConff', st', fsmState, hState', rfl, rfl⟩ := hFire
  refine ⟨rfl, rfl, ?_⟩
  cases h with
  | idle _ _ hStill | loading _ _ hStill =>
    rw [hStill.reader] at hRest
    cases hRest
  | @searching done flight rest st n hConff hWriters hReader hToken hWalk hGood =>
    obtain rfl : rest = [] := Option.some.inj (hReader.symm.trans hRest)
    have hConff₀ : conff.items = [] := (List.cons.inj (hConff'.symm.trans hConff)).2
    -- the token waits for a character, so everything has been read
    cases hToken with
    | looks hState | moves hState => cases hState.symm.trans hState'
    | waits hState hChar hMap hNext =>
      have hState₀ : fsmState.items = [] := (List.cons.inj (hState'.symm.trans hState)).2
      refine ⟨.idle hConff₀ hWriters ⟨rfl, hEmpty, hState₀, hChar, hMap, hNext⟩, s.tables, done, ?_, hGood⟩
      simp [hEmpty, hWalk]

theorem Phase.lookupState (hFire : lookupState s = some (s', events)) :
    events = [] ∧ queued s' = queued s ∧ Phase good s' r := by
  simp only [RegexpEngine.lookupState, firing] at hFire
  obtain ⟨c, haystack, hHaystack, st', fsmState, hState', charMapOut, ⟨-, hChar'⟩, stateMapOut, ⟨-, hMap'⟩,
    rfl, rfl⟩ := hFire
  refine ⟨rfl, rfl, ?_⟩
  cases h with
  | idle _ _ hStill | loading _ _ hStill => cases hStill.state.symm.trans hState'
  | @searching done flight rest st n hConff hWriters hReader hToken hWalk hGood =>
    cases hToken with
    | looks hState => cases hState.symm.trans hState'
    | moves hState => cases hState.symm.trans hState'
    | waits hState hChar hMap hNext =>
      obtain ⟨rfl, hState₀⟩ := List.cons.inj (hState'.symm.trans hState)
      refine Phase.of_eq (.searching hConff hWriters hReader (.looks (c := c) hState₀
        (by rw [hChar', hChar]; rfl) (by rw [hMap', hMap]; rfl) hNext) hWalk hGood) ?_
      simp [hHaystack]

theorem Phase.nextState (hFire : nextState s = some (s', events)) :
    events = [] ∧ queued s' = queued s ∧ Phase good s' r := by
  simp only [RegexpEngine.nextState, firing] at hFire
  obtain ⟨x, stateTransitionsOut, hNext', fsmState, ⟨-, hState'⟩, rfl, rfl⟩ := hFire
  refine ⟨rfl, rfl, ?_⟩
  cases h with
  | idle _ _ hStill | loading _ _ hStill => cases hStill.next.symm.trans hNext'
  | @searching done flight rest st n hConff hWriters hReader hToken hWalk hGood =>
    cases hToken with
    | waits hState hChar hMap hNext | looks hState hChar hMap hNext => cases hNext.symm.trans hNext'
    | moves hState hChar hMap hNext =>
      obtain ⟨rfl, hNext₀⟩ := List.cons.inj (hNext'.symm.trans hNext)
      exact .searching hConff hWriters hReader
        (.waits (by rw [hState', hState]; rfl) hChar hMap hNext₀) hWalk hGood

/-- A character is resolved: either a match is reported and the automaton starts again, or its
transition is looked up. -/
theorem Phase.resolveState (hFire : resolveState iid s = some (s', events))
    (hGoodStep : ∀ done c, good s.tables done → s.charMapOut.items = [s.tables.charMap c.toNat] →
      s.stateMapOut.items = [s.tables.stateMap (walk s.tables done).1.toNat] → good s.tables (done ++ [c])) :
    ∃ t h n, r = some (t, h, n) ∧ queued s' = queued s ∧ ((events = [] ∧ Phase good s' r) ∨
      ∃ pos, events = [.emits (.loc iid pos)] ∧ Phase good s' (some (t, h, n + 1))) := by
  simp only [RegexpEngine.resolveState, firing] at hFire
  obtain ⟨mappedChar, charMapOut, hChar', mappedState, stateMapOut, hMap', hFire⟩ := hFire
  cases h with
  | idle _ _ hStill | loading _ _ hStill => cases hStill.chars.symm.trans hChar'
  | @searching done flight rest st n hConff hWriters hReader hToken hWalk hGood =>
    cases hToken with
    | waits hState hChar | moves hState hChar => cases hChar.symm.trans hChar'
    | @looks c st hState hChar hMap hNext =>
      have hGood' : good s.tables (done ++ [c]) := hGoodStep done c hGood hChar (by rw [hMap, hWalk])
      have hWalk' : walk s.tables (done ++ [c]) = advance s.tables (st, n) c := by rw [walk_append, hWalk]
      obtain ⟨rfl, hChar₀⟩ := List.cons.inj (hChar'.symm.trans hChar)
      obtain ⟨rfl, hMap₀⟩ := List.cons.inj (hMap'.symm.trans hMap)
      refine ⟨_, _, _, rfl, ?_⟩
      split at hFire
      · next hAccept =>
        simp only [firing] at hFire
        obtain ⟨ldrFIFO, -, fsmState, ⟨-, hState'⟩, rfl, rfl⟩ := hFire
        rw [advance, if_pos hAccept] at hWalk'
        refine ⟨rfl, .inr ⟨_, rfl, Phase.of_eq (.searching hConff hWriters hReader
          (.waits (by rw [hState', hState]; rfl) hChar₀ hMap₀ hNext) hWalk' hGood') ?_⟩⟩
        simp
      · next hAccept =>
        simp only [firing] at hFire
        obtain ⟨stateTransitionsOut, ⟨-, hNext'⟩, rfl, rfl⟩ := hFire
        rw [advance, if_neg hAccept] at hWalk'
        refine ⟨rfl, .inl ⟨rfl, Phase.of_eq (.searching hConff hWriters hReader
          (.moves hState hChar₀ hMap₀ (by rw [hNext', hNext]; rfl)) hWalk' hGood') ?_⟩⟩
        simp

end

/-- The haystacks of all searches, in the order in which they were asked for. -/
def jobs (a : Tally) (s : RegexpEngine tw) : List (List (BitVec 8)) :=
  (a.finished ++ a.running.toList).map (·.2.1) ++ queued s

/-- The search that an action asks for. -/
def asked : Action tw → List (List (BitVec 8))
  | .setsearch x => x.search?.toList
  | _ => []

variable {a : Tally}

theorem Inv.silent (h : Inv good a s) (hStep : events = [] ∧ queued s' = queued s ∧ Phase good s' a.running) :
    Inv good (events.foldl Tally.see a) s' ∧ jobs (events.foldl Tally.see a) s' = jobs a s := by
  obtain ⟨rfl, hQueue, hPhase⟩ := hStep
  exact ⟨⟨hPhase, h.finished⟩, by rw [jobs, hQueue]; rfl⟩

/-- One action keeps the invariant and loses no search. -/
theorem Inv.step (hNil : ∀ t, good t []) (h : Inv good a s) {action : Action tw}
    (hFire : (machine iid).fire action s = some (s', events))
    (hGoodStep : action = .resolveState → ∀ done c, good s.tables done →
      s.charMapOut.items = [s.tables.charMap c.toNat] →
      s.stateMapOut.items = [s.tables.stateMap (walk s.tables done).1.toNat] → good s.tables (done ++ [c])) :
    Inv good (events.foldl Tally.see a) s' ∧
      jobs (events.foldl Tally.see a) s' = jobs a s ++ asked action := by
  cases action with
  | setsearch x =>
    simp only [machine, setsearch, firing] at hFire
    obtain ⟨q, ⟨-, hQueue⟩, rfl, rfl⟩ := hFire
    have hLast : [x].filterMap SSV.search? = x.search?.toList := by
      rw [List.filterMap_cons]
      cases x.search? <;> rfl
    refine ⟨⟨h.phase.frame, h.finished⟩, ?_⟩
    rw [jobs, jobs, queued, queued, hQueue, List.filterMap_append, hLast, ← List.append_assoc]
    rfl
  | setsearchR0 | setsearchR1 | setsearchR2 => simpa [asked] using h.silent (h.phase.startWriter hFire)
  | setsearchR3 =>
    obtain ⟨hIdle, haystack, rfl, hQueue, hPhase⟩ := h.phase.setsearchR3 hNil hFire
    refine ⟨⟨hPhase, h.finished⟩, ?_⟩
    simp [jobs, hQueue, hIdle, asked, Tally.see]
  | setsearchR4 =>
    simp only [machine, setsearchR4, firing] at hFire
    obtain ⟨x, q, hQueue, hFire⟩ := hFire
    cases x with
    | retire token =>
      simp only [firing] at hFire
      obtain ⟨rfl, rfl⟩ := hFire
      refine ⟨⟨h.phase.frame, h.finished⟩, ?_⟩
      simp [jobs, queued, hQueue, asked, SSV.search?, List.filterMap_cons]
    | search | charMap | stateMap | stateTransitions => cases hFire
  | readyR =>
    simp only [machine, readyR, firing] at hFire
    obtain ⟨-, q, -, rfl, rfl⟩ := hFire
    exact ⟨⟨h.phase.frame, h.finished⟩, (List.append_nil _).symm⟩
  | haystackResp => simpa [asked] using h.silent (h.phase.haystackResp hFire)
  | haystackFinish =>
    obtain ⟨rfl, hQueue, hPhase, t, haystack, hRunning, hGood⟩ := h.phase.haystackFinish hFire
    refine ⟨⟨hPhase, ?_⟩, ?_⟩
    · intro x hx
      rcases List.mem_append.mp hx with hOld | hNew
      · exact h.finished x hOld
      · rw [hRunning, Option.toList_some, List.mem_singleton] at hNew
        exact hNew ▸ ⟨hGood, rfl⟩
    · simp [jobs, hQueue, Tally.see, asked]
  | finishCharMapWriter | finishStateMapWriter => simpa [asked] using h.silent (h.phase.finishWriter hFire)
  | finishStateTransitionsWriter =>
    simp only [machine, finishStateTransitionsWriter, firing] at hFire
    obtain ⟨s₁, events₁, hFinish, q, -, rfl, rfl⟩ := hFire
    obtain ⟨-, hQueue, hPhase⟩ := h.phase.finishWriter hFinish
    exact ⟨⟨hPhase.frame, h.finished⟩, (congrArg (_ ++ ·) hQueue).trans (List.append_nil _).symm⟩
  | lookupState => simpa [asked] using h.silent (h.phase.lookupState hFire)
  | resolveState =>
    obtain ⟨t, haystack, n, hRunning, hQueue, ⟨rfl, hPhase⟩ | ⟨pos, rfl, hPhase⟩⟩ :=
      h.phase.resolveState hFire (hGoodStep rfl)
    · simpa [asked] using h.silent ⟨rfl, hQueue, hPhase⟩
    · refine ⟨⟨?_, h.finished⟩, ?_⟩
      · simpa [Tally.see, hRunning] using hPhase
      · simp [jobs, hQueue, Tally.see, hRunning, asked]
  | nextState => simpa [asked] using h.silent (h.phase.nextState hFire)
  | ldrGet =>
    simp only [machine, ldrGet, firing] at hFire
    obtain ⟨_, q, -, rfl, rfl⟩ := hFire
    exact ⟨⟨h.phase.frame, h.finished⟩, (List.append_nil _).symm⟩

theorem inv_reset (t : Tables) : Inv good ⟨none, []⟩ (reset t : RegexpEngine tw) :=
  ⟨.idle rfl rfl ⟨rfl, rfl, rfl, rfl, rfl, rfl⟩, fun _ hx => (by cases hx)⟩

variable {trace : List (Event tw)}

theorem tally_append (trace events : List (Event tw)) : tally (trace ++ events) = events.foldl Tally.see (tally trace) :=
  List.foldl_append

/-- If characters are only resolved where the reference does the same, it agrees on all that has
been read. -/
theorem run_follows (run : (machine iid).Run restarting s trace) : Inv Follows (tally trace) s := by
  refine run.invariant (fun trace s => Inv Follows (tally trace) s) ?_ ?_
  · rintro _ ⟨t, rfl⟩
    exact inv_reset t
  · intro trace s action s' events h hOk hFire
    rw [tally_append]
    refine (h.step (fun _ => follows_nil) hFire ?_).1
    rintro rfl done c hFollows hChar hMap
    refine hFollows.snoc fun hAccept => hOk.2 _ ?_ _ ?_ hAccept
    · rw [hChar]
      rfl
    · rw [hMap]
      rfl

/-- What is left to be done for a request. -/
def cost : SSV tw → Nat
  | .search h => 5 * h.length + 4
  | _ => 4

/-- What is left to be done in the engine. -/
def rank (s : RegexpEngine tw) : Nat :=
  (s.setsearchFIFO.items.map cost).sum + (if s.readyr then 2 else 0) + s.ldrFIFO.items.length +
    3 * s.conff.items.length + 5 * (s.reader.getD []).length + 4 * s.haystack.items.length +
    3 * s.charMapOut.items.length + s.stateTransitionsOut.items.length

/-- Some action other than a request brings the engine closer to its end. -/
def Nears (iid : BitVec tw) (s : RegexpEngine tw) : Prop :=
  ∃ action s' events, noRequests [] s action ∧ (machine iid).fire action s = some (s', events) ∧
    rank s' < rank s

theorem nears_ldrGet (h : s.ldrFIFO.items ≠ []) : Nears iid s := by
  obtain ⟨x, q, hDeq, hItems⟩ := Fifo.exists_deq_of_ne_nil h
  refine ⟨.ldrGet, _, _, trivial, by simp only [machine, ldrGet, hDeq]; rfl, ?_⟩
  simp [rank, hItems]

def start : Table → Action tw
  | .charMap => .setsearchR0
  | .stateMap => .setsearchR1
  | .stateTransitions => .setsearchR2

theorem fire_start (w : Table) : (machine iid).fire (start w) s = startWriter w s := by
  cases w <;> rfl

theorem nears_request (hConff : s.conff.items = []) (hWriters : s.writers = fun _ => none) (hStill : Still s)
    (h : s.setsearchFIFO.items ≠ []) : Nears iid s := by
  obtain ⟨x, q, hDeq, hItems⟩ := Fifo.exists_deq_of_ne_nil h
  obtain ⟨conff, hEnq, hConff'⟩ := Fifo.exists_enq_nil hConff ()
  cases hLoad : x.load? with
  | some load =>
    obtain ⟨w, m⟩ := load
    refine ⟨start w, _, _, by cases w <;> trivial, by
      simp only [fire_start, startWriter, hDeq, some_bind, hLoad, hEnq, hWriters, guard, if_true]
      rfl, ?_⟩
    have hCost : 4 ≤ cost x := by cases x <;> simp [cost]
    simp only [rank, hItems, hConff', hConff, List.map_cons, List.sum_cons, counting]
    omega
  | none =>
    cases x with
    | charMap | stateMap | stateTransitions => cases hLoad
    | retire token =>
      refine ⟨.setsearchR4, _, _, trivial, by simp only [machine, setsearchR4, hDeq]; rfl, ?_⟩
      simp only [rank, hItems, List.map_cons, List.sum_cons, cost, if_true]
      omega
    | search haystack =>
      obtain ⟨fsmState, hState, -⟩ := Fifo.exists_enq_nil hStill.state 0
      refine ⟨.setsearchR3, _, _, trivial, by
        simp only [machine, setsearchR3, hDeq, some_bind, hEnq, hStill.reader, guard, if_true, hState]
        rfl, ?_⟩
      simp only [rank, hItems, hConff', hConff, hStill.reader, List.map_cons, List.sum_cons, cost, counting,
        Option.getD_some, Option.getD_none]
      omega

theorem nears_finish {w : Table} {m : Nat → BitVec 8} (hLdr : s.ldrFIFO.items = [])
    (hConff : s.conff.items = [()]) (hWriters : s.writers = Function.update (fun _ => none) w (some m)) :
    Nears iid s := by
  obtain ⟨conff, hDeq, hConff'⟩ := Fifo.exists_deq hConff
  obtain ⟨ldrFIFO, hEnq, hLdr'⟩ := Fifo.exists_enq_nil hLdr (.config iid)
  have hFinish : finishWriter w s =
      some ({ s with conff, tables := s.tables.set m w, writers := Function.update s.writers w none }, []) := by
    simp [finishWriter, hDeq, hWriters]
  cases w with
  | charMap =>
    refine ⟨.finishCharMapWriter, _, _, trivial, hFinish, ?_⟩
    simp [rank, hConff, hConff']
  | stateMap =>
    refine ⟨.finishStateMapWriter, _, _, trivial, hFinish, ?_⟩
    simp [rank, hConff, hConff']
  | stateTransitions =>
    refine ⟨.finishStateTransitionsWriter, _, _, trivial, by
      simp only [machine, finishStateTransitionsWriter, hFinish, some_bind, hEnq]
      rfl, ?_⟩
    simp only [rank, hConff, hConff', hLdr, hLdr', counting]
    omega

theorem nears_search {flight rest : List (BitVec 8)} {st : BitVec 5} (hLdr : s.ldrFIFO.items = [])
    (hConff : s.conff.items = [()]) (hReader : s.reader = some rest) (hToken : Token s flight st) : Nears iid s := by
  cases hToken with
  | @looks c st hState hChar hMap hNext =>
    obtain ⟨charMapOut, hChar', hc⟩ := Fifo.exists_deq hChar
    obtain ⟨stateMapOut, hMap', -⟩ := Fifo.exists_deq hMap
    by_cases hAccept : (s.tables.stateMap st.toNat).getLsbD 7 = true
    · obtain ⟨ldrFIFO, hEnq, hLdr'⟩ := Fifo.exists_enq_nil hLdr (.loc iid (s.resCnt.setWidth 32))
      obtain ⟨fsmState, hState', -⟩ := Fifo.exists_enq_nil hState 0
      refine ⟨.resolveState, _, _, trivial, by
        simp only [machine, resolveState, hChar', hMap', some_bind, hAccept, if_true, hEnq, hState']
        rfl, ?_⟩
      simp only [rank, hLdr, hLdr', hChar, hc, counting]
      omega
    · obtain ⟨stateTransitionsOut, hEnq, hNext'⟩ := Fifo.exists_enq_nil hNext (s.tables.stateTransitions ((s.tables.stateMap st.toNat).extractLsb' 0 5 ++
          (s.tables.charMap c.toNat).extractLsb' 0 5).toNat)
      refine ⟨.resolveState, _, _, trivial, by
        simp only [machine, resolveState, hChar', hMap', some_bind, hAccept, hEnq]
        rfl, ?_⟩
      simp only [rank, hChar, hc, hNext, hNext', counting]
      omega
  | @moves x hState hChar hMap hNext =>
    obtain ⟨stateTransitionsOut, hDeq, hNext'⟩ := Fifo.exists_deq hNext
    obtain ⟨fsmState, hEnq, -⟩ := Fifo.exists_enq_nil hState (x.setWidth 5)
    refine ⟨.nextState, _, _, trivial, by simp only [machine, nextState, hDeq, some_bind, hEnq]; rfl, ?_⟩
    simp [rank, hNext, hNext']
  | waits hState hChar hMap hNext =>
    obtain ⟨fsmState, hState', -⟩ := Fifo.exists_deq hState
    cases hHaystack : s.haystack.items with
    | cons c more =>
      obtain ⟨haystack, hDeq, hMore⟩ := Fifo.exists_deq hHaystack
      obtain ⟨charMapOut, hChar', hc⟩ := Fifo.exists_enq_nil hChar (s.tables.charMap c.toNat)
      obtain ⟨stateMapOut, hMap', -⟩ := Fifo.exists_enq_nil hMap (s.tables.stateMap st.toNat)
      refine ⟨.lookupState, _, _, trivial, by
        simp only [machine, lookupState, hDeq, some_bind, hState', hChar', hMap']
        rfl, ?_⟩
      simp only [rank, hHaystack, hMore, hChar, hc, counting]
      omega
    | nil =>
      cases rest with
      | cons c more =>
        have hRoom : s.haystack.items.length + ((c :: more).take 8).length ≤ 16 := by
          rw [hHaystack, List.length_take]
          simp only [List.length_nil]
          omega
        obtain ⟨haystack, hEnq, hHaystack'⟩ := Fifo.exists_enqAll _ hRoom
        refine ⟨.haystackResp, _, _, trivial, by
          simp only [machine, haystackResp, hReader, some_bind, hEnq, guard]
          rfl, ?_⟩
        simp only [rank, hReader, hHaystack, hHaystack', counting, Option.getD_some, List.length_take,
          List.length_drop]
        omega
      | nil =>
        obtain ⟨conff, hDeq, hConff'⟩ := Fifo.exists_deq hConff
        obtain ⟨ldrFIFO, hEnq, hLdr'⟩ := Fifo.exists_enq_nil hLdr (.done iid)
        refine ⟨.haystackFinish, _, _, trivial, by
          simp only [machine, haystackFinish, hHaystack, hReader, guard, if_true, some_bind, hEnq, hDeq, hState']
          rfl, ?_⟩
        simp only [rank, hReader, hConff, hConff', hLdr, hLdr', counting, Option.getD_some, Option.getD_none]
        omega

theorem Phase.nears (iid : BitVec tw) (h : Phase good s r) : (r = none ∧ queued s = []) ∨ Nears iid s := by
  by_cases hLdr : s.ldrFIFO.items = []
  · cases h with
    | idle hConff hWriters hStill =>
      by_cases hQueue : s.setsearchFIFO.items = []
      · exact .inl ⟨rfl, by rw [queued, hQueue]; rfl⟩
      · exact .inr (nears_request hConff hWriters hStill hQueue)
    | loading hConff hWriters => exact .inr (nears_finish hLdr hConff hWriters)
    | searching hConff hWriters hReader hToken => exact .inr (nears_search hLdr hConff hReader hToken)
  · exact .inr (nears_ldrGet hLdr)

/-- Every search that has been asked for can be finished without a further request. -/
theorem exists_finished (run : (machine iid).Run words s trace) :
    ∃ s' trace', (machine iid).Continues noRequests (s, trace) (s', trace') ∧
      (tally trace').finished.map (·.2.1) = jobs (tally trace) s := by
  have hInv : Inv (fun _ _ => True) (tally trace) s := by
    refine run.invariant (fun trace s => Inv (fun _ _ => True) (tally trace) s) ?_ ?_
    · rintro _ ⟨t, rfl⟩
      exact inv_reset t
    · intro trace s action s' events h _ hFire
      rw [tally_append]
      exact (h.step (fun _ => trivial) hFire fun _ _ _ _ _ _ => trivial).1
  refine Machine.exists_continues (n := rank s)
    (fun n trace' s' => n = rank s' ∧ Inv (fun _ _ => True) (tally trace') s' ∧
      jobs (tally trace') s' = jobs (tally trace) s)
    (fun trace' s' => (tally trace').finished.map (·.2.1) = jobs (tally trace) s) ?_ ⟨rfl, hInv, rfl⟩
  rintro _ trace' s' ⟨rfl, h, hJobs⟩
  rcases h.phase.nears iid with ⟨hIdle, hQueue⟩ | ⟨action, s'', events, hOk, hFire, hLess⟩
  · left
    rw [← hJobs, jobs, hIdle, hQueue, Option.toList_none, List.append_nil, List.append_nil]
  · obtain ⟨hNext, hSame⟩ := h.step (fun _ => trivial) hFire fun _ _ _ _ _ _ => trivial
    have hAsked : asked action = [] := by
      cases action with
      | setsearch x => exact hOk.elim
      | _ => rfl
    refine .inr ⟨_, hLess, action, s'', events, hOk, hFire, rfl, ?_, ?_⟩
    · rw [tally_append]
      exact hNext
    · rw [tally_append, hSame, hAsked, List.append_nil, hJobs]

/-- If states that accept are only resolved with characters that stay at the start, each search
that is done has reported as many matches as the reference counts. Every search that has been
asked for can be finished. -/
theorem locs_agree_with_reference (iid : BitVec tw) {s : RegexpEngine tw} {trace : List (Event tw)}
    (run : (machine iid).Run restarting s trace) :
    (∀ x ∈ (tally trace).finished, x.1.Legal → (∀ c ∈ x.2.1, c.toNat < 128) → x.2.2 = swRef x.1 x.2.1) ∧
    ∃ s' trace', (machine iid).Continues noRequests (s, trace) (s', trace') ∧
      (tally trace').finished.map (·.2.1) = jobs (tally trace) s := by
  refine ⟨fun x hx hLegal hPlain => ?_, exists_finished (run.weaken fun _ _ _ hOk => hOk.1)⟩
  obtain ⟨hFollows, hCount⟩ := (run_follows run).finished x hx
  exact hCount.trans (hFollows.count hLegal hPlain)

theorem init_reset (t : Tables) : (machine iid).init (reset t) := ⟨t, rfl⟩

/-- An automaton for the letter `a`: state 1 is reached with it and accepts. -/
def letterA : Tables where
  charMap k := if k = 97 then 1 else 0
  stateMap k := if k = 1 then 0x81 else 0
  stateTransitions k := if k = 1 then 1 else 0

theorem letterA_legal : letterA.Legal := ⟨by decide +kernel, by decide +kernel, by decide +kernel⟩

/-- Load the tables, then search eight characters of which every second one is resolved in a state
that accepts. -/
def everySecond (haystack : List (BitVec 8)) : List (Action tw) :=
  [.setsearch (.charMap letterA.charMap), .setsearchR0, .finishCharMapWriter,
    .setsearch (.stateMap letterA.stateMap), .setsearchR1, .finishStateMapWriter,
    .setsearch (.stateTransitions letterA.stateTransitions), .setsearchR2, .finishStateTransitionsWriter,
    .ldrGet, .setsearch (.search haystack), .setsearchR3, .haystackResp] ++
  (List.replicate 4 [.lookupState, .resolveState, .nextState, .lookupState, .resolveState, .ldrGet]).flatten ++
  [.haystackFinish]

instance (trace : List (Event tw)) (s : RegexpEngine tw) : (action : Action tw) → Decidable (words trace s action)
  | .setsearch (.search h) => inferInstanceAs (Decidable (8 ∣ h.length))
  | .setsearch (.charMap _) | .setsearch (.stateMap _) | .setsearch (.stateTransitions _) => .isTrue trivial
  | .setsearch (.retire _) | .setsearchR0 | .setsearchR1 | .setsearchR2 | .setsearchR3 => .isTrue trivial
  | .setsearchR4 | .readyR | .haystackResp | .haystackFinish | .finishCharMapWriter => .isTrue trivial
  | .finishStateMapWriter | .finishStateTransitionsWriter | .lookupState => .isTrue trivial
  | .resolveState | .nextState | .ldrGet => .isTrue trivial

instance (s : RegexpEngine tw) : (action : Action tw) → Decidable (Restarts s action)
  | .resolveState => inferInstanceAs (Decidable (∀ mappedChar ∈ s.charMapOut.items.head?,
      ∀ mappedState ∈ s.stateMapOut.items.head?,
        mappedState.getLsbD 7 = true → s.tables.stateTransitions mappedChar.toNat = 0))
  | .setsearch _ | .setsearchR0 | .setsearchR1 | .setsearchR2 | .setsearchR3 | .setsearchR4 => .isTrue trivial
  | .readyR | .haystackResp | .haystackFinish | .finishCharMapWriter | .finishStateMapWriter => .isTrue trivial
  | .finishStateTransitionsWriter | .lookupState | .nextState | .ldrGet => .isTrue trivial

instance (trace : List (Event tw)) (s : RegexpEngine tw) (action : Action tw) :
    Decidable (restarting trace s action) :=
  inferInstanceAs (Decidable (words trace s action ∧ Restarts s action))

def abababab : List (BitVec 8) := [97, 98, 97, 98, 97, 98, 97, 98]

def aaaaaaaa : List (BitVec 8) := List.replicate 8 97

/-- The letter `b` stays at the start, so the four matches are those of the reference. -/
theorem locs_agree_with_reference_abababab : ∃ (s : RegexpEngine 4) (trace : List (Event 4)),
    (machine 0).Run restarting s trace ∧ (tally trace).finished = [(letterA, abababab, 4)] ∧
      swRef letterA abababab = 4 := by
  obtain ⟨s, trace, run, hTally⟩ := Machine.exists_run
    (show ((machine (0 : BitVec 4)).exec restarting (everySecond abababab) (reset letterA, [])).map
      (fun c => tally c.2) = some ⟨none, [(letterA, abababab, 4)]⟩ from rfl) (init_reset letterA)
  have hFinished : (tally trace).finished = [(letterA, abababab, 4)] := congrArg Tally.finished hTally
  refine ⟨s, trace, run, hFinished, ?_⟩
  exact ((locs_agree_with_reference 0 run).1 (letterA, abababab, 4) (by rw [hFinished]; simp) letterA_legal
    (by decide)).symm

/-- Of eight letters `a` the engine drops every second one; the reference counts all but the
first. -/
theorem dropped_letters_lose_matches : ∃ (s : RegexpEngine 4) (trace : List (Event 4)),
    (machine 0).Run words s trace ∧ letterA.Legal ∧ (∀ c ∈ aaaaaaaa, c.toNat < 128) ∧
      (tally trace).finished = [(letterA, aaaaaaaa, 4)] ∧ swRef letterA aaaaaaaa = 7 := by
  obtain ⟨s, trace, run, hTally⟩ := Machine.exists_run
    (show ((machine (0 : BitVec 4)).exec words (everySecond aaaaaaaa) (reset letterA, [])).map
      (fun c => tally c.2) = some ⟨none, [(letterA, aaaaaaaa, 4)]⟩ from rfl) (init_reset letterA)
  exact ⟨s, trace, run, letterA_legal, by decide,
    congrArg Tally.finished hTally, by decide +kernel⟩

end RegexpEngine
end Connectal.Regexp
