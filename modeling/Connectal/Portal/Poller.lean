import Connectal.C.Counted
import Connectal.Rules.Machine

/-! The registration of portals with `PortalPoller` of `poller.cpp`: an array of portals and an
array of file descriptors to wait for. -/
namespace Connectal.Poller

open C Rules

/-- A portal object, as far as the poller looks at it. -/
structure Portal where
  /-- The address of the object. -/
  self : Nat
  fpgaNumber : Nat
  /-- `-1` if the portal has no file descriptor of its own. -/
  fpgaFd : Int
  clientFd : List Int
  deriving DecidableEq

structure PollFd where
  fd : Int
  events : BitVec 16
  revents : BitVec 16
  deriving DecidableEq

/-- The entry that `addFd` makes, with `POLLIN`. -/
def pollIn (fd : Int) : PollFd := ⟨fd, 1, 0⟩

/-- The arrays are allocated again for every new entry, so they have at least as many places as
their counters say. -/
structure PortalPoller where
  portalWrappers : Counted Portal
  portalFds : Counted PollFd

namespace PortalPoller

def addFd (s : PortalPoller) (fd : Int) : Option PortalPoller := do
  let portalFds ← s.portalFds.push (pollIn fd)
  return { s with portalFds }

/-- The file descriptors that come with a portal. -/
def fdsOf (portal : Portal) : List Int := (if portal.fpgaFd ≠ -1 then [portal.fpgaFd] else []) ++ portal.clientFd

def registerInstance (s : PortalPoller) (portal : Portal) : Option PortalPoller := do
  let portalWrappers ← s.portalWrappers.push portal
  (fdsOf portal).foldlM addFd { s with portalWrappers }

def unregisterInstance (s : PortalPoller) (portal : Portal) : PortalPoller where
  portalWrappers := s.portalWrappers.removeFirst fun other => other.fpgaNumber = portal.fpgaNumber
  portalFds := s.portalFds.removeFirst fun pollfd => pollfd.fd = portal.fpgaFd

inductive Call where
  | registerInstance (portal : Portal)
  | addFd (fd : Int)
  | unregisterInstance (portal : Portal)

def fire : Call → PortalPoller → Option (PortalPoller × List Unit)
  | .registerInstance portal, s => (s.registerInstance portal).map (·, [])
  | .addFd fd, s => (s.addFd fd).map (·, [])
  | .unregisterInstance portal, s => some (s.unregisterInstance portal, [])

def machine : Machine PortalPoller Call Unit := ⟨fun s => s.portalWrappers.num = 0 ∧ s.portalFds.num = 0, fire⟩

/-- The counters and the entries that they count are the same. -/
structure Same (s t : PortalPoller) : Prop where
  wrappers : s.portalWrappers.num = t.portalWrappers.num ∧ s.portalWrappers.entries = t.portalWrappers.entries
  fds : s.portalFds.num = t.portalFds.num ∧ s.portalFds.entries = t.portalFds.entries

/-- The counters are not negative. -/
def Sound (s : PortalPoller) : Prop := 0 ≤ s.portalWrappers.num ∧ 0 ≤ s.portalFds.num

/-- Both arrays have an entry that can be removed. -/
def Stocked (s : PortalPoller) : Prop := 1 ≤ s.portalWrappers.num ∧ 1 ≤ s.portalFds.num

instance (s : PortalPoller) : Decidable s.Stocked := inferInstanceAs (Decidable (_ ∧ _))

/-- A portal is taken out only while both arrays have an entry. -/
def stocked : Machine.Contract PortalPoller Call Unit
  | _, s, .unregisterInstance _ => s.Stocked
  | _, _, _ => True

instance (trace : List Unit) (s : PortalPoller) : (call : Call) → Decidable (stocked trace s call)
  | .unregisterInstance _ => inferInstanceAs (Decidable s.Stocked)
  | .registerInstance _ | .addFd _ => .isTrue trivial

variable {s s' : PortalPoller} {portal : Portal}

theorem addFd_spec {fd : Int} (h : s.addFd fd = some s') : s'.portalWrappers = s.portalWrappers ∧ 0 ≤ s.portalFds.num ∧
    s'.portalFds.num = s.portalFds.num + 1 ∧ s'.portalFds.entries = s.portalFds.entries ++ [pollIn fd] := by
  simp only [addFd, firing] at h
  obtain ⟨fds, hPush, rfl⟩ := h
  exact ⟨rfl, Counted.entries_push hPush⟩

theorem addFds_spec (fds : List Int) (hs : 0 ≤ s.portalFds.num) : ∃ s', fds.foldlM addFd s = some s' ∧
    s'.portalWrappers = s.portalWrappers ∧ s'.portalFds.num = s.portalFds.num + fds.length ∧
    s'.portalFds.entries = s.portalFds.entries ++ fds.map pollIn := by
  induction fds generalizing s with
  | nil => exact ⟨s, rfl, rfl, by simp, by simp⟩
  | cons fd fds ih =>
    obtain ⟨pushed, hPush⟩ := Counted.exists_push hs (pollIn fd)
    have hAdd : s.addFd fd = some { s with portalFds := pushed } := by
      simp only [addFd, hPush, some_bind]
      rfl
    obtain ⟨-, -, hNum, hEntries⟩ := addFd_spec hAdd
    obtain ⟨s', hRest, hWrappers', hNum', hEntries'⟩ := ih (s := { s with portalFds := pushed }) (by omega)
    refine ⟨s', ?_, hWrappers', ?_, ?_⟩
    · rw [List.foldlM_cons, hAdd]
      exact hRest
    · rw [hNum', hNum, List.length_cons]
      omega
    · rw [hEntries', hEntries, List.map_cons, List.append_assoc]
      rfl

/-- A portal is registered behind the others, with all its file descriptors. -/
theorem registerInstance_spec (hs : s.Sound) (portal : Portal) : ∃ s', s.registerInstance portal = some s' ∧
    s'.portalWrappers.num = s.portalWrappers.num + 1 ∧ s'.portalWrappers.entries = s.portalWrappers.entries ++ [portal] ∧
    s'.portalFds.num = s.portalFds.num + (fdsOf portal).length ∧
    s'.portalFds.entries = s.portalFds.entries ++ (fdsOf portal).map pollIn := by
  obtain ⟨wrappers, hPush⟩ := Counted.exists_push hs.1 portal
  obtain ⟨-, hNum, hEntries⟩ := Counted.entries_push hPush
  obtain ⟨s', hFds, hWrappers', hNum', hEntries'⟩ :=
    addFds_spec (s := { s with portalWrappers := wrappers }) (fdsOf portal) hs.2
  refine ⟨s', ?_, ?_, ?_, hNum', hEntries'⟩
  · simp only [registerInstance, hPush, some_bind]
    exact hFds
  · rw [hWrappers']
    exact hNum
  · rw [hWrappers']
    exact hEntries

theorem run_sound {trace : List Unit} (run : machine.Run stocked s trace) : s.Sound := by
  refine run.invariant (fun _ s => s.Sound) (fun s hs => ⟨Int.le_of_eq hs.1.symm, Int.le_of_eq hs.2.symm⟩) ?_
  rintro trace s call s' events h hOk hFire
  cases call with
  | registerInstance portal =>
    obtain ⟨t, hReg, hNum, -, hNum', -⟩ := registerInstance_spec h portal
    simp only [machine, fire, hReg, Option.map_some, firing] at hFire
    obtain ⟨rfl, -⟩ := hFire
    have hWrappers := h.1
    have hFds := h.2
    exact ⟨by omega, by omega⟩
  | addFd fd =>
    simp only [machine, firing, fire] at hFire
    obtain ⟨t, hAdd, rfl, -⟩ := hFire
    obtain ⟨hWrappers, hFds, hNum, -⟩ := addFd_spec hAdd
    exact ⟨hWrappers ▸ h.1, by omega⟩
  | unregisterInstance portal =>
    simp only [machine, fire, firing] at hFire
    obtain ⟨rfl, -⟩ := hFire
    have hStock : s.Stocked := hOk
    exact ⟨show 0 ≤ s.portalWrappers.num - 1 by have := hStock.1; omega,
      show 0 ≤ s.portalFds.num - 1 by have := hStock.2; omega⟩

/-- When a portal comes and goes without a trace: it brings exactly one file descriptor, and from
the first portal with its number on, and from the first entry with its file descriptor on, the
arrays hold nothing but what it brings. -/
def Undone (s : PortalPoller) (portal : Portal) : Prop :=
  (∀ other ∈ s.portalWrappers.entries.drop
    (s.portalWrappers.entries.findIdx fun other => other.fpgaNumber = portal.fpgaNumber), other = portal) ∧
  ∃ fd, fdsOf portal = [fd] ∧ ∀ pollfd ∈ s.portalFds.entries.drop
    (s.portalFds.entries.findIdx fun pollfd => pollfd.fd = portal.fpgaFd), pollfd = pollIn fd

/-- As long as portals are taken out only while both arrays have an entry, the counters are not
negative. In such a state, registering and taking out a portal restores the arrays exactly in the
cases above, taking out a portal that is not registered always changes them, and it makes a
counter negative exactly if an array is empty. -/
theorem poller_reversible_iff {trace : List Unit} (run : machine.Run stocked s trace) (portal : Portal) :
    s.Sound ∧ ((∃ t, s.registerInstance portal = some t ∧ Same (t.unregisterInstance portal) s) ↔ s.Undone portal) ∧
      ¬ Same (s.unregisterInstance portal) s ∧ ((s.unregisterInstance portal).Sound ↔ s.Stocked) := by
  have hSound := run_sound run
  obtain ⟨t, hReg, hNum, hEntries, hNum', hEntries'⟩ := registerInstance_spec hSound portal
  refine ⟨hSound, ?_, fun hSame => ?_, ?_⟩
  · have hWrappers := Counted.undo_iff (p := fun other => other.fpgaNumber = portal.fpgaNumber) hEntries
      (by simpa using hNum) hSound.1
    have hFds := Counted.undo_iff (p := fun pollfd => pollfd.fd = portal.fpgaFd) hEntries'
      (by simpa using hNum') hSound.2
    constructor
    · rintro ⟨t', hReg', hSame⟩
      obtain rfl : t = t' := Option.some.inj (hReg.symm.trans hReg')
      obtain ⟨other, hOther, hAll⟩ := hWrappers.mp hSame.wrappers
      obtain rfl : portal = other := (List.cons.inj hOther).1
      obtain ⟨pollfd, hOne, hAll'⟩ := hFds.mp hSame.fds
      obtain ⟨fd, hFd, rfl⟩ := List.map_eq_singleton_iff.mp hOne
      exact ⟨hAll, fd, hFd, hAll'⟩
    · rintro ⟨hAll, fd, hFd, hAll'⟩
      exact ⟨t, hReg, hWrappers.mpr ⟨portal, rfl, hAll⟩, hFds.mpr ⟨pollIn fd, by rw [hFd]; rfl, hAll'⟩⟩
  · have hCount : s.portalWrappers.num - 1 = s.portalWrappers.num := hSame.wrappers.1
    omega
  · show 0 ≤ s.portalWrappers.num - 1 ∧ 0 ≤ s.portalFds.num - 1 ↔ 1 ≤ s.portalWrappers.num ∧ 1 ≤ s.portalFds.num
    omega

def plain : Portal := ⟨0, 1, 5, []⟩

/-- No portal has been registered. -/
def fresh : PortalPoller := ⟨⟨fun _ => plain, 0⟩, ⟨fun _ => pollIn 0, 0⟩⟩

theorem poller_reversible_plain : fresh.Sound ∧
    ((∃ t, fresh.registerInstance plain = some t ∧ Same (t.unregisterInstance plain) fresh) ↔ fresh.Undone plain) ∧
      ¬ Same (fresh.unregisterInstance plain) fresh ∧ ((fresh.unregisterInstance plain).Sound ↔ fresh.Stocked) :=
  poller_reversible_iff (show machine.Run stocked fresh [] from ⟨fresh, ⟨rfl, rfl⟩, Relation.ReflTransGen.refl⟩) plain

/-- A portal that listens and has a client leaves the client's file descriptor behind, and taking
out a portal that is not registered makes the counters negative. -/
theorem poller_leaves_client : (∃ t, fresh.registerInstance ⟨0, 1, 5, [6]⟩ = some t ∧
      (t.unregisterInstance ⟨0, 1, 5, [6]⟩).portalFds.entries = [pollIn 6] ∧ fresh.portalFds.entries = []) ∧
    (fresh.unregisterInstance plain).portalWrappers.num = -1 ∧ (fresh.unregisterInstance plain).portalFds.num = -1 :=
  ⟨⟨_, rfl, by decide +kernel⟩, rfl, rfl⟩

end PortalPoller
end Connectal.Poller
