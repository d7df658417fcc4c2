import Connectal.Rules.Fifo
import Mathlib.Logic.Relation

/-! Modules of guarded atomic rules. A rule either fires and changes the
whole state at once, or its guard is closed and nothing happens. Every
interleaving of rules and method calls is a list of actions; the events they
emit are the only thing an observer outside the module sees. -/
namespace Rules

/-- A guard lets the rest of a rule fire exactly when its condition holds. -/
@[simp] theorem guard_eq_some {p : Prop} [Decidable p] {u : Unit} :
    (guard p : Option Unit) = some u ↔ p := by
  by_cases h : p
  · simp [guard, h]
  · simp only [guard, h, if_false, iff_false]
    exact fun hNone => by cases hNone

/-- A rule fires exactly when each of its steps succeeds. A call of `simp` takes the parts of this
one by one. -/
theorem firing :
    (∀ {α β : Type} (x : Option α) (f : α → Option β), x >>= f = x.bind f) ∧
    (∀ {α β : Type} {x : Option α} {f : α → Option β} {b : β},
      x.bind f = some b ↔ ∃ a, x = some a ∧ f a = some b) ∧
    (∀ {α : Type} (a : α), (pure a : Option α) = some a) ∧
    (∀ {α : Type} {a b : α}, some a = some b ↔ a = b) ∧
    (∀ {α β : Type} {a a' : α} {b b' : β}, (a, b) = (a', b') ↔ a = a' ∧ b = b') ∧
    (∀ {α β : Type} {p : α × β → Prop}, (∃ x, p x) ↔ ∃ a b, p (a, b)) ∧
    (∀ {p : Prop} [Decidable p] {u : Unit}, (guard p : Option Unit) = some u ↔ p) ∧
    (∀ {p : Prop}, (∃ _ : Unit, p) ↔ p) ∧
    (∀ {α β : Type} {x : Option α} {f : α → β} {b : β}, x.map f = some b ↔ ∃ a, x = some a ∧ f a = b) ∧
    (∀ {α : Type} {depth : Nat} {q r : Fifo α depth} {x : α}, q.deq = some (x, r) ↔ q.items = x :: r.items) ∧
    ∀ {α : Type} {depth : Nat} {q r : Fifo α depth} {x : α},
      q.enq x = some r ↔ q.items.length < depth ∧ r.items = q.items ++ [x] :=
  ⟨fun _ _ => rfl, Option.bind_eq_some_iff, fun _ => rfl, Option.some_inj, Prod.ext_iff, Prod.exists,
    guard_eq_some, exists_const _, Option.map_eq_some_iff, Fifo.deq_eq_some, Fifo.enq_eq_some⟩

/-- The lengths of queues and traces after a step, in the same way. -/
theorem counting :
    (∀ {α : Type} {xs ys : List α}, (xs ++ ys).length = xs.length + ys.length) ∧
    (∀ {α : Type} {x : α} {xs : List α}, (x :: xs).length = xs.length + 1) ∧
    (∀ {α : Type}, ([] : List α).length = 0) ∧ (∀ {α : Type} (xs : List α), xs ++ [] = xs) ∧
    (∀ {α : Type} (xs : List α), [] ++ xs = xs) ∧
    (∀ {α β : Type} {f : α → Option β} {xs ys : List α},
      (xs ++ ys).filterMap f = xs.filterMap f ++ ys.filterMap f) ∧
    (∀ {α β : Type} {f : α → Option β} {x : α} {xs : List α}, (x :: xs).filterMap f =
      match f x with
      | none => xs.filterMap f
      | some y => y :: xs.filterMap f) ∧
    ∀ {α β : Type} {f : α → Option β}, [].filterMap f = [] :=
  ⟨List.length_append, List.length_cons, List.length_nil, List.append_nil, List.nil_append,
    List.filterMap_append, List.filterMap_cons, List.filterMap_nil⟩

theorem some_bind {α β : Type} (a : α) (f : α → Option β) : (some a >>= f) = f a := rfl

/-- A set of initial states together with the effect of every action. An
action whose guard is closed has no effect to report. -/
structure Machine (State Action Event : Type*) where
  init : State → Prop
  fire : Action → State → Option (State × List Event)

namespace Machine

variable {State Action Event : Type*}

/-- What the surroundings of a module promise about their next action, given
the events seen so far and the state in which the action is offered. -/
abbrev Contract (State Action Event : Type*) := List Event → State → Action → Prop

/-- One atomic action that the contract admits. The events of the action are
appended to the history. -/
def Step (M : Machine State Action Event) (ok : Contract State Action Event)
    (c d : State × List Event) : Prop :=
  ∃ action events, ok c.2 c.1 action ∧ M.fire action c.1 = some (d.1, events) ∧
    d.2 = c.2 ++ events

/-- Some interleaving of admitted actions leads from `c` to `d`. -/
def Continues (M : Machine State Action Event) (ok : Contract State Action Event) :
    State × List Event → State × List Event → Prop :=
  Relation.ReflTransGen (M.Step ok)

/-- The state `s` is reached with history `trace` by some interleaving that
starts in an initial state and keeps the contract at every action. -/
def Run (M : Machine State Action Event) (ok : Contract State Action Event)
    (s : State) (trace : List Event) : Prop :=
  ∃ start, M.init start ∧ M.Continues ok (start, []) (s, trace)

variable {M : Machine State Action Event} {ok weak : Contract State Action Event} {trace : List Event}

/-- An assertion about history and state that holds initially and is kept by
every admitted action holds along every run. -/
theorem Run.invariant (Inv : List Event → State → Prop)
    (hInit : ∀ s, M.init s → Inv [] s)
    (hStep : ∀ trace s action s' events, Inv trace s → ok trace s action →
      M.fire action s = some (s', events) → Inv (trace ++ events) s')
    {s : State} (run : M.Run ok s trace) : Inv trace s := by
  obtain ⟨start, hStart, path⟩ := run
  suffices h : ∀ c, M.Continues ok (start, []) c → Inv c.2 c.1 from h (s, trace) path
  intro c hc
  induction hc with
  | refl => exact hInit start hStart
  | @tail c d prior last ih =>
    obtain ⟨action, events, hOk, hFire, hTrace⟩ := last
    rw [hTrace]
    exact hStep c.2 c.1 action d.1 events ih hOk hFire

variable {c d : State × List Event}

/-- The same rule from an arbitrary configuration: what every admitted action
keeps is kept by every continuation. -/
theorem Continues.invariant (Inv : List Event → State → Prop)
    (hStep : ∀ trace s action s' events, Inv trace s → ok trace s action →
      M.fire action s = some (s', events) → Inv (trace ++ events) s') (path : M.Continues ok c d) (h : Inv c.2 c.1) :
    Inv d.2 d.1 := by
  induction path with
  | refl => exact h
  | @tail c d prior last ih =>
    obtain ⟨action, events, hOk, hFire, hTrace⟩ := last
    rw [hTrace]
    exact hStep c.2 c.1 action d.1 events ih hOk hFire

theorem Continues.head {s s' : State} {trace events : List Event} {action : Action}
    {d : State × List Event} (hOk : ok trace s action) (hFire : M.fire action s = some (s', events))
    (path : M.Continues ok (s', trace ++ events) d) : M.Continues ok (s, trace) d :=
  Relation.ReflTransGen.head (b := (s', trace ++ events)) ⟨action, events, hOk, hFire, rfl⟩ path

theorem Continues.silent {s s' : State} {action : Action}
    {d : State × List Event} (hOk : ok trace s action) (hFire : M.fire action s = some (s', []))
    (path : M.Continues ok (s', trace) d) : M.Continues ok (s, trace) d := by
  refine Continues.head hOk hFire ?_
  rw [List.append_nil]
  exact path

theorem Continues.tail {s s' : State} {trace events : List Event} {action : Action}
    {c : State × List Event} (path : M.Continues ok c (s, trace)) (hOk : ok trace s action)
    (hFire : M.fire action s = some (s', events)) : M.Continues ok c (s', trace ++ events) :=
  Relation.ReflTransGen.tail path ⟨action, events, hOk, hFire, rfl⟩

/-- A run may be continued; the result is again a run. -/
theorem Run.continue {s s' : State} {trace trace' : List Event} (run : M.Run ok s trace)
    (path : M.Continues ok (s, trace) (s', trace')) : M.Run ok s' trace' := by
  obtain ⟨start, hStart, prior⟩ := run
  exact ⟨start, hStart, prior.trans path⟩

theorem Run.next {s s' : State} {events : List Event} (run : M.Run ok s trace) (action : Action)
    (hOk : ok trace s action) (hFire : M.fire action s = some (s', events)) : M.Run ok s' (trace ++ events) :=
  run.continue (Continues.tail .refl hOk hFire)

/-- A continuation under a strong contract is one under a weaker contract. -/
theorem Continues.weaken (hWeak : ∀ trace s action, ok trace s action → weak trace s action) (path : M.Continues ok c d) : M.Continues weak c d := by
  refine Relation.ReflTransGen.mono ?_ _ _ path
  rintro c d ⟨action, events, hOk, hFire, hTrace⟩
  exact ⟨action, events, hWeak _ _ _ hOk, hFire, hTrace⟩

theorem Run.weaken (hWeak : ∀ trace s action, ok trace s action → weak trace s action)
    {s : State} (run : M.Run ok s trace) : M.Run weak s trace := by
  obtain ⟨start, hStart, path⟩ := run
  exact ⟨start, hStart, path.weaken hWeak⟩

/-- If an invariant of the runs under one contract makes that contract imply
another one, these runs are runs under the other contract. -/
theorem Run.adapt (Inv : List Event → State → Prop) (hInit : ∀ s, M.init s → Inv [] s)
    (hStep : ∀ trace s action s' events, Inv trace s → ok trace s action →
      M.fire action s = some (s', events) → Inv (trace ++ events) s')
    (hOk : ∀ trace s action, Inv trace s → ok trace s action → weak trace s action)
    {s : State} (run : M.Run ok s trace) : M.Run weak s trace := by
  suffices h : Inv trace s ∧ M.Run weak s trace from h.2
  refine run.invariant (fun trace s => Inv trace s ∧ M.Run weak s trace) ?_ ?_
  · intro s hs
    exact ⟨hInit s hs, s, hs, Relation.ReflTransGen.refl⟩
  · rintro trace s action s' events ⟨hInv, prior⟩ hAction hFire
    exact ⟨hStep trace s action s' events hInv hAction hFire,
      prior.next _ (hOk trace s action hInv hAction) hFire⟩

/-- A continuation only adds to the history. -/
theorem Continues.extends {s s' : State} {trace trace' : List Event}
    (path : M.Continues ok (s, trace) (s', trace')) : ∃ more, trace' = trace ++ more := by
  refine path.invariant (fun t _ => ∃ more, t = trace ++ more) ?_ ⟨[], (List.append_nil _).symm⟩
  rintro _ s action s' events ⟨more, rfl⟩ - -
  exact ⟨more ++ events, List.append_assoc _ _ _⟩

/-- What can always be brought closer can be reached: if every configuration
that meets `Inv` either meets the goal or has a continuation after which less is
left to be done, some continuation meets the goal. -/
theorem exists_path (Inv : Nat → List Event → State → Prop) (Goal : List Event → State → Prop)
    (hStep : ∀ n trace s, Inv n trace s → Goal trace s ∨
      ∃ m < n, ∃ s' trace', M.Continues ok (s, trace) (s', trace') ∧ Inv m trace' s')
    {n : Nat} {s : State} (h : Inv n trace s) :
    ∃ s' trace', M.Continues ok (s, trace) (s', trace') ∧ Goal trace' s' := by
  induction n using Nat.strongRecOn generalizing trace s with
  | _ n ih =>
  rcases hStep n trace s h with hGoal | ⟨m, hLess, t, trace₁, first, hInv⟩
  · exact ⟨s, trace, Relation.ReflTransGen.refl, hGoal⟩
  · obtain ⟨s', trace', rest, hGoal⟩ := ih m hLess hInv
    exact ⟨s', trace', first.trans rest, hGoal⟩

/-- The same with single actions. -/
theorem exists_continues (Inv : Nat → List Event → State → Prop) (Goal : List Event → State → Prop)
    (hStep : ∀ n trace s, Inv n trace s → Goal trace s ∨
      ∃ m < n, ∃ action s' events, ok trace s action ∧ M.fire action s = some (s', events) ∧
        Inv m (trace ++ events) s')
    {n : Nat} {s : State} (h : Inv n trace s) :
    ∃ s' trace', M.Continues ok (s, trace) (s', trace') ∧ Goal trace' s' := by
  refine exists_path Inv Goal ?_ h
  intro n trace s hInv
  rcases hStep n trace s hInv with hGoal | ⟨m, hLess, action, t, events, hOk, hFire, hNext⟩
  · exact .inl hGoal
  · exact .inr ⟨m, hLess, t, trace ++ events, Continues.tail .refl hOk hFire, hNext⟩

section Drain

variable {Input : Type*} {input : Event → Option Input}

/-- Some admitted action needs no further input and lowers the rank. -/
def Advances (M : Machine State Action Event) (ok : Contract State Action Event)
    (input : Event → Option Input) (rank : List Event → State → Nat) (trace : List Event) (s : State) :
    Prop :=
  ∃ action s' events, ok trace s action ∧ M.fire action s = some (s', events) ∧
    events.filterMap input = [] ∧ rank (trace ++ events) s' < rank trace s

/-- A module that can always advance until it meets the goal can meet it without
further input. -/
theorem exists_drained {Inv Goal : List Event → State → Prop} (rank : List Event → State → Nat)
    (hStep : ∀ trace s action s' events, Inv trace s → ok trace s action →
      M.fire action s = some (s', events) → Inv (trace ++ events) s') {s : State}
    (hAdvance : ∀ trace' s', Inv trace' s' → trace'.filterMap input = trace.filterMap input →
      Goal trace' s' ∨ M.Advances ok input rank trace' s') (h : Inv trace s) :
    ∃ s' trace', M.Continues ok (s, trace) (s', trace') ∧
      trace'.filterMap input = trace.filterMap input ∧ Goal trace' s' := by
  refine exists_continues (n := rank trace s)
    (fun n trace' s' => n = rank trace' s' ∧ Inv trace' s' ∧ trace'.filterMap input = trace.filterMap input)
    (fun trace' s' => trace'.filterMap input = trace.filterMap input ∧ Goal trace' s') ?_ ⟨rfl, h, rfl⟩
  rintro _ trace' s' ⟨rfl, h', hInput⟩
  rcases hAdvance trace' s' h' hInput with hGoal | ⟨action, s'', events, hOk, hFire, hNone, hLess⟩
  · exact .inl ⟨hInput, hGoal⟩
  · refine .inr ⟨_, hLess, action, s'', events, hOk, hFire, rfl, hStep _ _ _ _ _ h' hOk hFire, ?_⟩
    rw [List.filterMap_append, hNone, List.append_nil, hInput]

end Drain

section Components

variable {State' Action' Event' : Type*} {N : Machine State' Action' Event'}
  {outer : Contract State' Action' Event'}

/-- What a component does on its own, the module around it can do, if it can
follow each single action of the component. -/
theorem Continues.lift (Rel : State × List Event → State' × List Event' → Prop)
    (hStep : ∀ c d e, M.Step ok c d → Rel c e → ∃ e', N.Continues outer e e' ∧ Rel d e') {e : State' × List Event'} (path : M.Continues ok c d)
    (h : Rel c e) : ∃ e', N.Continues outer e e' ∧ Rel d e' := by
  induction path with
  | refl => exact ⟨e, Relation.ReflTransGen.refl, h⟩
  | @tail c d prior last ih =>
    obtain ⟨e₁, path₁, h₁⟩ := ih
    obtain ⟨e₂, path₂, h₂⟩ := hStep c d e₁ last h₁
    exact ⟨e₂, path₁.trans path₂, h₂⟩

/-- A run of a module, seen at one of its components, is a run of the component. -/
theorem Run.project (part : State' → State) (seen : List Event' → List Event) (hNil : seen [] = [])
    (hInit : ∀ s, N.init s → M.init (part s))
    (hStep : ∀ trace s action s' events, outer trace s action → N.fire action s = some (s', events) →
      M.Continues ok (part s, seen trace) (part s', seen (trace ++ events)))
    {s : State'} {trace : List Event'} (run : N.Run outer s trace) :
    M.Run ok (part s) (seen trace) := by
  refine run.invariant (fun trace s => M.Run ok (part s) (seen trace)) ?_ ?_
  · intro s hs
    rw [hNil]
    exact ⟨part s, hInit s hs, Relation.ReflTransGen.refl⟩
  · intro trace s action s' events prior hOk hFire
    exact prior.continue (hStep trace s action s' events hOk hFire)

end Components

/-- Run a list of actions from one configuration, checking the contract before
each of them. -/
def exec (M : Machine State Action Event) (ok : Contract State Action Event)
    [∀ trace s action, Decidable (ok trace s action)] :
    List Action → State × List Event → Option (State × List Event)
  | [], c => some c
  | action :: rest, (s, trace) =>
    if ok trace s action then
      (M.fire action s).bind fun result => M.exec ok rest (result.1, trace ++ result.2)
    else none

/-- An executed list of actions is one particular continuation. -/
theorem exec_continues [∀ trace s action, Decidable (ok trace s action)]
    {actions : List Action} (h : M.exec ok actions c = some d) : M.Continues ok c d := by
  induction actions generalizing c with
  | nil =>
    cases h
    exact Relation.ReflTransGen.refl
  | cons action rest ih =>
    obtain ⟨s, trace⟩ := c
    simp only [exec] at h
    split at h
    · next hOk =>
      obtain ⟨⟨s', events⟩, hFire, hRest⟩ := Option.bind_eq_some_iff.mp h
      exact Relation.ReflTransGen.head ⟨action, events, hOk, hFire, rfl⟩ (ih hRest)
    · cases h

theorem exec_run [∀ trace s action, Decidable (ok trace s action)]
    {actions : List Action} {start : State} {d : State × List Event} (hInit : M.init start)
    (h : M.exec ok actions (start, []) = some d) : M.Run ok d.1 d.2 :=
  ⟨start, hInit, exec_continues h⟩

/-- A run of given actions, with what it ends in. -/
theorem exists_run {α : Type*} [∀ trace s action, Decidable (ok trace s action)] {actions : List Action} {start : State}
    {f : State × List Event → α} {v : α} (h : (M.exec ok actions (start, [])).map f = some v) (hInit : M.init start) :
    ∃ s trace, M.Run ok s trace ∧ f (s, trace) = v := by
  obtain ⟨⟨s, trace⟩, hExec, hEnd⟩ := Option.map_eq_some_iff.mp h
  exact ⟨s, trace, exec_run hInit hExec, hEnd⟩

end Machine
end Rules
