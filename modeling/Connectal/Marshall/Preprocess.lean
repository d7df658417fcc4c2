import Mathlib.Data.List.Basic

/-! `preprocess` of `syntax.py`, which takes the conditional parts out of a source text before it
is parsed. A text is a list of characters here, and `defs` the list of the defined symbols. -/
namespace Connectal.Preprocess

abbrev Text := List Char

def tick : Char := '\x60'

/-- What the pattern `\s` matches. -/
def isSpace (c : Char) : Bool := [' ', '\t', '\n', '\r', '\x0b', '\x0c'].contains c

/-- Search a line break with a tick behind it. The line break is part of the text in front. -/
def findDirective : Text → Option (Text × Text)
  | [] => none
  | c :: s =>
    if c = '\n' ∧ s.head? = some tick then some ([c], s.tail)
    else (findDirective s).map fun found => (c :: found.1, found.2)

/-- Search a character; it is part of neither text. -/
def splitFirst (p : Char → Bool) : Text → Option (Text × Text)
  | [] => none
  | c :: s => if p c then some ([], s) else (splitFirst p s).map fun found => (c :: found.1, found.2)

def ifdefTok : Text := ['i', 'f', 'd', 'e', 'f']
def ifndefTok : Text := ['i', 'f', 'n', 'd', 'e', 'f']
def elseTok : Text := ['e', 'l', 's', 'e']
def endifTok : Text := ['e', 'n', 'd', 'i', 'f']
def defineTok : Text := ['d', 'e', 'f', 'i', 'n', 'e']

/-- Entries `(cond, valid)`, the innermost one first. -/
abbrev Stack := List (Bool × Bool)

/-- The effect of a directive on the stack, the symbols and the text behind it. -/
def directive (tok : Text) : Stack → List Text → Text → Option (Stack × List Text × Text)
  | [], _, _ => none
  | (cond, valid) :: below, defs, s =>
    if tok = ifdefTok then
      (splitFirst isSpace s).map fun (sym, s) =>
        ((decide (sym ∈ defs), decide (sym ∈ defs) && valid) :: (cond, valid) :: below, defs, s)
    else if tok = ifndefTok then
      (splitFirst isSpace s).map fun (sym, s) =>
        ((!decide (sym ∈ defs), valid && !decide (sym ∈ defs)) :: (cond, valid) :: below, defs, s)
    else if tok = elseTok then some ((!cond, valid) :: below, defs, s)
    else if tok = endifTok then some (below, defs, s)
    else if tok = defineTok then do
      let (line, after) ← splitFirst (· = '\n') s
      let (word, _) ← splitFirst isSpace s
      return ((cond, valid) :: below, defs ++ [s.take (min line.length word.length)], '\n' :: after)
    else none

variable {s s' pre post tok l : Text} {defs defs' live : List Text} {stack stack' : Stack} {c : Char} {p : Char → Bool}

theorem length_findDirective (h : findDirective s = some (pre, post)) : post.length + 2 ≤ s.length := by
  induction s generalizing pre with
  | nil => cases h
  | cons c s ih =>
    rw [findDirective] at h
    split at h
    · next hHere =>
      obtain ⟨d, s, rfl⟩ : ∃ d s', s = d :: s' := by
        cases s with
        | nil => cases hHere.2
        | cons d s => exact ⟨d, s, rfl⟩
      cases h
      exact Nat.le_refl _
    · obtain ⟨found, hFound, hEq⟩ := Option.map_eq_some_iff.mp h
      cases hEq
      exact Nat.le_succ_of_le (ih hFound)

theorem length_splitFirst (h : splitFirst p s = some (pre, post)) : s.length = pre.length + post.length + 1 := by
  induction s generalizing pre with
  | nil => cases h
  | cons c s ih =>
    rw [splitFirst] at h
    split at h
    · cases h
      simp
    · obtain ⟨found, hFound, hEq⟩ := Option.map_eq_some_iff.mp h
      cases hEq
      rw [List.length_cons, ih hFound, List.length_cons]
      omega

theorem length_directive (h : directive tok stack defs s = some (stack', defs', s')) : s'.length ≤ s.length := by
  cases stack with
  | nil => cases h
  | cons top below =>
    have hSplit {p : Char → Bool} {found : Text × Text} (h : splitFirst p s = some found) : found.2.length < s.length := by
      have hLength := length_splitFirst h
      omega
    simp only [directive] at h
    split_ifs at h
    · obtain ⟨found, hFound, hEq⟩ := Option.map_eq_some_iff.mp h
      cases hEq
      exact Nat.le_of_lt (hSplit hFound)
    · obtain ⟨found, hFound, hEq⟩ := Option.map_eq_some_iff.mp h
      cases hEq
      exact Nat.le_of_lt (hSplit hFound)
    · cases h
      exact Nat.le_refl _
    · cases h
      exact Nat.le_refl _
    · obtain ⟨found, hFound, hRest⟩ := Option.bind_eq_some_iff.mp h
      obtain ⟨word, -, hEq⟩ := Option.bind_eq_some_iff.mp hRest
      cases hEq
      exact hSplit hFound

/-- Text in front of a directive stays if the state in front of it says so. The stack is looked at
first, and must not be empty. -/
def pp (stack : Stack) (defs : List Text) (s : Text) : Option (Text × List Text) :=
  match stack with
  | [] => none
  | (cond, valid) :: below =>
    match _ : findDirective s with
    | none => some (s, defs)
    | some (pre, s₁) =>
      match _ : splitFirst isSpace s₁ with
      | none => none
      | some (tok, s₂) =>
        match _ : directive tok ((cond, valid) :: below) defs s₂ with
        | none => none
        | some (stack, defs, s₃) =>
          (pp stack defs ('\n' :: s₃)).map fun result =>
            ((if valid && cond then pre else ['\n', '\n']) ++ result.1, result.2)
termination_by s.length
decreasing_by
  have hBehind := length_findDirective ‹findDirective _ = _›
  have hAfter := length_splitFirst ‹splitFirst _ _ = _›
  have hRest := length_directive ‹directive _ _ _ _ = _›
  rw [List.length_cons]
  omega

def preprocess (source : Text) (defs : List Text) : Option (Text × List Text) := pp [(true, true)] defs source

/-! ### Source texts -/

/-- A line of text, or a directive. A directive is ended by a white space; if that is not a line
break, the rest of the line is a line of text behind it. -/
inductive Line where
  | text (l : Text)
  | test (negated : Bool) (blank : Char) (sym : Text) (stop : Char)
  | otherwise (stop : Char)
  | endif (stop : Char)
  | define (blank : Char) (sym value : Text)

def render : List Line → Text
  | [] => []
  | .text l :: doc => l ++ '\n' :: render doc
  | .test negated blank sym stop :: doc =>
    tick :: ((if negated then ifndefTok else ifdefTok) ++ blank :: (sym ++ stop :: render doc))
  | .otherwise stop :: doc => tick :: (elseTok ++ stop :: render doc)
  | .endif stop :: doc => tick :: (endifTok ++ stop :: render doc)
  | .define blank sym value :: doc => tick :: (defineTok ++ blank :: (sym ++ (value ++ '\n' :: render doc)))

/-- The white space behind a directive. -/
def Ends (stop : Char) (doc : List Line) : Prop :=
  isSpace stop = true ∧ (stop = '\n' ∨ ∃ l rest, doc = .text l :: rest)

/-- The white space in front of a symbol, and the symbol. -/
def Names (blank : Char) (sym : Text) : Prop :=
  isSpace blank = true ∧ blank ≠ '\n' ∧ ∀ c ∈ sym, isSpace c = false

/-- The directives are well nested. The list tells for every open test whether its second branch
has begun. -/
inductive Source : List Bool → List Line → Prop where
  | nil : Source [] []
  | text {inElse : List Bool} {l : Text} {doc : List Line} (hBreak : '\n' ∉ l) (hTick : l.head? ≠ some tick)
      (rest : Source inElse doc) : Source inElse (.text l :: doc)
  | test {inElse : List Bool} {negated : Bool} {blank stop : Char} {sym : Text} {doc : List Line}
      (hSym : Names blank sym) (hStop : Ends stop doc) (rest : Source (false :: inElse) doc) :
      Source inElse (.test negated blank sym stop :: doc)
  | otherwise {inElse : List Bool} {stop : Char} {doc : List Line} (hStop : Ends stop doc)
      (rest : Source (true :: inElse) doc) : Source (false :: inElse) (.otherwise stop :: doc)
  | endif {branch : Bool} {inElse : List Bool} {stop : Char} {doc : List Line} (hStop : Ends stop doc)
      (rest : Source inElse doc) : Source (branch :: inElse) (.endif stop :: doc)
  | define {inElse : List Bool} {blank : Char} {sym value : Text} {doc : List Line} (hSym : Names blank sym)
      (hValue : '\n' ∉ value ∧ ∀ c ∈ value.head?, isSpace c = true) (rest : Source inElse doc) :
      Source inElse (.define blank sym value :: doc)

/-- A test around a line: whether it succeeds if every definition above it counts, whether it
succeeds if only those in active regions count, and whether the line is in its second branch. -/
structure Branch where
  found : Bool
  holds : Bool
  isElse : Bool

/-- Every branch around the line is active. -/
def active (ctx : List Branch) : Bool := ctx.all fun b => b.holds != b.isElse

/-- All tests around the line succeed, and it is not directly in a second branch. -/
def plain (ctx : List Branch) : Bool := ctx.all (·.found) && !ctx.head?.any (·.isElse)

/-- The lines of text with the tests around them, the innermost one first. -/
def contexts : List Text → List Text → List Branch → List Line → List (Text × List Branch)
  | _, _, _, [] => []
  | defs, live, ctx, .text l :: doc => (l, ctx) :: contexts defs live ctx doc
  | defs, live, ctx, .test negated _ sym _ :: doc =>
    contexts defs live (⟨decide (sym ∈ defs) != negated, decide (sym ∈ live) != negated, false⟩ :: ctx) doc
  | defs, live, ctx, .otherwise _ :: doc =>
    contexts defs live (ctx.modifyHead fun b => { b with isElse := true }) doc
  | defs, live, ctx, .endif _ :: doc => contexts defs live ctx.tail doc
  | defs, live, ctx, .define _ sym _ :: doc =>
    contexts (defs ++ [sym]) (if active ctx then live ++ [sym] else live) ctx doc

/-- The lines that are not empty and that a rule keeps. -/
def select (rule : List Branch → Bool) (lines : List (Text × List Branch)) : List Text :=
  (lines.filter fun line => line.1 ≠ [] && rule line.2).map (·.1)

def kept (rule : List Branch → Bool) (doc : List Line) (defs : List Text) : List Text :=
  select rule (contexts defs defs [] doc)

/-- The lines of a text that are not empty. -/
def textLines (s : Text) : List Text := (s.splitOn '\n').filter (· ≠ [])

/-- The first line is a directive. -/
def StartsWithDirective (doc : List Line) : Prop := (render doc).head? = some tick

/-! ### The code on a source text -/

theorem textLines_append (s s' : Text) : textLines (s ++ '\n' :: s') = textLines s ++ textLines s' := by
  rw [textLines, List.splitOn_append_cons_self, List.filter_append]
  rfl

theorem textLines_break (s : Text) : textLines ('\n' :: s) = textLines s := textLines_append [] s

theorem textLines_line (h : '\n' ∉ l) : textLines l = [l].filter (· ≠ []) := by
  rw [textLines, List.splitOn, List.splitOnP_eq_singleton]
  intro c hc
  exact beq_eq_false_iff_ne.mpr fun hEq => h (hEq ▸ hc)

theorem splitFirst_append (h : ∀ x ∈ l, p x = false) (hc : p c = true) (s : Text) :
    splitFirst p (l ++ c :: s) = some (l, s) := by
  induction l with
  | nil => rw [List.nil_append, splitFirst, if_pos hc]
  | cons x l ih =>
    rw [List.cons_append, splitFirst, if_neg (by rw [h x List.mem_cons_self]; exact Bool.false_ne_true),
      ih fun y hy => h y (List.mem_cons_of_mem x hy)]
    rfl

/-- A line without a line break is passed over, unless it begins with a tick behind a line break. -/
theorem findDirective_append (h : '\n' ∉ l) (s : Text) :
    findDirective (l ++ '\n' :: s) = (findDirective ('\n' :: s)).map fun found => (l ++ found.1, found.2) := by
  induction l with
  | nil => simp
  | cons c l ih =>
    rw [List.mem_cons, not_or] at h
    rw [List.cons_append, findDirective, if_neg (fun hHere => h.1 hHere.1.symm), ih h.2, Option.map_map]
    rfl

theorem findDirective_text (h : '\n' ∉ l) (hTick : l.head? ≠ some tick) (s : Text) :
    findDirective ('\n' :: (l ++ '\n' :: s)) =
      (findDirective ('\n' :: s)).map fun found => ('\n' :: (l ++ found.1), found.2) := by
  have hHead : (l ++ '\n' :: s).head? ≠ some tick := by
    cases l with
    | nil =>
      show some '\n' ≠ some tick
      decide
    | cons c l => exact hTick
  rw [findDirective, if_neg (fun hHere => hHead hHere.2), findDirective_append h, Option.map_map]
  rfl

/-- The text in front of the next directive stays. -/
def keeps (stack : Stack) : Bool := stack.head?.all fun top => top.2 && top.1

theorem pp_eq (hStack : stack ≠ []) : pp stack defs s = match findDirective s with
    | none => some (s, defs)
    | some found => (splitFirst isSpace found.2).bind fun word => (directive word.1 stack defs word.2).bind fun next =>
      (pp next.1 next.2.1 ('\n' :: next.2.2)).map fun result =>
        ((if keeps stack then found.1 else ['\n', '\n']) ++ result.1, result.2) := by
  obtain ⟨top, below, rfl⟩ := List.exists_cons_of_ne_nil hStack
  rw [pp]
  split
  · next hFind => rw [hFind]
  · next pre s₁ hFind =>
    rw [hFind]
    split
    · next hTok => simp only [hTok, Option.bind_none]
    · next tok s₂ hTok =>
      simp only [hTok, Option.bind_some]
      split <;> next hStep => rw [hStep]; rfl

/-- More text in front of a text in which the next directive is the same one. -/
theorem pp_front {front : Text} (hFind : findDirective s' = (findDirective s).map fun found => (front ++ found.1, found.2))
    (hs' : s' = front ++ s) (hFollow : keeps stack = true ∨ (findDirective s).isSome = true) :
    pp stack defs s' = (pp stack defs s).map fun result => ((if keeps stack then front else []) ++ result.1, result.2) := by
  by_cases hStack : stack = []
  · rw [hStack, pp, pp]
    rfl
  · rw [pp_eq hStack, pp_eq hStack, hFind]
    cases hNext : findDirective s with
    | none =>
      rw [hNext] at hFollow
      rw [if_pos (hFollow.resolve_right Bool.false_ne_true), hs']
      rfl
    | some found =>
      simp only [Option.map_some]
      cases splitFirst isSpace found.2 with
      | none => rfl
      | some word =>
        simp only [Option.bind_some]
        cases directive word.1 stack defs word.2 with
        | none => rfl
        | some next =>
          simp only [Option.bind_some, Option.map_map]
          congr 1
          funext result
          cases keeps stack <;> simp

theorem noSpace_of_all {tok : Text} (h : (tok.all fun x => !isSpace x) = true) : ∀ x ∈ tok, isSpace x = false := by
  simpa using h

theorem pp_directive (hStack : stack ≠ []) (hTok : ∀ x ∈ tok, isSpace x = false) (hc : isSpace c = true)
    (hStep : directive tok stack defs s = some (stack', defs', s')) :
    pp stack defs ('\n' :: tick :: (tok ++ c :: s)) = (pp stack' defs' ('\n' :: s')).map fun result =>
      ((if keeps stack then ['\n'] else ['\n', '\n']) ++ result.1, result.2) := by
  have hFind : findDirective ('\n' :: tick :: (tok ++ c :: s)) = some (['\n'], tok ++ c :: s) := if_pos ⟨rfl, rfl⟩
  rw [pp_eq hStack, hFind]
  simp only [splitFirst_append hTok hc, Option.bind_some, hStep]

theorem space_not_mem (h : ∀ x ∈ l, isSpace x = false) : '\n' ∉ l := fun hMem => absurd (h _ hMem) (by decide)

theorem directive_test {sym : Text} {top : Bool × Bool} (hSym : ∀ x ∈ sym, isSpace x = false) (hc : isSpace c = true)
    (negated : Bool) (s : Text) : directive (if negated then ifndefTok else ifdefTok) (top :: stack) defs (sym ++ c :: s) =
      some ((decide (sym ∈ defs) != negated, (decide (sym ∈ defs) != negated) && top.2) :: top :: stack, defs, s) := by
  cases negated with
  | true =>
    rw [if_pos rfl, directive, if_neg (by decide), if_pos rfl, splitFirst_append hSym hc]
    simp [Bool.and_comm]
  | false =>
    rw [if_neg Bool.false_ne_true, directive, if_pos rfl, splitFirst_append hSym hc]
    simp

theorem directive_define {sym value : Text} (hStack : stack ≠ []) (hSym : ∀ x ∈ sym, isSpace x = false)
    (hValue : '\n' ∉ value ∧ ∀ c ∈ value.head?, isSpace c = true) (s : Text) :
    directive defineTok stack defs (sym ++ (value ++ '\n' :: s)) = some (stack, defs ++ [sym], '\n' :: s) := by
  obtain ⟨top, below, rfl⟩ := List.exists_cons_of_ne_nil hStack
  have hLine : splitFirst (· = '\n') (sym ++ (value ++ '\n' :: s)) = some (sym ++ value, s) := by
    rw [← List.append_assoc]
    refine splitFirst_append (fun x hx => ?_) (by decide) s
    refine decide_eq_false fun hEq => ?_
    subst hEq
    exact (List.mem_append.mp hx).elim (space_not_mem hSym) hValue.1
  have hWord : ∃ after, splitFirst isSpace (sym ++ (value ++ '\n' :: s)) = some (sym, after) := by
    cases value with
    | nil => exact ⟨_, splitFirst_append hSym (by decide) s⟩
    | cons v value => exact ⟨_, splitFirst_append hSym (hValue.2 v rfl) _⟩
  obtain ⟨after, hWord⟩ := hWord
  rw [directive, if_neg (by decide), if_neg (by decide), if_neg (by decide), if_neg (by decide), if_pos rfl, hLine, hWord]
  simp [Nat.min_eq_right]

variable {doc : List Line} {inElse : List Bool} {ctx : List Branch}

theorem testTok_spec (negated : Bool) : ∀ x ∈ (if negated then ifndefTok else ifdefTok), isSpace x = false := by
  cases negated <;> exact noSpace_of_all rfl

/-- While a test is open, a directive follows. -/
theorem isSome_findDirective (h : Source inElse doc) (hOpen : inElse ≠ []) :
    (findDirective ('\n' :: render doc)).isSome = true := by
  have hTick (s : Text) : (findDirective ('\n' :: tick :: s)).isSome = true := by
    rw [show findDirective ('\n' :: tick :: s) = some (['\n'], s) from if_pos ⟨rfl, rfl⟩]
    rfl
  induction h with
  | nil => exact absurd rfl hOpen
  | text hBreak hHead _ ih => rw [render, findDirective_text hBreak hHead, Option.isSome_map, ih hOpen]
  | test | otherwise | endif | define => exact hTick _

theorem pp_text (hBreak : '\n' ∉ l) (hTick : l.head? ≠ some tick) (h : Source inElse doc)
    (hKeep : keeps stack = true ∨ inElse ≠ []) : pp stack defs ('\n' :: (l ++ '\n' :: render doc)) =
      (pp stack defs ('\n' :: render doc)).map fun result =>
        ((if keeps stack then '\n' :: l else []) ++ result.1, result.2) :=
  pp_front (by rw [findDirective_text hBreak hTick]; rfl) rfl (hKeep.imp_right (isSome_findDirective h))

/-- The stack of the code for the tests around a line. -/
def codeStack : List Branch → Stack
  | [] => [(true, true)]
  | b :: ctx => (b.found != b.isElse, (b :: ctx).all (·.found)) :: codeStack ctx

theorem codeStack_top (ctx : List Branch) : ∃ cond below, codeStack ctx = (cond, ctx.all (·.found)) :: below := by
  cases ctx with
  | nil | cons => exact ⟨_, _, rfl⟩

theorem codeStack_ne_nil (ctx : List Branch) : codeStack ctx ≠ [] := by
  obtain ⟨cond, below, h⟩ := codeStack_top ctx
  rw [h]
  exact List.cons_ne_nil _ _

theorem keeps_codeStack (ctx : List Branch) : keeps (codeStack ctx) = plain ctx := by
  cases ctx with
  | nil => rfl
  | cons b ctx =>
    obtain ⟨found, holds, isElse⟩ := b
    cases found <;> cases isElse <;> simp [keeps, codeStack, plain]

theorem keep_or_open (hElse : ctx.map (·.isElse) = inElse) : keeps (codeStack ctx) = true ∨ inElse ≠ [] := by
  cases ctx with
  | nil => exact .inl rfl
  | cons b ctx => exact .inr (by rw [← hElse]; exact List.cons_ne_nil _ _)

/-- What comes out for the rest of a document. -/
def Yields (stack : Stack) (defs : List Text) (s : Text) (lines : List Text) : Prop :=
  ∃ out defs', pp stack defs s = some ('\n' :: out, defs') ∧ textLines out = lines

/-- A directive leaves nothing but line breaks. -/
theorem Yields.directive {lines : List Text} {keep : Bool} (h : Yields stack' defs' s' lines)
    (hStep : pp stack defs s = (pp stack' defs' s').map fun result =>
      ((if keep then ['\n'] else ['\n', '\n']) ++ result.1, result.2)) : Yields stack defs s lines := by
  obtain ⟨out, after, hOut, hLines⟩ := h
  rw [hOut] at hStep
  cases keep with
  | true => exact ⟨'\n' :: out, after, hStep, (textLines_break out).trans hLines⟩
  | false =>
    refine ⟨'\n' :: '\n' :: out, after, hStep, ?_⟩
    rw [textLines_break, textLines_break, hLines]

/-- A line of text comes out if the state says so. -/
theorem Yields.text {lines : List Text} {keep : Bool} (h : Yields stack defs s lines) (hBreak : '\n' ∉ l)
    (hStep : pp stack defs s' = (pp stack defs s).map fun result =>
      ((if keep then '\n' :: l else []) ++ result.1, result.2)) :
    Yields stack defs s' ((if keep then [l].filter (· ≠ []) else []) ++ lines) := by
  obtain ⟨out, after, hOut, hLines⟩ := h
  rw [hOut] at hStep
  cases keep with
  | true =>
    refine ⟨l ++ '\n' :: out, after, hStep, ?_⟩
    rw [textLines_append, textLines_line hBreak, hLines]
    rfl
  | false => exact ⟨out, after, hStep, hLines⟩

theorem select_cons (rule : List Branch → Bool) (l : Text) (ctx : List Branch) (lines : List (Text × List Branch)) :
    select rule ((l, ctx) :: lines) = (if rule ctx then [l].filter (· ≠ []) else []) ++ select rule lines := by
  by_cases hNil : l = [] <;> cases hRule : rule ctx <;> simp [select, hNil, hRule]

/-- The code keeps the lines around which all tests succeed and that are not directly in a second
branch. The induction is on the document; the stack is a function of the tests around. -/
theorem pp_contexts (h : Source inElse doc) (hElse : ctx.map (·.isElse) = inElse) (defs live : List Text) :
    Yields (codeStack ctx) defs ('\n' :: render doc) (select plain (contexts defs live ctx doc)) := by
  induction h generalizing ctx defs live with
  | nil =>
    obtain rfl := List.map_eq_nil_iff.mp hElse
    exact ⟨[], defs, pp_eq (codeStack_ne_nil []), rfl⟩
  | text hBreak hTick rest ih =>
    rw [render, contexts, select_cons, ← keeps_codeStack]
    exact (ih hElse defs live).text hBreak (pp_text hBreak hTick rest (keep_or_open hElse))
  | @test inElse negated blank stop sym doc hSym hStop rest ih =>
    obtain ⟨cond, below, hTop⟩ := codeStack_top ctx
    rw [render, contexts]
    have hNext := @ih (⟨decide (sym ∈ defs) != negated, decide (sym ∈ live) != negated, false⟩ :: ctx)
      (by rw [List.map_cons, hElse]) defs live
    rw [codeStack, hTop, List.all_cons] at hNext
    rw [hTop]
    refine hNext.directive (pp_directive (List.cons_ne_nil _ _) (testTok_spec negated) hSym.1 ?_)
    rw [directive_test hSym.2.2 hStop.1]
    simp
  | otherwise hStop rest ih =>
    obtain ⟨b, ctx, rfl, hHead, hRest⟩ := List.map_eq_cons_iff.mp hElse
    rw [render, contexts]
    have hNext := @ih ({ b with isElse := true } :: ctx) (by rw [List.map_cons, hRest]) defs live
    refine hNext.directive (pp_directive (codeStack_ne_nil _) (noSpace_of_all rfl) hStop.1 ?_)
    have hCond : (!(b.found != b.isElse)) = (b.found != true) := by
      rw [hHead]
      cases b.found <;> rfl
    simp only [codeStack, List.all_cons, ← hCond]
    rfl
  | endif hStop rest ih =>
    obtain ⟨b, ctx, rfl, -, hRest⟩ := List.map_eq_cons_iff.mp hElse
    rw [render, contexts]
    exact (ih hRest defs live).directive (pp_directive (codeStack_ne_nil _) (noSpace_of_all rfl) hStop.1 rfl)
  | @define inElse blank sym value doc hSym hValue rest ih =>
    rw [render, contexts]
    -- the line break of the line stays in the text
    have hBreak := (ih hElse (defs ++ [sym]) (if active ctx then live ++ [sym] else live)).text (l := [])
      List.not_mem_nil (pp_text List.not_mem_nil (by simp) rest (keep_or_open hElse))
    refine (show Yields _ _ _ _ by simpa using hBreak).directive
      (pp_directive (codeStack_ne_nil _) (noSpace_of_all rfl) hSym.1 (directive_define (codeStack_ne_nil _) hSym.2.2 hValue _))

/-- With one entry too few on the stack, the last one is taken away by the end of the document. -/
theorem pp_short (h : Source inElse doc) (hLength : stack.length = inElse.length) (defs : List Text) :
    pp stack defs ('\n' :: render doc) = none := by
  induction h generalizing stack defs with
  | nil => rw [List.eq_nil_of_length_eq_zero hLength, pp]
  | @text inElse l doc hBreak hTick rest ih =>
    cases stack with
    | nil => rw [pp]
    | cons top below =>
      have hOpen : inElse ≠ [] := List.ne_nil_of_length_pos (by rw [← hLength]; exact Nat.succ_pos _)
      rw [render, pp_text hBreak hTick rest (.inr hOpen), ih hLength]
      rfl
  | @test inElse negated blank stop sym doc hSym hStop rest ih =>
    cases stack with
    | nil => rw [pp]
    | cons top below =>
      rw [render, pp_directive (List.cons_ne_nil _ _) (testTok_spec negated) hSym.1
        (directive_test hSym.2.2 hStop.1 negated _), ih (by simpa using hLength)]
      rfl
  | @otherwise inElse stop doc hStop rest ih =>
    obtain ⟨⟨cond, valid⟩, below, rfl⟩ := List.exists_cons_of_length_eq_add_one hLength
    have hStep : directive elseTok ((cond, valid) :: below) defs (render doc) =
        some ((!cond, valid) :: below, defs, render doc) := rfl
    rw [render, pp_directive (List.cons_ne_nil _ _) (noSpace_of_all rfl) hStop.1 hStep, ih (by simpa using hLength)]
    rfl
  | @endif branch inElse stop doc hStop rest ih =>
    obtain ⟨top, below, rfl⟩ := List.exists_cons_of_length_eq_add_one hLength
    have hStep : directive endifTok (top :: below) defs (render doc) = some (below, defs, render doc) := rfl
    rw [render, pp_directive (List.cons_ne_nil _ _) (noSpace_of_all rfl) hStop.1 hStep, ih (by simpa using hLength)]
    rfl
  | @define inElse blank sym value doc hSym hValue rest ih =>
    cases stack with
    | nil => rw [pp]
    | cons top below =>
      have hOpen : inElse ≠ [] := List.ne_nil_of_length_pos (by rw [← hLength]; exact Nat.succ_pos _)
      have hText : pp (top :: below) (defs ++ [sym]) ('\n' :: '\n' :: render doc) = _ :=
        pp_text List.not_mem_nil (by simp) rest (.inr hOpen)
      rw [render, pp_directive (List.cons_ne_nil _ _) (noSpace_of_all rfl) hSym.1
        (directive_define (List.cons_ne_nil _ _) hSym.2.2 hValue _), hText, ih hLength]
      rfl

/-! ### A whole document -/

/-- The first line of a source text is text even if it begins with a tick. -/
theorem preprocess_front (hBreak : '\n' ∉ l) (s : Text) (defs : List Text) : preprocess (l ++ '\n' :: s) defs =
    (pp [(true, true)] defs ('\n' :: s)).map fun result => (l ++ result.1, result.2) :=
  pp_front (findDirective_append hBreak s) rfl (.inl rfl)

theorem Ends.line {stop : Char} (hStop : Ends stop doc) (h : Source inElse doc) :
    ∃ l rest, '\n' ∉ l ∧ stop :: render doc = l ++ '\n' :: render rest ∧ Source inElse rest := by
  obtain ⟨-, rfl | ⟨l, rest, rfl⟩⟩ := hStop
  · exact ⟨[], doc, List.not_mem_nil, rfl, h⟩
  · by_cases hBreak : stop = '\n'
    · exact ⟨[], _, List.not_mem_nil, by rw [hBreak]; rfl, h⟩
    · cases h with
      | text hLine _ hRest =>
        refine ⟨stop :: l, rest, ?_, by rw [render]; rfl, hRest⟩
        exact List.not_mem_cons_of_ne_of_not_mem (Ne.symm hBreak) hLine

/-- No line of text begins with a tick. -/
theorem head_contexts (h : Source inElse doc) (defs live : List Text) (ctx : List Branch) :
    ∀ line ∈ contexts defs live ctx doc, line.1.head? ≠ some tick := by
  induction h generalizing defs live ctx with
  | nil => exact fun _ hMem => absurd hMem List.not_mem_nil
  | text _ hTick _ ih => exact List.forall_mem_cons.mpr ⟨hTick, ih defs live ctx⟩
  | test _ _ _ ih | otherwise _ _ ih | endif _ _ ih | define _ _ _ ih => exact ih _ _ _

theorem preprocess_plain (h : Source [] doc) (hStart : ¬ StartsWithDirective doc) (defs : List Text) :
    ∃ out defs', preprocess (render doc) defs = some (out, defs') ∧ textLines out = kept plain doc defs := by
  cases h with
  | nil => exact ⟨[], defs, pp_eq (List.cons_ne_nil _ _), rfl⟩
  | @text _ l doc hBreak hTick rest =>
    obtain ⟨out, defs', hOut, hLines⟩ := pp_contexts rest (show [].map Branch.isElse = [] from rfl) defs defs
    refine ⟨l ++ '\n' :: out, defs', ?_, ?_⟩
    · rw [render, preprocess_front hBreak, show pp [(true, true)] defs _ = _ from hOut]
      rfl
    · rw [textLines_append, textLines_line hBreak, hLines, kept, contexts, select_cons]
      rfl
  | test | define => exact absurd rfl hStart

/-- A first line that is a directive is not seen: a test fails in the end, and a definition is kept
as a line of text. -/
theorem preprocess_first (h : Source [] doc) (hStart : StartsWithDirective doc) (defs : List Text) :
    ¬ ∃ out defs', preprocess (render doc) defs = some (out, defs') ∧ textLines out = kept active doc defs := by
  rintro ⟨out, defs', hOut, hLines⟩
  cases h with
  | nil => cases hStart
  | @text _ l doc hBreak hTick rest =>
    rw [StartsWithDirective, render] at hStart
    cases l with
    | nil => exact absurd hStart (by simp [tick])
    | cons c l => exact hTick hStart
  | @test _ negated blank stop sym doc hSym hStop rest =>
    obtain ⟨l, doc', hBreak, hLine, hRest⟩ := hStop.line rest
    have hFront : '\n' ∉ tick :: ((if negated then ifndefTok else ifdefTok) ++ blank :: (sym ++ l)) := by
      simp only [List.mem_cons, List.mem_append, not_or]
      exact ⟨by decide, space_not_mem (testTok_spec negated), hSym.2.1.symm, space_not_mem hSym.2.2, hBreak⟩
    have hText : render (.test negated blank sym stop :: doc) =
        (tick :: ((if negated then ifndefTok else ifdefTok) ++ blank :: (sym ++ l))) ++ '\n' :: render doc' := by
      simp [render, hLine]
    rw [hText, preprocess_front hFront, pp_short hRest rfl] at hOut
    cases hOut
  | @define _ blank sym value doc hSym hValue rest =>
    have hFront : '\n' ∉ tick :: (defineTok ++ blank :: (sym ++ value)) := by
      simp only [List.mem_cons, List.mem_append, not_or]
      exact ⟨by decide, by decide, hSym.2.1.symm, space_not_mem hSym.2.2, hValue.1⟩
    have hText : render (.define blank sym value :: doc) =
        (tick :: (defineTok ++ blank :: (sym ++ value))) ++ '\n' :: render doc := by
      simp [render]
    rw [hText, preprocess_front hFront] at hOut
    obtain ⟨⟨after, _⟩, hRest, hEq⟩ := Option.map_eq_some_iff.mp hOut
    obtain ⟨rest', _, hYield, -⟩ := pp_contexts rest (show [].map Branch.isElse = [] from rfl) defs defs
    obtain ⟨rfl, -⟩ := Prod.mk.inj (Option.some.inj (hRest.symm.trans hYield))
    obtain ⟨rfl, -⟩ := Prod.mk.inj hEq
    have hMem : tick :: (defineTok ++ blank :: (sym ++ value)) ∈ kept active (.define blank sym value :: doc) defs := by
      rw [← hLines, textLines_append, textLines_line hFront]
      exact List.mem_append_left _ (by simp)
    obtain ⟨line, hLine, hName⟩ := List.mem_map.mp hMem
    refine head_contexts (.define hSym hValue rest) defs defs [] line (List.mem_filter.mp hLine).1 ?_
    rw [hName]
    rfl

/-- A line, and a test with a line in both branches. -/
def bothBranches : List Line :=
  [.text ['a'], .test false ' ' ['X'] '\n', .text ['b'], .otherwise '\n', .text ['c'], .endif '\n']

theorem bothBranches_source : Source [] bothBranches := by
  have hText (c : Char) (hBreak : '\n' ≠ c) (hTick : c ≠ tick) : '\n' ∉ [c] ∧ [c].head? ≠ some tick := by simp_all
  have hStop (doc : List Line) : Ends '\n' doc := ⟨rfl, .inl rfl⟩
  have hA := hText 'a' (by decide) (by decide)
  have hB := hText 'b' (by decide) (by decide)
  have hC := hText 'c' (by decide) (by decide)
  exact .text hA.1 hA.2 (.test ⟨rfl, by decide, noSpace_of_all rfl⟩ (hStop _) (.text hB.1 hB.2
    (.otherwise (hStop _) (.text hC.1 hC.2 (.endif (hStop _) .nil)))))

end Connectal.Preprocess
