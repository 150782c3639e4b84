import MethodFlow.Build.Stmt
import MethodFlow.Proofs.Induction

/-!
# Scoping errors

`Stmt.scopeError?` finds the first scoping error of a statement from the text alone: a part that
could not be read, a jump without a target, a label that names nothing or is already taken. It knows
only which statements stand around a place (`Enclosing`) and which labels are written in front of
the statement; no graph and no types enter into it.

Drawing fails exactly with that error (`Stmt.failure?_draw`), whatever the draft and whatever the
types, since the targets of a scope carry the labels and kinds of the enclosing statements in the
same order.
-/

namespace MethodFlow

/-- What a statement is for the jumps inside it. -/
inductive EnclosingKind where
  | loop
  | switch
  | labeled
  deriving DecidableEq

/-- A statement around a place in a body that jumps may refer to. -/
structure Enclosing where
  labels : List String
  kind : EnclosingKind

namespace Enclosing

def carries (e : Enclosing) (label : String) : Bool := e.labels.contains label

/-- The error of a `break` among enclosing statements, innermost first. -/
def breakError? (around : List Enclosing) (label : Option String) (line : UInt32) :
    Option BuildFailure :=
  match label with
  | none =>
    if around.any (·.kind ≠ .labeled) then none else some (.jumpOutsideTarget .breaking line)
  | some label =>
    if around.any (·.carries label) then none else some (.unresolvedLabel label line)

/-- The error of a `continue` among enclosing statements, innermost first. -/
def continueError? (around : List Enclosing) (label : Option String) (line : UInt32) :
    Option BuildFailure :=
  match label with
  | none =>
    if around.any (·.kind = .loop) then none else some (.jumpOutsideTarget .continuing line)
  | some label =>
    match around.find? (·.carries label) with
    | none => some (.unresolvedLabel label line)
    | some e => if e.kind = .loop then none else some (.continueToNonLoop label line)

end Enclosing

mutual

/-- The first scoping error of a statement, given the enclosing statements, innermost first, and the
labels written directly in front of it. -/
def Stmt.scopeError? : Stmt → List Enclosing → List String → Option BuildFailure
  | .block ⟨stmts, _⟩, around, _ => Stmt.scopeErrorIn? stmts around
  | .ifStmt _ cons alt _, around, _ =>
    (cons.scopeError? around []).or (Stmt.scopeErrorElse? alt around)
  | .whileStmt _ body _, around, labels => body.scopeError? (⟨labels, .loop⟩ :: around) []
  | .doWhile body _ _, around, labels => body.scopeError? (⟨labels, .loop⟩ :: around) []
  | .forEach _ _ body _, around, labels => body.scopeError? (⟨labels, .loop⟩ :: around) []
  -- The initial statements of a loop are no part of the loop.
  | .forStmt init _ _ body _, around, labels =>
    (Stmt.scopeErrorIn? init around).or (body.scopeError? (⟨labels, .loop⟩ :: around) [])
  | .switch _ groups _, around, labels => CaseGroup.scopeError? groups (⟨labels, .switch⟩ :: around)
  | .tryStmt _ ⟨stmts, _⟩ catches finalizer _, around, _ =>
    (Stmt.scopeErrorIn? stmts around).or
      ((CatchClause.scopeError? catches around).or (Block.scopeError? finalizer around))
  | .labeled label body span, around, labels =>
    if labels.contains label || around.any (·.carries label) then
      some (.duplicateLabel label span.line)
    else if body.carriesLabels then body.scopeError? around (labels ++ [label])
    else body.scopeError? (⟨labels ++ [label], .labeled⟩ :: around) []
  | .breakStmt label span, around, _ => Enclosing.breakError? around label span.line
  | .continueStmt label span, around, _ => Enclosing.continueError? around label span.line
  | .synchronized _ ⟨stmts, _⟩ _, around, _ => Stmt.scopeErrorIn? stmts around
  | .missing span, _, _ => some (.partialBody span.line)
  | .expr .., _, _ | .localVar .., _, _ | .returnStmt .., _, _ | .throwStmt .., _, _
  | .assertStmt .., _, _ | .localClass .., _, _ | .empty .., _, _ => none

/-- The first scoping error in a list of statements. -/
def Stmt.scopeErrorIn? : List Stmt → List Enclosing → Option BuildFailure
  | [], _ => none
  | stmt :: stmts, around => (stmt.scopeError? around []).or (Stmt.scopeErrorIn? stmts around)

/-- The first scoping error in an `else` branch. -/
def Stmt.scopeErrorElse? : Option Stmt → List Enclosing → Option BuildFailure
  | none, _ => none
  | some alt, around => alt.scopeError? around []

/-- The first scoping error in the groups of a `switch`. -/
def CaseGroup.scopeError? : List CaseGroup → List Enclosing → Option BuildFailure
  | [], _ => none
  | ⟨_, body, _, _⟩ :: groups, around =>
    (Stmt.scopeErrorIn? body around).or (CaseGroup.scopeError? groups around)

/-- The first scoping error in catch clauses. -/
def CatchClause.scopeError? : List CatchClause → List Enclosing → Option BuildFailure
  | [], _ => none
  | ⟨_, _, ⟨stmts, _⟩, _⟩ :: clauses, around =>
    (Stmt.scopeErrorIn? stmts around).or (CatchClause.scopeError? clauses around)

/-- The first scoping error in a `finally` clause. -/
def Block.scopeError? : Option Block → List Enclosing → Option BuildFailure
  | none, _ => none
  | some ⟨stmts, _⟩, around => Stmt.scopeErrorIn? stmts around

end

/-! ## Scoping errors are errors of the text -/

/-- An error, if there is one, lies in the text and not in a graph. -/
def InText (error : Option BuildFailure) : Prop := ∀ fault, error ≠ some (.inconsistent fault)

theorem InText.or {first next : Option BuildFailure} (h₁ : InText first) (h₂ : InText next) :
    InText (first.or next) := by
  cases first with
  | none => exact h₂
  | some e => exact h₁

/-- What is wrong with a `break` stands in the text. -/
theorem Enclosing.inText_breakError? (around : List Enclosing) (label : Option String)
    (line : UInt32) : InText (breakError? around label line) := by
  intro fault h
  unfold breakError? at h
  split at h <;> split at h <;> exact nomatch h

theorem Enclosing.inText_continueError? (around : List Enclosing) (label : Option String)
    (line : UInt32) : InText (continueError? around label line) := by
  intro fault h
  unfold continueError? at h
  split at h
  · split at h <;> exact nomatch h
  · split at h
    · exact nomatch h
    · split at h <;> exact nomatch h

theorem Stmt.inText_scopeErrorIn? {stmts : List Stmt}
    (ih : ∀ s ∈ stmts, ∀ around labels, InText (s.scopeError? around labels))
    (around : List Enclosing) : InText (Stmt.scopeErrorIn? stmts around) := by
  induction stmts with
  | nil =>
    rw [Stmt.scopeErrorIn?]
    exact fun _ h => nomatch h
  | cons s stmts ihs =>
    rw [Stmt.scopeErrorIn?]
    exact (ih s List.mem_cons_self around []).or (ihs fun s hs => ih s (List.mem_cons_of_mem _ hs))

/-- What is wrong with a statement stands in the text. -/
theorem Stmt.inText_scopeError? (s : Stmt) (around : List Enclosing) (labels : List String) :
    InText (s.scopeError? around labels) := by
  induction s using Stmt.induct generalizing around labels with
  | block b ih =>
    cases b
    rw [Stmt.scopeError?]
    exact Stmt.inText_scopeErrorIn? ih around
  | expr | localVar | returnStmt | throwStmt | assertStmt | localClass | empty | missing =>
    rw [Stmt.scopeError?]
    exact fun _ h => nomatch h
  | ifStmt test cons alt span ihc iha =>
    rw [Stmt.scopeError?]
    refine (ihc around []).or ?_
    cases alt with
    | none =>
      rw [Stmt.scopeErrorElse?]
      exact fun _ h => nomatch h
    | some alt =>
      rw [Stmt.scopeErrorElse?]
      exact iha alt rfl around []
  | whileStmt test body span ih | doWhile body test span ih | forEach var iterable body span ih =>
    rw [Stmt.scopeError?]
    exact ih _ _
  | forStmt init test update body span ihi ih =>
    rw [Stmt.scopeError?]
    exact (Stmt.inText_scopeErrorIn? ihi around).or (ih _ _)
  | switch selector groups span ih =>
    rw [Stmt.scopeError?]
    induction groups with
    | nil =>
      rw [CaseGroup.scopeError?]
      exact fun _ h => nomatch h
    | cons group groups ihg =>
      cases group
      rw [CaseGroup.scopeError?]
      exact (Stmt.inText_scopeErrorIn? (ih _ List.mem_cons_self) _).or
        (ihg fun g hg => ih g (List.mem_cons_of_mem _ hg))
  | tryStmt resources block catches finalizer span ihb ihc ihf =>
    cases block
    rw [Stmt.scopeError?]
    refine (Stmt.inText_scopeErrorIn? ihb around).or (InText.or ?_ ?_)
    · induction catches with
      | nil =>
        rw [CatchClause.scopeError?]
        exact fun _ h => nomatch h
      | cons clause clauses ihs =>
        obtain ⟨_, _, ⟨_, _⟩, _⟩ := clause
        rw [CatchClause.scopeError?]
        exact (Stmt.inText_scopeErrorIn? (ihc _ List.mem_cons_self) _).or
          (ihs fun c hc => ihc c (List.mem_cons_of_mem _ hc))
    · cases finalizer with
      | none =>
        rw [Block.scopeError?]
        exact fun _ h => nomatch h
      | some final =>
        cases final
        rw [Block.scopeError?]
        exact Stmt.inText_scopeErrorIn? (ihf _ rfl) around
  | labeled label body span ih =>
    rw [Stmt.scopeError?]
    split
    · exact fun _ h => nomatch h
    split
    · exact ih _ _
    · exact ih _ _
  | breakStmt label span =>
    rw [Stmt.scopeError?]
    exact Enclosing.inText_breakError? around label span.line
  | continueStmt label span =>
    rw [Stmt.scopeError?]
    exact Enclosing.inText_continueError? around label span.line
  | synchronized lock body span ih =>
    cases body
    rw [Stmt.scopeError?]
    exact Stmt.inText_scopeErrorIn? ih around

/-! ## Failures of computations -/

namespace Except

variable {ε α β : Type}

/-- The failure of a computation, if it fails. -/
def failure? : Except ε α → Option ε
  | .ok _ => none
  | .error e => some e

theorem failure?_eq_some_iff {x : Except ε α} {e : ε} : failure? x = some e ↔ x = .error e := by
  cases x with
  | ok a => simp [failure?]
  | error e' => simp [failure?]

theorem failure?_eq_none_iff {x : Except ε α} : failure? x = none ↔ ∃ a, x = .ok a := by
  cases x with
  | ok a => simp [failure?]
  | error e => simp [failure?]

/-- Two steps, where the failure of the second does not depend on the result of the first. -/
theorem failure?_bind {x : Except ε α} {f : α → Except ε β} {first next : Option ε}
    (hx : failure? x = first) (hf : ∀ a, failure? (f a) = next) :
    failure? (x >>= f) = first.or next := by
  subst hx
  cases x with
  | error e => rfl
  | ok a => exact hf a

/-- A last step that cannot fail. -/
theorem failure?_bind_pure (x : Except ε α) (f : α → β) :
    failure? (x >>= fun a => pure (f a)) = failure? x := by
  cases x <;> rfl

end Except

/-! ## Scopes and enclosing statements -/

def TargetKind.enclosing : TargetKind → EnclosingKind
  | .loop _ => .loop
  | .switch => .switch
  | .labeled => .labeled

/-- A target without its blocks. -/
def Target.enclosing (t : Target) : Enclosing := ⟨t.labels, t.kind.enclosing⟩

namespace Scope

/-- The enclosing statements that a scope knows, innermost first. -/
def enclosing (scope : Scope) : List Enclosing := scope.targets.map (·.enclosing)

theorem any_carries (scope : Scope) (label : String) :
    scope.enclosing.any (·.carries label) = scope.hasLabel label := by
  rw [enclosing, List.any_map]
  rfl

/-- Looking for a target fails exactly when none fits. -/
private theorem failure?_find {targets : List Target} {fits : Target → Bool} {e : BuildFailure} :
    Except.failure? (match targets.find? fits with | some t => .ok t | none => .error e) =
      if targets.any fits then none else some e := by
  cases h : targets.find? fits with
  | none =>
    rw [if_neg]
    · rfl
    · rw [List.any_eq_true]
      rintro ⟨t, ht, hfits⟩
      exact List.find?_eq_none.mp h t ht hfits
  | some t =>
    have hfits : fits t = true := List.find?_some h
    rw [if_pos (List.any_eq_true.mpr ⟨t, List.mem_of_find?_eq_some h, hfits⟩)]
    rfl

/-- A `break` finds no target exactly when the statements around say so. -/
theorem failure?_breakTarget (scope : Scope) (label : Option String) (line : UInt32) :
    Except.failure? (scope.breakTarget label line) =
      Enclosing.breakError? scope.enclosing label line := by
  cases label with
  | none =>
    have hkind : ∀ t : Target, t.isBreakable = decide (t.enclosing.kind ≠ .labeled) := by
      rintro ⟨_, kind, _, _⟩
      cases kind <;> rfl
    simp only [breakTarget, Enclosing.breakError?, enclosing, List.any_map,
      Function.comp_def, ← hkind]
    exact failure?_find
  | some label =>
    simp only [breakTarget, labelTarget, Enclosing.breakError?, any_carries, hasLabel]
    exact failure?_find

/-- A `continue` finds no target exactly when the statements around say so. -/
theorem failure?_continueTarget (scope : Scope) (label : Option String) (line : UInt32) :
    Except.failure? (scope.continueTarget label line) =
      Enclosing.continueError? scope.enclosing label line := by
  have hkind : ∀ t : Target, t.continueTo?.isSome = decide (t.enclosing.kind = .loop) := by
    rintro ⟨_, kind, _, _⟩
    cases kind <;> rfl
  cases label with
  | none =>
    simp only [continueTarget, Enclosing.continueError?, enclosing, List.any_map, Function.comp_def,
      ← hkind]
    -- Without a label the innermost loop is meant, if there is one.
    cases h : scope.targets.findSome? fun t => t.continueTo?.map (t, ·) with
    | none =>
      rw [if_neg]
      · rfl
      · rw [List.any_eq_true]
        rintro ⟨t, ht, hc⟩
        have hnone := List.findSome?_eq_none_iff.mp h t ht
        rw [Option.map_eq_none_iff] at hnone
        rw [hnone] at hc
        cases hc
    | some found =>
      obtain ⟨t, ht, hc⟩ := List.exists_of_findSome?_eq_some h
      obtain ⟨c, hc, _⟩ := Option.map_eq_some_iff.mp hc
      rw [if_pos (List.any_eq_true.mpr ⟨t, ht, by rw [hc]; rfl⟩)]
      rfl
  | some label =>
    -- With a label the carrier is found first, and then it has to be a loop.
    have hfind : scope.enclosing.find? (·.carries label) =
        (scope.targets.find? (·.hasLabel label)).map (·.enclosing) := by
      rw [enclosing, List.find?_map]
      rfl
    simp only [continueTarget, labelTarget, Enclosing.continueError?, hfind]
    cases scope.targets.find? (·.hasLabel label) with
    | none => rfl
    | some t =>
      have hk := hkind t
      simp only [bind, Except.bind]
      cases hc : t.continueTo? with
      | none =>
        rw [hc] at hk
        exact (if_neg (of_decide_eq_false hk.symm)).symm
      | some c =>
        rw [hc] at hk
        exact (if_pos (of_decide_eq_true hk.symm)).symm

end Scope

/-! ## Drawing fails with the first scoping error -/

/-- Drawing the statement fails with its first scoping error, in any scope and from any draft. -/
def Stmt.FailsAsScoped (s : Stmt) : Prop :=
  ∀ (scope : Scope) (labels : List String) (d : Draft),
    Except.failure? (s.draw scope labels d) = s.scopeError? scope.enclosing labels

section Parts

variable {scope : Scope} {d : Draft}

/-- Drawing statements fails with the first of their errors. -/
theorem Stmt.failure?_drawAll {stmts : List Stmt} (ih : ∀ s ∈ stmts, s.FailsAsScoped) :
    Except.failure? (Stmt.drawAll stmts scope d) = Stmt.scopeErrorIn? stmts scope.enclosing := by
  induction stmts generalizing d with
  | nil => rw [Stmt.drawAll, Stmt.scopeErrorIn?, Except.failure?]
  | cons s stmts ihs =>
    rw [Stmt.drawAll, Stmt.scopeErrorIn?]
    exact Except.failure?_bind (ih s List.mem_cons_self scope [] d)
      fun _ => ihs fun s hs => ih s (List.mem_cons_of_mem _ hs)

theorem Stmt.failure?_drawElse {alt : Option Stmt} (ih : ∀ s, alt = some s → s.FailsAsScoped)
    (join : BlockId) :
    Except.failure? (Stmt.drawElse alt scope join d) =
      Stmt.scopeErrorElse? alt scope.enclosing := by
  cases alt with
  | none => rw [Stmt.drawElse, Stmt.scopeErrorElse?, Except.failure?]
  | some alt => rw [Stmt.drawElse, Stmt.scopeErrorElse?, ih alt rfl]

theorem CaseGroup.failure?_drawAll {groups : List CaseGroup}
    (ih : ∀ group ∈ groups, ∀ s ∈ group.body, s.FailsAsScoped) (block after : BlockId) :
    Except.failure? (CaseGroup.drawAll groups scope block after d) =
      CaseGroup.scopeError? groups scope.enclosing := by
  induction groups generalizing block d with
  | nil => rw [CaseGroup.drawAll, CaseGroup.scopeError?, Except.failure?]
  | cons group groups ihg =>
    obtain ⟨labels, body, arrow, span⟩ := group
    rw [CaseGroup.drawAll, CaseGroup.scopeError?]
    exact Except.failure?_bind (Stmt.failure?_drawAll (ih _ List.mem_cons_self))
      fun _ => ihg (fun g hg => ih g (List.mem_cons_of_mem _ hg)) _

theorem CatchClause.failure?_drawAll {clauses : List CatchClause}
    (ih : ∀ clause ∈ clauses, ∀ s ∈ clause.body.stmts, s.FailsAsScoped)
    (finalizer : Option BlockId) (entry after : BlockId) :
    Except.failure? (CatchClause.drawAll clauses scope finalizer entry after d) =
      CatchClause.scopeError? clauses scope.enclosing := by
  induction clauses generalizing entry d with
  | nil => rw [CatchClause.drawAll, CatchClause.scopeError?, Except.failure?]
  | cons clause clauses ihc =>
    obtain ⟨param, types, ⟨stmts, blockSpan⟩, span⟩ := clause
    rw [CatchClause.drawAll, CatchClause.scopeError?]
    exact Except.failure?_bind (Stmt.failure?_drawAll (ih _ List.mem_cons_self))
      fun _ => ihc (fun c hc => ih c (List.mem_cons_of_mem _ hc)) _

theorem Block.failure?_drawFinalizer {finalizer : Option Block}
    (ih : ∀ final, finalizer = some final → ∀ s ∈ final.stmts, s.FailsAsScoped) (after : BlockId) :
    Except.failure? (Block.drawFinalizer finalizer scope after d) =
      Block.scopeError? finalizer scope.enclosing := by
  cases finalizer with
  | none => rw [Block.drawFinalizer, Block.scopeError?, Except.failure?]
  | some final =>
    obtain ⟨stmts, span⟩ := final
    rw [Block.drawFinalizer, Block.scopeError?, Except.failure?_bind_pure]
    exact Stmt.failure?_drawAll (ih _ rfl)

end Parts

/-- Drawing a statement fails with its first scope error, and only with that. -/
theorem Stmt.failsAsScoped (s : Stmt) : s.FailsAsScoped := by
  induction s using Stmt.induct with
  | block b ih =>
    intro scope labels d
    cases b
    rw [Stmt.draw, Stmt.scopeError?]
    exact Stmt.failure?_drawAll ih
  | expr | localVar | returnStmt | throwStmt | assertStmt | localClass | empty | missing =>
    intro scope labels d
    rw [Stmt.draw, Stmt.scopeError?, Except.failure?]
  | ifStmt test cons alt span ihc iha =>
    intro scope labels d
    rw [Stmt.draw, Stmt.scopeError?]
    refine Except.failure?_bind (ihc _ _ _) fun _ => ?_
    rw [Except.failure?_bind_pure]
    exact Stmt.failure?_drawElse iha _
  | whileStmt test body span ih | doWhile body test span ih | forEach var iterable body span ih =>
    intro scope labels d
    rw [Stmt.draw, Stmt.scopeError?, Except.failure?_bind_pure]
    exact ih _ _ _
  | forStmt init test update body span ihi ih =>
    intro scope labels d
    rw [Stmt.draw, Stmt.scopeError?]
    refine Except.failure?_bind (Stmt.failure?_drawAll ihi) fun _ => ?_
    rw [Except.failure?_bind_pure]
    exact ih _ _ _
  | switch selector groups span ih =>
    intro scope labels d
    rw [Stmt.draw, Stmt.scopeError?, Except.failure?_bind_pure]
    exact CaseGroup.failure?_drawAll ih _ _
  | tryStmt resources block catches finalizer span ihb ihc ihf =>
    intro scope labels d
    cases block
    rw [Stmt.draw, Stmt.scopeError?]
    refine Except.failure?_bind (Stmt.failure?_drawAll ihb) fun _ => ?_
    refine Except.failure?_bind (CatchClause.failure?_drawAll ihc _ _ _) fun _ => ?_
    rw [Except.failure?_bind_pure]
    exact Block.failure?_drawFinalizer ihf _
  | labeled label body span ih =>
    intro scope labels d
    rw [Stmt.draw, Stmt.scopeError?, Scope.any_carries]
    split
    · rfl
    split
    · exact ih _ _ _
    · rw [Except.failure?_bind_pure]
      exact ih _ _ _
  | breakStmt label span =>
    intro scope labels d
    rw [Stmt.draw, Stmt.scopeError?, Except.failure?_bind_pure]
    exact scope.failure?_breakTarget label span.line
  | continueStmt label span =>
    intro scope labels d
    rw [Stmt.draw, Stmt.scopeError?, Except.failure?_bind_pure]
    exact scope.failure?_continueTarget label span.line
  | synchronized lock body span ih =>
    intro scope labels d
    cases body
    rw [Stmt.draw, Stmt.scopeError?]
    exact Stmt.failure?_drawAll ih

/-- Drawing a body fails with its first scoping error, whatever the types. -/
theorem Graph.failure?_draft (types : Subtyping) (body : Block) :
    Except.failure? (Graph.draft types body) = Stmt.scopeErrorIn? body.stmts [] :=
  (Except.failure?_bind_pure _ _).trans (Stmt.failure?_drawAll fun s _ => s.failsAsScoped)

end MethodFlow
