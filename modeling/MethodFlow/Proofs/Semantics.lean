import MethodFlow.Build.Expr

/-!
# What a body does

The executions of a piece of code, without graphs: the elements that control runs through, in order
of evaluation, and how the piece is left. Which branch of a test is taken, how often a loop runs and
which group a `switch` selects is left open, and so is whether an element raises an exception inside
a `try` statement. `&&` and `||` evaluate both operands, assertions are skipped, lambdas and local
classes are not gone into.

A `Behaviour` is the set of executions of a piece of code. The behaviour of a construct is put
together from those of its parts by the operations on behaviours defined first. Executions need not
come to an end: `Exit.stopped` says that the observation ends after some element.

Main definition: `Block.behaviour`.
-/

namespace MethodFlow

/-- How a piece of code is left. -/
inductive Exit where
  | completed
  /-- The execution goes on, but nothing more is seen of it. -/
  | stopped
  | breaking (label : Option String)
  | continuing (label : Option String)
  | returning
  /-- By an exception that a `throw` statement has thrown. -/
  | threw (type : TypeName)
  /-- By an exception that an element has raised. -/
  | raised (type : TypeName)

namespace Exit

/-- The static type of the exception by which code is left. -/
def exception? : Exit → Option TypeName
  | threw type | raised type => some type
  | _ => none

/-- A loop or a `switch` ends `break` without a label. -/
def afterBreak : Exit → Exit
  | breaking none => completed
  | x => x

/-- A labeled statement ends `break` with its label. -/
def afterLabel (label : String) : Exit → Exit
  | breaking (some l) => if l = label then completed else breaking (some l)
  | x => x

/-- The body of a loop with the given labels is done with after `continue`. -/
def afterContinue (labels : List String) : Exit → Exit
  | continuing none => completed
  | continuing (some l) => if labels.contains l then completed else continuing (some l)
  | x => x

end Exit

/-- The executions of a piece of code. -/
abbrev Behaviour := List Element → Exit → Prop

namespace Behaviour

/-- Code that cannot be run. -/
def never : Behaviour := fun _ _ => False

/-- Code that is left at once. -/
def leave (exit : Exit) : Behaviour := fun w x => w = [] ∧ x = exit

/-- One step of evaluation, after which the observation may end. -/
def emit (kind : ElementKind) (span : Span) : Behaviour :=
  fun w x => w = [⟨kind, span⟩] ∧ (x = .completed ∨ x = .stopped)

/-- The step just taken raises a type of its `throws` list, or an unchecked exception, or none.
Outside of all `try` statements exceptions are not followed. -/
def mayRaise (guarded : Bool) (declared : List TypeName) : Behaviour := fun w x =>
  w = [] ∧
    (x = .completed ∨ guarded = true ∧ ∃ type ∈ Throwable.ofDeclared declared, x = .raised type)

/-- One piece after the other. -/
def andThen (first second : Behaviour) : Behaviour := fun w x =>
  first w x ∧ x ≠ .completed ∨ ∃ u v, w = u ++ v ∧ first u .completed ∧ second v x

/-- Either of two pieces. -/
def either (a b : Behaviour) : Behaviour := fun w x => a w x ∨ b w x

/-- A piece with some of its exits caught. -/
def catching (f : Exit → Exit) (a : Behaviour) : Behaviour := fun w x => ∃ y, a w y ∧ x = f y

/-- Any number of rounds. Code is left in the middle of a round, or by what comes in place of
one. -/
inductive Rounds (round last : Behaviour) : List Element → Exit → Prop
  | last {w : List Element} {x : Exit} (h : last w x) : Rounds round last w x
  | next {u v : List Element} {x : Exit} (h : round u .completed) (rest : Rounds round last v x) :
      Rounds round last (u ++ v) x
  | left {w : List Element} {x : Exit} (h : round w x) (hx : x ≠ .completed) : Rounds round last w x

/-- A piece whose exceptions are received by handlers, except those that get past all of them. -/
def handled (receive : TypeName → Behaviour) (passes : TypeName → Prop) (a : Behaviour) :
    Behaviour :=
  fun w x =>
    a w x ∧ (∀ type, x.exception? = some type → passes type) ∨
      ∃ u v y type, w = u ++ v ∧ a u y ∧ y.exception? = some type ∧ receive type v x

/-- A piece that is followed by a last one however it is left. Then that exit is resumed, unless the
last piece was left in a way of its own. -/
def andFinally (a final : Behaviour) : Behaviour := fun w x =>
  a w .stopped ∧ x = .stopped ∨
    ∃ u v y, w = u ++ v ∧ a u y ∧ y ≠ .stopped ∧
      (final v .completed ∧ x = y ∨ final v x ∧ x ≠ .completed)

end Behaviour

open Behaviour

/-! ## Expressions -/

mutual

/-- The executions of an expression. -/
def Expr.behaviour (guarded : Bool) : Expr → Behaviour
  | .name ident span => emit (.identifier ident) span
  | .this span => emit .this span
  | .literal value span => emit (.literal value) span
  | .binary op left right span =>
    ((left.behaviour guarded).andThen (right.behaviour guarded)).andThen
      ((emit (.binary op) span).andThen (if op.mayThrow then mayRaise guarded []
        else leave .completed))
  | .unary op arg span => (arg.behaviour guarded).andThen (emit (.unary op) span)
  -- A plain name is not evaluated before it is assigned to.
  | .assign op target value span =>
    ((if target.plainName?.isSome then leave .completed else target.behaviour guarded).andThen
      (value.behaviour guarded)).andThen
      ((emit (.assignment target.plainName? op) span).andThen
        (if op.mayThrow then mayRaise guarded [] else leave .completed))
  | .cond test cons alt _ =>
    (test.behaviour guarded).andThen (either (cons.behaviour guarded) (alt.behaviour guarded))
  | .call receiver method args throws span =>
    ((Expr.behaviourOption guarded receiver).andThen (Expr.behaviourAll guarded args)).andThen
      ((emit (.invocation method throws) span).andThen (mayRaise guarded throws))
  | .new cls args throws span =>
    (Expr.behaviourAll guarded args).andThen
      ((emit (.newClass cls throws) span).andThen (mayRaise guarded throws))
  | .newArray elem dims init span =>
    ((Expr.behaviourAll guarded dims).andThen (Expr.behaviourAll guarded init)).andThen
      ((emit (.newArray elem) span).andThen (mayRaise guarded []))
  | .member object field span =>
    (object.behaviour guarded).andThen
    ((emit (.fieldAccess field) span).andThen (mayRaise guarded []))
  | .index array offset span =>
    ((array.behaviour guarded).andThen (offset.behaviour guarded)).andThen
      ((emit .arrayAccess span).andThen (mayRaise guarded []))
  | .cast ty inner span =>
    (inner.behaviour guarded).andThen ((emit (.typeCast ty) span).andThen (mayRaise guarded []))
  | .instanceOf inner ty span => (inner.behaviour guarded).andThen (emit (.instanceOf ty) span)
  | .lambda span => emit .lambda span
  | .paren inner _ => inner.behaviour guarded

/-- The executions of an expression that may be absent. -/
def Expr.behaviourOption (guarded : Bool) : Option Expr → Behaviour
  | none => leave .completed
  | some e => e.behaviour guarded

/-- The executions of expressions one after the other. -/
def Expr.behaviourAll (guarded : Bool) : List Expr → Behaviour
  | [] => leave .completed
  | e :: es => (e.behaviour guarded).andThen (Expr.behaviourAll guarded es)

end

/-! ## Statements -/

/-- The executions of a declaration. -/
def LocalVar.behaviour (guarded : Bool) (decl : LocalVar) : Behaviour :=
  (Expr.behaviourOption guarded decl.init).andThen (emit (.declaration decl.name) decl.span)

/-- The executions of the declarations of resources. Closing a resource may raise any exception. -/
def LocalVar.behaviourResources : List LocalVar → Behaviour
  | [] => leave .completed
  | decl :: decls =>
    ((decl.behaviour true).andThen (mayRaise true [Throwable.exception])).andThen
      (LocalVar.behaviourResources decls)

/-- Whether some label of a group lists a value. -/
def CaseGroup.hasValue (group : CaseGroup) : Bool := group.labels.any (!·.values.isEmpty)

/-- Whether a `switch` can select a group, where `rest` are the groups after it: by one of its
values, or by a default label, of which the last one counts. -/
def CaseGroup.isSelectable (group : CaseGroup) (rest : List CaseGroup) : Bool :=
  group.hasValue || group.hasDefault && !rest.any (·.hasDefault)

/-- In a `switch` with at most one default label every group with a label can be selected: no later
default takes the place of its own. A label that lists no values is none. -/
theorem CaseGroup.isSelectable_of_mem_labels {before rest : List CaseGroup} {group : CaseGroup}
    (hone : ((before ++ group :: rest).flatMap fun g => g.labels.filter (·.isDefault)).length ≤ 1)
    {label : CaseLabel} (hlabel : label ∈ group.labels) (hne : label ≠ .case []) :
    group.isSelectable rest = true := by
  rw [isSelectable, Bool.or_eq_true, Bool.and_eq_true, Bool.not_eq_true', List.any_eq_false]
  cases label with
  | case values =>
    have hvalues : values ≠ [] := fun h => hne (h ▸ rfl)
    exact Or.inl (List.any_eq_true.mpr ⟨_, hlabel, by simpa [CaseLabel.values] using hvalues⟩)
  | default =>
    refine Or.inr ⟨List.any_eq_true.mpr ⟨_, hlabel, rfl⟩, fun later hlater hdefault => ?_⟩
    obtain ⟨other, hother, hisDefault⟩ := List.any_eq_true.mp hdefault
    -- One default label is in the group and one in a group after it.
    have hown : 0 < (group.labels.filter (·.isDefault)).length :=
      List.length_pos_of_mem (List.mem_filter.mpr ⟨hlabel, rfl⟩)
    have hrest : 0 < (rest.flatMap fun g => g.labels.filter (·.isDefault)).length :=
      List.length_pos_of_mem
        (List.mem_flatMap.mpr ⟨later, hlater, List.mem_filter.mpr ⟨hother, hisDefault⟩⟩)
    rw [List.flatMap_append, List.flatMap_cons, List.length_append, List.length_append] at hone
    omega

/-- Whether an exception may get past all catch clauses. -/
def CatchClause.Passes (types : Subtyping) (clauses : List CatchClause)
    (thrown : TypeName) : Prop :=
  ∀ clause ∈ clauses, clause.types.any (types.definitelyCatches thrown) = false

mutual

/-- The executions of a statement, inside a `try` statement or not, with the labels written directly
in front of it. -/
def Stmt.behaviour (types : Subtyping) : Stmt → (guarded : Bool) → List String → Behaviour
  | .block ⟨stmts, _⟩, guarded, _ => Stmt.behaviourAll types stmts guarded
  | .expr e _, guarded, _ => e.behaviour guarded
  | .localVar decl, guarded, _ => decl.behaviour guarded
  | .ifStmt test cons alt _, guarded, _ =>
    (test.behaviour guarded).andThen
      (either (cons.behaviour types guarded []) (Stmt.behaviourElse types alt guarded))
  | .whileStmt test body _, guarded, labels =>
    let round := (test.behaviour guarded).andThen
      ((body.behaviour types guarded []).catching (.afterContinue labels))
    catching .afterBreak (Rounds round (test.behaviour guarded))
  | .doWhile body test _, guarded, labels =>
    let round := ((body.behaviour types guarded []).catching (.afterContinue labels)).andThen
      (test.behaviour guarded)
    catching .afterBreak (Rounds round round)
  | .forStmt init test update body _, guarded, labels =>
    let round := (Expr.behaviourOption guarded test).andThen
      (((body.behaviour types guarded []).catching (.afterContinue labels)).andThen
        (Expr.behaviourAll guarded update))
    (Stmt.behaviourAll types init guarded).andThen
      (catching .afterBreak (Rounds round (test.elim never (·.behaviour guarded))))
  | .forEach var iterable body span, guarded, labels =>
    let round := (emit (.declaration var) span).andThen
      ((body.behaviour types guarded []).catching (.afterContinue labels))
    (iterable.behaviour guarded).andThen (catching .afterBreak (Rounds round (leave .completed)))
  | .switch selector groups _, guarded, _ =>
    (selector.behaviour guarded).andThen (catching .afterBreak
      (either (CaseGroup.behaviour types groups guarded false)
        (if groups.any (·.hasDefault) then never else leave .completed)))
  | .tryStmt resources ⟨stmts, _⟩ catches finalizer _, guarded, _ =>
    Block.behaviourFinally types finalizer guarded
      (handled (CatchClause.behaviour types catches) (CatchClause.Passes types catches)
        ((LocalVar.behaviourResources resources).andThen (Stmt.behaviourAll types stmts true)))
  | .labeled label body _, guarded, labels =>
    catching (.afterLabel label) (body.behaviour types guarded (labels ++ [label]))
  | .breakStmt label _, _, _ => leave (.breaking label)
  | .continueStmt label _, _, _ => leave (.continuing label)
  | .returnStmt arg _, guarded, _ => (Expr.behaviourOption guarded arg).andThen (leave .returning)
  | .throwStmt arg _, guarded, _ =>
    (arg.behaviour guarded).andThen (leave (.threw (arg.newClass?.getD Throwable.root)))
  | .synchronized lock ⟨stmts, _⟩ span, guarded, _ =>
    ((lock.behaviour guarded).andThen (emit .synchronized span)).andThen
      (Stmt.behaviourAll types stmts guarded)
  | .assertStmt _ _ _, _, _ => leave .completed
  | .localClass ident span, _, _ => emit (.classDecl ident) span
  | .empty _, _, _ => leave .completed
  | .missing _, _, _ => never

/-- The executions of statements one after the other. -/
def Stmt.behaviourAll (types : Subtyping) : List Stmt → (guarded : Bool) → Behaviour
  | [], _ => leave .completed
  | stmt :: stmts, guarded =>
    (stmt.behaviour types guarded []).andThen (Stmt.behaviourAll types stmts guarded)

/-- The executions of an `else` branch, also where there is none. -/
def Stmt.behaviourElse (types : Subtyping) : Option Stmt → (guarded : Bool) → Behaviour
  | none, _ => leave .completed
  | some alt, guarded => alt.behaviour types guarded []

/-- The executions of the groups of a `switch`, from the first one on if control has come there from
the group before, and otherwise from any group that can be selected. -/
def CaseGroup.behaviour (types : Subtyping) : List CaseGroup → (guarded entered : Bool) → Behaviour
  | [], _, entered => if entered then leave .completed else never
  | group@⟨_, body, arrow, _⟩ :: groups, guarded, entered =>
    let run := (Stmt.behaviourAll types body guarded).andThen
      (if arrow then leave .completed else CaseGroup.behaviour types groups guarded true)
    if entered then run
    else
      either (if group.isSelectable groups then run else never)
        (CaseGroup.behaviour types groups guarded false)

/-- The executions of the catch clauses for an exception: of each clause that may receive it, up to
the first that receives all of its kind. -/
def CatchClause.behaviour (types : Subtyping) : List CatchClause → (thrown : TypeName) → Behaviour
  | [], _ => never
  | ⟨param, caught, ⟨stmts, _⟩, span⟩ :: clauses, thrown =>
    either
      (if caught.any (types.mayCatch thrown) then
        (emit (.declaration param) span).andThen (Stmt.behaviourAll types stmts true)
      else never)
      (if caught.any (types.definitelyCatches thrown) then never
      else CatchClause.behaviour types clauses thrown)

/-- A piece of code followed by a `finally` clause, if there is one. -/
def Block.behaviourFinally (types : Subtyping) : Option Block → (guarded : Bool) →
    Behaviour → Behaviour
  | none, _, inner => inner
  | some ⟨stmts, _⟩, guarded, inner => inner.andFinally (Stmt.behaviourAll types stmts guarded)

end

/-- The executions of a body. -/
def Block.behaviour (types : Subtyping) (body : Block) : Behaviour :=
  Stmt.behaviourAll types body.stmts false

end MethodFlow
