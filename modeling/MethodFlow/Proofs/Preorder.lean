import MethodFlow.Metrics
import MethodFlow.Proofs.Induction

/-!
# Walks as lists

`Block.preorder` lists what a walk through a body comes to, each node before its parts, with the
number of constructs around it. It is a list: it knows nothing of visitors, of stopping, or of a
depth that is raised and has to be lowered again. A walk makes the calls of this list one after the
other until one of them stops it (`Stmt.walk_eq_callAll`), and so it ends where it began, however it
ends.

Main result: `Block.walk_preorder`.
-/

namespace MethodFlow

/-- A call that a walk makes: what the visitor is shown, and how many constructs are around that. -/
structure Visit where
  event : Event
  depth : Nat

namespace Visit

/-- The same node, seen from one construct further out. -/
def deeper (visit : Visit) : Visit := { visit with depth := visit.depth + 1 }

/-- The context of the call in a walk that began in `context`. -/
def within (visit : Visit) (context : WalkContext) : WalkContext :=
  { context with depth := context.depth + visit.depth }

/-- What the visitor is given in a walk that began in `context`. -/
def callIn (context : WalkContext) (visit : Visit) : Event × WalkContext :=
  (visit.event, visit.within context)

/-- The depth of a statement. -/
def stmtDepth? (visit : Visit) : Option Nat :=
  match visit.event with
  | .stmt _ => some visit.depth
  | _ => none

end Visit

/-! ## The nodes of a tree -/

mutual

/-- The nodes of an expression, which are all at one depth. -/
@[simp] def Expr.preorder : Expr → List Visit
  | e@(.binary _ left right _) => ⟨.expr e, 0⟩ :: (left.preorder ++ right.preorder)
  | e@(.unary _ arg _) => ⟨.expr e, 0⟩ :: arg.preorder
  | e@(.assign _ target value _) => ⟨.expr e, 0⟩ :: (target.preorder ++ value.preorder)
  | e@(.cond test cons alt _) => ⟨.expr e, 0⟩ :: (test.preorder ++ (cons.preorder ++ alt.preorder))
  | e@(.call receiver _ args _ _) =>
    ⟨.expr e, 0⟩ :: (Expr.preorderOption receiver ++ Expr.preorderAll args)
  | e@(.new _ args _ _) => ⟨.expr e, 0⟩ :: Expr.preorderAll args
  | e@(.newArray _ dims init _) => ⟨.expr e, 0⟩ :: (Expr.preorderAll dims ++ Expr.preorderAll init)
  | e@(.member object _ _) => ⟨.expr e, 0⟩ :: object.preorder
  | e@(.index array offset _) => ⟨.expr e, 0⟩ :: (array.preorder ++ offset.preorder)
  | e@(.cast _ arg _) => ⟨.expr e, 0⟩ :: arg.preorder
  | e@(.instanceOf arg _ _) => ⟨.expr e, 0⟩ :: arg.preorder
  | e@(.paren arg _) => ⟨.expr e, 0⟩ :: arg.preorder
  | e@(.name ..) | e@(.this ..) | e@(.literal ..) | e@(.lambda ..) => [⟨.expr e, 0⟩]

@[simp] def Expr.preorderOption : Option Expr → List Visit
  | none => []
  | some e => e.preorder

@[simp] def Expr.preorderAll : List Expr → List Visit
  | [] => []
  | e :: es => e.preorder ++ Expr.preorderAll es

end

/-- The nodes of the initial values of declarations. -/
def LocalVar.preorderAll (decls : List LocalVar) : List Visit :=
  decls.flatMap fun decl => Expr.preorderOption decl.init

@[simp] theorem LocalVar.preorderAll_nil : LocalVar.preorderAll [] = [] := rfl

@[simp] theorem LocalVar.preorderAll_cons (decl : LocalVar) (decls : List LocalVar) :
    LocalVar.preorderAll (decl :: decls) =
      Expr.preorderOption decl.init ++ LocalVar.preorderAll decls := by
  rw [LocalVar.preorderAll, List.flatMap_cons, LocalVar.preorderAll]

mutual

/-- The nodes of a statement. Branches, the bodies of loops and of `switch` statements, `try` blocks
with their resources, the code of catch clauses and finalizers are one construct further in. -/
@[simp] def Stmt.preorder : Stmt → List Visit
  | s@(.block ⟨stmts, _⟩) => ⟨.stmt s, 0⟩ :: Stmt.preorderAll stmts
  | s@(.expr e _) => ⟨.stmt s, 0⟩ :: e.preorder
  | s@(.localVar decl) => ⟨.stmt s, 0⟩ :: Expr.preorderOption decl.init
  | s@(.ifStmt test cons alt _) =>
    ⟨.stmt s, 0⟩ :: (test.preorder ++ (cons.preorder.map Visit.deeper ++ Stmt.preorderElse alt))
  | s@(.whileStmt test body _) => ⟨.stmt s, 0⟩ :: (test.preorder ++ body.preorder.map Visit.deeper)
  | s@(.doWhile body test _) => ⟨.stmt s, 0⟩ :: (body.preorder.map Visit.deeper ++ test.preorder)
  | s@(.forStmt init test update body _) =>
    ⟨.stmt s, 0⟩ ::
      (Stmt.preorderAll init ++
        (Expr.preorderOption test ++ (Expr.preorderAll update ++ body.preorder.map Visit.deeper)))
  | s@(.forEach _ iterable body _) =>
    ⟨.stmt s, 0⟩ :: (iterable.preorder ++ body.preorder.map Visit.deeper)
  | s@(.switch selector groups _) =>
    ⟨.stmt s, 0⟩ :: (selector.preorder ++ (CaseGroup.preorderAll groups).map Visit.deeper)
  | s@(.tryStmt resources ⟨stmts, _⟩ catches finalizer _) =>
    ⟨.stmt s, 0⟩ ::
      ((LocalVar.preorderAll resources ++ Stmt.preorderAll stmts).map Visit.deeper ++
        (CatchClause.preorderAll catches ++ Block.preorderFinalizer finalizer))
  | s@(.labeled _ body _) => ⟨.stmt s, 0⟩ :: body.preorder
  | s@(.returnStmt arg _) => ⟨.stmt s, 0⟩ :: Expr.preorderOption arg
  | s@(.throwStmt arg _) => ⟨.stmt s, 0⟩ :: arg.preorder
  | s@(.synchronized lock ⟨stmts, _⟩ _) => ⟨.stmt s, 0⟩ :: (lock.preorder ++ Stmt.preorderAll stmts)
  | s@(.assertStmt test message _) =>
    ⟨.stmt s, 0⟩ :: (test.preorder ++ Expr.preorderOption message)
  | s@(.breakStmt ..) | s@(.continueStmt ..) | s@(.localClass ..) | s@(.empty ..)
  | s@(.missing ..) => [⟨.stmt s, 0⟩]

@[simp] def Stmt.preorderAll : List Stmt → List Visit
  | [] => []
  | s :: ss => s.preorder ++ Stmt.preorderAll ss

/-- The nodes of an `else` branch. An `if` that is the whole branch is no construct further in. -/
@[simp] def Stmt.preorderElse : Option Stmt → List Visit
  | none => []
  | some alt => if alt.isIf then alt.preorder else alt.preorder.map Visit.deeper

@[simp] def Block.preorderFinalizer : Option Block → List Visit
  | none => []
  | some ⟨stmts, _⟩ => (Stmt.preorderAll stmts).map Visit.deeper

@[simp] def CaseGroup.preorderAll : List CaseGroup → List Visit
  | [] => []
  | ⟨_, body, _, _⟩ :: groups => Stmt.preorderAll body ++ CaseGroup.preorderAll groups

/-- The nodes of catch clauses. A clause itself is at the depth of its `try` statement. -/
@[simp] def CatchClause.preorderAll : List CatchClause → List Visit
  | [] => []
  | clause@⟨_, _, ⟨stmts, _⟩, _⟩ :: clauses =>
    ⟨.catchClause clause, 0⟩ ::
      ((Stmt.preorderAll stmts).map Visit.deeper ++ CatchClause.preorderAll clauses)

end

/-- The nodes of a body. -/
def Block.preorder (body : Block) : List Visit := Stmt.preorderAll body.stmts

-- An `if` behind an `else` is as deep as the first one, and so are its branches as deep as the
-- first branch.
example (test : String) :
    (Stmt.preorder (.ifStmt (.name test {}) (.empty {})
      (some (.ifStmt (.name test {}) (.empty {}) (some (.empty {})) {})) {})).map (·.depth) =
        [0, 0, 1, 0, 0, 1, 1] := rfl

/-! ## Calls one after the other -/

namespace Walk

variable {σ : Type} {v : Visitor σ}

/-- Makes a call and stays where it is. -/
def call (v : Visitor σ) (visit : Visit) : Walk σ := fun (context, state) =>
  match v visit.event (visit.within context) state with
  | .done state => .done (context, state)
  | .yield state => .yield (context, state)

/-- Makes calls one after the other. -/
def callAll (v : Visitor σ) : List Visit → Walk σ
  | [] => skip
  | visit :: visits => andThen (call v visit) (callAll v visits)

theorem visit_eq_call (v : Visitor σ) (event : Event) : visit v event = call v ⟨event, 0⟩ := rfl

theorem andThen_assoc (w₁ w₂ w₃ : Walk σ) :
    andThen (andThen w₁ w₂) w₃ = andThen w₁ (andThen w₂ w₃) := by
  funext place
  unfold andThen
  cases w₁ place <;> rfl

theorem callAll_append (xs ys : List Visit) :
    callAll v (xs ++ ys) = andThen (callAll v xs) (callAll v ys) := by
  induction xs with
  | nil => rfl
  | cons visit xs ih => rw [List.cons_append, callAll, callAll, ih, andThen_assoc]

theorem callAll_singleton (visit : Visit) : callAll v [visit] = call v visit := by
  funext place
  unfold callAll callAll andThen
  cases call v visit place <;> rfl

/-- Entering a node is seen by the visits below it. -/
theorem within_enter (visit : Visit) (context : WalkContext) :
    visit.within context.enter = visit.deeper.within context := by
  unfold Visit.within Visit.deeper WalkContext.enter
  rw [Nat.add_right_comm, Nat.add_assoc]

/-- A call made further in leaves the level again, whether or not it stops the walk. -/
theorem nested_call (visit : Visit) (next : Walk σ) :
    nested (andThen (call v visit) next) = andThen (call v visit.deeper) (nested next) := by
  funext ⟨context, state⟩
  have hcall : v visit.event (visit.within context.enter) state =
      v visit.deeper.event (visit.deeper.within context) state := by
    rw [within_enter]
    rfl
  unfold nested andThen call
  dsimp only
  -- Whatever the call answers, both sides give back the context that they were given.
  rw [hcall]
  cases v visit.deeper.event (visit.deeper.within context) state <;> rfl

/-- Nested calls are those one level deeper. -/
theorem nested_callAll (visits : List Visit) :
    nested (callAll v visits) = callAll v (visits.map Visit.deeper) := by
  induction visits with
  | nil => rfl
  | cons visit visits ih => rw [List.map_cons, callAll, callAll, nested_call, ih]

end Walk

/-! ## A walk makes the calls of its list -/

section Walks

open Walk (visit_eq_call callAll callAll_append callAll_singleton nested_callAll)

variable {σ : Type} (v : Visitor σ)

theorem Expr.walkOption_eq_callAll {e : Option Expr}
    (ih : ∀ e', e = some e' → e'.walk v = callAll v e'.preorder) :
    Expr.walkOption v e = callAll v (Expr.preorderOption e) := by
  cases e with
  | none => rw [walkOption, preorderOption, callAll]
  | some e => rw [walkOption, preorderOption, ih e rfl]

theorem Expr.walkAll_eq_callAll {es : List Expr} (ih : ∀ e ∈ es, e.walk v = callAll v e.preorder) :
    Expr.walkAll v es = callAll v (Expr.preorderAll es) := by
  induction es with
  | nil => rw [walkAll, preorderAll, callAll]
  | cons e es ihs =>
    rw [walkAll, preorderAll, callAll_append, ih e List.mem_cons_self,
      ihs fun e he => ih e (List.mem_cons_of_mem _ he)]

/-- A walk through an expression makes the calls of its list. -/
theorem Expr.walk_eq_callAll (e : Expr) : e.walk v = callAll v e.preorder := by
  induction e using Expr.induct with
  | name ident span | this span | literal value span | lambda span =>
    rw [walk, preorder, callAll_singleton, visit_eq_call]
  | binary op left right span ihl ihr =>
    rw [walk, preorder, callAll, callAll_append, visit_eq_call, ihl, ihr]
  | unary op arg span ih => rw [walk, preorder, callAll, visit_eq_call, ih]
  | assign op target value span iht ihv =>
    rw [walk, preorder, callAll, callAll_append, visit_eq_call, iht, ihv]
  | cond test cons alt span iht ihc iha =>
    rw [walk, preorder, callAll, callAll_append, callAll_append, visit_eq_call, iht, ihc, iha]
  | call receiver method args throws span ihr iha =>
    rw [walk, preorder, callAll, callAll_append, visit_eq_call, walkOption_eq_callAll v ihr,
      walkAll_eq_callAll v iha]
  | new cls args throws span iha =>
    rw [walk, preorder, callAll, visit_eq_call, walkAll_eq_callAll v iha]
  | newArray elem dims init span ihd ihi =>
    rw [walk, preorder, callAll, callAll_append, visit_eq_call, walkAll_eq_callAll v ihd,
      walkAll_eq_callAll v ihi]
  | member object field span ih => rw [walk, preorder, callAll, visit_eq_call, ih]
  | index array offset span iha iho =>
    rw [walk, preorder, callAll, callAll_append, visit_eq_call, iha, iho]
  | cast ty inner span ih => rw [walk, preorder, callAll, visit_eq_call, ih]
  | instanceOf inner ty span ih => rw [walk, preorder, callAll, visit_eq_call, ih]
  | paren inner span ih => rw [walk, preorder, callAll, visit_eq_call, ih]

theorem LocalVar.walkAll_eq_callAll (decls : List LocalVar) :
    LocalVar.walkAll v decls = callAll v (LocalVar.preorderAll decls) := by
  induction decls with
  | nil => rw [walkAll, preorderAll_nil, callAll]
  | cons decl decls ih =>
    rw [walkAll, preorderAll_cons, callAll_append, ih,
      Expr.walkOption_eq_callAll v fun e _ => e.walk_eq_callAll v]

theorem Stmt.walkAll_eq_callAll {stmts : List Stmt}
    (ih : ∀ s ∈ stmts, s.walk v = callAll v s.preorder) :
    Stmt.walkAll v stmts = callAll v (Stmt.preorderAll stmts) := by
  induction stmts with
  | nil => rw [walkAll, preorderAll, callAll]
  | cons s stmts ihs =>
    rw [walkAll, preorderAll, callAll_append, ih s List.mem_cons_self,
      ihs fun s hs => ih s (List.mem_cons_of_mem _ hs)]

theorem Stmt.walkElse_eq_callAll {alt : Option Stmt}
    (ih : ∀ s, alt = some s → s.walk v = callAll v s.preorder) :
    Stmt.walkElse v alt = callAll v (Stmt.preorderElse alt) := by
  cases alt with
  | none => rw [walkElse, preorderElse, callAll]
  | some alt =>
    rw [walkElse, preorderElse, ih alt rfl]
    split
    · rfl
    · exact nested_callAll _

theorem Block.walkFinalizer_eq_callAll {finalizer : Option Block}
    (ih : ∀ final, finalizer = some final → ∀ s ∈ final.stmts, s.walk v = callAll v s.preorder) :
    Block.walkFinalizer v finalizer = callAll v (Block.preorderFinalizer finalizer) := by
  rcases finalizer with _ | ⟨stmts, span⟩
  · rw [walkFinalizer, preorderFinalizer, callAll]
  · rw [walkFinalizer, preorderFinalizer, Stmt.walkAll_eq_callAll v (ih _ rfl), nested_callAll]

theorem CaseGroup.walkAll_eq_callAll {groups : List CaseGroup}
    (ih : ∀ group ∈ groups, ∀ s ∈ group.body, s.walk v = callAll v s.preorder) :
    CaseGroup.walkAll v groups = callAll v (CaseGroup.preorderAll groups) := by
  induction groups with
  | nil => rw [walkAll, preorderAll, callAll]
  | cons group groups ihs =>
    have hgroup := Stmt.walkAll_eq_callAll v (ih group List.mem_cons_self)
    cases group
    rw [walkAll, preorderAll, callAll_append, hgroup, ihs fun g hg =>
      ih g (List.mem_cons_of_mem _ hg)]

theorem CatchClause.walkAll_eq_callAll {clauses : List CatchClause}
    (ih : ∀ clause ∈ clauses, ∀ s ∈ clause.body.stmts, s.walk v = callAll v s.preorder) :
    CatchClause.walkAll v clauses = callAll v (CatchClause.preorderAll clauses) := by
  induction clauses with
  | nil => rw [walkAll, preorderAll, callAll]
  | cons clause clauses ihs =>
    have hclause := Stmt.walkAll_eq_callAll v (ih clause List.mem_cons_self)
    obtain ⟨param, types, ⟨stmts, bodySpan⟩, span⟩ := clause
    rw [walkAll, preorderAll, callAll, callAll_append, visit_eq_call, hclause, nested_callAll,
      ihs fun c hc => ih c (List.mem_cons_of_mem _ hc)]

/-- Walking through a statement is making the calls of its list. -/
theorem Stmt.walk_eq_callAll (s : Stmt) : s.walk v = callAll v s.preorder := by
  have hexpr : ∀ e : Expr, e.walk v = callAll v e.preorder := fun e => e.walk_eq_callAll v
  have hoption : ∀ e : Option Expr, Expr.walkOption v e = callAll v (Expr.preorderOption e) :=
    fun _ => Expr.walkOption_eq_callAll v fun e _ => hexpr e
  induction s using Stmt.induct with
  | block b ih =>
    cases b
    rw [walk, preorder, callAll, visit_eq_call, Stmt.walkAll_eq_callAll v ih]
  | expr e span => rw [walk, preorder, callAll, visit_eq_call, hexpr]
  | localVar decl => rw [walk, preorder, callAll, visit_eq_call, hoption]
  | ifStmt test cons alt span ihc iha =>
    rw [walk, preorder, callAll, callAll_append, callAll_append, visit_eq_call, hexpr, ihc,
      nested_callAll, Stmt.walkElse_eq_callAll v iha]
  | whileStmt test body span ih | doWhile body test span ih | forEach var iterable body span ih =>
    rw [walk, preorder, callAll, callAll_append, visit_eq_call, hexpr, ih, nested_callAll]
  | forStmt init test update body span ihi ih =>
    rw [walk, preorder, callAll, callAll_append, callAll_append, callAll_append, visit_eq_call,
      Stmt.walkAll_eq_callAll v ihi, hoption, Expr.walkAll_eq_callAll v fun e _ => hexpr e, ih,
        nested_callAll]
  | switch selector groups span ih =>
    rw [walk, preorder, callAll, callAll_append, visit_eq_call, hexpr,
      CaseGroup.walkAll_eq_callAll v ih, nested_callAll]
  | tryStmt resources block catches finalizer span ihb ihc ihf =>
    have hbody := Stmt.walkAll_eq_callAll v ihb
    cases block
    -- The resources and the block are one construct further in together, and so they are one list
    -- first.
    rw [walk, preorder, callAll, callAll_append, callAll_append, visit_eq_call,
      LocalVar.walkAll_eq_callAll, hbody, ← callAll_append, nested_callAll,
      CatchClause.walkAll_eq_callAll v ihc, Block.walkFinalizer_eq_callAll v ihf]
  | labeled label body span ih => rw [walk, preorder, callAll, visit_eq_call, ih]
  | returnStmt arg span => rw [walk, preorder, callAll, visit_eq_call, hoption]
  | throwStmt arg span => rw [walk, preorder, callAll, visit_eq_call, hexpr]
  | synchronized lock body span ih =>
    have hbody := Stmt.walkAll_eq_callAll v ih
    cases body
    rw [walk, preorder, callAll, callAll_append, visit_eq_call, hexpr, hbody]
  | assertStmt test message span =>
    rw [walk, preorder, callAll, callAll_append, visit_eq_call, hexpr, hoption]
  | breakStmt label span | continueStmt label span | localClass ident span | empty span
  | missing span =>
    rw [walk, preorder, callAll_singleton, visit_eq_call]

end Walks

/-! ## Where the calls end -/

namespace Visitor

variable {σ : Type} {v : Visitor σ}

/-- The visitor, called on nodes one after the other, comes to `step`. A call that stops is the last
one. -/
inductive Called (v : Visitor σ) : List (Event × WalkContext) → σ → ForInStep σ → Prop
  | none (state : σ) : Called v [] state (.yield state)
  | stop {event : Event} {context : WalkContext} {state result : σ} :
    v event context state = .done result → Called v [(event, context)] state (.done result)
  | next {event : Event} {context : WalkContext} {calls : List (Event × WalkContext)}
      {state result : σ}
    {step : ForInStep σ} : v event context state = .yield result → Called v calls result step →
    Called v ((event, context) :: calls) state step

/-- The visitor that also keeps the calls it gets. -/
def recording (v : Visitor σ) : Visitor (σ × List (Event × WalkContext)) :=
  fun event context (state, calls) =>
    match v event context state with
    | .done state => .done (state, calls ++ [(event, context)])
    | .yield state => .yield (state, calls ++ [(event, context)])

/-- Keeping the calls changes nothing else. -/
theorem recording_eq_yield {event : Event} {context : WalkContext} {state result : σ}
    (h : v event context state = .yield result) (kept : List (Event × WalkContext)) :
    v.recording event context (state, kept) = .yield (result, kept ++ [(event, context)]) := by
  simp only [recording, h]

/-- A recording visitor stops where the visitor does, and notes that call as well. -/
theorem recording_eq_done {event : Event} {context : WalkContext} {state result : σ}
    (h : v event context state = .done result) (kept : List (Event × WalkContext)) :
    v.recording event context (state, kept) = .done (result, kept ++ [(event, context)]) := by
  simp only [recording, h]

end Visitor

namespace Walk

variable {σ : Type} {v : Visitor σ}

theorem callAll_cons_of_yield {visit : Visit} {context : WalkContext} {state result : σ}
    (h : v visit.event (visit.within context) state = .yield result) (visits : List Visit) :
    callAll v (visit :: visits) (context, state) = callAll v visits (context, result) := by
  simp only [callAll, andThen, call, h]

theorem callAll_cons_of_done {visit : Visit} {context : WalkContext} {state result : σ}
    (h : v visit.event (visit.within context) state = .done result) (visits : List Visit) :
    callAll v (visit :: visits) (context, state) = .done (context, result) := by
  simp only [callAll, andThen, call, h]

/-- The calls are made up to and including the first that stops. In the end the context is what it
was. -/
theorem callAll_called (visits : List Visit) (context : WalkContext) (state : σ)
    (kept : List (Event × WalkContext)) :
    ∃ calls step, calls <+: visits.map (·.callIn context) ∧ v.Called calls state step ∧
      (calls = visits.map (·.callIn context) ∨ ∃ result, step = .done result) ∧
      (callAll v visits (context, state)).value = (context, step.value) ∧
      (callAll v.recording visits (context, state, kept)).value =
      (context, step.value, kept ++ calls) := by
  -- Each call makes the state of those behind it, and the calls before them have been kept.
  induction visits generalizing state kept with
  | nil =>
    refine ⟨[], .yield state, List.nil_prefix, .none state, Or.inl rfl, rfl, ?_⟩
    rw [List.append_nil]
    rfl
  | cons visit visits ih =>
    rw [List.map_cons]
    cases h : v visit.event (visit.within context) state with
    | done result =>
      refine ⟨[visit.callIn context], .done result, ⟨_, rfl⟩, .stop h, Or.inr ⟨result, rfl⟩, ?_, ?_⟩
      · rw [callAll_cons_of_done h]
        rfl
      · rw [callAll_cons_of_done (Visitor.recording_eq_done h kept)]
        rfl
    | yield result =>
      obtain ⟨calls, step, hbegins, hcalled, hend, hwalk, hrecord⟩ :=
        ih result (kept ++ [visit.callIn context])
      refine ⟨visit.callIn context :: calls, step, (List.prefix_cons_inj _).mpr hbegins,
        .next h hcalled, ?_, ?_, ?_⟩
      · exact hend.imp_left (congrArg (List.cons _))
      · rw [callAll_cons_of_yield h, hwalk]
      · rw [callAll_cons_of_yield (Visitor.recording_eq_yield h kept)]
        refine hrecord.trans ?_
        rw [List.append_assoc, List.singleton_append]

/-- With a visitor that never stops, the calls are a fold. -/
theorem callAll_of_yield {f : σ → Event → WalkContext → σ}
    (h : ∀ event context state, v event context state = .yield (f state event context))
    (visits : List Visit) (context : WalkContext) (state : σ) :
    callAll v visits (context, state) =
      .yield
        (context, visits.foldl (fun state visit => f state visit.event (visit.within context))
          state) := by
  induction visits generalizing state with
  | nil => rfl
  | cons visit visits ih => rw [callAll_cons_of_yield (h _ _ _), ih, List.foldl_cons]

end Walk

namespace Block

variable {σ : Type}

/-- A walk through a body makes the calls of its list. -/
theorem walk_eq_callAll (v : Visitor σ) (body : Block) (context : WalkContext) (state : σ) :
    body.walk v context state = (Walk.callAll v body.preorder (context, state)).value := by
  unfold walk preorder
  rw [Stmt.walkAll_eq_callAll v fun s _ => s.walk_eq_callAll v]
  cases Walk.callAll v (Stmt.preorderAll body.stmts) (context, state) <;> rfl

/-- With a visitor that never stops, a walk is a fold. -/
theorem walk_of_yield {v : Visitor σ} {f : σ → Event → WalkContext → σ}
    (h : ∀ event context state, v event context state = .yield (f state event context))
    (body : Block) (context : WalkContext) (state : σ) :
    body.walk v context state =
      (context, body.preorder.foldl (fun state visit => f state visit.event (visit.within context))
        state) := by
  rw [walk_eq_callAll, Walk.callAll_of_yield h]
  rfl

/-- The nesting level is the greatest depth among the statements. -/
theorem nestingLevel_eq_max (body : Block) :
    body.nestingLevel = (body.preorder.filterMap Visit.stmtDepth?).max?.getD 0 := by
  have hyield : ∀ event context depth, Visitor.deepest event context depth =
      .yield ((Visit.stmtDepth? ⟨event, context.depth⟩).elim depth (max depth)) := by
    intro event context depth
    cases event <;> rfl
  have hplace : ∀ visit : Visit, (⟨visit.event, (visit.within {}).depth⟩ : Visit) = visit := by
    intro visit
    exact congrArg (Visit.mk visit.event) (Nat.zero_add visit.depth)
  have hfold : ∀ (visits : List Visit) (depth : Nat),
      visits.foldl (fun depth visit => visit.stmtDepth?.elim depth (max depth)) depth =
        (visits.filterMap Visit.stmtDepth?).foldl max depth := by
    intro visits depth
    rw [List.foldl_filterMap]
    congr 1
    funext depth visit
    cases visit.stmtDepth? <;> rfl
  rw [nestingLevel, walk_of_yield hyield]
  simp only [hplace]
  rw [hfold]
  cases body.preorder.filterMap Visit.stmtDepth? with
  | nil => rfl
  | cons depth depths => rw [List.max?_cons', List.foldl_cons, Nat.zero_max, Option.getD_some]

/-- A walk shows its visitor the nodes of the body in order, each in the context in which the walk
began with the depth of the node added, up to and including the first at which the visitor stops;
the context is then what it was. So the nesting level is the greatest depth of a statement. -/
theorem walk_preorder (body : Block) :
    (∀ {σ : Type} (v : Visitor σ) (context : WalkContext) (state : σ),
      ∃ calls step, calls <+: body.preorder.map (·.callIn context) ∧ v.Called calls state step ∧
        (calls = body.preorder.map (·.callIn context) ∨ ∃ result, step = .done result) ∧
        body.walk v context state = (context, step.value) ∧
        body.walk v.recording context (state, []) = (context, step.value, calls)) ∧
      body.nestingLevel = (body.preorder.filterMap Visit.stmtDepth?).max?.getD 0 := by
  refine ⟨fun v context state => ?_, body.nestingLevel_eq_max⟩
  rw [walk_eq_callAll, walk_eq_callAll]
  exact Walk.callAll_called body.preorder context state []

end Block

end MethodFlow
