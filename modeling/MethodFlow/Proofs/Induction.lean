import MethodFlow.Tree.Basic

/-!
# Induction on syntax trees

The parts of an expression or a statement stand in lists, options, blocks and clauses. `Expr.induct`
and `Stmt.induct` give one hypothesis for every part, wherever it stands.
-/

namespace MethodFlow

/-- Induction on expressions. -/
@[elab_as_elim]
theorem Expr.induct {motive : Expr → Prop}
    (name : ∀ ident span, motive (.name ident span))
    (this : ∀ span, motive (.this span))
    (literal : ∀ value span, motive (.literal value span))
    (binary : ∀ op left right span, motive left → motive right →
      motive (.binary op left right span))
    (unary : ∀ op arg span, motive arg → motive (.unary op arg span))
    (assign : ∀ op target value span, motive target → motive value →
      motive (.assign op target value span))
    (cond : ∀ test cons alt span, motive test → motive cons → motive alt →
      motive (.cond test cons alt span))
    (call : ∀ receiver method args throws span, (∀ e, receiver = some e → motive e) →
      (∀ e ∈ args, motive e) → motive (.call receiver method args throws span))
    (new : ∀ cls args throws span, (∀ e ∈ args, motive e) → motive (.new cls args throws span))
    (newArray : ∀ elem dims init span, (∀ e ∈ dims, motive e) → (∀ e ∈ init, motive e) →
      motive (.newArray elem dims init span))
    (member : ∀ object field span, motive object → motive (.member object field span))
    (index : ∀ array offset span, motive array → motive offset → motive (.index array offset span))
    (cast : ∀ ty inner span, motive inner → motive (.cast ty inner span))
    (instanceOf : ∀ inner ty span, motive inner → motive (.instanceOf inner ty span))
    (lambda : ∀ span, motive (.lambda span))
    (paren : ∀ inner span, motive inner → motive (.paren inner span)) (e : Expr) : motive e := by
  induction hn : sizeOf e using Nat.strongRecOn generalizing e with
  | ind n ih =>
    subst hn
    have part : ∀ e', sizeOf e' < sizeOf e → motive e' := fun e' hlt => ih _ hlt e' rfl
    have listed : ∀ {es : List Expr}, sizeOf es < sizeOf e → ∀ e' ∈ es, motive e' :=
      fun hlt e' hm => part e' (Nat.lt_trans (List.sizeOf_lt_of_mem hm) hlt)
    cases e with
    | name ident span => exact name ident span
    | this span => exact this span
    | literal value span => exact literal value span
    | binary op left right span =>
      exact binary op left right span (part _ (by simp; omega)) (part _ (by simp; omega))
    | unary op arg span => exact unary op arg span (part _ (by simp; omega))
    | assign op target value span =>
      exact assign op target value span (part _ (by simp; omega)) (part _ (by simp; omega))
    | cond test cons alt span =>
      exact cond test cons alt span (part _ (by simp; omega)) (part _ (by simp; omega))
        (part _ (by simp; omega))
    | call receiver method args throws span =>
      refine call receiver method args throws span (fun e' he => part e' ?_)
        (listed (by simp; omega))
      subst he
      simp
      omega
    | new cls args throws span => exact new cls args throws span (listed (by simp; omega))
    | newArray elem dims init span =>
      exact newArray elem dims init span (listed (by simp; omega)) (listed (by simp; omega))
    | member object field span => exact member object field span (part _ (by simp; omega))
    | index array offset span =>
      exact index array offset span (part _ (by simp; omega)) (part _ (by simp; omega))
    | cast ty inner span => exact cast ty inner span (part _ (by simp; omega))
    | instanceOf inner ty span => exact instanceOf inner ty span (part _ (by simp; omega))
    | lambda span => exact lambda span
    | paren inner span => exact paren inner span (part _ (by simp; omega))

/-- Induction on statements. -/
@[elab_as_elim]
theorem Stmt.induct {motive : Stmt → Prop}
    (block : ∀ b, (∀ s ∈ b.stmts, motive s) → motive (.block b))
    (expr : ∀ e span, motive (.expr e span))
    (localVar : ∀ decl, motive (.localVar decl))
    (ifStmt : ∀ test cons alt span, motive cons → (∀ s, alt = some s → motive s) →
      motive (.ifStmt test cons alt span))
    (whileStmt : ∀ test body span, motive body → motive (.whileStmt test body span))
    (doWhile : ∀ body test span, motive body → motive (.doWhile body test span))
    (forStmt : ∀ init test update body span, (∀ s ∈ init, motive s) → motive body →
      motive (.forStmt init test update body span))
    (forEach : ∀ var iterable body span, motive body → motive (.forEach var iterable body span))
    (switch : ∀ selector groups span, (∀ group ∈ groups, ∀ s ∈ group.body, motive s) →
      motive (.switch selector groups span))
    (tryStmt : ∀ resources block catches finalizer span, (∀ s ∈ block.stmts, motive s) →
      (∀ clause ∈ catches, ∀ s ∈ clause.body.stmts, motive s) →
      (∀ final, finalizer = some final → ∀ s ∈ final.stmts, motive s) →
      motive (.tryStmt resources block catches finalizer span))
    (labeled : ∀ label body span, motive body → motive (.labeled label body span))
    (breakStmt : ∀ label span, motive (.breakStmt label span))
    (continueStmt : ∀ label span, motive (.continueStmt label span))
    (returnStmt : ∀ arg span, motive (.returnStmt arg span))
    (throwStmt : ∀ arg span, motive (.throwStmt arg span))
    (synchronized : ∀ lock body span, (∀ s ∈ body.stmts, motive s) →
      motive (.synchronized lock body span))
    (assertStmt : ∀ test message span, motive (.assertStmt test message span))
    (localClass : ∀ ident span, motive (.localClass ident span))
    (empty : ∀ span, motive (.empty span))
    (missing : ∀ span, motive (.missing span)) (s : Stmt) : motive s := by
  induction hn : sizeOf s using Nat.strongRecOn generalizing s with
  | ind n ih =>
    subst hn
    have part : ∀ s', sizeOf s' < sizeOf s → motive s' := fun s' hlt => ih _ hlt s' rfl
    have listed : ∀ {ss : List Stmt}, sizeOf ss < sizeOf s → ∀ s' ∈ ss, motive s' :=
      fun hlt s' hm => part s' (Nat.lt_trans (List.sizeOf_lt_of_mem hm) hlt)
    cases s with
    | block b =>
      cases b
      exact block _ (listed (by simp; omega))
    | expr e span => exact expr e span
    | localVar decl => exact localVar decl
    | ifStmt test cons alt span =>
      refine ifStmt test cons alt span (part _ (by simp; omega)) fun s' hs => part s' ?_
      subst hs
      simp
      omega
    | whileStmt test body span => exact whileStmt test body span (part _ (by simp; omega))
    | doWhile body test span => exact doWhile body test span (part _ (by simp; omega))
    | forStmt init test update body span =>
      exact forStmt init test update body span (listed (by simp; omega)) (part _ (by simp; omega))
    | forEach var iterable body span =>
      exact forEach var iterable body span (part _ (by simp; omega))
    | switch selector groups span =>
      refine switch selector groups span fun group hg => listed ?_
      have hlt := List.sizeOf_lt_of_mem hg
      cases group
      simp at hlt ⊢
      omega
    | tryStmt resources body catches finalizer span =>
      refine tryStmt resources body catches finalizer span ?_ (fun clause hc => listed ?_)
        fun final hf => listed ?_
      · cases body
        exact listed (by simp; omega)
      · have hlt := List.sizeOf_lt_of_mem hc
        obtain ⟨_, _, ⟨_, _⟩, _⟩ := clause
        simp at hlt ⊢
        omega
      · subst hf
        cases final
        simp
        omega
    | labeled label body span => exact labeled label body span (part _ (by simp; omega))
    | breakStmt label span => exact breakStmt label span
    | continueStmt label span => exact continueStmt label span
    | returnStmt arg span => exact returnStmt arg span
    | throwStmt arg span => exact throwStmt arg span
    | synchronized lock body span =>
      cases body
      exact synchronized lock _ span (listed (by simp; omega))
    | assertStmt test message span => exact assertStmt test message span
    | localClass ident span => exact localClass ident span
    | empty span => exact empty span
    | missing span => exact missing span

end MethodFlow
