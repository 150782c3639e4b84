import MethodFlow.Proofs.Consistency
import MethodFlow.Proofs.Scripts

/-!
# What follows a jump in the text

A jump waits in `dangling` until the block that follows it in the text is known. A draft is *prompt*
if at most one jump waits, and none while a block is open. Blocks are opened by `ensureOpen` and
`continueAt`, which tell the waiting jump about them, and by `start`, which does not: it has to come
when no jump waits. Every statement leaves a prompt draft prompt, and so all drafts that a body
leads through are prompt (`Graph.prompt_of_passed`), also if the drawing fails in the end.

`Noted` says which blocks know what follows them: of the blocks that ended with the place of a jump
statement, all but those that still wait. In the end none waits. Main result:
`Graph.build_lexicalNext`.
-/

namespace MethodFlow

namespace Draft

/-- At most one jump waits for the block that follows it, and none while a block is open. -/
structure Prompt (d : Draft) : Prop where
  at_most_one : d.dangling.length ≤ 1
  none_while_open : d.current ≠ none → d.dangling = []

/-- No jump waits. -/
def Clear (d : Draft) : Prop := d.dangling = []

/-- No jump waits, and no block is open. -/
def Idle (d : Draft) : Prop := d.current = none ∧ d.dangling = []

theorem Clear.prompt {d : Draft} (h : d.Clear) : d.Prompt :=
  ⟨Nat.le_trans (Nat.le_of_eq (congrArg List.length h)) (Nat.zero_le 1), fun _ => h⟩

theorem Idle.prompt {d : Draft} (h : d.Idle) : d.Prompt := Clear.prompt h.2

/-- Promptness reads the open block and the dangling blocks only. -/
theorem Prompt.congr {d d' : Draft} (h : d.Prompt) (hcurrent : d'.current = d.current)
    (hdangling : d'.dangling = d.dangling) : d'.Prompt :=
  ⟨hdangling ▸ h.at_most_one, fun hopen => hdangling.trans (h.none_while_open (hcurrent ▸ hopen))⟩

/-- A change that has nothing to do with open blocks and waiting jumps. -/
def Change.isQuiet : Change → Bool
  | enter _ | dangle _ | resolve _ => false
  | _ => true

/-- Quiet changes touch neither the open block nor the dangling ones. -/
theorem Change.apply_of_isQuiet {c : Change} (h : c.isQuiet = true) (d : Draft) :
    (c.apply d).current = d.current ∧ (c.apply d).dangling = d.dangling := by
  cases c with
  | enter | dangle | resolve => exact nomatch h
  | create | modify | resume | report => exact ⟨rfl, rfl⟩
  | mark =>
    rw [apply, endCaseGroup, modifyAll_eq]
    exact ⟨rfl, rfl⟩
  | close id t edges span =>
    rw [apply, Draft.close]
    split <;> exact ⟨rfl, rfl⟩

end Draft

/-! ## Operations -/

namespace Script

open Draft (Prompt Clear Idle)

variable {α β : Type}

/-- The script leads from prompt drafts through prompt drafts to prompt drafts. -/
abbrev StaysPrompt (s : Script α) : Prop := Keeps Prompt Prompt s Prompt

/-- The script leads from prompt drafts through prompt drafts to one where no jump waits. -/
abbrev GetsClear (s : Script α) : Prop := Keeps Prompt Prompt s Clear

/-- A script after which no jump waits stays prompt. -/
theorem Keeps.staysPrompt {s : Script α} (h : GetsClear s) : StaysPrompt s :=
  h.mono (fun _ h => h) fun _ => Clear.prompt

section Changes

variable {c : Draft.Change} {P Q : Draft → Prop}

theorem keeps_change (hP : ∀ {d}, P d → d.Prompt) (hQ : ∀ {d}, Q d → d.Prompt)
    (h : ∀ d, P d → Q (c.apply d)) : Keeps Prompt P (change c) Q :=
  .change fun d hd => ⟨hP hd, hQ (h d hd), h d hd⟩

theorem prompt_quiet (hc : c.isQuiet = true) : StaysPrompt (change c) :=
  keeps_change id id fun d hd => hd.congr (c.apply_of_isQuiet hc d).1 (c.apply_of_isQuiet hc d).2

theorem clear_quiet (hc : c.isQuiet = true) : Keeps Prompt Clear (change c) Clear :=
  keeps_change Clear.prompt Clear.prompt fun d hd => (c.apply_of_isQuiet hc d).2.trans hd

theorem idle_quiet (hc : c.isQuiet = true) : Keeps Prompt Idle (change c) Idle :=
  keeps_change Idle.prompt Idle.prompt fun d hd =>
    ⟨(c.apply_of_isQuiet hc d).1.trans hd.1, (c.apply_of_isQuiet hc d).2.trans hd.2⟩

theorem clear_resolve (next : BlockId) : GetsClear (change (.resolve next)) :=
  keeps_change id Clear.prompt fun _ _ => rfl

theorem clear_enter (block : Option BlockId) : Keeps Prompt Clear (change (.enter block)) Clear :=
  keeps_change Clear.prompt Clear.prompt fun _ hd => hd

theorem prompt_leave : StaysPrompt (change (.enter none)) :=
  keeps_change id id fun _ hd => ⟨hd.at_most_one, fun h => absurd rfl h⟩

theorem idle_leave : Keeps Prompt Clear (change (.enter none)) Idle :=
  keeps_change Clear.prompt Idle.prompt fun _ hd => ⟨rfl, hd⟩

/-- A jump may start to wait when no other does and its block is no longer open. -/
theorem prompt_dangle (id : BlockId) : Keeps Prompt Idle (change (.dangle id)) Prompt := by
  refine keeps_change Idle.prompt (fun h => h) fun d hd => ⟨?_, fun hopen => absurd hd.1 hopen⟩
  change (d.dangling ++ [id]).length ≤ 1
  rw [hd.2]
  exact Nat.le_refl 1

end Changes

theorem prompt_pure (a : α) : StaysPrompt (pure a) := .pure (fun _ h => h) a

theorem prompt_lift (x : Except BuildFailure α) : StaysPrompt (lift x) := .lift (fun _ h => h) x

theorem prompt_fresh : StaysPrompt fresh := .fresh fun _ h => h

theorem prompt_onlyIf (c : Bool) {s : Script Unit} (h : StaysPrompt s) : StaysPrompt (onlyIf c s) :=
  h.onlyIf (fun _ h => h) c

theorem prompt_elim (o : Option β) {s : β → Script Unit} (h : ∀ x, StaysPrompt (s x)) :
    StaysPrompt (o.elim (pure ()) s) := by
  cases o with
  | none => exact prompt_pure ()
  | some x => exact h x

theorem prompt_create (kind : BlockKind) (span : Option Span) : StaysPrompt (create kind span) :=
    prompt_quiet rfl

/-- The block that is opened here follows the jump that waits. -/
theorem clear_ensureOpen : GetsClear ensureOpen := by
  refine .draft_bind fun d hd => ?_
  cases h : d.current with
  | none =>
    have hnew :
        GetsClear
          (do create .normal none; change (.resolve d.fresh); change (.enter (some d.fresh))) :=
      (prompt_create _ _).seq ((clear_resolve _).seq (clear_enter _))
    exact hnew.mono (fun _ he => he ▸ hd) fun _ h => h
  | some id =>
    -- Nothing is done here; a block is open, so no jump waits already.
    have hclear : d.Clear := hd.none_while_open (h ▸ Option.some_ne_none id)
    exact (Keeps.pure (fun _ => Clear.prompt) ()).mono (fun _ he => he ▸ hclear) fun _ h => h

/-- Ending a block leaves a draft idle. -/
theorem idle_terminate (t : Terminator) (edges : List Edge) (span : Option Span) :
    Keeps Prompt Prompt (terminate t edges span) Idle :=
  .read fun _ => clear_ensureOpen.seq (idle_leave.seq (idle_quiet rfl))

theorem clear_terminate (t : Terminator) (edges : List Edge) (span : Option Span) :
    GetsClear (terminate t edges span) :=
  (idle_terminate t edges span).mono (fun _ h => h) fun _ h => h.2

theorem clear_branch (onTrue onFalse : BlockId) (span : Span) :
    GetsClear (branch onTrue onFalse span) :=
  clear_terminate _ _ _

theorem prompt_closeOpen (t : Terminator) (edges : List Edge) : StaysPrompt (closeOpen t edges) :=
  .whenOpen (fun _ h => h) fun _ => prompt_leave.seq (prompt_quiet rfl)

theorem clear_fallInto (next : BlockId) : GetsClear (fallInto next) :=
  (prompt_closeOpen _ _).seq (clear_resolve next)

theorem clear_goto (kind : EdgeKind) (target : BlockId) : GetsClear (goto kind target) :=
  (prompt_closeOpen _ _).seq (clear_resolve target)

theorem clear_leaveArrowGroup (after : BlockId) : GetsClear (leaveArrowGroup after) :=
  (prompt_closeOpen _ _).seq (clear_resolve after)

/-- The block that is opened here follows no jump, so none may wait. -/
theorem prompt_start (id : BlockId) : Keeps Prompt Clear (start id) Prompt :=
  ((Keeps.whenOpen (fun _ => Clear.prompt) fun _ => clear_quiet rfl).seq (clear_enter _)).mono
    (fun _ h => h) fun _ => Clear.prompt

theorem prompt_continueAt (next : BlockId) : StaysPrompt (continueAt next) :=
  Keeps.staysPrompt ((clear_fallInto next).seq (clear_enter _))

theorem prompt_emit (kind : ElementKind) (span : Span) : StaysPrompt (emit kind span) :=
  Keeps.staysPrompt (.read fun _ => clear_ensureOpen.seq (clear_quiet rfl))

theorem prompt_link (edges : List Edge) : StaysPrompt (link edges) :=
    .read fun _ => prompt_quiet rfl

theorem prompt_raise (scope : Scope) (declared : List TypeName) :
    StaysPrompt (raise scope declared) :=
  (prompt_link _).seq (prompt_quiet rfl)

theorem prompt_jump (t : Terminator) (edges : List Edge) (span : Span) :
    StaysPrompt (jump t edges span) :=
  .read fun _ => (idle_terminate _ _ _).seq (prompt_dangle _)

/-- A jump is the only one to wait after it. -/
theorem prompt_jumpVia (t : Terminator) (route : JumpRoute) (span : Span) :
    StaysPrompt (jumpVia t route span) :=
  (prompt_jump _ _ _).seq (prompt_quiet rfl)

theorem clear_leaveRegion (finalizer : Option BlockId) (after : BlockId) :
    GetsClear (leaveRegion finalizer after) := by
  cases finalizer with
  | none => exact clear_fallInto after
  | some entry =>
    have hleft : StaysPrompt (whenOpen fun _ => do
        closeOpen .fallThrough [.sequential entry]
        change (.resume [(entry, .sequential after)])) :=
      .whenOpen (fun _ h => h) fun _ => (prompt_closeOpen _ _).seq (prompt_quiet rfl)
    exact hleft.seq (clear_resolve after)

/-- A `finally` clause is left promptly, whether something resumes it or not. -/
theorem prompt_leaveFinalizer (entry after : BlockId) :
    StaysPrompt (leaveFinalizer entry after) := by
  refine .read fun d => ?_
  cases d.resumptionsOf entry with
  | nil => exact (clear_fallInto after).staysPrompt
  | cons e edges => exact prompt_closeOpen .endFinally (e :: edges)

theorem prompt_createGroups (groups : List CaseGroup) : StaysPrompt (createGroups groups) := by
  induction groups with
  | nil => exact prompt_pure ()
  | cons group groups ih => exact (prompt_create _ _).seq ih

theorem prompt_createClauses (clauses : List CatchClause) :
    StaysPrompt (createClauses clauses) := by
  induction clauses with
  | nil => exact prompt_pure ()
  | cons clause clauses ih =>
    exact prompt_fresh.bind fun _ => (prompt_create _ _).seq ((prompt_quiet rfl).seq ih)

end Script

/-! ## Expressions and statements -/

section Expressions

open Script

variable (scope : Scope)

theorem Expr.prompt_scriptOption {o : Option Expr}
    (h : ∀ e, o = some e → StaysPrompt (e.script scope)) :
    StaysPrompt (Expr.scriptOption scope o) := by
  cases o with
  | none =>
    rw [Expr.scriptOption]
    exact prompt_pure ()
  | some e =>
    rw [Expr.scriptOption]
    exact h e rfl

theorem Expr.prompt_scriptAll {es : List Expr} (h : ∀ e ∈ es, StaysPrompt (e.script scope)) :
    StaysPrompt (Expr.scriptAll scope es) := by
  induction es with
  | nil =>
    rw [Expr.scriptAll]
    exact prompt_pure ()
  | cons e es ih =>
    rw [Expr.scriptAll]
    exact (h e List.mem_cons_self).seq (ih fun e' he => h e' (List.mem_cons_of_mem _ he))

/-- An element that may raise an exception. -/
theorem Script.prompt_emit_raise (kind : ElementKind) (span : Span) (declared : List TypeName) :
    StaysPrompt (do emit kind span; raise scope declared) :=
  (prompt_emit kind span).seq (prompt_raise scope declared)

/-- Drawing an expression stays prompt, by induction on the expression. -/
theorem Expr.prompt_script (e : Expr) : StaysPrompt (e.script scope) := by
  induction e using Expr.induct with
  | name | this | literal | lambda =>
    rw [Expr.script]
    exact prompt_emit _ _
  | binary op left right span ihl ihr =>
    rw [Expr.script]
    exact ihl.seq (ihr.seq ((prompt_emit _ _).seq (prompt_onlyIf _ (prompt_raise _ _))))
  | unary op arg span ih | instanceOf e ty span ih =>
    rw [Expr.script]
    exact ih.seq (prompt_emit _ _)
  | assign op target value span iht ihv =>
    rw [Expr.script]
    exact (prompt_onlyIf _ iht).seq
      (ihv.seq ((prompt_emit _ _).seq (prompt_onlyIf _ (prompt_raise _ _))))
  | cond test cons alt span iht ihc iha =>
    rw [Expr.script]
    exact iht.seq <| prompt_fresh.bind fun onTrue => (prompt_create _ _).seq <|
      (prompt_create _ _).seq <| (prompt_create _ _).seq <| (clear_branch _ _ _).seq <|
      (prompt_start _).seq <| ihc.seq <| (clear_fallInto _).seq <| (prompt_start _).seq <|
        iha.seq <| (clear_fallInto _).seq <| prompt_start _
  | call receiver method args throws span ihr iha =>
    rw [Expr.script]
    exact (Expr.prompt_scriptOption scope ihr).seq
      ((Expr.prompt_scriptAll scope iha).seq (prompt_emit_raise _ _ _ _))
  | new cls args throws span ih =>
    rw [Expr.script]
    exact (Expr.prompt_scriptAll scope ih).seq (prompt_emit_raise _ _ _ _)
  | newArray elem dims init span ihd ihi =>
    rw [Expr.script]
    exact (Expr.prompt_scriptAll scope ihd).seq
      ((Expr.prompt_scriptAll scope ihi).seq (prompt_emit_raise _ _ _ _))
  | member object field span ih | cast ty e span ih =>
    rw [Expr.script]
    exact ih.seq (prompt_emit_raise _ _ _ _)
  | index array offset span iha iho =>
    rw [Expr.script]
    exact iha.seq (iho.seq (prompt_emit_raise _ _ _ _))
  | paren e span ih =>
    rw [Expr.script]
    exact ih

theorem LocalVar.prompt_script (decl : LocalVar) : StaysPrompt (decl.script scope) :=
  (Expr.prompt_scriptOption scope fun e _ => e.prompt_script scope).seq (prompt_emit _ _)

theorem LocalVar.prompt_scriptResources (decls : List LocalVar) :
    StaysPrompt (LocalVar.scriptResources scope decls) := by
  induction decls with
  | nil => exact prompt_pure ()
  | cons decl decls ih => exact (decl.prompt_script scope).seq ((prompt_raise _ _).seq ih)

end Expressions

section Statements

open Script
open Draft (Prompt Clear)

/-- Drawing the statement keeps drafts prompt, in every scope. -/
def Stmt.IsPrompt (s : Stmt) : Prop := ∀ scope labels, StaysPrompt (s.script scope labels)

variable (scope : Scope)

/-- Statements drawn one after another stay prompt. -/
theorem Stmt.prompt_scriptAll {stmts : List Stmt} (h : ∀ s ∈ stmts, s.IsPrompt) :
    StaysPrompt (Stmt.scriptAll stmts scope) := by
  induction stmts with
  | nil =>
    rw [Stmt.scriptAll]
    exact prompt_pure ()
  | cons s stmts ih =>
    rw [Stmt.scriptAll]
    exact (h s List.mem_cons_self scope []).seq (ih fun s' hs => h s' (List.mem_cons_of_mem _ hs))

theorem Stmt.prompt_scriptElse {alt : Option Stmt} (h : ∀ s, alt = some s → s.IsPrompt)
    (join : BlockId) :
    StaysPrompt (Stmt.scriptElse alt scope join) := by
  cases alt with
  | none =>
    rw [Stmt.scriptElse]
    exact prompt_pure ()
  | some s =>
    rw [Stmt.scriptElse]
    exact (clear_goto _ _).seq ((prompt_start _).seq (h s rfl scope []))

theorem CaseGroup.prompt_scriptAll {groups : List CaseGroup}
    (h : ∀ group ∈ groups, ∀ s ∈ group.body, s.IsPrompt) (block after : BlockId) :
      StaysPrompt (CaseGroup.scriptAll groups scope block after) := by
  induction groups generalizing block with
  | nil =>
    rw [CaseGroup.scriptAll]
    exact prompt_pure ()
  | cons group groups ih =>
    have hbody := h group List.mem_cons_self
    obtain ⟨_, body, arrow, _⟩ := group
    have hend : StaysPrompt (bif arrow then leaveArrowGroup after else change .mark) := by
      -- A group that runs on leaves the jump at its end waiting: the next group follows it.
      cases arrow with
      | true => exact (clear_leaveArrowGroup after).staysPrompt
      | false => exact prompt_quiet rfl
    rw [CaseGroup.scriptAll]
    exact (prompt_continueAt _).seq <| (Stmt.prompt_scriptAll scope hbody).seq <| hend.seq <|
      ih (fun group hg => h group (List.mem_cons_of_mem _ hg)) _

/-- A catch clause is started, so no jump may wait before it, and none does after it. -/
theorem CatchClause.clear_scriptAll {clauses : List CatchClause}
    (h : ∀ clause ∈ clauses, ∀ s ∈ clause.body.stmts, s.IsPrompt) (finalizer : Option BlockId)
    (entry after : BlockId) :
    Keeps Prompt Clear (CatchClause.scriptAll clauses scope finalizer entry after) Clear := by
  induction clauses generalizing entry with
  | nil =>
    rw [CatchClause.scriptAll]
    exact .pure (fun _ => Clear.prompt) ()
  | cons clause clauses ih =>
    have hbody := h clause List.mem_cons_self
    obtain ⟨_, _, ⟨stmts, _⟩, _⟩ := clause
    rw [CatchClause.scriptAll]
    exact (prompt_start _).seq <| (Stmt.prompt_scriptAll scope hbody).seq <|
      (clear_leaveRegion _ _).seq <| ih (fun clause hc => h clause (List.mem_cons_of_mem _ hc)) _

/-- A `finally` clause stays prompt when no jump waits before it. -/
theorem Block.prompt_scriptFinalizer {finalizer : Option Block}
    (h : ∀ final, finalizer = some final → ∀ s ∈ final.stmts, s.IsPrompt) (after : BlockId) :
    Keeps Prompt Clear (Block.scriptFinalizer finalizer scope after) Prompt := by
  cases finalizer with
  | none =>
    rw [Block.scriptFinalizer]
    exact (prompt_pure ()).mono (fun _ => Clear.prompt) fun _ h => h
  | some final =>
    have hbody := h final rfl
    cases final
    rw [Block.scriptFinalizer]
    exact (prompt_start _).seq ((Stmt.prompt_scriptAll scope hbody).seq (prompt_leaveFinalizer _ _))

/-- Every statement keeps drafts prompt. Where a block is started, what comes just before leaves no
jump waiting. -/
theorem Stmt.prompt_script (s : Stmt) (labels : List String) :
    StaysPrompt (s.script scope labels) := by
  induction s using Stmt.induct generalizing scope labels with
  | block b ih =>
    cases b
    rw [Stmt.script]
    exact Stmt.prompt_scriptAll scope ih
  | expr e span =>
    rw [Stmt.script]
    exact e.prompt_script scope
  | localVar decl =>
    rw [Stmt.script]
    exact decl.prompt_script scope
  | ifStmt test cons alt span ihc iha =>
    rw [Stmt.script]
    exact (test.prompt_script scope).seq <| prompt_fresh.bind fun onTrue =>
      (prompt_create _ _).seq <| (prompt_create _ _).seq <|
      (prompt_elim alt fun _ => prompt_create _ _).seq <| (clear_branch _ _ _).seq <|
      (prompt_start _).seq <| (ihc _ _).seq <| (Stmt.prompt_scriptElse scope iha _).seq <|
      (clear_fallInto _).seq <| prompt_start _
  | whileStmt test body span ih =>
    rw [Stmt.script]
    exact prompt_fresh.bind fun header => (prompt_create _ _).seq <| (prompt_continueAt _).seq <|
      (test.prompt_script scope).seq <| prompt_fresh.bind fun inner => (prompt_create _ _).seq <|
      (prompt_create _ _).seq <| (clear_branch _ _ _).seq <| (prompt_start _).seq <| (ih _ _).seq <|
      (clear_goto _ _).seq <| prompt_start _
  | doWhile body test span ih =>
    rw [Stmt.script]
    exact prompt_fresh.bind fun header => (prompt_create _ _).seq <| (prompt_create _ _).seq <|
      (prompt_create _ _).seq <| (prompt_continueAt _).seq <| (ih _ _).seq <|
      (prompt_continueAt _).seq <| (test.prompt_script scope).seq <| (clear_branch _ _ _).seq <|
        prompt_start _
  | forStmt init test update body span ihi ih =>
    have htest : ∀ header,
      GetsClear (test.elim (terminate (.jump (header + 1)) [.sequential (header + 1)] none)
        fun test => do
          test.script scope
          branch (header + 1) (header + 2) test.span) := by
      intro header
      cases test with
      | none => exact clear_terminate _ _ _
      | some test => exact (test.prompt_script scope).seq (clear_branch _ _ _)
    have hupdate : StaysPrompt (Expr.scriptAll scope update) :=
      Expr.prompt_scriptAll scope fun e _ => e.prompt_script scope
    rw [Stmt.script]
    exact (Stmt.prompt_scriptAll scope ihi).seq <| prompt_fresh.bind fun header =>
      (prompt_create _ _).seq <| (prompt_continueAt _).seq <| (prompt_create _ _).seq <|
      (prompt_create _ _).seq <| (prompt_onlyIf _ (prompt_create _ _)).seq <| (htest header).seq <|
      (prompt_start _).seq <| (ih _ _).seq <|
      (prompt_onlyIf _ ((clear_goto _ _).seq ((prompt_start _).seq hupdate))).seq <|
      (clear_goto _ _).seq <| prompt_start _
  | forEach var iterable body span ih =>
    rw [Stmt.script]
    exact (iterable.prompt_script scope).seq <| prompt_fresh.bind fun header =>
      (prompt_create _ _).seq <| (prompt_continueAt _).seq <| (prompt_create _ _).seq <|
      (prompt_create _ _).seq <| (clear_branch _ _ _).seq <| (prompt_start _).seq <|
      (prompt_emit _ _).seq <| (ih _ _).seq <| (clear_goto _ _).seq <| prompt_start _
  | switch selector groups span ih =>
    rw [Stmt.script]
    exact (selector.prompt_script scope).seq <| prompt_fresh.bind fun after =>
      (prompt_create _ _).seq <| (prompt_createGroups groups).seq <|
      (clear_terminate _ _ _).staysPrompt.seq <| (CaseGroup.prompt_scriptAll _ ih _ _).seq <|
        prompt_continueAt _
  | tryStmt resources block catches finalizer span ihb ihc ihf =>
    cases block
    rw [Stmt.script]
    -- Whether there is a `finally` clause or not, `leaveRegion` tells the waiting jump that the
    -- block after the whole statement follows it. So the clauses may be started.
    exact prompt_fresh.bind fun after => (prompt_create _ _).seq <|
      (prompt_elim finalizer fun _ => prompt_create _ _).seq <|
      (prompt_createClauses catches).seq <| (prompt_create _ _).seq <| (prompt_continueAt _).seq <|
      (prompt_link _).seq <| (LocalVar.prompt_scriptResources _ resources).seq <|
      (Stmt.prompt_scriptAll _ ihb).seq <| (clear_leaveRegion _ _).seq <|
      (CatchClause.clear_scriptAll _ ihc _ _ _).seq <|
      (Block.prompt_scriptFinalizer scope ihf _).seq <| prompt_continueAt _
  | labeled label body span ih =>
    rw [Stmt.script]
    split
    · exact prompt_lift _
    · split
      · exact ih _ _
      · exact prompt_fresh.bind fun after =>
          (prompt_create _ _).seq ((ih _ _).seq (prompt_continueAt _))
  | breakStmt label span | continueStmt label span =>
    rw [Stmt.script]
    exact (prompt_lift _).bind fun _ => prompt_jumpVia _ _ _
  | returnStmt arg span =>
    rw [Stmt.script]
    exact (Expr.prompt_scriptOption scope fun e _ => e.prompt_script scope).seq
      (prompt_jumpVia _ _ _)
  | throwStmt arg span =>
    rw [Stmt.script]
    exact (arg.prompt_script scope).seq ((prompt_jump _ _ _).seq (prompt_quiet rfl))
  | synchronized lock body span ih =>
    cases body
    rw [Stmt.script]
    exact (lock.prompt_script scope).seq ((prompt_emit _ _).seq (Stmt.prompt_scriptAll scope ih))
  | assertStmt | empty =>
    rw [Stmt.script]
    exact prompt_pure ()
  | localClass ident span =>
    rw [Stmt.script]
    exact prompt_emit _ _
  | missing span =>
    rw [Stmt.script]
    exact prompt_lift _

/-- At every point of the drawing of a body the draft is prompt. -/
theorem Graph.prompt_of_passed {types : Subtyping} {body : Block} {d : Draft}
    (h : d ∈ (Graph.script types body).passed .initial) : d.Prompt := by
  have hscript : StaysPrompt (Graph.script types body) :=
    (prompt_quiet rfl).seq <|
    (Stmt.prompt_scriptAll _ fun s _ scope => s.prompt_script scope).seq
    (clear_fallInto _).staysPrompt
  have hinitial : Draft.initial.Clear := rfl
  exact (hscript _ hinitial.prompt).1 d h

end Statements

/-! ## Blocks that know what follows them -/

namespace BasicBlock

/-- Whether a jump statement ended the block. An arrow group may end its block by a `break` that
stands nowhere. -/
def endsInJump (b : BasicBlock) : Bool := b.terminator.isJump && b.terminatorSpan.isSome

/-- Whether a jump statement ended the block, and what follows it. -/
def note (b : BasicBlock) : Bool × Option BlockId := (b.endsInJump, b.lexicalNext)

end BasicBlock

namespace Draft

/-- A change that can be repeated without effect, made to several blocks. -/
theorem block?_modifyAll (d : Draft) (ids : List BlockId) {f : BasicBlock → BasicBlock}
    (hf : ∀ b, f (f b) = f b) (id : BlockId) :
    (d.modifyAll ids f).graph.block? id = if id ∈ ids then (d.graph.block? id).map f
      else d.graph.block? id := by
  unfold modifyAll
  induction ids generalizing d with
  | nil => rfl
  | cons i ids ih =>
    rw [List.foldl_cons, ih, block?_modify]
    by_cases hi : i = id
    · subst hi
      rw [if_pos rfl, if_pos List.mem_cons_self, Option.map_map]
      split
      · exact congrArg (fun g => (d.graph.block? i).map g) (funext hf)
      · rfl
    · simp only [if_neg hi, List.mem_cons, Ne.symm hi, false_or]

/-- Resolving notes the next block in the blocks that wait for it and nowhere else. -/
theorem block?_resolveDangling (d : Draft) (next id : BlockId) :
    (d.resolveDangling next).graph.block? id =
      if id ∈ d.dangling then (d.graph.block? id).map fun b => { b with lexicalNext := some next }
      else d.graph.block? id :=
  d.block?_modifyAll d.dangling (f := fun b => { b with lexicalNext := some next })
    (fun _ => rfl) id

/-- Of the blocks that a jump statement ended, those that do not wait know what follows them, and no
others do. -/
structure Noted (d : Draft) : Prop where
  dangling_closed : ∀ id ∈ d.dangling, id ∈ d.closed
  unclosed : ∀ id b, d.graph.block? id = some b → id ∉ d.closed → b.endsInJump = false
  noted : ∀ id b, d.graph.block? id = some b →
    (b.endsInJump = true ↔ b.lexicalNext.isSome = true ∨ id ∈ d.dangling)
  next_lt : ∀ id b, d.graph.block? id = some b → ∀ next, b.lexicalNext = some next → next < d.fresh

namespace Noted

variable {d d' : Draft}

/-- Only the notes of the blocks count. -/
theorem of_notes (h : d.Noted) (hfresh : d'.fresh = d.fresh) (hclosed : d'.closed = d.closed)
    (hdangling : d'.dangling = d.dangling)
    (hnotes : ∀ id b', d'.graph.block? id = some b' → ∃ b, d.graph.block? id = some b ∧
      b'.note = b.note) :
    d'.Noted := by
  constructor
  · rw [hclosed, hdangling]
    exact h.dangling_closed
  · intro id b' hb' hid
    obtain ⟨b, hb, hnote⟩ := hnotes id b' hb'
    exact (congrArg Prod.fst hnote).trans (h.unclosed id b hb (hclosed ▸ hid))
  · intro id b' hb'
    obtain ⟨b, hb, hnote⟩ := hnotes id b' hb'
    rw [hdangling, show b'.endsInJump = b.endsInJump from congrArg Prod.fst hnote,
      show b'.lexicalNext = b.lexicalNext from congrArg Prod.snd hnote]
    exact h.noted id b hb
  · intro id b' hb' next hnext
    obtain ⟨b, hb, hnote⟩ := hnotes id b' hb'
    rw [hfresh]
    exact h.next_lt id b hb next ((congrArg Prod.snd hnote).symm.trans hnext)

theorem modify (h : d.Noted) (id : BlockId) {f : BasicBlock → BasicBlock}
    (hf : ∀ b, (f b).note = b.note) :
    (d.modify id f).Noted := by
  refine h.of_notes (d.fresh_modify id f) rfl rfl fun i b' hb' => ?_
  rw [block?_modify] at hb'
  split at hb'
  · obtain ⟨b, hb, rfl⟩ := Option.map_eq_some_iff.mp hb'
    exact ⟨b, hb, hf b⟩
  · exact ⟨b', hb', rfl⟩

theorem modifyAll (h : d.Noted) (ids : List BlockId) {f : BasicBlock → BasicBlock}
    (hf : ∀ b, (f b).note = b.note) :
    (d.modifyAll ids f).Noted := by
  unfold Draft.modifyAll
  induction ids generalizing d with
  | nil => exact h
  | cons id ids ih => exact ih (h.modify id hf)

theorem add (h : d.Noted) (hd : d.Steady) (kind : BlockKind) (elements : List Element)
    (span : Option Span) :
    (d.add { kind, elements, span }).Noted := by
  have hblock : ∀ id b, (d.add { kind, elements, span }).graph.block? id = some b →
      d.graph.block? id = some b ∨ id = d.fresh ∧ b = { kind, elements, span } := by
    intro id b hb
    rw [block?_add] at hb
    split at hb
    · exact Or.inr ⟨‹_›, (Option.some.inj hb).symm⟩
    · exact Or.inl hb
  constructor
  · exact h.dangling_closed
  · intro id b hb hid
    rcases hblock id b hb with hb | ⟨_, rfl⟩
    · exact h.unclosed id b hb hid
    · rfl
  · intro id b hb
    rcases hblock id b hb with hb | ⟨rfl, rfl⟩
    · exact h.noted id b hb
    · refine ⟨nofun, ?_⟩
      rintro (hnext | hid)
      · exact nomatch hnext
      · exact absurd (hd.closed_lt _ (h.dangling_closed _ hid)) (Nat.lt_irrefl _)
  · intro id b hb next hnext
    rcases hblock id b hb with hb | ⟨_, rfl⟩
    · rw [fresh_add]
      exact Nat.lt_succ_of_lt (h.next_lt id b hb next hnext)
    · exact nomatch hnext

/-- The open block is closed, and waits from now on if a jump statement has closed it. -/
theorem sealed (h : d.Noted) (hd : d.Steady) {id : BlockId} (isOpen : d.current = some id)
    {t : Terminator} (edges : List Edge) {span : Option Span} {waiting : List BlockId}
    (hwaiting : ∀ i, i ∈ waiting ↔ i ∈ d.dangling ∨ i = id ∧ (t.isJump && span.isSome) = true) :
    Noted { d.sealed id t edges span with dangling := waiting } := by
  have hopen := hd.current_open id isOpen
  -- Every block but the one that is closed is as it was.
  have hblock : ∀ i b, (d.sealed id t edges span).graph.block? i = some b →
      (i ≠ id ∧ d.graph.block? i = some b) ∨
        (i = id ∧ ∃ b₀, d.graph.block? id = some b₀ ∧ b = endBlock t edges span b₀) := by
    intro i b hb
    rw [block?_sealed] at hb
    split at hb
    · rename_i heq
      subst heq
      obtain ⟨b₀, hb₀, rfl⟩ := Option.map_eq_some_iff.mp hb
      exact Or.inr ⟨rfl, b₀, hb₀, rfl⟩
    · exact Or.inl ⟨Ne.symm ‹_›, hb⟩
  constructor
  · intro i hi
    rcases (hwaiting i).mp hi with hi | ⟨rfl, _⟩
    · exact List.mem_cons_of_mem _ (h.dangling_closed i hi)
    · exact List.mem_cons_self
  · intro i b hb hi
    rcases hblock i b hb with ⟨_, hb⟩ | ⟨rfl, _⟩
    · exact h.unclosed i b hb fun hc => hi (List.mem_cons_of_mem _ hc)
    · exact absurd List.mem_cons_self hi
  · intro i b hb
    change _ ↔ _ ∨ i ∈ waiting
    rw [hwaiting]
    rcases hblock i b hb with ⟨hne, hb⟩ | ⟨rfl, b₀, hb₀, rfl⟩
    · rw [h.noted i b hb]
      exact or_congr_right ⟨Or.inl, fun hi => hi.resolve_right fun hc => hne hc.1⟩
    · -- An open block is not waiting, and it does not know yet what follows it.
      have hnot : ¬ (b₀.lexicalNext.isSome = true ∨ i ∈ d.dangling) := by
        rw [← h.noted i b₀ hb₀, h.unclosed i b₀ hb₀ hopen]
        exact Bool.false_ne_true
      constructor
      · exact fun hjump => Or.inr (Or.inr ⟨rfl, hjump⟩)
      · rintro (hnext | hi | ⟨_, hjump⟩)
        · exact absurd (Or.inl hnext) hnot
        · exact absurd (Or.inr hi) hnot
        · exact hjump
  · intro i b hb next hnext
    change next < (d.sealed id t edges span).fresh
    rw [fresh_sealed]
    rcases hblock i b hb with ⟨_, hb⟩ | ⟨_, b₀, hb₀, rfl⟩
    · exact h.next_lt i b hb next hnext
    · exact h.next_lt id b₀ hb₀ next hnext

/-- The jumps that wait are told what follows them. -/
theorem resolve (h : d.Noted) {next : BlockId} (isBlock : next < d.fresh) :
    (d.resolveDangling next).Noted := by
  have hblock : ∀ id b, (d.resolveDangling next).graph.block? id = some b →
    ∃ b₀, d.graph.block? id = some b₀ ∧
      b.endsInJump = b₀.endsInJump ∧ b.lexicalNext = if id ∈ d.dangling then some next
        else b₀.lexicalNext := by
    intro id b hb
    rw [block?_resolveDangling] at hb
    split at hb
    · rename_i hid
      obtain ⟨b₀, hb₀, rfl⟩ := Option.map_eq_some_iff.mp hb
      exact ⟨b₀, hb₀, rfl, (if_pos hid).symm⟩
    · rename_i hid
      exact ⟨b, hb, rfl, (if_neg hid).symm⟩
  constructor
  · exact fun id hid => nomatch hid
  · intro id b hb hid
    obtain ⟨b₀, hb₀, hjump, _⟩ := hblock id b hb
    rw [closed_resolveDangling] at hid
    exact hjump.trans (h.unclosed id b₀ hb₀ hid)
  · intro id b hb
    obtain ⟨b₀, hb₀, hjump, hnext⟩ := hblock id b hb
    rw [hjump, hnext, h.noted id b₀ hb₀]
    by_cases hid : id ∈ d.dangling
    · simp [hid]
    · simp [hid, resolveDangling]
  · intro id b hb next' hnext'
    obtain ⟨b₀, hb₀, _, hnext⟩ := hblock id b hb
    rw [fresh_resolveDangling]
    rw [hnext] at hnext'
    split at hnext'
    · exact Option.some.inj hnext' ▸ isBlock
    · exact h.next_lt id b₀ hb₀ next' hnext'

end Noted

/-- Each move keeps a draft noted. -/
theorem Move.noted {d d' : Draft} (hm : Move d d') (hd : d.Steady) (h : d.Noted) : d'.Noted := by
  cases hm with
  | add kind elements span => exact h.add hd kind elements span
  | emit element isOpen | link isOpen exceptional ahead => exact h.modify _ fun _ => rfl
  | close isOpen ending ahead silent =>
    -- No jump statement: no jump at all, or one without a place in the text.
    refine h.sealed hd isOpen _ fun i => (or_iff_left fun hc => ?_).symm
    rcases silent with hs | hs <;> simp [hs] at hc
  | jump span isOpen isJump ending ahead =>
    refine h.sealed hd isOpen _ fun i => ?_
    simp [isJump]
  | resolve idle isBlock => exact h.resolve isBlock
  | mark => exact h.modifyAll _ fun _ => rfl
  | enter idle waiting => exact h.of_notes rfl rfl rfl fun _ b hb => ⟨b, hb, rfl⟩
  | resume pending ahead => exact h.of_notes rfl rfl rfl fun _ b hb => ⟨b, hb, rfl⟩

/-- Every run of moves keeps a draft noted. -/
theorem Run.noted {d d' : Draft} (hr : Run d d') (hd : d.Steady) (h : d.Noted) : d'.Noted := by
  induction hr with
  | refl => exact h
  | tail hr hm ih => exact hm.noted (hr.steady hd) ih

theorem noted_begun (span : Span) : (begun span).Noted := by
  have hblock : ∀ id b, (begun span).graph.block? id = some b → b.note = (false, none) := by
    intro id b hb
    rcases block?_begun hb with ⟨_, rfl⟩ | ⟨_, rfl⟩ <;> rfl
  constructor
  · exact fun id hid => nomatch hid
  · exact fun id b hb _ => congrArg Prod.fst (hblock id b hb)
  · intro id b hb
    rw [show b.endsInJump = false from congrArg Prod.fst (hblock id b hb),
      show b.lexicalNext = none from congrArg Prod.snd (hblock id b hb)]
    exact ⟨nofun, fun h => h.elim nofun fun hid => nomatch hid⟩
  · intro id b hb next hnext
    exact nomatch (congrArg Prod.snd (hblock id b hb)).symm.trans hnext

end Draft

/-! ## Finished graphs -/

namespace Graph

/-- In a finished draft every jump is noted and none waits. -/
theorem noted_draft {types : Subtyping} {body : Block} {d : Draft} (h : draft types body = .ok d) :
    d.Noted ∧ d.dangling = [] := by
  refine ⟨(draft_settled h).1.noted (Draft.steady_begun _) (Draft.noted_begun _), ?_⟩
  obtain ⟨d₁, _, rfl⟩ := draft_part h
  rfl

/-- Every jump finds out what follows it in the text. Drawing a body is a sequence of single
changes. After each of them, up to the end or the first failure, at most one jump waits, and none
while a block is open. In the finished graph the blocks that know what follows them are those that
end in a jump with its place in the text, and what follows is a block. -/
theorem build_lexicalNext (types : Subtyping) (body : Block) :
    (script types body).run .initial = draft types body ∧
      (∀ d ∈ (script types body).passed .initial,
        d.dangling.length ≤ 1 ∧ (d.current.isSome = true → d.dangling = [])) ∧
      ∀ g, build types body = .ok g → ∀ id b, g.block? id = some b →
        (b.lexicalNext.isSome = true ↔ b.terminator.isJump = true ∧
          b.terminatorSpan.isSome = true) ∧
          ∀ next, b.lexicalNext = some next → next < g.size := by
  refine ⟨run_script types body, fun d hd => ?_, fun g hg id b hb => ?_⟩
  · have hprompt := prompt_of_passed hd
    exact ⟨hprompt.at_most_one,
      fun hopen => hprompt.none_while_open (Option.isSome_iff_ne_none.mp hopen)⟩
  · obtain ⟨d, hd, rfl⟩ := exists_draft hg
    obtain ⟨hnoted, hnone⟩ := noted_draft hd
    have hiff := hnoted.noted id b hb
    -- No jump waits in the end, so all of them know.
    rw [hnone, or_iff_left List.not_mem_nil, BasicBlock.endsInJump, Bool.and_eq_true] at hiff
    exact ⟨hiff.symm, hnoted.next_lt id b hb⟩

/-- An arrow group, left by a `break` that stands nowhere, and a `return` behind the `switch`. -/
def arrowSwitch : Block where
  stmts :=
    [.switch (.name "k" {}) [⟨[.default], [.expr (.name "x" {}) {}], true, {}⟩] {},
      .returnStmt none {}]
  span := {}

/-- Two blocks end in a jump. The one of the `return` waits for a while and then knows the exit, and
the one of the arrow group neither waits nor knows. -/
theorem build_lexicalNext_arrowSwitch :
    ∃ g, build ClassHierarchy.javaLang.subtyping arrowSwitch = .ok g ∧
      (∃ d ∈ (script ClassHierarchy.javaLang.subtyping arrowSwitch).passed .initial,
        d.dangling = [2]) ∧
      (∃ b, g.block? 2 = some b ∧ b.lexicalNext.isSome = true ∧ ∀ next, b.lexicalNext = some next →
        next < g.size) ∧
      ∃ b, g.block? 3 = some b ∧ b.terminator.isJump = true ∧ b.lexicalNext.isSome = false := by
  have hfacts : (build ClassHierarchy.javaLang.subtyping arrowSwitch).toOption.map (fun g =>
      [2, 3].map fun id => (g.block? id).map fun b =>
      (b.terminator.isJump, b.terminatorSpan.isSome)) =
      some [some (true, true), some (true, false)] := by
    decide +kernel
  have hwaits : ((script ClassHierarchy.javaLang.subtyping arrowSwitch).passed .initial).any
      (·.dangling == [2]) = true := by
    decide +kernel
  obtain ⟨d, hd, hdangling⟩ := List.any_eq_true.mp hwaits
  cases hg : build ClassHierarchy.javaLang.subtyping arrowSwitch with
  | error failure =>
    rw [hg] at hfacts
    exact nomatch hfacts
  | ok g =>
    rw [hg] at hfacts
    obtain ⟨h₂, h₃, _⟩ : _ ∧ _ ∧ _ := by
      simpa only [List.map, List.cons.injEq] using Option.some.inj hfacts
    obtain ⟨b₂, hb₂, hj₂⟩ := Option.map_eq_some_iff.mp h₂
    obtain ⟨b₃, hb₃, hj₃⟩ := Option.map_eq_some_iff.mp h₃
    obtain ⟨_, _, hnext⟩ := build_lexicalNext ClassHierarchy.javaLang.subtyping arrowSwitch
    refine ⟨g, rfl, ⟨d, hd, eq_of_beq hdangling⟩, ⟨b₂, hb₂, ?_, (hnext g hg 2 b₂ hb₂).2⟩, b₃,
      hb₃, ?_, ?_⟩
    · exact (hnext g hg 2 b₂ hb₂).1.mpr ⟨congrArg Prod.fst hj₂, congrArg Prod.snd hj₂⟩
    · exact congrArg Prod.fst hj₃
    · refine Bool.eq_false_iff.mpr fun hsome => ?_
      exact nomatch ((hnext g hg 3 b₃ hb₃).1.mp hsome).2.symm.trans (congrArg Prod.snd hj₃)

end Graph

end MethodFlow
