import MethodFlow.Proofs.Induction
import MethodFlow.Proofs.Scoping
import MethodFlow.Proofs.Segments

/-!
# Deleting what follows a jump

What stands after a jump in the same list of statements is never run. `Stmt.prune p` deletes such
tails in all the lists of a statement; the `Pruning` says after which statements a list ends, and
whether the lists inside a `try` block or a catch clause are spared if there is a `finally` clause.

A pruned statement resolves its jumps and labels as before (`Stmt.scopeError?_prune`). A statement
*breaks off* if it is a jump or a block with a statement in it that breaks off, so that nothing
after it is run either. Deleting what follows all such statements leaves nothing of the tails that
any other pruning leaves or deletes (`Stmt.prune_prune`).
-/

namespace MethodFlow

/-! ## Jumps -/

/-- Whether the statement is a jump or a `throw`, so that control never comes to the next one in the
list. -/
def Stmt.leavesList : Stmt → Bool
  | .breakStmt .. | .continueStmt .. | .returnStmt .. | .throwStmt .. => true
  | _ => false

mutual

/-- Whether the statement is a jump or a block in which one comes before its end. -/
@[simp] def Stmt.breaksOff : Stmt → Bool
  | .block ⟨stmts, _⟩ | .synchronized _ ⟨stmts, _⟩ _ => Stmt.breaksOffIn stmts
  | .breakStmt .. | .continueStmt .. | .returnStmt .. | .throwStmt .. => true
  | _ => false

@[simp] def Stmt.breaksOffIn : List Stmt → Bool
  | [] => false
  | stmt :: stmts => stmt.breaksOff || Stmt.breaksOffIn stmts

end

/-- A statement that leaves its list breaks off. -/
theorem Stmt.breaksOff_of_leavesList {s : Stmt} (h : s.leavesList = true) : s.breaksOff = true := by
  cases s with
  | breakStmt | continueStmt | returnStmt | throwStmt => rw [Stmt.breaksOff]
  | _ => exact nomatch h

/-! ## The pruning -/

/-- Which statements are deleted. -/
structure Pruning where
  /-- Whether a list of statements ends with this one. -/
  ends : Stmt → Bool
  /-- Whether nothing is deleted inside a `try` block or a catch clause that a `finally` clause
  follows. -/
  sparesFinally : Bool

namespace Pruning

/-- Deletes what follows a jump, wherever it stands. -/
def everywhere : Pruning := ⟨Stmt.leavesList, false⟩

/-- Deletes what follows a jump, unless the way out leads through a `finally` clause. -/
def outsideFinally : Pruning := ⟨Stmt.leavesList, true⟩

/-- Deletes all that `outsideFinally` deletes, and what follows a block that breaks off. -/
def toTheRoot : Pruning := ⟨Stmt.breaksOff, true⟩

/-- Whether the lists inside a `try` statement are kept whole, if `kept` says so of those around
it. -/
def keeps (p : Pruning) (kept : Bool) (finalizer : Option Block) : Bool :=
  kept || p.sparesFinally && finalizer.isSome

end Pruning

mutual

/-- Deletes the tails of all lists in a statement, except where they are kept whole. -/
@[simp] def Stmt.prune (p : Pruning) (kept : Bool) : Stmt → Stmt
  | .block ⟨stmts, span⟩ => .block ⟨Stmt.pruneIn p kept stmts, span⟩
  | .expr e span => .expr e span
  | .localVar decl => .localVar decl
  | .ifStmt test cons alt span => .ifStmt test (cons.prune p kept) (Stmt.pruneElse p kept alt) span
  | .whileStmt test body span => .whileStmt test (body.prune p kept) span
  | .doWhile body test span => .doWhile (body.prune p kept) test span
  | .forStmt init test update body span =>
    .forStmt (Stmt.pruneIn p kept init) test update (body.prune p kept) span
  | .forEach var iterable body span => .forEach var iterable (body.prune p kept) span
  | .switch selector groups span => .switch selector (CaseGroup.pruneIn p kept groups) span
  | .tryStmt resources ⟨stmts, blockSpan⟩ catches finalizer span =>
    .tryStmt resources ⟨Stmt.pruneIn p (p.keeps kept finalizer) stmts, blockSpan⟩
      (CatchClause.pruneIn p (p.keeps kept finalizer) catches)
      (Block.pruneFinal p kept finalizer) span
  | .labeled label body span => .labeled label (body.prune p kept) span
  | .breakStmt label span => .breakStmt label span
  | .continueStmt label span => .continueStmt label span
  | .returnStmt arg span => .returnStmt arg span
  | .throwStmt arg span => .throwStmt arg span
  | .synchronized lock ⟨stmts, blockSpan⟩ span =>
    .synchronized lock ⟨Stmt.pruneIn p kept stmts, blockSpan⟩ span
  | .assertStmt test message span => .assertStmt test message span
  | .localClass ident span => .localClass ident span
  | .empty span => .empty span
  | .missing span => .missing span

@[simp] def Stmt.pruneIn (p : Pruning) (kept : Bool) : List Stmt → List Stmt
  | [] => []
  | stmt :: stmts =>
    stmt.prune p kept :: if !kept && p.ends stmt then [] else Stmt.pruneIn p kept stmts

@[simp] def Stmt.pruneElse (p : Pruning) (kept : Bool) : Option Stmt → Option Stmt
  | none => none
  | some stmt => some (stmt.prune p kept)

@[simp] def CaseGroup.pruneIn (p : Pruning) (kept : Bool) : List CaseGroup → List CaseGroup
  | [] => []
  | ⟨labels, body, arrow, span⟩ :: groups =>
    ⟨labels, Stmt.pruneIn p kept body, arrow, span⟩ :: CaseGroup.pruneIn p kept groups

@[simp] def CatchClause.pruneIn (p : Pruning) (kept : Bool) : List CatchClause → List CatchClause
  | [] => []
  | ⟨param, types, ⟨stmts, bodySpan⟩, span⟩ :: clauses =>
    ⟨param, types, ⟨Stmt.pruneIn p kept stmts, bodySpan⟩, span⟩ ::
      CatchClause.pruneIn p kept clauses

@[simp] def Block.pruneFinal (p : Pruning) (kept : Bool) : Option Block → Option Block
  | none => none
  | some ⟨stmts, span⟩ => some ⟨Stmt.pruneIn p kept stmts, span⟩

end

/-- Deletes tails in a block. -/
def Block.prune (p : Pruning) (kept : Bool) (block : Block) : Block :=
  { block with stmts := Stmt.pruneIn p kept block.stmts }

def CaseGroup.prune (p : Pruning) (kept : Bool) (group : CaseGroup) : CaseGroup :=
  { group with body := Stmt.pruneIn p kept group.body }

def CatchClause.prune (p : Pruning) (kept : Bool) (clause : CatchClause) : CatchClause :=
  { clause with body := clause.body.prune p kept }

section Equations

variable (p : Pruning) (kept : Bool) (span : Span)

theorem Stmt.pruneElse_eq (alt : Option Stmt) :
    Stmt.pruneElse p kept alt = alt.map (·.prune p kept) := by
  cases alt <;> rw [Stmt.pruneElse] <;> rfl

theorem CaseGroup.pruneIn_eq (groups : List CaseGroup) :
    CaseGroup.pruneIn p kept groups = groups.map (·.prune p kept) := by
  induction groups with
  | nil => rw [CaseGroup.pruneIn, List.map_nil]
  | cons group groups ih =>
    cases group
    rw [CaseGroup.pruneIn, ih, List.map_cons]
    rfl

theorem CatchClause.pruneIn_eq (clauses : List CatchClause) :
    CatchClause.pruneIn p kept clauses = clauses.map (·.prune p kept) := by
  induction clauses with
  | nil => rw [CatchClause.pruneIn, List.map_nil]
  | cons clause clauses ih =>
    obtain ⟨_, _, ⟨_, _⟩, _⟩ := clause
    rw [CatchClause.pruneIn, ih, List.map_cons]
    rfl

theorem Block.pruneFinal_eq (final : Option Block) :
    Block.pruneFinal p kept final = final.map (·.prune p kept) := by
  rcases final with _ | ⟨stmts, span⟩ <;> rw [Block.pruneFinal] <;> rfl

theorem Stmt.prune_block (block : Block) :
    (Stmt.block block).prune p kept = .block (block.prune p kept) := by
  cases block
  rw [Stmt.prune]
  rfl

theorem Stmt.prune_if (test : Expr) (cons : Stmt) (alt : Option Stmt) :
    (Stmt.ifStmt test cons alt span).prune p kept =
      .ifStmt test (cons.prune p kept) (alt.map (·.prune p kept)) span := by
  rw [Stmt.prune, Stmt.pruneElse_eq]

theorem Stmt.prune_switch (selector : Expr) (groups : List CaseGroup) :
    (Stmt.switch selector groups span).prune p kept =
      .switch selector (groups.map (·.prune p kept)) span := by
  rw [Stmt.prune, CaseGroup.pruneIn_eq]

theorem Stmt.prune_try (resources : List LocalVar) (block : Block) (catches : List CatchClause)
    (finalizer : Option Block) :
    (Stmt.tryStmt resources block catches finalizer span).prune p kept =
      .tryStmt resources (block.prune p (p.keeps kept finalizer))
        (catches.map (·.prune p (p.keeps kept finalizer)))
        (finalizer.map (·.prune p kept)) span := by
  cases block
  rw [Stmt.prune, CatchClause.pruneIn_eq, Block.pruneFinal_eq]
  rfl

theorem Stmt.prune_synchronized (lock : Expr) (body : Block) :
    (Stmt.synchronized lock body span).prune p kept =
      .synchronized lock (body.prune p kept) span := by
  cases body
  rw [Stmt.prune]
  rfl

/-- A list that is kept whole, or goes on after its first statement. -/
theorem Stmt.pruneIn_cons_of_not {p : Pruning} {kept : Bool} {stmt : Stmt}
    (h : (!kept && p.ends stmt) = false) (stmts : List Stmt) :
    Stmt.pruneIn p kept (stmt :: stmts) = stmt.prune p kept :: Stmt.pruneIn p kept stmts := by
  rw [Stmt.pruneIn, h, if_neg Bool.false_ne_true]

/-- Nothing is kept after a statement that ends its list. -/
theorem Stmt.pruneIn_cons_of_ends {p : Pruning} {kept : Bool} {stmt : Stmt}
    (h : (!kept && p.ends stmt) = true) (stmts : List Stmt) :
    Stmt.pruneIn p kept (stmt :: stmts) = [stmt.prune p kept] := by
  rw [Stmt.pruneIn, if_pos h]

end Equations

/-! ## What stays as it is -/

section Kept

variable (p : Pruning) (kept : Bool)

@[simp] theorem Stmt.span_prune (s : Stmt) : (s.prune p kept).span = s.span := by
  cases s with
  | block b => simp only [Stmt.prune_block, Stmt.span, Block.prune]
  | tryStmt resources block catches finalizer span => simp only [Stmt.prune_try, Stmt.span]
  | synchronized lock body span => simp only [Stmt.prune_synchronized, Stmt.span]
  | _ => simp only [Stmt.prune, Stmt.span]

@[simp] theorem Stmt.carriesLabels_prune (s : Stmt) :
    (s.prune p kept).carriesLabels = s.carriesLabels := by
  induction s using Stmt.induct with
  | block b ih => simp only [Stmt.prune_block, Stmt.carriesLabels, Stmt.isLoop]
  | tryStmt resources block catches finalizer span =>
    simp only [Stmt.prune_try, Stmt.carriesLabels, Stmt.isLoop]
  | synchronized lock body span =>
    simp only [Stmt.prune_synchronized, Stmt.carriesLabels, Stmt.isLoop]
  | labeled label body span ih => rw [Stmt.prune, Stmt.carriesLabels, Stmt.carriesLabels, ih]
  | _ => simp only [Stmt.prune, Stmt.carriesLabels, Stmt.isLoop]

theorem CaseGroup.keepsHead_prune : CaseGroup.KeepsHead (·.prune p kept) :=
  ⟨fun _ => rfl, fun _ => rfl, fun _ => rfl⟩

theorem CatchClause.keepsHead_prune : CatchClause.KeepsHead (·.prune p kept) :=
  ⟨fun _ => rfl, fun _ => rfl, fun _ => rfl⟩

end Kept

/-! ## Scoping errors -/

section Errors

variable (p : Pruning)

/-- Pruning the statement adds no scoping error. -/
def Stmt.StaysScoped (s : Stmt) : Prop :=
  ∀ (kept : Bool) (around : List Enclosing) (labels : List String),
    s.scopeError? around labels = none → (s.prune p kept).scopeError? around labels = none

variable {p} {around : List Enclosing}

/-- Pruning a list of statements brings in no scope error. -/
theorem Stmt.scopeErrorIn?_pruneIn {stmts : List Stmt} (ih : ∀ s ∈ stmts, s.StaysScoped p)
    (kept : Bool) (h : Stmt.scopeErrorIn? stmts around = none) :
    Stmt.scopeErrorIn? (Stmt.pruneIn p kept stmts) around = none := by
  induction stmts with
  | nil => rw [Stmt.pruneIn, Stmt.scopeErrorIn?]
  | cons s stmts ihs =>
    rw [Stmt.scopeErrorIn?, Option.or_eq_none_iff] at h
    have hs := ih s List.mem_cons_self kept around [] h.1
    rw [Stmt.pruneIn, Stmt.scopeErrorIn?, hs, Option.none_or]
    split
    · rw [Stmt.scopeErrorIn?]
    · exact ihs (fun s hs => ih s (List.mem_cons_of_mem _ hs)) h.2

theorem CaseGroup.scopeError?_prune {groups : List CaseGroup}
    (ih : ∀ group ∈ groups, ∀ s ∈ group.body, s.StaysScoped p) (kept : Bool)
    (h : CaseGroup.scopeError? groups around = none) :
    CaseGroup.scopeError? (groups.map (·.prune p kept)) around = none := by
  induction groups with
  | nil => rw [List.map_nil, CaseGroup.scopeError?]
  | cons group groups ihs =>
    cases group
    rw [CaseGroup.scopeError?, Option.or_eq_none_iff] at h
    rw [List.map_cons, CaseGroup.prune, CaseGroup.scopeError?,
      Stmt.scopeErrorIn?_pruneIn (ih _ List.mem_cons_self) kept h.1, Option.none_or]
    exact ihs (fun g hg => ih g (List.mem_cons_of_mem _ hg)) h.2

theorem CatchClause.scopeError?_prune {clauses : List CatchClause}
    (ih : ∀ clause ∈ clauses, ∀ s ∈ clause.body.stmts, s.StaysScoped p) (kept : Bool)
    (h : CatchClause.scopeError? clauses around = none) :
    CatchClause.scopeError? (clauses.map (·.prune p kept)) around = none := by
  induction clauses with
  | nil => rw [List.map_nil, CatchClause.scopeError?]
  | cons clause clauses ihs =>
    obtain ⟨_, _, ⟨_, _⟩, _⟩ := clause
    rw [CatchClause.scopeError?, Option.or_eq_none_iff] at h
    rw [List.map_cons, CatchClause.prune, Block.prune, CatchClause.scopeError?,
      Stmt.scopeErrorIn?_pruneIn (ih _ List.mem_cons_self) kept h.1, Option.none_or]
    exact ihs (fun c hc => ih c (List.mem_cons_of_mem _ hc)) h.2

theorem Block.scopeError?_prune {finalizer : Option Block}
    (ih : ∀ final, finalizer = some final → ∀ s ∈ final.stmts, s.StaysScoped p) (kept : Bool)
    (h : Block.scopeError? finalizer around = none) :
    Block.scopeError? (finalizer.map (·.prune p kept)) around = none := by
  rcases finalizer with _ | ⟨stmts, _⟩
  · exact h
  · rw [Block.scopeError?] at h
    rw [Option.map_some, Block.prune, Block.scopeError?]
    exact Stmt.scopeErrorIn?_pruneIn (ih _ rfl) kept h

variable (p)

/-- A pruned statement has no scoping error unless the statement has one. -/
theorem Stmt.scopeError?_prune (s : Stmt) : s.StaysScoped p := by
  -- Pruning only removes statements, so it adds no error.
  induction s using Stmt.induct with
  | block b ih =>
    intro kept around labels h
    cases b
    rw [Stmt.scopeError?] at h
    rw [Stmt.prune, Stmt.scopeError?]
    exact Stmt.scopeErrorIn?_pruneIn ih kept h
  | ifStmt test cons alt span ihc iha =>
    intro kept around labels h
    rw [Stmt.scopeError?, Option.or_eq_none_iff] at h
    rw [Stmt.prune_if, Stmt.scopeError?, ihc kept around [] h.1, Option.none_or]
    cases alt with
    | none => exact h.2
    | some alt =>
      rw [Stmt.scopeErrorElse?] at h
      rw [Option.map_some, Stmt.scopeErrorElse?]
      exact iha alt rfl kept around [] h.2
  | whileStmt test body span ih | doWhile body test span ih | forEach var iterable body span ih =>
    intro kept around labels h
    rw [Stmt.scopeError?] at h
    rw [Stmt.prune, Stmt.scopeError?]
    exact ih kept _ [] h
  | forStmt init test update body span ihi ih =>
    intro kept around labels h
    rw [Stmt.scopeError?, Option.or_eq_none_iff] at h
    rw [Stmt.prune, Stmt.scopeError?, Stmt.scopeErrorIn?_pruneIn ihi kept h.1, Option.none_or]
    exact ih kept _ [] h.2
  | switch selector groups span ih =>
    intro kept around labels h
    rw [Stmt.scopeError?] at h
    rw [Stmt.prune_switch, Stmt.scopeError?]
    exact CaseGroup.scopeError?_prune ih kept h
  | tryStmt resources block catches finalizer span ihb ihc ihf =>
    intro kept around labels h
    obtain ⟨stmts, blockSpan⟩ := block
    rw [Stmt.scopeError?, Option.or_eq_none_iff, Option.or_eq_none_iff] at h
    obtain ⟨hb, hc, hf⟩ := h
    rw [Stmt.prune_try, Block.prune, Stmt.scopeError?, Stmt.scopeErrorIn?_pruneIn ihb _ hb,
      Option.none_or, CatchClause.scopeError?_prune ihc _ hc, Option.none_or]
    exact Block.scopeError?_prune ihf kept hf
  | labeled label body span ih =>
    intro kept around labels h
    rw [Stmt.scopeError?] at h
    rw [Stmt.prune, Stmt.scopeError?, Stmt.carriesLabels_prune]
    split at h
    · cases h
    rename_i hnew
    rw [if_neg hnew]
    split at h
    · rename_i hcarries
      rw [if_pos hcarries]
      exact ih kept _ _ h
    · rename_i hcarries
      rw [if_neg hcarries]
      exact ih kept _ _ h
  | synchronized lock body span ih =>
    intro kept around labels h
    cases body
    rw [Stmt.scopeError?] at h
    rw [Stmt.prune, Stmt.scopeError?]
    exact Stmt.scopeErrorIn?_pruneIn ih kept h
  | _ =>
    intro kept around labels h
    rwa [Stmt.prune]

/-- A body that can be drawn can be drawn when it is pruned. -/
theorem Block.scopeErrorIn?_prune {body : Block} (kept : Bool)
    (h : Stmt.scopeErrorIn? body.stmts [] = none) :
    Stmt.scopeErrorIn? (body.prune p kept).stmts [] = none :=
  Stmt.scopeErrorIn?_pruneIn (fun s _ => s.scopeError?_prune p) kept h

end Errors

/-! ## Pruning twice -/

section Twice

variable {p : Pruning} (hp : ∀ s, p.ends s = true → s.breaksOff = true)
include hp

/-- The first statement of a list that breaks off is left over, with what comes before it. -/
theorem Stmt.breaksOffIn_pruneIn {stmts : List Stmt} {kept : Bool}
    (ih : ∀ s ∈ stmts, (s.prune p kept).breaksOff = s.breaksOff) :
    Stmt.breaksOffIn (Stmt.pruneIn p kept stmts) = Stmt.breaksOffIn stmts := by
  induction stmts with
  | nil => rw [Stmt.pruneIn]
  | cons s stmts ihs =>
    have hs := ih s List.mem_cons_self
    rw [Stmt.pruneIn, Stmt.breaksOffIn, Stmt.breaksOffIn, hs]
    split
    · rename_i hends
      rw [hp s (Bool.and_eq_true_iff.mp hends).2, Bool.true_or, Bool.true_or]
    · rw [ihs fun s hm => ih s (List.mem_cons_of_mem _ hm)]

theorem Stmt.breaksOff_prune (s : Stmt) (kept : Bool) :
    (s.prune p kept).breaksOff = s.breaksOff := by
  induction s using Stmt.induct with
  | block b ih =>
    cases b
    rw [Stmt.prune, Stmt.breaksOff, Stmt.breaksOff, Stmt.breaksOffIn_pruneIn hp ih]
  | synchronized lock body span ih =>
    cases body
    rw [Stmt.prune, Stmt.breaksOff, Stmt.breaksOff, Stmt.breaksOffIn_pruneIn hp ih]
  | tryStmt resources block catches finalizer span =>
    cases block
    rw [Stmt.prune]
    simp only [Stmt.breaksOff]
  | _ => simp only [Stmt.prune, Stmt.breaksOff]

theorem Stmt.pruneIn_pruneIn {stmts : List Stmt} {kept : Bool}
    (ih : ∀ s ∈ stmts, (s.prune p kept).prune .toTheRoot kept = s.prune .toTheRoot kept) :
    Stmt.pruneIn .toTheRoot kept (Stmt.pruneIn p kept stmts) =
      Stmt.pruneIn .toTheRoot kept stmts := by
  induction stmts with
  | nil => rw [Stmt.pruneIn]
  | cons s stmts ihs =>
    have hs := ih s List.mem_cons_self
    have hrest := ihs fun s hm => ih s (List.mem_cons_of_mem _ hm)
    have hbreak : Pruning.toTheRoot.ends (s.prune p kept) = Pruning.toTheRoot.ends s :=
      Stmt.breaksOff_prune hp s kept
    by_cases hends : (!kept && p.ends s) = true
    · -- Where `p` ends the list, the statement breaks off and so the other pruning ends it too.
      obtain ⟨hkept, hends'⟩ := Bool.and_eq_true_iff.mp hends
      have hroot : (!kept && Pruning.toTheRoot.ends s) = true := by
        rw [hkept]
        exact hp s hends'
      rw [Stmt.pruneIn_cons_of_ends hends, Stmt.pruneIn_cons_of_ends hroot, Stmt.pruneIn, hs,
        Stmt.pruneIn, ite_self]
    · rw [Stmt.pruneIn_cons_of_not (Bool.eq_false_iff.mpr hends), Stmt.pruneIn, Stmt.pruneIn, hs,
        hbreak, hrest]

variable (hspares : p.sparesFinally = true)
include hspares

/-- What a pruning leaves of a list after a statement that breaks off is deleted with the rest. -/
theorem Stmt.prune_prune (s : Stmt) (kept : Bool) :
    (s.prune p kept).prune .toTheRoot kept = s.prune .toTheRoot kept := by
  induction s using Stmt.induct generalizing kept with
  | block b ih =>
    cases b
    rw [Stmt.prune, Stmt.prune, Stmt.prune, Stmt.pruneIn_pruneIn hp fun s hs => ih s hs kept]
  | ifStmt test cons alt span ihc iha =>
    rw [Stmt.prune_if, Stmt.prune_if, Stmt.prune_if, ihc]
    cases alt with
    | none => rfl
    | some alt => rw [Option.map_some, Option.map_some, Option.map_some, iha alt rfl]
  | whileStmt test body span ih | doWhile body test span ih | forEach var iterable body span ih
  | labeled label body span ih => rw [Stmt.prune, Stmt.prune, Stmt.prune, ih]
  | forStmt init test update body span ihi ih =>
    rw [Stmt.prune, Stmt.prune, Stmt.prune, ih, Stmt.pruneIn_pruneIn hp fun s hs => ihi s hs kept]
  | switch selector groups span ih =>
    rw [Stmt.prune_switch, Stmt.prune_switch, Stmt.prune_switch, List.map_map]
    congr 1
    refine List.map_congr_left fun group hg => ?_
    rw [Function.comp_apply, CaseGroup.prune, CaseGroup.prune, CaseGroup.prune,
      Stmt.pruneIn_pruneIn hp fun s hs => ih group hg s hs kept]
  | tryStmt resources block catches finalizer span ihb ihc ihf =>
    have hkeeps : p.keeps kept finalizer = Pruning.toTheRoot.keeps kept finalizer := by
      rw [Pruning.keeps, Pruning.keeps, hspares]
      rfl
    have hfinal : (finalizer.map (·.prune p kept)).isSome = finalizer.isSome := Option.isSome_map
    -- What is kept depends on there being a `finally` clause, not on what stands in it.
    have hkeeps' : Pruning.toTheRoot.keeps kept (finalizer.map (·.prune p kept)) =
        Pruning.toTheRoot.keeps kept finalizer := by
      rw [Pruning.keeps, Pruning.keeps, hfinal]
    rw [Stmt.prune_try, Stmt.prune_try, Stmt.prune_try, hkeeps, hkeeps', List.map_map,
      Option.map_map]
    congr 1
    · rw [Block.prune, Block.prune, Block.prune, Stmt.pruneIn_pruneIn hp fun s hs => ihb s hs _]
    · refine List.map_congr_left fun clause hc => ?_
      rw [Function.comp_apply, CatchClause.prune, CatchClause.prune, CatchClause.prune, Block.prune,
        Block.prune, Block.prune, Stmt.pruneIn_pruneIn hp fun s hs => ihc clause hc s hs _]
    · cases finalizer with
      | none => rfl
      | some final =>
        rw [Option.map_some, Option.map_some, Function.comp_apply, Block.prune, Block.prune,
          Block.prune, Stmt.pruneIn_pruneIn hp fun s hs => ihf final rfl s hs kept]
  | synchronized lock body span ih =>
    cases body
    rw [Stmt.prune, Stmt.prune, Stmt.prune, Stmt.pruneIn_pruneIn hp fun s hs => ih s hs kept]
  | _ => simp only [Stmt.prune]

/-- Pruning a body to the root forgets a weaker pruning before it. -/
theorem Block.prune_prune (body : Block) (kept : Bool) :
    (body.prune p kept).prune .toTheRoot kept = body.prune .toTheRoot kept := by
  rw [Block.prune, Block.prune, Block.prune,
    Stmt.pruneIn_pruneIn hp fun s _ => Stmt.prune_prune hp hspares s kept]

end Twice

end MethodFlow
