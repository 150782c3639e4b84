import MethodFlow.Proofs.Segments

/-!
# Numbering blocks otherwise

What is drawn around a statement comes to it as numbers of blocks: those of its scope. If all of
them are named otherwise, by a function that keeps the exit and gives no two blocks the same name,
then targets are found as before and routes lead the same way, under the new names.
-/

namespace MethodFlow

section Lists

variable {α β : Type} [BEq α] [LawfulBEq α] [BEq β] [LawfulBEq β] {f : α → β}

theorem appendNew_map (hf : ∀ x y, f x = f y → x = y) (xs : List α) (x : α) :
    appendNew (xs.map f) (f x) = (appendNew xs x).map f := by
  have hmem : (xs.map f).contains (f x) = xs.contains x := by
    rw [Bool.eq_iff_iff, List.contains_iff_mem, List.contains_iff_mem, List.mem_map]
    constructor
    · rintro ⟨y, hy, he⟩
      exact hf y x he ▸ hy
    · exact fun hx => ⟨x, hx, rfl⟩
  unfold appendNew
  rw [hmem]
  split
  · rfl
  · rw [List.map_append]
    rfl

end Lists

/-! ## New names -/

section Rename

variable (name : BlockId → BlockId)

def Edge.rename (e : Edge) : Edge := ⟨e.kind, name e.target⟩

def TargetKind.rename : TargetKind → TargetKind
  | .loop continueTo => .loop (name continueTo)
  | .switch => .switch
  | .labeled => .labeled

def Target.rename (t : Target) : Target :=
  { t with kind := t.kind.rename name, breakTo := name t.breakTo }

def CatchTarget.rename (c : CatchTarget) : CatchTarget := { c with entry := name c.entry }

def Handler.rename (h : Handler) : Handler := ⟨h.catches.map (·.rename name), h.finalizer.map name⟩

def Scope.rename (scope : Scope) : Scope :=
  { scope with
    targets := scope.targets.map (·.rename name)
    handlers := scope.handlers.map (·.rename name) }

/-- Where a `finally` clause goes on, under the new names. -/
def Edge.renameResumption (p : BlockId × Edge) : BlockId × Edge := (name p.1, p.2.rename name)

def JumpRoute.rename (r : JumpRoute) : JumpRoute :=
  ⟨r.edge.rename name, r.resumptions.map (Edge.renameResumption name)⟩

def ThrowRoute.rename (r : ThrowRoute) : ThrowRoute :=
  ⟨r.targets.map name, r.resumptions.map (Edge.renameResumption name)⟩

end Rename

/-- No two blocks get the same name, and the exit keeps its own. -/
structure Renaming where
  name : BlockId → BlockId
  inj : ∀ x y, name x = name y → x = y
  exit : name Graph.exit = Graph.exit

variable (ρ : Renaming) (scope : Scope)

/-! ## Targets -/

theorem Target.isBreakable_rename (t : Target) : (t.rename ρ.name).isBreakable = t.isBreakable := by
  obtain ⟨_, kind, _, _⟩ := t
  cases kind <;> rfl

theorem Target.continueTo?_rename (t : Target) :
    (t.rename ρ.name).continueTo? = t.continueTo?.map ρ.name := by
  obtain ⟨_, kind, _, _⟩ := t
  cases kind <;> rfl

namespace Scope

theorem hasLabel_rename (label : String) :
    (scope.rename ρ.name).hasLabel label = scope.hasLabel label := by
  unfold hasLabel rename
  rw [List.any_map]
  rfl

theorem labelTarget_rename (label : String) (line : UInt32) :
    (scope.rename ρ.name).labelTarget label line =
    (scope.labelTarget label line).map (·.rename ρ.name) := by
  have hfind : (scope.rename ρ.name).targets.find? (·.hasLabel label) =
      (scope.targets.find? (·.hasLabel label)).map (·.rename ρ.name) := List.find?_map ..
  unfold labelTarget
  rw [hfind]
  cases scope.targets.find? (·.hasLabel label) <;> rfl

/-- A `break` finds the renamed target. -/
theorem breakTarget_rename (label : Option String) (line : UInt32) :
    (scope.rename ρ.name).breakTarget label line =
    (scope.breakTarget label line).map (·.rename ρ.name) := by
  cases label with
  | some label => exact scope.labelTarget_rename ρ label line
  | none =>
    have hfind : (scope.rename ρ.name).targets.find? (·.isBreakable) =
        (scope.targets.find? (·.isBreakable)).map (·.rename ρ.name) := by
      rw [rename, List.find?_map]
      congr 2
      exact funext fun t => t.isBreakable_rename ρ
    unfold breakTarget
    simp only [hfind]
    cases scope.targets.find? (·.isBreakable) <;> rfl

theorem continueTarget_rename (label : Option String) (line : UInt32) :
    (scope.rename ρ.name).continueTarget label line =
      (scope.continueTarget label line).map fun p => (p.1.rename ρ.name, ρ.name p.2) := by
  unfold continueTarget
  cases label with
  | some label =>
    simp only [labelTarget_rename]
    cases scope.labelTarget label line with
    | error f => rfl
    | ok target =>
      simp only [Except.map, bind, Except.bind, target.continueTo?_rename]
      cases target.continueTo? <;> rfl
  | none =>
    have hfind : ((scope.rename ρ.name).targets.findSome? fun t => t.continueTo?.map (t, ·)) =
        (scope.targets.findSome? fun t => t.continueTo?.map (t, ·)).map
          fun p => (p.1.rename ρ.name, ρ.name p.2) := by
      rw [rename, List.findSome?_map, List.map_findSome?]
      congr 1
      funext t
      rw [Function.comp_apply, Function.comp_apply, t.continueTo?_rename, Option.map_map,
        Option.map_map]
      rfl
    simp only [hfind]
    cases scope.targets.findSome? fun t => t.continueTo?.map (t, ·) <;> rfl

theorem crossed_rename (t : Target) :
    (scope.rename ρ.name).crossed (t.rename ρ.name) = (scope.crossed t).map (·.rename ρ.name) := by
  unfold crossed rename
  rw [List.length_map, List.map_take]
  rfl

theorem inside_rename (labels : List String) (kind : TargetKind) (after : BlockId) :
    (scope.inside labels kind after).rename ρ.name =
      (scope.rename ρ.name).inside labels (kind.rename ρ.name) (ρ.name after) := by
  simp only [inside, rename, Target.rename, List.map_cons, List.length_map]

theorem guarded_rename (handler : Handler) :
    (scope.guarded handler).rename ρ.name =
    (scope.rename ρ.name).guarded (handler.rename ρ.name) := rfl

end Scope

/-! ## Routes -/

/-- The route of a jump is renamed with its handlers. -/
theorem JumpRoute.through_rename (final : Edge) (handlers : List Handler) :
    through (final.rename ρ.name) (handlers.map (·.rename ρ.name)) =
      (through final handlers).rename ρ.name := by
  induction handlers with
  | nil => rfl
  | cons handler outer ih =>
    rw [List.map_cons, through, through, ih]
    obtain ⟨catches, finalizer⟩ := handler
    cases finalizer <;> rfl

namespace ThrowRoute

variable (types : Subtyping)

theorem offer_rename (clauses : List CatchTarget) (thrown : List TypeName)
    (targets : List BlockId) :
    offer types (clauses.map (·.rename ρ.name)) thrown (targets.map ρ.name) =
      ((offer types clauses thrown targets).1,
        (offer types clauses thrown targets).2.map ρ.name) := by
  induction clauses generalizing thrown targets with
  | nil => rfl
  | cons clause clauses ih =>
    have htargets : (if thrown.any ((clause.rename ρ.name).mayReceive types) then
          appendNew (targets.map ρ.name) (clause.rename ρ.name).entry else targets.map ρ.name) =
        (if thrown.any (clause.mayReceive types) then appendNew targets clause.entry
          else targets).map
          ρ.name := by
      rw [apply_ite (List.map ρ.name), ← appendNew_map ρ.inj]
      rfl
    rw [List.map_cons, offer, offer, htargets, ih]
    rfl

/-- The route of a throw is renamed with its handlers. -/
theorem through_rename (toExit : Bool) (handlers : List Handler) (thrown : List TypeName)
    (targets : List BlockId) :
    through types toExit (handlers.map (·.rename ρ.name)) thrown (targets.map ρ.name) =
      (through types toExit handlers thrown targets).rename ρ.name := by
  induction handlers generalizing toExit thrown targets with
  | nil =>
    simp only [List.map_nil, through, rename]
    split
    · rw [List.map_append, List.map_cons, List.map_nil, ρ.exit]
    · rfl
  | cons handler outer ih =>
    obtain ⟨catches, finalizer⟩ := handler
    have hoffer : offer types (Handler.rename ρ.name ⟨catches, finalizer⟩).catches thrown
        (targets.map ρ.name) = _ := offer_rename ρ types catches thrown targets
    simp only [List.map_cons, through, hoffer]
    split
    · rfl
    · cases finalizer with
      | none => exact ih toExit _ _
      | some entry =>
        have hrest := ih true (offer types catches thrown targets).1 []
        rw [List.map_nil] at hrest
        have hfinal : (Handler.rename ρ.name ⟨catches, some entry⟩).finalizer =
            some (ρ.name entry) := rfl
        simp only [hfinal, hrest, rename, appendNew_map ρ.inj, List.map_append, List.map_map]
        rfl

theorem edges_rename (r : ThrowRoute) :
    (r.rename ρ.name).edges = r.edges.map (·.rename ρ.name) := by
  simp only [edges, rename, List.map_map]
  rfl

end ThrowRoute

namespace Scope

theorem breakRoute_rename (t : Target) :
    (scope.rename ρ.name).breakRoute (t.rename ρ.name) = (scope.breakRoute t).rename ρ.name := by
  rw [breakRoute, crossed_rename]
  exact JumpRoute.through_rename ρ (.sequential t.breakTo) _

theorem continueRoute_rename (t : Target) (next : BlockId) :
    (scope.rename ρ.name).continueRoute (t.rename ρ.name) (ρ.name next) =
      (scope.continueRoute t next).rename ρ.name := by
  rw [continueRoute, crossed_rename]
  exact JumpRoute.through_rename ρ (.loopBack next) _

theorem returnRoute_rename :
    (scope.rename ρ.name).returnRoute = scope.returnRoute.rename ρ.name := by
  have h := JumpRoute.through_rename ρ (.sequential Graph.exit) scope.handlers
  have hexit : Edge.rename ρ.name (.sequential Graph.exit) = .sequential Graph.exit :=
    congrArg Edge.sequential ρ.exit
  rwa [hexit] at h

theorem throwRoute_rename (thrown : TypeName) :
    (scope.rename ρ.name).throwRoute thrown = (scope.throwRoute thrown).rename ρ.name :=
  ThrowRoute.through_rename ρ scope.types true scope.handlers [thrown] []

theorem raiseRoute_rename (declared : List TypeName) :
    (scope.rename ρ.name).raiseRoute declared = (scope.raiseRoute declared).rename ρ.name :=
  ThrowRoute.through_rename ρ scope.types false scope.handlers (Throwable.ofDeclared declared) []

end Scope

/-! ## Blocks that follow one another -/

theorem Terminator.switchEdges_rename (cases : List BlockId) (default : Option BlockId) :
    switchEdges (cases.map ρ.name) (default.map ρ.name) =
      (switchEdges cases default).map (·.rename ρ.name) := by
  unfold switchEdges
  rw [List.map_append]
  congr 1
  · apply List.ext_getElem?
    intro i
    simp only [List.getElem?_mapIdx, List.getElem?_map, Option.map_map]
    rfl
  · cases default <;> rfl

theorem CatchClause.targets_rename {first first' : BlockId}
    (h : ∀ n, ρ.name (first' + n) = first + n) (clauses : List CatchClause) :
    (targets clauses first').map (·.rename ρ.name) = targets clauses first := by
  apply List.ext_getElem?
  intro i
  simp only [targets, List.getElem?_mapIdx, List.getElem?_map, Option.map_map]
  congr 1
  funext clause
  exact congrArg (CatchTarget.mk · _) (h i)

namespace Draft

variable {ρ} {after after' : BlockId}

theorem exists_firstCatch (finalizer : Option Block) :
    ∃ k, ∀ after, firstCatch after finalizer = after + k := by
  cases finalizer with
  | none => exact ⟨1, fun _ => rfl⟩
  | some block => exact ⟨2, fun _ => rfl⟩

theorem firstCatch_rename (h : ∀ n, ρ.name (after' + n) = after + n)
    (finalizer : Option Block) (n : Nat) :
    ρ.name (firstCatch after' finalizer + n) = firstCatch after finalizer + n := by
  obtain ⟨k, hk⟩ := exists_firstCatch finalizer
  rw [hk, hk, Nat.add_assoc, h, Nat.add_assoc]

/-- The handler of a `try` statement is renamed with the block after it. -/
theorem handlerAt_rename (h : ∀ n, ρ.name (after' + n) = after + n) (catches : List CatchClause)
    (finalizer : Option Block) :
    (handlerAt after' catches finalizer).rename ρ.name = handlerAt after catches finalizer := by
  unfold handlerAt Handler.rename
  dsimp only
  congr 1
  · exact CatchClause.targets_rename ρ (firstCatch_rename h finalizer) catches
  · cases finalizer with
    | none => rfl
    | some block => exact congrArg some (h 1)

end Draft

namespace CaseGroup

variable {ρ}

theorem valueTargets_rename {first first' : BlockId} (h : ∀ n, ρ.name (first' + n) = first + n)
    (groups : List CaseGroup) :
    valueTargets groups first = (valueTargets groups first').map ρ.name := by
  induction groups generalizing first first' with
  | nil => rfl
  | cons group groups ih =>
    have hrest : ∀ n, ρ.name (first' + 1 + n) = first + 1 + n := fun n => by
      rw [Nat.add_assoc, h, Nat.add_assoc]
    rw [valueTargets, valueTargets, ih hrest, List.map_append, List.map_replicate]
    exact congrArg (fun x => List.replicate _ x ++ _) (h 0).symm

theorem defaultTarget?_rename {first first' : BlockId} (h : ∀ n, ρ.name (first' + n) = first + n)
    (groups : List CaseGroup) :
    defaultTarget? groups first = (defaultTarget? groups first').map ρ.name := by
  induction groups generalizing first first' with
  | nil => rfl
  | cons group groups ih =>
    have hrest : ∀ n, ρ.name (first' + 1 + n) = first + 1 + n := fun n => by
      rw [Nat.add_assoc, h, Nat.add_assoc]
    have hfirst : ρ.name first' = first := h 0
    rw [defaultTarget?, defaultTarget?, ih hrest, Option.map_or]
    split
    · rw [Option.map_some, hfirst]
    · rfl

end CaseGroup

/-! ## Names that stay -/

/-- All blocks keep their names. -/
def Renaming.same : Renaming := ⟨fun x => x, fun _ _ h => h, rfl⟩

/-- A scope is renamed in the same way by functions that agree on the blocks it names. -/
theorem Scope.rename_congr {name name' : BlockId → BlockId} {scope : Scope}
    (h : ∀ id, scope.Names id → name id = name' id) : scope.rename name = scope.rename name' := by
  have htargets : scope.targets.map (·.rename name) = scope.targets.map (·.rename name') := by
    refine List.map_congr_left fun t ht => ?_
    have hbreak := h t.breakTo (Or.inr (Or.inr ⟨t, ht, Or.inl rfl⟩))
    have hround : t.kind.rename name = t.kind.rename name' := by
      cases hk : t.kind with
      | loop next =>
        have hc : t.continueTo? = some next := by rw [Target.continueTo?, hk]
        exact congrArg TargetKind.loop (h next (Or.inr (Or.inr ⟨t, ht, Or.inr hc⟩)))
      | switch | labeled => rfl
    rw [Target.rename, Target.rename, hbreak, hround]
  have hhandlers : scope.handlers.map (·.rename name) = scope.handlers.map (·.rename name') := by
    refine List.map_congr_left fun handler hm => ?_
    have hentry : ∀ id, handler.HasEntry id → name id = name' id := fun id hid =>
      h id (Or.inr (Or.inl ⟨handler, hm, hid⟩))
    have hcatches : handler.catches.map (·.rename name) = handler.catches.map (·.rename name') := by
      refine List.map_congr_left fun c hc => ?_
      rw [CatchTarget.rename, CatchTarget.rename, hentry c.entry (Or.inl ⟨c, hc, rfl⟩)]
    have hfinal : handler.finalizer.map name = handler.finalizer.map name' := by
      cases hf : handler.finalizer with
      | none => rfl
      | some entry => rw [Option.map_some, Option.map_some, hentry entry (Or.inr hf)]
    rw [Handler.rename, Handler.rename, hcatches, hfinal]
  rw [Scope.rename, Scope.rename, htargets, hhandlers]

end MethodFlow
