import MethodFlow.Proofs.Consistency
import MethodFlow.Proofs.Scripts
import MethodFlow.Proofs.Segments

/-!
# Every number is that of a block

Blocks go by their numbers: in edges and terminators, in the targets and handlers of a scope, in the
places where `finally` clauses go on, in the jumps that wait for what follows them. A number may be
kept for long before it comes into the graph. A draft is *self-contained* if every number that it
holds is that of one of its blocks, and no block of it has an edge twice.

How many blocks there are is what carries the proof. `Script.Makes n s m` says that from a
self-contained draft with at least `n` blocks a script leads through self-contained drafts only, and
to one with at least `m` blocks. Making a block counts one up, and all else asks that the numbers it
is given are below the count. So all drafts that a body leads through are self-contained
(`Graph.selfContained_of_passed`), also if the drawing fails in the end.
-/

namespace MethodFlow

/-- The blocks that a terminator names. -/
def Terminator.references : Terminator → List BlockId
  | branch onTrue onFalse => [onTrue, onFalse]
  | jump target | breaking target | continuing target => [target]
  | switch cases default => cases ++ default.toList
  | fallThrough | returning _ | throwing | methodExit | endFinally => []

/-- The block can stand among the first `n` blocks: it refers to no others, and has no edge
twice. -/
structure BasicBlock.Among (b : BasicBlock) (n : Nat) : Prop where
  edges_lt : ∀ e ∈ b.successors, e.target < n
  named_lt : ∀ id ∈ b.terminator.references, id < n
  next_lt : ∀ id, b.lexicalNext = some id → id < n
  nodup : b.successors.Nodup

namespace BasicBlock.Among

variable {b : BasicBlock} {n : Nat}

theorem mono (h : b.Among n) {m : Nat} (hle : n ≤ m) : b.Among m where
  edges_lt e he := Nat.lt_of_lt_of_le (h.edges_lt e he) hle
  named_lt id hid := Nat.lt_of_lt_of_le (h.named_lt id hid) hle
  next_lt id hid := Nat.lt_of_lt_of_le (h.next_lt id hid) hle
  nodup := h.nodup

theorem bare (kind : BlockKind) (span : Option Span) (n : Nat) : Among { kind, span } n :=
  ⟨List.forall_mem_nil _, List.forall_mem_nil _, fun _ h => absurd h.symm (Option.some_ne_none _),
    List.nodup_nil⟩

theorem link (h : b.Among n) {edges : List Edge} (hedges : ∀ e ∈ edges, e.target < n) :
    Among { b with successors := appendAllNew b.successors edges } n :=
  { h with
    edges_lt := fun e he => (mem_appendAllNew.mp he).elim (h.edges_lt e) (hedges e)
    nodup := nodup_appendAllNew h.nodup }

theorem endBlock (h : b.Among n) {t : Terminator} {edges : List Edge}
    (ht : ∀ id ∈ t.references, id < n) (hedges : ∀ e ∈ edges, e.target < n) (span : Option Span) :
    (Draft.endBlock t edges span b).Among n :=
  { h.link hedges with named_lt := ht }

theorem followedBy (h : b.Among n) {next : BlockId} (hnext : next < n) :
    Among { b with lexicalNext := some next } n :=
  { h with next_lt := fun _ hid => Option.some.inj hid ▸ hnext }

end BasicBlock.Among

/-! ## Self-contained drafts -/

namespace Draft

/-- Every number in the draft is that of one of its blocks, and no block has an edge twice. -/
structure SelfContained (d : Draft) : Prop where
  blocks : ∀ id b, d.graph.block? id = some b → b.Among d.fresh
  current_lt : ∀ id, d.current = some id → id < d.fresh
  dangling_lt : ∀ id ∈ d.dangling, id < d.fresh
  closed_lt : ∀ id ∈ d.closed, id < d.fresh
  resumptions_lt : ∀ p ∈ d.resumptions, p.1 < d.fresh ∧ p.2.target < d.fresh

/-- The draft is self-contained and has at least `n` blocks. -/
structure HasBlocks (n : Nat) (d : Draft) : Prop extends SelfContained d where
  le_fresh : n ≤ d.fresh

namespace HasBlocks

variable {n : Nat} {d : Draft}

theorem mono (h : d.HasBlocks n) {m : Nat} (hle : m ≤ n) : d.HasBlocks m :=
  ⟨h.toSelfContained, Nat.le_trans hle h.le_fresh⟩

theorem all (h : d.HasBlocks n) : d.HasBlocks d.fresh := ⟨h.toSelfContained, Nat.le_refl _⟩

theorem lt_fresh (h : d.HasBlocks n) {id : BlockId} (hid : id < n) : id < d.fresh :=
    Nat.lt_of_lt_of_le hid h.le_fresh

theorem resumptionsOf_lt (h : d.HasBlocks n) {entry : BlockId} {e : Edge}
    (he : e ∈ d.resumptionsOf entry) :
    e.target < d.fresh := by
  obtain ⟨p, hp, rfl⟩ := List.mem_map.mp he
  exact (h.resumptions_lt p (List.mem_filter.mp hp).1).2

theorem create (h : d.HasBlocks n) (kind : BlockKind) (span : Option Span) :
    (d.create kind span).HasBlocks (n + 1) := by
  have hfresh : (d.create kind span).fresh = d.fresh + 1 := d.graph.size_push _
  constructor
  · constructor <;> rw [hfresh]
    · intro id b hb
      rw [Draft.create, Graph.block?_push] at hb
      split at hb
      · exact Option.some.inj hb ▸ .bare kind span _
      · exact (h.blocks id b hb).mono (Nat.le_succ _)
    · exact fun id hid => Nat.lt_succ_of_lt (h.current_lt id hid)
    · exact fun id hid => Nat.lt_succ_of_lt (h.dangling_lt id hid)
    · exact fun id hid => Nat.lt_succ_of_lt (h.closed_lt id hid)
    · exact fun p hp => (h.resumptions_lt p hp).imp Nat.lt_succ_of_lt Nat.lt_succ_of_lt
  · rw [hfresh]
    exact Nat.succ_le_succ h.le_fresh

/-- A block is changed into one that can stand where it stood. -/
theorem modify (h : d.HasBlocks n) (i : BlockId) {f : BasicBlock → BasicBlock}
    (hf : ∀ m b, n ≤ m → b.Among m → (f b).Among m) : (d.modify i f).HasBlocks n := by
  constructor
  · constructor <;> rw [fresh_modify]
    · intro id b hb
      rw [block?_modify] at hb
      split at hb
      · obtain ⟨b₀, hb₀, rfl⟩ := Option.map_eq_some_iff.mp hb
        exact hf _ b₀ h.le_fresh (h.blocks id b₀ hb₀)
      · exact h.blocks id b hb
    · exact h.current_lt
    · exact h.dangling_lt
    · exact h.closed_lt
    · exact h.resumptions_lt
  · rw [fresh_modify]
    exact h.le_fresh

theorem modifyAll (h : d.HasBlocks n) (ids : List BlockId) {f : BasicBlock → BasicBlock}
    (hf : ∀ m b, n ≤ m → b.Among m → (f b).Among m) : (d.modifyAll ids f).HasBlocks n := by
  unfold Draft.modifyAll
  induction ids generalizing d with
  | nil => exact h
  | cons id ids ih => exact ih (h.modify id hf)

theorem enter (h : d.HasBlocks n) {block : Option BlockId}
    (hblock : ∀ id, block = some id → id < n) :
    HasBlocks n { d with current := block } :=
  { h with current_lt := fun id hid => h.lt_fresh (hblock id hid) }

/-- Closing a block keeps a draft self-contained when it names known blocks. -/
theorem close (h : d.HasBlocks n) {i : BlockId} (hi : i < n) {t : Terminator} {edges : List Edge}
    (ht : ∀ id ∈ t.references, id < n) (hedges : ∀ e ∈ edges, e.target < n) (span : Option Span) :
    (d.close i t edges span).HasBlocks n := by
  unfold Draft.close
  split
  · exact { h with }
  · have hended : (d.modify i (endBlock t edges span)).HasBlocks n := by
      refine h.modify i fun m b hle hb => hb.endBlock (fun id hid => ?_) (fun e he => ?_) span
      · exact Nat.lt_of_lt_of_le (ht id hid) hle
      · exact Nat.lt_of_lt_of_le (hedges e he) hle
    exact { hended with closed_lt :=
      List.forall_mem_cons.mpr ⟨hended.lt_fresh hi, hended.closed_lt⟩ }

theorem dangle (h : d.HasBlocks n) {i : BlockId} (hi : i < n) :
    HasBlocks n { d with dangling := d.dangling ++ [i] } :=
  { h with
    dangling_lt :=
      List.forall_mem_append.mpr ⟨h.dangling_lt, List.forall_mem_singleton.mpr (h.lt_fresh hi)⟩ }

theorem resolve (h : d.HasBlocks n) {next : BlockId} (hnext : next < n) :
    (d.resolveDangling next).HasBlocks n :=
  { h.modifyAll d.dangling fun _ _ hle hb => hb.followedBy (Nat.lt_of_lt_of_le hnext hle) with
    dangling_lt := List.forall_mem_nil _ }

/-- Resumptions keep a draft self-contained when they lead to known blocks. -/
theorem resume (h : d.HasBlocks n) {resumptions : List (BlockId × Edge)}
    (hnew : ∀ p ∈ resumptions, p.1 < n ∧ p.2.target < n) :
    (d.resumeAt resumptions).HasBlocks n := by
  refine { h with resumptions_lt := fun p hp => ?_ }
  rcases mem_appendAllNew.mp hp with hp | hp
  · exact h.resumptions_lt p hp
  · exact (hnew p hp).imp h.lt_fresh h.lt_fresh

end HasBlocks

theorem hasBlocks_initial : initial.HasBlocks 2 := by
  have hbare : ∀ b ∈ Graph.bare.blocks, b.Among 2 := by
    have hexit : BasicBlock.Among { kind := .exit, terminator := .methodExit } 2 :=
      { BasicBlock.Among.bare .exit none 2 with }
    simpa [Graph.bare] using ⟨.bare .entry none 2, hexit⟩
  refine ⟨⟨fun id b hb => hbare b (Array.mem_of_getElem? hb), fun id hid => ?_,
    List.forall_mem_nil _, ?_, List.forall_mem_nil _⟩, Nat.le_refl 2⟩
  · rw [← Option.some.inj hid]
    decide
  · exact List.forall_mem_singleton.mpr (by decide)

end Draft

/-- The scope names no block but the first `n`. -/
def Scope.Below (scope : Scope) (n : Nat) : Prop := ∀ id, scope.Names id → id < n

namespace Scope.Below

variable {scope : Scope} {n : Nat}

theorem mono (h : scope.Below n) {m : Nat} (hle : n ≤ m) : scope.Below m :=
  fun id hid => Nat.lt_of_lt_of_le (h id hid) hle

/-- A target among the blocks keeps a scope below their number. -/
theorem inside (h : scope.Below n) (labels : List String) {kind : TargetKind} {breakTo : BlockId}
    (hbreak : breakTo < n) (hround : ∀ id, kind = .loop id → id < n) :
    (scope.inside labels kind breakTo).Below n := by
  intro id hid
  rcases hid.of_inside with hid | rfl | hid
  · exact h id hid
  · exact hbreak
  · exact hround id hid

theorem inside_loop (h : scope.Below n) (labels : List String) {next breakTo : BlockId}
    (hbreak : breakTo < n) (hnext : next < n) :
    (scope.inside labels (.loop next) breakTo).Below n := by
  refine h.inside labels hbreak fun id hid => ?_
  cases hid
  exact hnext

/-- A handler among the blocks keeps a scope below their number. -/
theorem guarded (h : scope.Below n) {handler : Handler}
    (hentry : ∀ id, handler.HasEntry id → id < n) :
    (scope.guarded handler).Below n :=
  fun id hid => hid.of_guarded.elim (h id) (hentry id)

theorem leaves_lt (h : scope.Below n) {e : Edge} (he : scope.Leaves e) : e.target < n :=
    h _ he.names

theorem registers_lt (h : scope.Below n) {p : BlockId × Edge} (hp : scope.Registers p) :
    p.1 < n ∧ p.2.target < n := by
  obtain ⟨handler, hm, hf⟩ := hp.finalizer
  exact ⟨h p.1 (Or.inr (Or.inl ⟨handler, hm, Or.inr hf⟩)), h _ hp.names⟩

end Scope.Below

/-! ## Operations -/

namespace Script

open Draft (SelfContained HasBlocks)

variable {α β : Type} {n m : Nat}

/-- From a self-contained draft with at least `n` blocks the script leads through self-contained
drafts only, and to one with at least `m` blocks unless it fails. -/
abbrev Makes (n : Nat) (s : Script α) (m : Nat) : Prop :=
    Keeps SelfContained (HasBlocks n) s (HasBlocks m)

/-- A script may use all that is known of a value which it depends on, if there is one. -/
theorem keeps_lift_bind {I P Q : Draft → Prop} (hI : ∀ d, P d → I d) {x : Except BuildFailure α}
    {f : α → Script β} (h : ∀ a, x = .ok a → Keeps I P (f a) Q) : Keeps I P (lift x >>= f) Q := by
  intro d hd
  cases x with
  | error failure =>
    refine ⟨List.forall_mem_singleton.mpr (hI d hd), fun b hb => ?_⟩
    cases hb
  | ok a => exact h a rfl d hd

section Changes

variable {c : Draft.Change}

theorem makes_change (h : ∀ d, d.HasBlocks n → (c.apply d).HasBlocks m) : Makes n (change c) m :=
  .change fun d hd => ⟨hd.toSelfContained, (h d hd).toSelfContained, h d hd⟩

theorem makes_modify (id : BlockId) {f : BasicBlock → BasicBlock}
    (hf : ∀ m b, n ≤ m → b.Among m → (f b).Among m) : Makes n (change (.modify id f)) n :=
  makes_change fun _ hd => hd.modify id hf

theorem makes_elements (id : BlockId) (elements : BasicBlock → List Element) :
    Makes n (change (.modify id fun b => { b with elements := elements b })) n :=
  makes_modify id fun _ _ _ hb => { hb with }

theorem makes_leave : Makes n (change (.enter none)) n :=
  makes_change fun _ hd => hd.enter fun _ hid => absurd hid.symm (Option.some_ne_none _)

theorem makes_enter {id : BlockId} (hid : id < n) : Makes n (change (.enter (some id))) n :=
  makes_change fun _ hd => hd.enter fun _ he => Option.some.inj he ▸ hid

theorem makes_close {id : BlockId} (hid : id < n) {t : Terminator} {edges : List Edge}
    (ht : ∀ id ∈ t.references, id < n) (hedges : ∀ e ∈ edges, e.target < n) (span : Option Span) :
    Makes n (change (.close id t edges span)) n :=
  makes_change fun _ hd => hd.close hid ht hedges span

theorem makes_dangle {id : BlockId} (hid : id < n) : Makes n (change (.dangle id)) n :=
  makes_change fun _ hd => hd.dangle hid

theorem makes_resolve {next : BlockId} (hnext : next < n) : Makes n (change (.resolve next)) n :=
  makes_change fun _ hd => hd.resolve hnext

theorem makes_mark : Makes n (change .mark) n :=
  makes_change fun d hd => hd.modifyAll d.dangling fun _ _ _ hb => { hb with }

theorem makes_resume {resumptions : List (BlockId × Edge)}
    (h : ∀ p ∈ resumptions, p.1 < n ∧ p.2.target < n) :
    Makes n (change (.resume resumptions)) n :=
  makes_change fun _ hd => hd.resume h

theorem makes_report (fault : Fault) : Makes n (change (.report fault)) n :=
  makes_change fun _ hd => { hd with }

end Changes

theorem Keeps.weaken {P : Draft → Prop} {s : Script α} (h : Keeps SelfContained P s (HasBlocks m))
    {k : Nat} (hle : k ≤ m) : Keeps SelfContained P s (HasBlocks k) :=
  h.mono (fun _ hd => hd) fun _ hd => hd.mono hle

theorem makes_pure (a : α) : Makes n (pure a) n := .pure (fun _ hd => hd.toSelfContained) a

theorem makes_lift (x : Except BuildFailure α) : Makes n (lift x) n :=
    .lift (fun _ hd => hd.toSelfContained) x

/-- What is done about the draft that a script looks at may count on all blocks that are there. -/
theorem makes_draft_bind {f : Draft → Script β} (h : ∀ d, d.HasBlocks n → Makes d.fresh (f d) m) :
    Makes n (draft >>= f) m :=
  fun d hd => h d hd d hd.all

/-- The number of the next block is how many blocks there are. -/
theorem makes_fresh_bind {f : BlockId → Script β} (h : ∀ k, n ≤ k → Makes k (f k) m) :
    Makes n (fresh >>= f) m :=
  fun d hd => h d.fresh hd.le_fresh d hd.all

theorem makes_onlyIf (c : Bool) {s : Script Unit} (h : Makes n s n) : Makes n (onlyIf c s) n :=
  h.onlyIf (fun _ hd => hd.toSelfContained) c

theorem makes_create (kind : BlockKind) (span : Option Span) : Makes n (create kind span) (n + 1) :=
  makes_change fun _ hd => hd.create kind span

theorem makes_whenOpen {s : BlockId → Script Unit} (h : ∀ k id, n ≤ k → id < k → Makes k (s id) k) :
    Makes n (whenOpen s) n := by
  refine makes_draft_bind fun d hd => ?_
  cases hid : d.current with
  | none => exact (makes_pure ()).weaken hd.le_fresh
  | some id => exact (h d.fresh id hd.le_fresh (hd.current_lt id hid)).weaken hd.le_fresh

/-- Afterwards the block that the next element goes to is there. -/
theorem makes_ensureOpen {d : Draft} (hd : d.HasBlocks n) :
    Keeps SelfContained (· = d) ensureOpen (HasBlocks (max n (d.openBlock + 1))) := by
  have here : ∀ d', d' = d → d'.HasBlocks d.fresh := fun _ he => he ▸ hd.all
  refine .draft_bind fun d' he => ?_
  subst he
  cases hid : d'.current with
  | none =>
    have hopen : d'.openBlock = d'.fresh := by rw [Draft.openBlock, hid, Option.getD_none]
    have hnew :
      Makes d'.fresh
        (do create .normal none; change (.resolve d'.fresh); change (.enter (some d'.fresh)))
        (d'.fresh + 1) :=
      (makes_create _ _).seq
      ((makes_resolve (Nat.lt_succ_self _)).seq (makes_enter (Nat.lt_succ_self _)))
    refine hnew.mono here fun _ h => h.mono ?_
    rw [hopen]
    exact Nat.max_le.mpr ⟨Nat.le_succ_of_le hd.le_fresh, Nat.le_refl _⟩
  | some id =>
    have hopen : d'.openBlock = id := by rw [Draft.openBlock, hid, Option.getD_some]
    refine (makes_pure ()).mono here fun _ h => h.mono ?_
    rw [hopen]
    exact Nat.max_le.mpr ⟨hd.le_fresh, hd.current_lt id hid⟩

section Closing

variable {t : Terminator} {edges : List Edge} (ht : ∀ id ∈ t.references, id < n)
  (hedges : ∀ e ∈ edges, e.target < n)

include ht hedges

/-- Ending a block counts the one that had to be opened for it. -/
theorem makes_terminate_of_eq {d : Draft} (hd : d.HasBlocks n) (span : Option Span) :
    Keeps SelfContained (· = d) (terminate t edges span) (HasBlocks (max n (d.openBlock + 1))) := by
  have hle : n ≤ max n (d.openBlock + 1) := Nat.le_max_left _ _
  refine .draft_bind fun d' he => ?_
  subst he
  exact (makes_ensureOpen hd).seq <| makes_leave.seq <| makes_close (Nat.le_max_right _ _)
    (fun id hid => Nat.lt_of_lt_of_le (ht id hid) hle)
    (fun e he => Nat.lt_of_lt_of_le (hedges e he) hle) span

theorem makes_terminate (span : Option Span) : Makes n (terminate t edges span) n :=
  fun d hd => (makes_terminate_of_eq ht hedges hd span).weaken (Nat.le_max_left _ _) d rfl

theorem makes_jump (span : Span) : Makes n (jump t edges span) n := by
  refine .draft_bind fun d hd => ?_
  have hdangle : Makes (max n (d.openBlock + 1)) (change (.dangle d.openBlock)) n :=
    (makes_dangle (Nat.le_max_right _ _)).weaken (Nat.le_max_left _ _)
  exact (makes_terminate_of_eq ht hedges hd (some span)).seq hdangle

theorem makes_closeOpen : Makes n (closeOpen t edges) n :=
  makes_whenOpen fun _ _ hle hid => makes_leave.seq <| makes_close hid
    (fun id hid => Nat.lt_of_lt_of_le (ht id hid) hle)
    (fun e he => Nat.lt_of_lt_of_le (hedges e he) hle) none

end Closing

theorem makes_branch {onTrue onFalse : BlockId} (htrue : onTrue < n) (hfalse : onFalse < n)
    (span : Span) :
    Makes n (branch onTrue onFalse span) n :=
  makes_terminate (by simp [Terminator.references, htrue, hfalse]) (by simp [htrue, hfalse]) _

section Onward

variable {next : BlockId} (hnext : next < n)

include hnext

theorem makes_fallInto : Makes n (fallInto next) n :=
  (makes_closeOpen (List.forall_mem_nil _) (List.forall_mem_singleton.mpr hnext)).seq
  (makes_resolve hnext)

theorem makes_goto (kind : EdgeKind) : Makes n (goto kind next) n :=
  (makes_closeOpen (t := .jump next) (List.forall_mem_singleton.mpr hnext)
    (List.forall_mem_singleton.mpr hnext)).seq
    (makes_resolve hnext)

theorem makes_leaveArrowGroup : Makes n (leaveArrowGroup next) n :=
  (makes_closeOpen (t := .breaking next) (List.forall_mem_singleton.mpr hnext)
    (List.forall_mem_singleton.mpr hnext)).seq (makes_resolve hnext)

theorem makes_start : Makes n (start next) n :=
  (makes_whenOpen fun _ _ _ _ => makes_report _).seq (makes_enter hnext)

theorem makes_continueAt : Makes n (continueAt next) n :=
    (makes_fallInto hnext).seq (makes_enter hnext)

/-- Leaving a region names its `finally` clause and what follows. -/
theorem makes_leaveRegion {finalizer : Option BlockId}
    (hfinalizer : ∀ id, finalizer = some id → id < n) :
    Makes n (leaveRegion finalizer next) n := by
  cases finalizer with
  | none => exact makes_fallInto hnext
  | some entry =>
    have hentry := hfinalizer entry rfl
    have hleft : Makes n (whenOpen fun _ => do
        closeOpen .fallThrough [.sequential entry]
        change (.resume [(entry, .sequential next)])) n := by
      refine makes_whenOpen fun k _ hle _ => ?_
      have hentry := Nat.lt_of_lt_of_le hentry hle
      exact (makes_closeOpen (List.forall_mem_nil _) (List.forall_mem_singleton.mpr hentry)).seq <|
        makes_resume (List.forall_mem_singleton.mpr ⟨hentry, Nat.lt_of_lt_of_le hnext hle⟩)
    exact hleft.seq (makes_resolve hnext)

/-- The edges that leave a `finally` clause have waited in the draft since they were registered. -/
theorem makes_leaveFinalizer (entry : BlockId) : Makes n (leaveFinalizer entry next) n := by
  refine makes_draft_bind fun d hd => ?_
  have hedges := fun e (he : e ∈ d.resumptionsOf entry) => hd.resumptionsOf_lt he
  cases hres : d.resumptionsOf entry with
  | nil => exact (makes_fallInto (hd.lt_fresh hnext)).weaken hd.le_fresh
  | cons e edges =>
    exact (makes_closeOpen (List.forall_mem_nil _) (hres ▸ hedges)).weaken hd.le_fresh

end Onward

theorem makes_emit (kind : ElementKind) (span : Span) : Makes n (emit kind span) n := by
  refine .draft_bind fun d hd => ?_
  exact ((makes_ensureOpen hd).weaken (Nat.le_max_left _ _)).seq (makes_elements _ _)

theorem makes_link {edges : List Edge} (hedges : ∀ e ∈ edges, e.target < n) :
    Makes n (link edges) n :=
  .read fun d => makes_modify d.openBlock fun _ _ hle hb =>
    hb.link fun e he => Nat.lt_of_lt_of_le (hedges e he) hle

theorem makes_select {groups : List CaseGroup} {first after : BlockId} (hafter : after < n)
    (hgroups : first + groups.length ≤ n) (span : Span) :
      Makes n (select groups first after span) n := by
  have hcases : ∀ id ∈ CaseGroup.valueTargets groups first, id < n :=
    fun id hid => Nat.lt_of_lt_of_le (CaseGroup.mem_valueTargets hid).2 hgroups
  have hdefault : (CaseGroup.defaultTarget? groups first).getD after < n := by
    cases hd : CaseGroup.defaultTarget? groups first with
    | none => exact hafter
    | some id => exact Nat.lt_of_lt_of_le (CaseGroup.defaultTarget?_range hd).2 hgroups
  refine makes_terminate (fun id hid => ?_) (fun e he => ?_) _
  · rcases List.mem_append.mp hid with hid | hid
    · exact hcases id hid
    · exact List.mem_singleton.mp hid ▸ hdefault
  · rcases Terminator.mem_switchEdges he with he | he
    · exact hcases _ he
    · exact Option.some.inj he ▸ hdefault

theorem makes_expectUnchecked (types : Subtyping) {clauses : List CatchTarget}
    (h : ∀ c ∈ clauses, c.entry < n) :
    Makes n (expectUnchecked types clauses) n := by
  refine makes_link fun e he => ?_
  obtain ⟨c, hc, rfl⟩ := List.mem_map.mp he
  exact h c (List.mem_filter.mp hc).1

theorem makes_createGroups (groups : List CaseGroup) :
    Makes n (createGroups groups) (n + groups.length) := by
  induction groups generalizing n with
  | nil => exact makes_pure ()
  | cons group groups ih =>
    refine (makes_create _ _).seq (ih.weaken ?_)
    rw [List.length_cons]
    omega

theorem makes_createClauses (clauses : List CatchClause) :
    Makes n (createClauses clauses) (n + clauses.length) := by
  induction clauses generalizing n with
  | nil => exact makes_pure ()
  | cons clause clauses ih =>
    refine makes_fresh_bind fun k hle => (makes_create _ _).seq <|
      (makes_elements k fun _ => [⟨.declaration clause.param, clause.span⟩]).seq (ih.weaken ?_)
    rw [List.length_cons]
    omega

section Scopes

variable {scope : Scope} (hscope : scope.Below n)

include hscope

/-- Raising names handlers of the scope only. -/
theorem makes_raise (declared : List TypeName) : Makes n (raise scope declared) n :=
  (makes_link fun _ he => hscope.leaves_lt (.throwing he)).seq <|
    makes_resume fun _ hp => hscope.registers_lt (.throwing hp)

theorem makes_jumpVia {t : Terminator} (ht : ∀ id ∈ t.references, id < n) {route : JumpRoute}
    (hleaves : scope.Leaves route.edge) (hregisters : ∀ p ∈ route.resumptions, scope.Registers p)
    (span : Span) :
    Makes n (jumpVia t route span) n :=
  (makes_jump ht (List.forall_mem_singleton.mpr (hscope.leaves_lt hleaves)) span).seq
    (makes_resume fun p hp => hscope.registers_lt (hregisters p hp))

/-- An element that may raise an exception. -/
theorem makes_emit_raise (kind : ElementKind) (span : Span) (declared : List TypeName) :
    Makes n (do emit kind span; raise scope declared) n :=
  (makes_emit kind span).seq (makes_raise hscope declared)

end Scopes

end Script

/-! ## Expressions and statements -/

section Expressions

open Script

variable {scope : Scope} {n : Nat}

theorem Expr.makes_scriptOption {o : Option Expr}
    (h : ∀ e, o = some e → Makes n (e.script scope) n) :
    Makes n (Expr.scriptOption scope o) n := by
  cases o with
  | none =>
    rw [Expr.scriptOption]
    exact makes_pure ()
  | some e =>
    rw [Expr.scriptOption]
    exact h e rfl

theorem Expr.makes_scriptAll {es : List Expr} (h : ∀ e ∈ es, Makes n (e.script scope) n) :
    Makes n (Expr.scriptAll scope es) n := by
  induction es with
  | nil =>
    rw [Expr.scriptAll]
    exact makes_pure ()
  | cons e es ih =>
    rw [Expr.scriptAll]
    exact (h e List.mem_cons_self).seq (ih fun e' he => h e' (List.mem_cons_of_mem _ he))

/-- Drawing an expression names known blocks only, by induction on the expression. -/
theorem Expr.makes_script (e : Expr) (hscope : scope.Below n) : Makes n (e.script scope) n := by
  induction e using Expr.induct generalizing n with
  | name | this | literal | lambda =>
    rw [Expr.script]
    exact makes_emit _ _
  | binary op left right span ihl ihr =>
    rw [Expr.script]
    exact (ihl hscope).seq <| (ihr hscope).seq <| (makes_emit _ _).seq <|
      makes_onlyIf _ (makes_raise hscope _)
  | unary op arg span ih | instanceOf e ty span ih =>
    rw [Expr.script]
    exact (ih hscope).seq (makes_emit _ _)
  | assign op target value span iht ihv =>
    rw [Expr.script]
    exact (makes_onlyIf _ (iht hscope)).seq <| (ihv hscope).seq <| (makes_emit _ _).seq <|
      makes_onlyIf _ (makes_raise hscope _)
  | cond test cons alt span iht ihc iha =>
    rw [Expr.script]
    refine (iht hscope).seq <| makes_fresh_bind fun onTrue hle => ?_
    have hscope : scope.Below (onTrue + 1 + 1 + 1) := hscope.mono (by grind)
    exact (makes_create _ _).seq <| (makes_create _ _).seq <| (makes_create _ _).seq <|
      (makes_branch (by grind) (by grind) _).seq <| (makes_start (by grind)).seq <|
      (ihc hscope).seq <| (makes_fallInto (by grind)).seq <| (makes_start (by grind)).seq <|
      (iha hscope).seq <| (makes_fallInto (by grind)).seq <|
      (makes_start (by grind)).weaken (by grind)
  | call receiver method args throws span ihr iha =>
    rw [Expr.script]
    exact (Expr.makes_scriptOption fun e he => ihr e he hscope).seq <|
      (Expr.makes_scriptAll fun e he => iha e he hscope).seq (makes_emit_raise hscope _ _ _)
  | new cls args throws span ih =>
    rw [Expr.script]
    exact (Expr.makes_scriptAll fun e he => ih e he hscope).seq (makes_emit_raise hscope _ _ _)
  | newArray elem dims init span ihd ihi =>
    rw [Expr.script]
    exact (Expr.makes_scriptAll fun e he => ihd e he hscope).seq <|
      (Expr.makes_scriptAll fun e he => ihi e he hscope).seq (makes_emit_raise hscope _ _ _)
  | member object field span ih | cast ty e span ih =>
    rw [Expr.script]
    exact (ih hscope).seq (makes_emit_raise hscope _ _ _)
  | index array offset span iha iho =>
    rw [Expr.script]
    exact (iha hscope).seq <| (iho hscope).seq (makes_emit_raise hscope _ _ _)
  | paren e span ih =>
    rw [Expr.script]
    exact ih hscope

theorem LocalVar.makes_script (decl : LocalVar) (hscope : scope.Below n) :
    Makes n (decl.script scope) n :=
  (Expr.makes_scriptOption fun e _ => e.makes_script hscope).seq (makes_emit _ _)

theorem LocalVar.makes_scriptResources (decls : List LocalVar) (hscope : scope.Below n) :
    Makes n (LocalVar.scriptResources scope decls) n := by
  induction decls with
  | nil => exact makes_pure ()
  | cons decl decls ih => exact (decl.makes_script hscope).seq ((makes_raise hscope _).seq ih)

end Expressions

section Statements

open Script

/-- Drawing the statement keeps drafts self-contained, in every scope that names blocks of the
draft. -/
def Stmt.IsContained (s : Stmt) : Prop :=
  ∀ {n : Nat} {scope : Scope} (labels : List String), scope.Below n →
    Makes n (s.script scope labels) n

variable {scope : Scope} {n : Nat}

theorem Stmt.makes_scriptAll {stmts : List Stmt} (h : ∀ s ∈ stmts, s.IsContained)
    (hscope : scope.Below n) :
    Makes n (Stmt.scriptAll stmts scope) n := by
  induction stmts with
  | nil =>
    rw [Stmt.scriptAll]
    exact makes_pure ()
  | cons s stmts ih =>
    rw [Stmt.scriptAll]
    exact (h s List.mem_cons_self [] hscope).seq (ih fun s' hs => h s' (List.mem_cons_of_mem _ hs))

theorem Stmt.makes_scriptElse {alt : Option Stmt} (h : ∀ s, alt = some s → s.IsContained)
    {join : BlockId} (hscope : scope.Below n) (hjoin : join < n)
    (helse : ∀ s, alt = some s → join + 1 < n) :
    Makes n (Stmt.scriptElse alt scope join) n := by
  cases alt with
  | none =>
    rw [Stmt.scriptElse]
    exact makes_pure ()
  | some s =>
    rw [Stmt.scriptElse]
    exact (makes_goto hjoin _).seq ((makes_start (helse s rfl)).seq (h s rfl [] hscope))

/-- Case groups name their own blocks and what follows. -/
theorem CaseGroup.makes_scriptAll {groups : List CaseGroup}
    (h : ∀ group ∈ groups, ∀ s ∈ group.body, s.IsContained) {block after : BlockId}
    (hscope : scope.Below n) (hgroups : block + groups.length ≤ n) (hafter : after < n) :
    Makes n (CaseGroup.scriptAll groups scope block after) n := by
  induction groups generalizing block with
  | nil =>
    rw [CaseGroup.scriptAll]
    exact makes_pure ()
  | cons group groups ih =>
    have hbody := h group List.mem_cons_self
    obtain ⟨_, body, arrow, _⟩ := group
    rw [List.length_cons] at hgroups
    have hend : Makes n (bif arrow then leaveArrowGroup after else change .mark) n := by
      cases arrow with
      | true => exact makes_leaveArrowGroup hafter
      | false => exact makes_mark
    rw [CaseGroup.scriptAll]
    exact (makes_continueAt (by grind)).seq <| (Stmt.makes_scriptAll hbody hscope).seq <|
      hend.seq <| ih (fun group hg => h group (List.mem_cons_of_mem _ hg)) (by grind)

/-- Catch clauses name their own blocks, the `finally` clause and what follows. -/
theorem CatchClause.makes_scriptAll {clauses : List CatchClause}
    (h : ∀ clause ∈ clauses, ∀ s ∈ clause.body.stmts, s.IsContained) {finalizer : Option BlockId}
    {entry after : BlockId} (hscope : scope.Below n)
    (hfinalizer : ∀ id, finalizer = some id → id < n) (hclauses : entry + clauses.length ≤ n)
    (hafter : after < n) :
    Makes n (CatchClause.scriptAll clauses scope finalizer entry after) n := by
  induction clauses generalizing entry with
  | nil =>
    rw [CatchClause.scriptAll]
    exact makes_pure ()
  | cons clause clauses ih =>
    have hbody := h clause List.mem_cons_self
    obtain ⟨_, _, ⟨stmts, _⟩, _⟩ := clause
    rw [List.length_cons] at hclauses
    rw [CatchClause.scriptAll]
    exact (makes_start (by grind)).seq <| (Stmt.makes_scriptAll hbody hscope).seq <|
      (makes_leaveRegion hafter hfinalizer).seq <|
      ih (fun clause hc => h clause (List.mem_cons_of_mem _ hc)) (by grind)

theorem Block.makes_scriptFinalizer {finalizer : Option Block}
    (h : ∀ final, finalizer = some final → ∀ s ∈ final.stmts, s.IsContained) {after : BlockId}
    (hscope : scope.Below n) (hafter : after < n)
    (hentry : ∀ final, finalizer = some final → after + 1 < n) :
    Makes n (Block.scriptFinalizer finalizer scope after) n := by
  cases finalizer with
  | none =>
    rw [Block.scriptFinalizer]
    exact makes_pure ()
  | some final =>
    have hbody := h final rfl
    have hlt := hentry final rfl
    cases final
    rw [Block.scriptFinalizer]
    exact (makes_start hlt).seq <|
      (Stmt.makes_scriptAll hbody hscope).seq (makes_leaveFinalizer hafter _)

/-- Every statement keeps drafts self-contained. A construct makes its blocks before it uses their
numbers, and what it adds to the scope are numbers of these blocks. -/
theorem Stmt.isContained (s : Stmt) : s.IsContained := by
  induction s using Stmt.induct with
  | block b ih =>
    intro n scope labels hscope
    cases b
    rw [Stmt.script]
    exact Stmt.makes_scriptAll ih hscope
  | expr e span =>
    intro n scope labels hscope
    rw [Stmt.script]
    exact e.makes_script hscope
  | localVar decl =>
    intro n scope labels hscope
    rw [Stmt.script]
    exact decl.makes_script hscope
  | ifStmt test cons alt span ihc iha =>
    intro n scope labels hscope
    rw [Stmt.script]
    refine (test.makes_script hscope).seq <| makes_fresh_bind fun onTrue hle => ?_
    -- The block of the `else` branch, if there is one, is made last.
    have hcreate : Makes (onTrue + 2) (alt.elim (pure ()) fun alt => create .normal (some alt.span))
        (onTrue + 2 + alt.toList.length) := by
      cases alt with
      | none => exact makes_pure ()
      | some alt => exact makes_create _ _
    have honFalse : alt.elim (onTrue + 1) (fun _ => onTrue + 2) < onTrue + 2 +
        alt.toList.length := by
      cases alt <;> simp
    have helse : ∀ s, alt = some s → onTrue + 1 + 1 < onTrue + 2 + alt.toList.length := by
      rintro s rfl
      simp
    have hscope : scope.Below (onTrue + 2 + alt.toList.length) := hscope.mono (by grind)
    exact (makes_create _ _).seq <| (makes_create _ _).seq <| hcreate.seq <|
      (makes_branch (by grind) honFalse _).seq <| (makes_start (by grind)).seq <|
      (ihc _ hscope).seq <| (Stmt.makes_scriptElse iha hscope (by grind) helse).seq <|
      (makes_fallInto (by grind)).seq <| (makes_start (by grind)).weaken (by grind)
  | whileStmt test body span ih =>
    intro n scope labels hscope
    rw [Stmt.script]
    refine makes_fresh_bind fun header hle => (makes_create _ _).seq <|
      (makes_continueAt (by grind)).seq <| (test.makes_script (hscope.mono (by grind))).seq <|
        makes_fresh_bind fun inner hinner => ?_
    have hbody : (scope.inside labels (.loop header) (inner + 1)).Below (inner + 1 + 1) :=
      (hscope.mono (by grind)).inside_loop labels (by grind) (by grind)
    exact (makes_create _ _).seq <| (makes_create _ _).seq <|
      (makes_branch (by grind) (by grind) _).seq <| (makes_start (by grind)).seq <|
      (ih _ hbody).seq <| (makes_goto (by grind) _).seq <|
      (makes_start (by grind)).weaken (by grind)
  | doWhile body test span ih =>
    intro n scope labels hscope
    rw [Stmt.script]
    refine makes_fresh_bind fun header hle => ?_
    have hscope : scope.Below (header + 1 + 1 + 1) := hscope.mono (by grind)
    have hbody :
        (scope.inside labels (.loop (header + 1)) (header + 2)).Below (header + 1 + 1 + 1) :=
      hscope.inside_loop labels (by grind) (by grind)
    exact (makes_create _ _).seq <| (makes_create _ _).seq <| (makes_create _ _).seq <|
      (makes_continueAt (by grind)).seq <| (ih _ hbody).seq <| (makes_continueAt (by grind)).seq <|
      (test.makes_script hscope).seq <| (makes_branch (by grind) (by grind) _).seq <|
      (makes_start (by grind)).weaken (by grind)
  | forStmt init test update body span ihi ih =>
    intro n scope labels hscope
    rw [Stmt.script]
    refine (Stmt.makes_scriptAll ihi hscope).seq <| makes_fresh_bind fun header hle => ?_
    -- The block of the updates, if there are any, is made last.
    have hcreate : Makes (header + 3) (onlyIf (!update.isEmpty) (create .normal none))
        (header + 3 + (!update.isEmpty).toNat) := by
      cases update.isEmpty with
      | true => exact makes_pure ()
      | false => exact makes_create _ _
    have hnext : (if update.isEmpty then header else header + 3) < header + 3 +
        (!update.isEmpty).toNat := by
      cases update.isEmpty <;> simp
    have hscope : scope.Below (header + 3 + (!update.isEmpty).toNat) := hscope.mono (by grind)
    have htest : Makes (header + 3 + (!update.isEmpty).toNat)
        (test.elim (terminate (.jump (header + 1)) [.sequential (header + 1)] none) fun test => do
          test.script scope
          branch (header + 1) (header + 2) test.span) (header + 3 + (!update.isEmpty).toNat) := by
      have hinner : header + 1 < header + 3 + (!update.isEmpty).toNat := by grind
      cases test with
      | none =>
        exact makes_terminate (t := .jump (header + 1)) (List.forall_mem_singleton.mpr hinner)
          (List.forall_mem_singleton.mpr hinner) none
      | some test => exact (test.makes_script hscope).seq (makes_branch hinner (by grind) _)
    have hupdate := Expr.makes_scriptAll fun e (_ : e ∈ update) => e.makes_script hscope
    exact (makes_create _ _).seq <| (makes_continueAt (by grind)).seq <| (makes_create _ _).seq <|
      (makes_create _ _).seq <| hcreate.seq <| htest.seq <| (makes_start (by grind)).seq <|
      (ih _ (hscope.inside_loop labels (by grind) hnext)).seq <|
      (makes_onlyIf _ ((makes_goto hnext _).seq ((makes_start hnext).seq hupdate))).seq <|
      (makes_goto (by grind) _).seq <| (makes_start (by grind)).weaken (by grind)
  | forEach var iterable body span ih =>
    intro n scope labels hscope
    rw [Stmt.script]
    refine (iterable.makes_script hscope).seq <| makes_fresh_bind fun header hle => ?_
    have hbody : (scope.inside labels (.loop header) (header + 2)).Below (header + 1 + 1 + 1) :=
      (hscope.mono (by grind)).inside_loop labels (by grind) (by grind)
    exact (makes_create _ _).seq <| (makes_continueAt (by grind)).seq <| (makes_create _ _).seq <|
      (makes_create _ _).seq <| (makes_branch (by grind) (by grind) _).seq <|
      (makes_start (by grind)).seq <| (makes_emit _ _).seq <| (ih _ hbody).seq <|
      (makes_goto (by grind) _).seq <| (makes_start (by grind)).weaken (by grind)
  | switch selector groups span ih =>
    intro n scope labels hscope
    rw [Stmt.script]
    refine (selector.makes_script hscope).seq <| makes_fresh_bind fun after hle => ?_
    have hbody : (scope.inside labels .switch after).Below (after + 1 + groups.length) :=
      (hscope.mono (by grind)).inside labels (by grind) fun _ hk => absurd hk (by simp)
    exact (makes_create _ _).seq <| (makes_createGroups groups).seq <|
      (makes_select (by grind) (Nat.le_refl _) _).seq <|
      (CaseGroup.makes_scriptAll ih hbody (Nat.le_refl _) (by grind)).seq <|
      (makes_continueAt (by grind)).weaken (by grind)
  | tryStmt resources block catches finalizer span ihb ihc ihf =>
    intro n scope labels hscope
    cases block
    rw [Stmt.script]
    refine makes_fresh_bind fun after hle => ?_
    have hcreate :
      Makes (after + 1) (finalizer.elim (pure ()) fun block => create .finalizer (some block.span))
        (Draft.firstCatch after finalizer) := by
      cases finalizer with
      | none => exact makes_pure ()
      | some block => exact makes_create _ _
    have hafter := Draft.lt_firstCatch after finalizer
    have hscope : scope.Below (Draft.firstCatch after finalizer + catches.length + 1) :=
      hscope.mono (by grind)
    -- The entries come before the block that is made last, the first one of the `try` block.
    have hentries : ∀ id, (Draft.handlerAt after catches finalizer).HasEntry id →
        id < Draft.firstCatch after finalizer + catches.length + 1 :=
      fun id hid => Nat.lt_succ_of_lt (Draft.hasEntry_handlerAt hid).2
    have hfinal : ∀ id, (finalizer.map fun _ => after + 1) = some id →
        id < Draft.firstCatch after finalizer + catches.length + 1 :=
      fun id hid => hentries id (Or.inr hid)
    have hclauses : (scope.guarded ⟨[], finalizer.map fun _ => after + 1⟩).Below
        (Draft.firstCatch after finalizer + catches.length + 1) := by
      refine hscope.guarded fun id hid => ?_
      rcases hid with ⟨c, hc, _⟩ | hid
      · exact absurd hc List.not_mem_nil
      · exact hfinal id hid
    have hentry : ∀ final, finalizer = some final →
        after + 1 < Draft.firstCatch after finalizer + catches.length + 1 := by
      rintro final rfl
      exact hfinal _ rfl
    exact (makes_create _ _).seq <| hcreate.seq <| (makes_createClauses catches).seq <|
      (makes_create _ _).seq <| (makes_continueAt (Nat.lt_succ_self _)).seq <|
      (makes_expectUnchecked _ fun c hc => hentries c.entry (Or.inl ⟨c, hc, rfl⟩)).seq <|
      (LocalVar.makes_scriptResources resources (hscope.guarded hentries)).seq <|
      (Stmt.makes_scriptAll ihb (hscope.guarded hentries)).seq <|
      (makes_leaveRegion (by grind) hfinal).seq <|
      (CatchClause.makes_scriptAll ihc hclauses hfinal (Nat.le_succ _) (by grind)).seq <|
      (Block.makes_scriptFinalizer ihf hscope (by grind) hentry).seq <|
      (makes_continueAt (by grind)).weaken (by grind)
  | labeled label body span ih =>
    intro n scope labels hscope
    rw [Stmt.script]
    split
    · exact makes_lift _
    · split
      · exact ih _ hscope
      · refine makes_fresh_bind fun after hle => (makes_create _ _).seq ?_
        have hbody : (scope.inside (labels ++ [label]) .labeled after).Below (after + 1) :=
          (hscope.mono (by grind)).inside _ (by grind) fun _ hk => absurd hk (by simp)
        exact (ih _ hbody).seq ((makes_continueAt (by grind)).weaken (by grind))
  | breakStmt label span =>
    intro n scope labels hscope
    rw [Stmt.script]
    refine keeps_lift_bind (fun _ hd => hd.toSelfContained) fun target htarget => ?_
    have hm := Scope.breakTarget_mem htarget
    have hbreak : target.breakTo < n := hscope _ (Or.inr (Or.inr ⟨target, hm, Or.inl rfl⟩))
    exact makes_jumpVia (t := .breaking target.breakTo) hscope
      (List.forall_mem_singleton.mpr hbreak) (.breaking hm) (fun p hp => .breaking hm hp) span
  | continueStmt label span =>
    intro n scope labels hscope
    rw [Stmt.script]
    refine keeps_lift_bind (fun _ hd => hd.toSelfContained) fun target htarget => ?_
    obtain ⟨hm, hround⟩ := Scope.continueTarget_mem htarget
    have hnext : target.2 < n := hscope _ (Or.inr (Or.inr ⟨target.1, hm, Or.inr hround⟩))
    exact makes_jumpVia (t := .continuing target.2) hscope (List.forall_mem_singleton.mpr hnext)
      (.continuing hm hround) (fun p hp => .continuing hm hround hp) span
  | returnStmt arg span =>
    intro n scope labels hscope
    rw [Stmt.script]
    exact (Expr.makes_scriptOption fun e _ => e.makes_script hscope).seq <|
      makes_jumpVia hscope (List.forall_mem_nil _) .returning (fun p hp => .returning hp) span
  | throwStmt arg span =>
    intro n scope labels hscope
    rw [Stmt.script]
    exact (arg.makes_script hscope).seq <|
      (makes_jump (List.forall_mem_nil _) (fun e he => hscope.leaves_lt (.throwing he)) span).seq <|
      makes_resume fun p hp => hscope.registers_lt (.throwing hp)
  | synchronized lock body span ih =>
    intro n scope labels hscope
    cases body
    rw [Stmt.script]
    exact (lock.makes_script hscope).seq <| (makes_emit _ _).seq (Stmt.makes_scriptAll ih hscope)
  | assertStmt | empty =>
    intro n scope labels hscope
    rw [Stmt.script]
    exact makes_pure ()
  | localClass ident span =>
    intro n scope labels hscope
    rw [Stmt.script]
    exact makes_emit _ _
  | missing span =>
    intro n scope labels hscope
    rw [Stmt.script]
    exact makes_lift _

end Statements

/-! ## Bodies -/

/-- The last stage is the draft after all changes. -/
theorem Draft.after_mem_stages (d : Draft) (changes : List Change) :
    d.after changes ∈ d.stages changes := by
  induction changes generalizing d with
  | nil => exact List.mem_singleton_self d
  | cons c changes ih => exact List.mem_cons_of_mem _ (ih (c.apply d))

namespace Graph

open Script

variable {types : Subtyping} {body : Block} {d : Draft}

/-- Drawing a body names known blocks at every single change. -/
theorem makes_script (types : Subtyping) (body : Block) : Makes 2 (script types body) 2 := by
  have hscope : ({ types } : Scope).Below 2 := by
    rintro id (rfl | ⟨handler, hm, _⟩ | ⟨target, hm, _⟩)
    · decide
    · exact absurd hm List.not_mem_nil
    · exact absurd hm List.not_mem_nil
  have hspan : Makes 2 (change (.modify entry fun b => { b with span := some body.span })) 2 :=
    makes_modify entry fun _ _ _ hb => { hb with }
  exact hspan.seq <|
    (Stmt.makes_scriptAll (fun s _ => s.isContained) hscope).seq (makes_fallInto (by decide))

/-- At every point of the drawing of a body the draft is self-contained. -/
theorem selfContained_of_passed (h : d ∈ (script types body).passed .initial) : d.SelfContained :=
  (makes_script types body .initial Draft.hasBlocks_initial).1 d h

/-- A finished draft names blocks of its own only. -/
theorem selfContained_draft (h : draft types body = .ok d) : d.SelfContained := by
  rw [← run_script] at h
  obtain ⟨_, _, h⟩ := Except.of_bind_ok h
  cases h
  exact selfContained_of_passed (Draft.after_mem_stages _ _)

end Graph

end MethodFlow
