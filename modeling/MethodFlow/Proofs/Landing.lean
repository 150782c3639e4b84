import MethodFlow.Proofs.Paths
import MethodFlow.Proofs.Segments
import MethodFlow.Proofs.Semantics

/-!
# Where executions are in a drawing

Fix the finished draft `D`. `d.At D w` says that a path of the finished graph has run through `w`
and stands at the end of the open block of `d`. `Lands` says where an execution is in the drawing
when a statement is left: still at the open block if it is completed; otherwise at the end of the
first edge of its way out, with the rest of the way registered at the `finally` clauses in between.

`Follows d d' b` is the claim about a piece of code with behaviour `b` drawn from `d` to `d'`:
whenever an execution stands at the end of `d`, each of its executions lands in `d'`. The rules
below go with the operations on behaviours and on drafts.
-/

namespace MethodFlow

/-- Some path of the graph runs through the elements, the last of them in a block that it need not
leave. -/
def Graph.Shows (g : Graph) (w : List Element) : Prop :=
  ∃ id b u p, w = u ++ p ∧ g.Path Graph.entry u id ∧ g.block? id = some b ∧ p <+: b.elements

namespace Draft

/-- The elements that a block has so far. -/
def Contains (d : Draft) (id : BlockId) (es : List Element) : Prop :=
  (d.graph.block? id).map (·.elements) = some es

/-- A path of the finished graph runs through the elements and comes to a block. -/
abbrev Leads (D : Draft) (w : List Element) (id : BlockId) : Prop := D.graph.Path Graph.entry w id

/-- A path of the finished graph has come to the end of the open block. -/
def At (D d : Draft) (w : List Element) : Prop :=
  ∃ id u es, d.current = some id ∧ d.Contains id es ∧ D.Leads u id ∧ w = u ++ es

variable {D d d' : Draft} {w : List Element}

theorem contains_iff {id : BlockId} {es : List Element} :
    d.Contains id es ↔ ∃ b, d.graph.block? id = some b ∧ b.elements = es :=
  Option.map_eq_some_iff

/-- A block keeps its elements while it waits. -/
theorem Contains.of_waiting {id : BlockId} {es : List Element} (h : d.Contains id es)
    (hext : d.Extends d') (hw : d'.Waiting id) : d'.Contains id es := by
  obtain ⟨b, hb, rfl⟩ := contains_iff.mp h
  have hc := hext.cores id (Graph.lt_size_of_block? hb) (Or.inr hw)
  rw [hb, Option.map_some] at hc
  obtain ⟨b', hb', he⟩ := Option.map_eq_some_iff.mp hc
  exact contains_iff.mpr ⟨b', hb', congrArg (·.elements) he⟩

theorem contains_add (d : Draft) (b : BasicBlock) : (d.add b).Contains d.fresh b.elements :=
  contains_iff.mpr ⟨b, (block?_add d _ _).trans (if_pos rfl), rfl⟩

theorem Contains.add {id : BlockId} {es : List Element} (h : d.Contains id es) (b : BasicBlock) :
    (d.add b).Contains id es := by
  obtain ⟨b', hb, he⟩ := contains_iff.mp h
  exact contains_iff.mpr ⟨b', (block?_add_of_lt (Graph.lt_size_of_block? hb) _).trans hb, he⟩

/-- The blocks from number `n` on that are still to be opened have no elements. -/
def Blank (d : Draft) (n : BlockId) : Prop :=
  ∀ id, n ≤ id → d.Waiting id → d.Contains id []

theorem blank_fresh (d : Draft) : d.Blank d.fresh :=
  fun _ hle hw => absurd hw.lt (Nat.not_lt_of_le hle)

theorem Blank.create {n : BlockId} (h : d.Blank n) (hd : d.Steady) (kind : BlockKind)
    (span : Option Span) : (d.create kind span).Blank n := by
  intro id hle hw
  rcases (waiting_add hd _ id).mp hw with hw | rfl
  · exact (h id hle hw).add _
  · exact d.contains_add _

theorem Blank.of_extends {n : BlockId} (h : d.Blank n) (hext : d.Extends d')
    (hw : ∀ id, d'.Waiting id → d.Waiting id) : d'.Blank n :=
  fun id hle hid => (h id hle (hw id hid)).of_waiting hext hid

/-! ## Operations extend drafts -/

theorem extends_create (hd : d.Steady) (kind : BlockKind) (span : Option Span) :
    d.Extends (d.create kind span) :=
  extends_add hd kind [] span

theorem extends_closeOpen (hd : d.Steady) (t : Terminator) (edges : List Edge) :
    d.Extends (d.closeOpen t edges) := by
  cases hc : d.current with
  | none =>
    rw [closeOpen_of_none hc]
    exact .refl d
  | some id =>
    rw [closeOpen_of_some hd hc]
    exact extends_sealed hd hc t edges none

theorem steady_create (hd : d.Steady) (kind : BlockKind) (span : Option Span) :
    (d.create kind span).Steady :=
  Move.steady (.add kind [] span) hd

theorem extends_terminate (hd : d.Steady) (t : Terminator) (edges : List Edge)
    (span : Option Span) :
    d.Extends (d.terminate t edges span) := by
  have hopen := Run.ensureOpen hd
  rw [terminate_eq_sealed hd]
  exact (hopen.extends hd).trans
    (extends_sealed (hopen.steady hd) d.current_ensureOpen t edges span)

theorem extends_fallInto (hd : d.Steady) (next : BlockId) : d.Extends (d.fallInto next) :=
  (extends_closeOpen hd _ _).trans (extends_resolveDangling _ _)

theorem extends_goto (hd : d.Steady) (kind : EdgeKind) (target : BlockId) :
    d.Extends (d.goto kind target) :=
  (extends_closeOpen hd _ _).trans (extends_resolveDangling _ _)

theorem extends_start (idle : d.current = none) (next : BlockId) : d.Extends (d.start next) := by
  rw [start_of_none idle]
  exact extends_enter idle next

theorem extends_continueAt (hd : d.Steady) (next : BlockId) : d.Extends (d.continueAt next) := by
  rw [← fallInto_start]
  exact (extends_fallInto hd next).trans (extends_start (current_fallInto d next) next)

theorem extends_turn (hd : d.Steady) (kind : EdgeKind) (target next : BlockId) :
    d.Extends (d.turn kind target next) :=
  (extends_goto hd kind target).trans (extends_start (current_goto d kind target) next)

/-- Blocks stay blank while parts are drawn. -/
theorem Blank.part {n : BlockId} {scope : Scope} (h : d.Blank n) (hd : d.Steady)
    (hpart : Drawn scope d d' d.Waiting) : d'.Blank n :=
  h.of_extends (hpart.run.extends hd) fun id => (hpart.waiting id).mp

theorem Blank.branch {n : BlockId} (h : d.Blank n) (hd : d.Steady) (onTrue onFalse : BlockId)
    (span : Span) : (d.branch onTrue onFalse span).Blank n :=
  h.of_extends (extends_terminate hd _ _ _) fun id => (waiting_terminate hd _ _ _ id).mp

theorem Blank.fallInto {n : BlockId} (h : d.Blank n) (hd : d.Steady) (next : BlockId) :
    (d.fallInto next).Blank n :=
  h.of_extends (extends_fallInto hd next) fun id => (waiting_fallInto hd next id).mp

theorem Blank.goto {n : BlockId} (h : d.Blank n) (hd : d.Steady) (kind : EdgeKind)
    (target : BlockId) :
    (d.goto kind target).Blank n :=
  h.of_extends (extends_goto hd kind target) fun id => (waiting_goto hd kind target id).mp

theorem Blank.start {n : BlockId} (h : d.Blank n) (idle : d.current = none) (next : BlockId) :
    (d.start next).Blank n :=
  h.of_extends (extends_start idle next) fun id hid => ((waiting_start idle id next).mp hid).1

theorem Blank.continueAt {n : BlockId} (h : d.Blank n) (hd : d.Steady) (next : BlockId) :
    (d.continueAt next).Blank n := by
  rw [← fallInto_start]
  exact (h.fallInto hd next).start (current_fallInto d next) next

theorem Blank.turn {n : BlockId} (h : d.Blank n) (hd : d.Steady) (kind : EdgeKind)
    (target next : BlockId) : (d.turn kind target next).Blank n :=
  (h.goto hd kind target).start (current_goto d kind target) next

/-! ## Steps of an execution -/

/-- What has been run through so far is part of the finished graph. -/
theorem At.shows (h : At D d w) (hext : d.Extends D) : D.graph.Shows w := by
  obtain ⟨id, u, es, _, hc, hp, rfl⟩ := h
  obtain ⟨b, hb, rfl⟩ := contains_iff.mp hc
  obtain ⟨b', hb', hg⟩ := hext.blocks id b hb
  exact ⟨id, b', u, _, rfl, hp, hb', hg.elements⟩

/-- An exceptional edge may be taken in the middle of a block. -/
theorem At.exceptional (h : At D d w) (hext : d.Extends D) {id target : BlockId} {b : BasicBlock}
    (isOpen : d.current = some id) (hb : d.graph.block? id = some b)
    (he : .exceptional target ∈ b.successors) : D.Leads w target := by
  obtain ⟨i, u, es, hi, hc, hp, rfl⟩ := h
  cases isOpen.symm.trans hi
  obtain ⟨b₁, hb₁, rfl⟩ := contains_iff.mp hc
  cases hb.symm.trans hb₁
  obtain ⟨b', hb', hg⟩ := hext.blocks id b hb
  exact hp.step hb' (hg.successors.subset he) (BasicBlock.spells_exceptional hg.elements)

/-- When the open block is closed, control can take each of the edges that end it. -/
theorem At.sealed (h : At D d w) {id : BlockId} (isOpen : d.current = some id) {t : Terminator}
    {edges : List Edge} {span : Option Span} (hext : (d.sealed id t edges span).Extends D)
    {e : Edge} (he : e ∈ edges) : D.Leads w e.target := by
  obtain ⟨i, u, es, hi, hc, hp, rfl⟩ := h
  cases isOpen.symm.trans hi
  obtain ⟨b, hb, rfl⟩ := contains_iff.mp hc
  have hlt : id < (d.sealed id t edges span).fresh := by
    rw [fresh_sealed]
    exact Graph.lt_size_of_block? hb
  have hcore := hext.cores id hlt (Or.inl List.mem_cons_self)
  rw [block?_sealed, if_pos rfl, hb, Option.map_some, Option.map_some] at hcore
  obtain ⟨b', hb', hcore⟩ := Option.map_eq_some_iff.mp hcore
  have hes : b'.elements = b.elements := congrArg (·.elements) hcore
  have hsucc : b'.successors = appendAllNew b.successors edges := congrArg (·.successors) hcore
  have hmem : e ∈ b'.successors := by
    rw [hsucc]
    exact mem_appendAllNew.mpr (Or.inr he)
  rw [← hes]
  exact hp.step hb' hmem (b'.spells_elements e)

theorem At.current (h : At D d w) : ∃ id, d.current = some id := by
  obtain ⟨id, _, _, hi, _⟩ := h
  exact ⟨id, hi⟩

/-- An execution in the open block leads along each edge that closes it. -/
theorem At.closeOpen (h : At D d w) (hd : d.Steady) {t : Terminator} {edges : List Edge}
    (hext : (d.closeOpen t edges).Extends D) {e : Edge} (he : e ∈ edges) :
    D.Leads w e.target := by
  obtain ⟨id, isOpen⟩ := h.current
  rw [closeOpen_of_some hd isOpen] at hext
  exact h.sealed isOpen hext he

theorem At.terminate (h : At D d w) (hd : d.Steady) {t : Terminator} {edges : List Edge}
    {span : Option Span} (hext : (d.terminate t edges span).Extends D) {e : Edge} (he : e ∈ edges) :
    D.Leads w e.target := by
  obtain ⟨id, isOpen⟩ := h.current
  rw [terminate_eq_sealed hd, ensureOpen_of_some isOpen, openBlock_eq isOpen] at hext
  exact h.sealed isOpen hext he

theorem At.fallInto (h : At D d w) (hd : d.Steady) {next : BlockId}
    (hext : (d.fallInto next).Extends D) : D.Leads w next :=
  h.closeOpen hd ((extends_resolveDangling _ _).trans hext) List.mem_cons_self

theorem At.goto (h : At D d w) (hd : d.Steady) {kind : EdgeKind} {target : BlockId}
    (hext : (d.goto kind target).Extends D) : D.Leads w target :=
  h.closeOpen hd ((extends_resolveDangling _ _).trans hext) List.mem_cons_self

/-- Going on in a block that a path leads to. -/
theorem At.start {id : BlockId} {es : List Element} (hp : D.Leads w id)
    (hc : d.Contains id es) (idle : d.current = none) : At D (d.start id) (w ++ es) := by
  rw [start_of_none idle]
  exact ⟨id, w, es, rfl, hc, hp, rfl⟩

/-- An execution that leads to an empty block is there once that block is started. -/
theorem At.start_nil {id : BlockId} (hp : D.Leads w id) (hc : d.Contains id [])
    (idle : d.current = none) : At D (d.start id) w := by
  have h := At.start hp hc idle
  rwa [List.append_nil] at h

theorem At.add (h : At D d w) (b : BasicBlock) : At D (d.add b) w := by
  obtain ⟨id, u, es, hi, hc, hp, rfl⟩ := h
  exact ⟨id, u, es, hi, hc.add b, hp, rfl⟩

/-- Going on in a waiting block that a path leads to. -/
theorem At.continueAt_of_path {next : BlockId} (hp : D.Leads w next)
    (hd : d.Steady) (hw : d.Waiting next) (hc : d.Contains next []) :
      At D (d.continueAt next) w := by
  rw [← fallInto_start]
  refine At.start_nil hp ?_ (current_fallInto d next)
  exact hc.of_waiting (extends_fallInto hd next) ((waiting_fallInto hd next next).mpr hw)

/-- Running on into a waiting block. -/
theorem At.continueAt (h : At D d w) {next : BlockId} (hd : d.Steady) (hw : d.Waiting next)
    (hc : d.Contains next []) (hext : (d.continueAt next).Extends D) :
    At D (d.continueAt next) w := by
  have hfall : (d.fallInto next).Extends D := by
    refine (extends_start (current_fallInto d next) next).trans ?_
    rw [fallInto_start]
    exact hext
  exact .continueAt_of_path (h.fallInto hd hfall) hd hw hc

/-- Going on in a waiting block after control was sent somewhere else. -/
theorem At.turn_of_path {kind : EdgeKind} {target next : BlockId}
    (hp : D.Leads w next) (hd : d.Steady) (hw : d.Waiting next)
    (hc : d.Contains next []) : At D (d.turn kind target next) w := by
  refine At.start_nil hp ?_ (current_goto d kind target)
  exact hc.of_waiting (extends_goto hd kind target) ((waiting_goto hd kind target next).mpr hw)

theorem At.turn (h : At D d w) {kind : EdgeKind} {target next : BlockId} (hd : d.Steady)
    (hext : (d.turn kind target next).Extends D) : D.Leads w target :=
  h.goto hd ((extends_start (current_goto d kind target) next).trans hext)

/-- An execution goes on with each element that is written. -/
theorem At.emit (h : At D d w) (kind : ElementKind) (span : Span) :
    At D (d.emit kind span) (w ++ [⟨kind, span⟩]) := by
  obtain ⟨id, u, es, hi, hc, hp, rfl⟩ := h
  obtain ⟨b, hb, rfl⟩ := contains_iff.mp hc
  refine ⟨id, u, b.elements ++ [⟨kind, span⟩], ?_, ?_, hp, List.append_assoc ..⟩
  · rw [current_emit, openBlock_eq hi]
  · rw [Draft.emit, ensureOpen_of_some hi, openBlock_eq hi]
    refine contains_iff.mpr ⟨{ b with elements := b.elements ++ [⟨kind, span⟩] }, ?_, rfl⟩
    rw [block?_modify, if_pos rfl, hb, Option.map_some]

/-- Edges drawn out of the open block leave an execution where it is. -/
theorem At.addEdges (h : At D d w) (edges : List Edge) : At D (d.addEdges d.openBlock edges) w := by
  obtain ⟨id, u, es, hi, hc, hp, rfl⟩ := h
  obtain ⟨b, hb, rfl⟩ := contains_iff.mp hc
  refine ⟨id, u, b.elements, hi, contains_iff.mpr ⟨{ b with
    successors := appendAllNew b.successors edges }, ?_, rfl⟩, hp, rfl⟩
  rw [openBlock_eq hi, Draft.addEdges, block?_modify, if_pos rfl, hb, Option.map_some]

theorem At.raise (h : At D d w) (scope : Scope) (declared : List TypeName) :
    At D (d.raise scope declared) w :=
  h.addEdges _

/-! ## Landing -/

/-- Control is on the route of a jump, and the rest of the route is known to the `finally`
clauses. -/
def Takes (D d : Draft) (w : List Element) (route : JumpRoute) : Prop :=
  D.Leads w route.edge.target ∧ route.resumptions ⊆ d.resumptions

/-- Control can be at each of the first places that exceptions come to, and the `finally` clauses
among them know where to send them on to. -/
def Spreads (D d : Draft) (w : List Element) (route : ThrowRoute) : Prop :=
  (∀ id ∈ route.targets, D.Leads w id) ∧ route.resumptions ⊆ d.resumptions

/-- Where an execution is when it has run through `w` and a statement is left, drawn up to `d` in a
scope and with labels in front of it. -/
def Lands (D : Draft) (scope : Scope) (labels : List String) (d : Draft) (w : List Element) :
    Exit → Prop
  | .completed => At D d w
  | .stopped => D.graph.Shows w
  | .breaking label =>
    (∃ l ∈ labels, label = some l) ∧ At D d w ∨
      (∀ l ∈ labels, label ≠ some l) ∧
        ∃ line target, scope.breakTarget label line = .ok target ∧
          Takes D d w (scope.breakRoute target)
  | .continuing label =>
    ∃ line target next, scope.continueTarget label line = .ok (target, next) ∧
      Takes D d w (scope.continueRoute target next)
  | .returning => Takes D d w scope.returnRoute
  | .threw type =>
    ∃ thrown, type ∈ thrown ∧ Spreads D d w (.through scope.types true scope.handlers thrown [])
  | .raised type =>
    D.graph.Shows w ∧
      ∃ thrown, type ∈ thrown ∧ Spreads D d w (.through scope.types false scope.handlers thrown [])

/-- A route that is taken stays taken in every later draft. -/
theorem Takes.of_extends {route : JumpRoute} (h : Takes D d w route) (hext : d.Extends d') :
    Takes D d' w route :=
  ⟨h.1, List.Subset.trans h.2 hext.resumptions⟩

theorem Spreads.of_extends {route : ThrowRoute} (h : Spreads D d w route) (hext : d.Extends d') :
    Spreads D d' w route :=
  ⟨h.1, List.Subset.trans h.2 hext.resumptions⟩

variable {scope : Scope}

/-- An execution that has left a statement stays where it is while drawing goes on. -/
theorem Lands.of_extends {x : Exit} (h : Lands D scope [] d w x) (hext : d.Extends d')
    (hx : x ≠ .completed) : Lands D scope [] d' w x := by
  cases x with
  | completed => exact absurd rfl hx
  | stopped => exact h
  | breaking label =>
    rcases h with ⟨⟨l, hl, _⟩, _⟩ | ⟨hl, line, target, ht, hr⟩
    · exact nomatch hl
    · exact Or.inr ⟨hl, line, target, ht, hr.of_extends hext⟩
  | continuing label =>
    obtain ⟨line, target, next, ht, hr⟩ := h
    exact ⟨line, target, next, ht, hr.of_extends hext⟩
  | returning => exact Takes.of_extends h hext
  | threw type =>
    obtain ⟨thrown, hm, hs⟩ := h
    exact ⟨thrown, hm, hs.of_extends hext⟩
  | raised type =>
    obtain ⟨hw, thrown, hm, hs⟩ := h
    exact ⟨hw, thrown, hm, hs.of_extends hext⟩

/-- Labels in front of a statement matter only to a `break` with one of them. -/
theorem Lands.with_labels {labels : List String} {x : Exit} (h : Lands D scope [] d w x)
    (hx : ∀ l ∈ labels, x ≠ .breaking (some l)) : Lands D scope labels d w x := by
  cases x with
  | breaking label =>
    rcases h with ⟨⟨l, hl, _⟩, _⟩ | ⟨_, ht⟩
    · exact nomatch hl
    · exact Or.inr ⟨fun l hl he => hx l hl (congrArg Exit.breaking he), ht⟩
  | _ => exact h

/-- Labels that are new do not matter to code that was drawn without them. -/
theorem Lands.of_hasLabel {labels : List String} {x : Exit} (h : Lands D scope [] d w x)
    (hl : ∀ l ∈ labels, scope.hasLabel l = false) : Lands D scope labels d w x := by
  refine h.with_labels fun l hm hx => ?_
  subst hx
  rcases h with ⟨⟨_, hm, _⟩, _⟩ | ⟨_, line, target, ht, _⟩
  · exact nomatch hm
  · have hnone : scope.targets.find? (·.hasLabel l) = none :=
      List.find?_eq_none.mpr (List.any_eq_false.mp (hl l hm))
    rw [Scope.breakTarget, Scope.labelTarget, hnone] at ht
    exact nomatch ht

/-- Only an execution that has come to the end of a statement moves with the open block. -/
theorem Lands.mono {x : Exit} (h : Lands D scope [] d w x) (hext : d.Extends d')
    (hat : At D d w → At D d' w) : Lands D scope [] d' w x := by
  by_cases hx : x = .completed
  · subst hx
    exact hat h
  · exact h.of_extends hext hx

/-- Every execution of the behaviour that starts at the end of `d` lands in `d'`. -/
def Follows (D : Draft) (scope : Scope) (labels : List String) (d d' : Draft)
    (b : Behaviour) : Prop :=
  ∀ w, At D d w → ∀ t x, b t x → Lands D scope labels d' (w ++ t) x

namespace Follows

variable {labels : List String} {d₁ d₂ : Draft} {a b : Behaviour}

/-- Drawing nothing follows an execution that does nothing. -/
theorem skip (D d : Draft) (scope : Scope) : Follows D scope [] d d (.leave .completed) := by
  rintro w h t x ⟨rfl, rfl⟩
  rw [List.append_nil]
  exact h

/-- One piece after the other, where labels are meant for the second one. -/
theorem andThen (ha : Follows D scope [] d d₁ a) (hb : Follows D scope labels d₁ d₂ b)
    (hl : ∀ l ∈ labels, scope.hasLabel l = false) (hext : d₁.Extends d₂) :
    Follows D scope labels d d₂ (a.andThen b) := by
  intro w h t x
  rintro (⟨hx, hne⟩ | ⟨u, v, rfl, hu, hv⟩)
  · exact ((ha w h t x hx).of_extends hext hne).of_hasLabel hl
  · rw [← List.append_assoc]
    exact hb _ (ha w h u .completed hu) v x hv

theorem emit (kind : ElementKind) (span : Span) (hext : (d.emit kind span).Extends D) :
    Follows D scope [] d (d.emit kind span) (.emit kind span) := by
  rintro w h t x ⟨rfl, rfl | rfl⟩
  · exact h.emit kind span
  · exact (h.emit kind span).shows hext

/-- An element inside a `try` statement may raise what its `throws` list says. -/
theorem raise (declared : List TypeName) (hext : (d.raise scope declared).Extends D) :
    Follows D scope [] d (d.raise scope declared)
      (.mayRaise (!scope.handlers.isEmpty) declared) := by
  rintro w h t x ⟨rfl, rfl | ⟨_, type, hm, rfl⟩⟩
  · rw [List.append_nil]
    exact h.raise scope declared
  · rw [List.append_nil]
    have hat := h.raise scope declared
    refine ⟨hat.shows hext, _, hm, fun id hid => ?_, fun p hp => mem_appendAllNew.mpr (Or.inr hp)⟩
    obtain ⟨i, _, _, hi, hc, _, _⟩ := h
    obtain ⟨b, hb, _⟩ := contains_iff.mp hc
    have hb' : (d.raise scope declared).graph.block? i = some { b with
        successors := appendAllNew b.successors (scope.raiseRoute declared).edges } := by
      change (d.addEdges d.openBlock _).graph.block? i = _
      rw [openBlock_eq hi, addEdges, block?_modify, if_pos rfl, hb, Option.map_some]
    refine hat.exceptional hext hi hb' ?_
    exact mem_appendAllNew.mpr (Or.inr (List.mem_map.mpr ⟨id, hid, rfl⟩))

end Follows

end Draft

end MethodFlow
