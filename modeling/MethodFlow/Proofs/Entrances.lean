import MethodFlow.Proofs.Contents
import MethodFlow.Proofs.Exceptions
import MethodFlow.Proofs.Regions
import MethodFlow.Proofs.Remainders
import MethodFlow.Proofs.Unfolding

/-!
# Where the parts of a `try` statement are entered

A `try` statement is drawn in stages: its blocks are made and the first block of the `try` block is
entered; resources and `try` block are drawn; then the catch clauses; then the `finally` clause;
then the rest of the body. Each stage adds edges to blocks that are not closed yet and by rules of
its own, and so the stage an edge belongs to says both where it comes from and where it may lead.

Main result: `Graph.build_entrances`.
-/

namespace MethodFlow

open Draft (Drawn Run Trace Traced)

namespace Draft

variable {d d' : Draft} {id : BlockId} {b : BasicBlock} {e : Edge}

/-- The block was opened on the way from one draft to the other. -/
def Opens (d d' : Draft) (id : BlockId) : Prop := id ∈ d'.opened ∧ id ∉ d.opened

theorem mem_opened : id ∈ d.opened ↔ id ∈ d.closed ∨ d.current = some id := by
  rw [opened, List.mem_append, List.mem_reverse, Option.mem_toList]

/-- A block with edges has been opened. -/
theorem Tidy.mem_opened (h : d.Tidy) (hb : d.graph.block? id = some b) (he : e ∈ b.successors) :
    id ∈ d.opened := by
  refine Draft.mem_opened.mpr ?_
  by_cases hclosed : id ∈ d.closed
  · exact Or.inl hclosed
  · by_cases hcur : d.current = some id
    · exact Or.inr hcur
    · have hnil := h.unlinked id b hb ⟨Graph.lt_size_of_block? hb, hclosed, hcur⟩
      rw [hnil] at he
      exact nomatch he

/-- What has been opened is closed as soon as another block is open. -/
theorem Extends.mem_closed (h : d.Extends d') (hd : d.Steady) (hid : id ∈ d.opened)
    (hcur : d'.current ≠ some id) : id ∈ d'.closed := by
  by_cases hclosed : id ∈ d'.closed
  · exact hclosed
  · have hlt := hd.opened_lt hid
    have hw := h.waiting id hlt ⟨Nat.lt_of_lt_of_le hlt h.fresh_le, hclosed, hcur⟩
    rcases Draft.mem_opened.mp hid with hid | hid
    · exact absurd hid hw.2.1
    · exact absurd hid hw.2.2

/-- If all blocks that wait go on waiting, those that are opened are new. -/
theorem Opens.new (h : Opens d d' id) (hkeep : ∀ id, d.Waiting id → d'.Waiting id) :
    d.fresh ≤ id := by
  refine Nat.le_of_not_lt fun hlt => ?_
  have hnot := mt Draft.mem_opened.mpr h.2
  have hw := hkeep id ⟨hlt, fun hc => hnot (Or.inl hc), fun hc => hnot (Or.inr hc)⟩
  rcases Draft.mem_opened.mp h.1 with hid | hid
  · exact hw.2.1 hid
  · exact hw.2.2 hid

theorem Trace.unruled {R : Rules} (h : Trace R d d') : Trace (.ofEdges fun _ => True) d d' :=
  h.mono (fun _ _ => trivial) (fun _ _ => trivial) fun _ _ _ _ => trivial

/-- An edge that the rules of a trace exclude was there before. -/
theorem Trace.old_edge {R : Rules} (h : Trace R d d') (hd : d.Steady)
    (hb : d'.graph.block? id = some b) (he : e ∈ b.successors) (hnot : ¬ R.edge e) :
      ∃ b, d.graph.block? id = some b ∧ e ∈ b.successors :=
  (h.mem_successors hd hb he).resolve_right fun ⟨_, hedge, _⟩ => hnot hedge

end Draft

/-! ## The stages of a `try` statement -/

namespace Guard

/-- The first block of the `try` block. -/
def firstBlock (g : Guard) : BlockId := g.firstCatch + g.catches.length

/-- The draft in which this block is open and empty. -/
def entered (g : Guard) : Draft :=
  ((g.draft.makeTry g.catches g.finalizer).create .normal (some g.block.span)).continueAt
    g.firstBlock

/-- The draft at the end of the statement, before the block after it is opened. -/
def drawWhole (g : Guard) : Except BuildFailure Draft := do
  let d ← g.drawGuarded
  Block.drawFinalizer g.finalizer g.scope g.after d

/-- The statement is drawn to `d₁` with its block, to `d₂` with its clauses and to `d₃` as a whole,
on the way to `D`, and the edges of each stage keep to its rules. -/
structure Stages (g : Guard) (d₁ d₂ d₃ D : Draft) : Prop where
  steady : g.draft.Steady
  tidy : g.draft.Tidy
  bounded : g.draft.Bounded
  enter : Trace (.ofEdges fun e => e.target = g.firstBlock) g.draft g.entered
  block :
    Trace (.ofEdges fun e => g.firstCatch ≤ e.target → e.target < g.firstBlock →
      e.isExceptional = true)
    g.entered d₁
  clauses : Trace (.sparing g.firstCatch d₁.fresh) d₁ d₂
  final : Trace (.sparing (g.after + 1) d₂.fresh) d₂ d₃
  rest : Trace (.sparing g.after d₃.fresh) d₃ D
  keeps : ∀ id, g.draft.Waiting id → d₃.Waiting id

/-- Code of the `try` block reaches the catch clauses by exceptions only. -/
theorem admits_block {g : Guard} (R : Draft.Rules) (hfit : g.scope.Fits g.draft) {lo : BlockId}
    (hle : g.firstBlock ≤ lo) :
    (Draft.Rules.ofEdges fun e => g.firstCatch ≤ e.target → e.target < g.firstBlock →
      e.isExceptional = true).Admits R g.blockScope lo where
  new he _ hlt := absurd (Nat.lt_of_lt_of_le hlt (Nat.le_trans hle he)) (Nat.lt_irrefl _)
  leaves := by
    intro e he hfirst _
    cases hx : e.isExceptional with
    | true => rfl
    | false =>
      have hlt : e.target < g.firstCatch := by
        rcases he.of_guarded_normal hfit.depth_le hx with he | he
        · exact Nat.lt_trans (hfit.lt he.names) g.after_lt_firstCatch
        · exact (of_finalBlock? he).2
      exact absurd hlt (Nat.not_lt_of_le hfirst)
  resumption _ := trivial
  ending _ := trivial

end Guard

/-- Every `try` statement of a body is drawn in these stages. -/
theorem Block.HasGuard.stages {types : Subtyping} {body : Block} {D : Draft} {g : Guard}
    (hD : Graph.draft types body = .ok D) (hg : body.HasGuard types g) :
    ∃ d₁ d₂ d₃, g.drawBlock = .ok d₁ ∧ g.drawGuarded = .ok d₂ ∧ g.drawWhole = .ok d₃ ∧
      g.Stages d₁ d₂ d₃ D := by
  obtain ⟨s, hhas, hs⟩ := hg
  obtain ⟨d₁, d₂, d₃, h₁, h₂, hw, h₃, hdraw, _⟩ := (hhas.good hD).guard hs
  obtain ⟨_, hdraft, _⟩ := Site.of_guard? hs
  obtain ⟨_, hdraw', _, hin⟩ := hhas.within hD
  cases hdraw.symm.trans hdraw'
  rw [← hdraft] at hin
  obtain ⟨hended, _⟩ := hw.done.drawFinalizer (fun _ _ s _ => s.faithful) h₃
  have hbegun := Draft.steady_begun body.span
  have hwhole : g.drawWhole = .ok d₃ := by
    rw [Guard.drawWhole, h₂]
    exact h₃
  have hfirst :
      g.firstBlock ≤ (g.draft.openTry g.scope.types g.catches g.finalizer g.block.span).fresh := by
    rw [Draft.fresh_openTry]
    exact Nat.le_succ _
  -- The stages one by one: opening, block, clauses, `finally` clause, and the rest of the body.
  have hblock := (Guard.trace_drawBlock hhas hs (fun s _ => s.traceable hD) hw h₁).admitted
    (Guard.admits_block _ hw.ready.fits hfirst)
  have hexpect := Trace.expectTry (R := .ofEdges fun e => g.firstCatch ≤ e.target →
    e.target < g.firstBlock → e.isExceptional = true) hw.ready.steady g.scope.types
      g.catches g.finalizer
    g.block.span fun _ _ _ _ => rfl
  refine ⟨d₁, d₂, d₃, h₁, h₂, hwhole, hw.ready.steady, hin.before.tidy hbegun (Draft.tidy_begun _),
    hin.before.bounded hbegun (Draft.bounded_begun _),
    .enterTry hw.ready.steady types g.catches g.finalizer g.block.span rfl, hexpect.trans hblock,
    Guard.rest_clauses hD hhas hs h₁ h₂ hw, Guard.rest_finally hD hhas hs h₂ hw h₃,
    (hw.rest_past h₃).trans (hin.rest.spare_less (Nat.le_refl _)
      (Draft.extends_continueAt hended.steady _).fresh_le),
    fun id hid => (hended.waiting id).mpr ?_⟩
  have hlt : id < g.after := hid.lt
  refine ⟨⟨Or.inl hid, fun hrange => ?_⟩, fun _ => Nat.ne_of_lt (Nat.lt_succ_of_lt hlt)⟩
  exact absurd (Nat.lt_trans hlt g.after_lt_firstCatch) (Nat.not_lt_of_le hrange.1)

/-! ## Edges into a `try` statement -/

namespace Guard.Stages

variable {g : Guard} {d₁ d₂ d₃ D : Draft} (h : g.Stages d₁ d₂ d₃ D) {id : BlockId}
    {b : BasicBlock} {e : Edge}

include h

theorem steady_entered : g.entered.Steady := h.enter.run.steady h.steady

theorem steady_block : d₁.Steady := h.block.run.steady h.steady_entered

theorem steady_clauses : d₂.Steady := h.clauses.run.steady h.steady_block

theorem steady_whole : d₃.Steady := h.final.run.steady h.steady_clauses

/-- The blocks of the statement are numbered in the order of its stages. -/
theorem firstBlock_lt : g.firstBlock < d₁.fresh ∧ d₁.fresh ≤ d₂.fresh ∧ d₂.fresh ≤ d₃.fresh := by
  have hcur : g.entered.current = some g.firstBlock := Draft.current_continueAt _ _
  exact ⟨Nat.lt_of_lt_of_le (h.steady_entered.current_lt _ hcur)
    (h.block.run.extends h.steady_entered).fresh_le,
    (h.clauses.run.extends h.steady_block).fresh_le,
    (h.final.run.extends h.steady_clauses).fresh_le⟩

/-- So far, the first block of the `try` block is all that an edge into the statement can lead
to. -/
theorem into_entered (hb : g.entered.graph.block? id = some b) (he : e ∈ b.successors)
    (hnew : g.after ≤ e.target) : e.target = g.firstBlock := by
  rcases h.enter.mem_successors h.steady hb he with ⟨b₀, hb₀, he₀⟩ | ⟨_, hedge, _⟩
  · exact absurd (h.bounded.edges id b₀ hb₀ e he₀) (Nat.not_lt_of_le hnew)
  · exact hedge

/-- Later on, edges into the statement come from blocks that it has opened. -/
theorem opens_source {d : Draft} (hd : Trace (.ofEdges fun _ => True) g.entered d)
    (hb : d.graph.block? id = some b) (he : e ∈ b.successors) (hnew : g.after ≤ e.target)
    (hne : e.target ≠ g.firstBlock) : g.draft.Opens d id := by
  rcases hd.mem_successors h.steady_entered hb he with ⟨b₀, hb₀, he₀⟩ | ⟨hid, _, _⟩
  · exact absurd (h.into_entered hb₀ he₀ hnew) hne
  · have htidy := hd.run.tidy h.steady_entered (h.enter.run.tidy h.steady h.tidy)
    refine ⟨htidy.mem_opened hb he, fun hold => hid ?_⟩
    -- What was open when the statement began has been closed in favour of its first block.
    have hcur : g.entered.current = some g.firstBlock := Draft.current_continueAt _ _
    have hlt : id < g.firstBlock :=
      Nat.lt_of_lt_of_le (Nat.lt_trans (h.steady.opened_lt hold) g.after_lt_firstCatch)
        (Nat.le_add_right _ _)
    refine (h.enter.run.extends h.steady).mem_closed h.steady hold ?_
    rw [hcur]
    exact fun heq => absurd (Option.some.inj heq) (Nat.ne_of_gt hlt)

/-- A catch clause is entered by exceptions, from the resources and the `try` block. -/
theorem into_catch (hb : D.graph.block? id = some b) (he : e ∈ b.successors)
    (hfirst : g.firstCatch ≤ e.target) (hlast : e.target < g.firstBlock) :
    e.isExceptional = true ∧ g.draft.Opens d₁ id := by
  obtain ⟨hlt, hle₂, hle₃⟩ := h.firstBlock_lt
  have hafter : g.after < e.target := Nat.lt_of_lt_of_le g.after_lt_firstCatch hfirst
  have hlt₁ := Nat.lt_trans hlast hlt
  have hlt₂ := Nat.lt_of_lt_of_le hlt₁ hle₂
  -- No later stage leads to the clause.
  obtain ⟨b, hb, he⟩ := h.rest.old_edge h.steady_whole hb he
    (Draft.Rules.not_sparing (Nat.le_of_lt hafter) (Nat.lt_of_lt_of_le hlt₂ hle₃))
  obtain ⟨b, hb, he⟩ :=
    h.final.old_edge h.steady_clauses hb he (Draft.Rules.not_sparing hafter hlt₂)
  obtain ⟨b, hb, he⟩ :=
    h.clauses.old_edge h.steady_block hb he (Draft.Rules.not_sparing hfirst hlt₁)
  have hsource := h.opens_source h.block.unruled hb he (Nat.le_of_lt hafter) (Nat.ne_of_lt hlast)
  rcases h.block.mem_successors h.steady_entered hb he with ⟨b₀, hb₀, he₀⟩ | ⟨_, hedge, _⟩
  · exact absurd (h.into_entered hb₀ he₀ (Nat.le_of_lt hafter)) (Nat.ne_of_lt hlast)
  · exact ⟨hedge hfirst hlast, hsource⟩

/-- The `finally` clause is entered from the `try` block and from the catch clauses. -/
theorem into_final (hb : D.graph.block? id = some b) (he : e ∈ b.successors)
    (hentry : g.finalBlock? = some e.target) : g.draft.Opens d₂ id := by
  obtain ⟨hlt, hle₂, hle₃⟩ := h.firstBlock_lt
  obtain ⟨heq, hfirst⟩ := Guard.of_finalBlock? hentry
  have hlast : e.target < g.firstBlock := Nat.lt_of_lt_of_le hfirst (Nat.le_add_right _ _)
  have hlt₂ := Nat.lt_of_lt_of_le (Nat.lt_trans hlast hlt) hle₂
  have hafter : g.after < e.target := by
    rw [heq]
    exact Nat.lt_succ_self _
  obtain ⟨b, hb, he⟩ := h.rest.old_edge h.steady_whole hb he
    (Draft.Rules.not_sparing (Nat.le_of_lt hafter) (Nat.lt_of_lt_of_le hlt₂ hle₃))
  obtain ⟨b, hb, he⟩ :=
    h.final.old_edge h.steady_clauses hb he (Draft.Rules.not_sparing hafter hlt₂)
  exact h.opens_source (h.block.unruled.trans h.clauses.unruled) hb he (Nat.le_of_lt hafter)
    (Nat.ne_of_lt hlast)

/-- From outside, the statement is entered at its first block. -/
theorem into_whole (hb : D.graph.block? id = some b) (he : e ∈ b.successors)
    (hout : ¬ g.draft.Opens d₃ id) (hin : g.draft.Opens d₃ e.target ∨ e.target = g.after) :
      e.target = g.firstBlock := by
  obtain ⟨hlt, hle₂, hle₃⟩ := h.firstBlock_lt
  have hafter : g.after < d₃.fresh := Nat.lt_trans g.after_lt_firstCatch
    (Nat.lt_of_le_of_lt (Nat.le_add_right _ _) (Nat.lt_of_lt_of_le hlt (Nat.le_trans hle₂ hle₃)))
  have hrange : g.after ≤ e.target ∧ e.target < d₃.fresh := by
    rcases hin with hin | heq
    · exact ⟨hin.new h.keeps, h.steady_whole.opened_lt hin.1⟩
    · rw [heq]
      exact ⟨Nat.le_refl _, hafter⟩
  obtain ⟨b, hb, he⟩ :=
    h.rest.old_edge h.steady_whole hb he (Draft.Rules.not_sparing hrange.1 hrange.2)
  by_cases hne : e.target = g.firstBlock
  · exact hne
  · exact absurd
      (h.opens_source ((h.block.unruled.trans h.clauses.unruled).trans h.final.unruled) hb he
      hrange.1 hne) hout

end Guard.Stages

/-- Where the edges of a graph enter a `try` statement that was drawn to `d₁` with its block, to
`d₂` with its clauses and to `d₃` as a whole. -/
structure Guard.Entrances (guard : Guard) (g : Graph) (d₁ d₂ d₃ : Draft) : Prop where
  /-- Catch clauses are entered by exceptional edges, from blocks of the resources and of the `try`
  block. -/
  intoCatch : ∀ id b e, g.block? id = some b → e ∈ b.successors →
    (∃ c ∈ guard.handler.catches, c.entry = e.target) → e.isExceptional = true ∧
      guard.draft.Opens d₁ id
  /-- The `finally` clause is entered from blocks of the `try` block and of the catch clauses. -/
  intoFinal : ∀ id b e, g.block? id = some b → e ∈ b.successors →
    guard.finalBlock? = some e.target →
    guard.draft.Opens d₂ id
  /-- An edge from outside to a block of the statement, or to the one after it, leads to its first
  block. -/
  intoWhole : ∀ id b e, g.block? id = some b → e ∈ b.successors → ¬ guard.draft.Opens d₃ id →
    guard.draft.Opens d₃ e.target ∨ e.target = guard.after → e.target = guard.firstBlock

/-- The stages of a `try` statement keep its parts from being entered elsewhere. -/
theorem Guard.Stages.entrances {g : Guard} {d₁ d₂ d₃ D : Draft} (h : g.Stages d₁ d₂ d₃ D) :
    g.Entrances D.graph d₁ d₂ d₃ where
  intoCatch id b e hb he := by
    rintro ⟨c, hc, hentry⟩
    have hfirst : g.firstCatch ≤ c.entry := Draft.firstCatch_le_handlerAt hc
    have hlast : c.entry < g.firstBlock := (Draft.hasEntry_handlerAt (Or.inl ⟨c, hc, rfl⟩)).2
    rw [hentry] at hfirst hlast
    exact h.into_catch hb he hfirst hlast
  intoFinal _ _ _ hb he := h.into_final hb he
  intoWhole _ _ _ hb he := h.into_whole hb he

namespace Graph

/-- Handlers are entered where they should be. Every `try` statement in the text of a body is drawn,
and no edge of the graph enters one of its parts in another way than `Guard.Entrances` says. Every
exceptional edge leads to the entry of a catch clause or of a `finally` clause, or to the exit, and
to the exit from the end of a `throw` statement or of a `finally` clause only. -/
theorem build_entrances {types : Subtyping} {body : Block} {g : Graph}
    (hg : build types body = .ok g) :
    (∀ resources block catches finalizer span,
      body.Contains (.tryStmt resources block catches finalizer span) →
        ∃ scope d, body.HasGuard types ⟨resources, block, catches, finalizer, scope, d⟩) ∧
    (∀ guard, body.HasGuard types guard → ∃ d₁ d₂ d₃, guard.drawBlock = .ok d₁ ∧
      guard.drawGuarded = .ok d₂ ∧ guard.drawWhole = .ok d₃ ∧ guard.Entrances g d₁ d₂ d₃) ∧
    ∀ id b e, g.block? id = some b → e ∈ b.successors → e.isExceptional = true →
      g.Receives e.target ∨ e.target = exit ∧ b.terminator.letsOut := by
  obtain ⟨D, hD, rfl⟩ := exists_draft hg
  refine ⟨fun _ _ _ _ _ h => Block.exists_guard hD h, fun guard hguard => ?_,
    fun id b e hb he hx => ?_⟩
  · obtain ⟨d₁, d₂, d₃, h₁, h₂, h₃, hstages⟩ := hguard.stages hD
    exact ⟨d₁, d₂, d₃, h₁, h₂, h₃, hstages.entrances⟩
  · exact ((draft_guided hD).edges id b hb e he hx).imp_right fun ⟨ht, _, hend⟩ => ⟨ht, hend⟩

/-- The body with all exits: its guard, and the edges into each part. -/
theorem build_entrances_exitsBody :
    ∃ g guard d₁ d₂ d₃, build ClassHierarchy.javaLang.subtyping exitsBody = .ok g ∧
      exitsBody.HasGuard ClassHierarchy.javaLang.subtyping guard ∧ guard.finalBlock? = some 6 ∧
      guard.firstCatch = 7 ∧ guard.firstBlock = 8 ∧ Edge.exceptional 7 ∈ g.edgesFrom 8 ∧
      Edge.sequential 6 ∈ g.edgesFrom 7 ∧ guard.drawBlock = .ok d₁ ∧ guard.drawGuarded = .ok d₂ ∧
      guard.drawWhole = .ok d₃ ∧ guard.Entrances g d₁ d₂ d₃ ∧
      ∀ id b e, g.block? id = some b → e ∈ b.successors → e.isExceptional = true →
        g.Receives e.target ∨ e.target = exit ∧ b.terminator.letsOut := by
  obtain ⟨g, hg, hcatch, hfinal⟩ : ∃ g, build ClassHierarchy.javaLang.subtyping exitsBody = .ok g ∧
      Edge.exceptional 7 ∈ g.edgesFrom 8 ∧ Edge.sequential 6 ∈ g.edgesFrom 7 :=
    ⟨_, rfl, by decide, by decide⟩
  obtain ⟨guard, hguard, hentry, hfirst, hblock⟩ : ∃ guard,
      exitsBody.HasGuard ClassHierarchy.javaLang.subtyping guard ∧ guard.finalBlock? = some 6 ∧
      guard.firstCatch = 7 ∧ guard.firstBlock = 8 :=
    ⟨_, ⟨_, .part (.top .head) (.whileBody rfl), rfl⟩, rfl, rfl, rfl⟩
  obtain ⟨_, hentrances, hexceptions⟩ := build_entrances hg
  obtain ⟨d₁, d₂, d₃, h₁, h₂, h₃, he⟩ := hentrances guard hguard
  exact ⟨g, guard, d₁, d₂, d₃, hg, hguard, hentry, hfirst, hblock, hcatch, hfinal, h₁, h₂, h₃, he,
    hexceptions⟩

end Graph

end MethodFlow
