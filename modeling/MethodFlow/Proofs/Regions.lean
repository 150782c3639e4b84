import MethodFlow.Proofs.Consistency
import MethodFlow.Proofs.Occurrences
import MethodFlow.Proofs.Tracing

/-!
# Protected code is left through its `finally` clause

The protected code of a `try` statement is drawn in one piece: the entries of its catch clauses are
made right before the first block of the `try` block, and from there on all blocks belong to it,
until the last clause has been drawn. By then all of them are closed, so they have no more edges in
the graph than they had then. The rules for protected code (`Guard.rules`) say where these lead.

Main result: `Graph.build_encloses`.
-/

namespace MethodFlow

open Draft (Drawn Trace)

/-- The blocks of the protected code of a `try` statement whose clauses have been drawn up to `d`:
the entries of the catch clauses, and all that was made from the first block of the `try` block
on. -/
def Guard.Encloses (g : Guard) (d : Draft) (id : BlockId) : Prop := g.firstCatch ≤ id ∧ id < d.fresh

theorem Guard.after_lt_firstCatch (g : Guard) : g.draft.fresh < g.firstCatch :=
  Draft.lt_firstCatch g.draft.fresh g.finalizer

/-- When the clauses have been drawn, no block of the protected code is open or waiting. -/
theorem Guard.Drawn.closed {g : Guard} {d₁ d₂ : Draft} (h : g.Drawn d₁ d₂) {id : BlockId}
    (hid : g.Encloses d₂ id) : id ∈ d₂.closed := by
  by_cases hm : id ∈ d₂.closed
  · exact hm
  · have hw : d₂.Waiting id := ⟨hid.2, hm, by simp [h.done.idle]⟩
    obtain ⟨hold | ⟨_, hlt⟩, hnot⟩ := (h.done.drawn.waiting id).mp hw
    · exact absurd hold.lt
        (Nat.not_lt_of_le (Nat.le_trans (Nat.le_of_lt g.after_lt_firstCatch) hid.1))
    · exact absurd ⟨hid.1, hlt⟩ hnot

/-- An edge from a block of protected code stays in the code or leads to the `finally` clause. -/
theorem Guard.Drawn.encloses {g : Guard} {d₁ d₂ D : Draft} {types : Subtyping} {body : Block}
    {fs : List Frame} (hw : g.Drawn d₁ d₂) (htrace : Trace (g.rules types body fs) g.draft d₂)
    (hext : d₂.Extends D) {entry : BlockId} (hentry : g.finalBlock? = some entry) {id : BlockId}
    {b : BasicBlock} {e : Edge} (hb : D.graph.block? id = some b) (he : e ∈ b.successors)
    (hid : g.Encloses d₂ id) :
    g.Encloses d₂ e.target ∨ e.target = entry := by
  obtain ⟨b₂, hb₂, hcore⟩ :=
    Draft.exists_block?_of_core (hext.cores id hid.2 (Or.inl (hw.closed hid))) hb
  have he₂ : e ∈ b₂.successors := congrArg (·.successors) hcore ▸ he
  rcases htrace.mem_successors hw.ready.steady hb₂ he₂ with ⟨b₀, hb₀, _⟩ | ⟨_, hedge, hlt⟩
  · -- The block is newer than the statement.
    exact absurd (Graph.lt_size_of_block? hb₀) (Nat.not_lt_of_le
      (Nat.le_trans (Nat.le_of_lt g.after_lt_firstCatch) hid.1))
  · rcases hedge with hedge | hedge | ⟨hnone, _⟩
    · exact Or.inl ⟨hedge, hlt⟩
    · exact Or.inr (Option.some.inj (hedge.symm.trans hentry))
    · exact nomatch hnone.symm.trans hentry

section Drafts

variable {types : Subtyping} {body : Block} {D : Draft} (hD : Graph.draft types body = .ok D)
include hD

/-- What is drawn for a `try` statement of a body: the drafts at the end of its `try` block and of
its clauses, of which the latter is still there in the end. -/
theorem Block.HasGuard.drawn {g : Guard} (hg : body.HasGuard types g) :
    ∃ d₁ d₂, g.drawBlock = .ok d₁ ∧ g.drawGuarded = .ok d₂ ∧ g.Drawn d₁ d₂ ∧ d₂.Extends D ∧
      ∃ fs, Trace (g.rules types body fs) g.draft d₂ := by
  obtain ⟨s, hhas, hs⟩ := hg
  obtain ⟨d₁, d₂, d₃, h₁, h₂, hw, h₃, _, hext⟩ := (hhas.good hD).guard hs
  obtain ⟨hfinal, hgrows⟩ := hw.done.drawFinalizer (fun _ _ s _ => s.faithful) h₃
  exact ⟨d₁, d₂, h₁, h₂, hw, (hgrows.trans (Draft.extends_continueAt hfinal.steady _)).trans hext,
    s.frames,
      Guard.trace_drawGuarded hD hhas hs (fun s _ => s.traceable hD)
        (fun _ _ s _ => s.traceable hD) h₂⟩

/-- Every `try` statement in the text of a body is among those that are drawn. -/
theorem Block.exists_guard {resources : List LocalVar} {block : Block} {catches : List CatchClause}
    {finalizer : Option Block} {span : Span}
    (h : body.Contains (.tryStmt resources block catches finalizer span)) :
    ∃ scope d, body.HasGuard types ⟨resources, block, catches, finalizer, scope, d⟩ := by
  obtain ⟨⟨_, fs, labels, d⟩, hhas, rfl⟩ := Block.exists_site hD h
  exact ⟨_, d, _, hhas, rfl⟩

end Drafts

namespace Graph

/-- No exit bypasses a `finally` clause. Every `try` statement in the text of a body is drawn, and
if it has a `finally` clause, every edge of the graph from a block of its protected code, whatever
its kind, stays in the protected code or leads to the entry of the clause. -/
theorem build_encloses {types : Subtyping} {body : Block} {g : Graph}
    (hg : build types body = .ok g) :
    (∀ resources block catches finalizer span,
      body.Contains (.tryStmt resources block catches finalizer span) →
        ∃ scope d, body.HasGuard types ⟨resources, block, catches, finalizer, scope, d⟩) ∧
    ∀ guard, body.HasGuard types guard → ∀ entry, guard.finalBlock? = some entry →
      ∃ d, guard.drawGuarded = .ok d ∧ ∀ id b e, g.block? id = some b → e ∈ b.successors →
        guard.Encloses d id → guard.Encloses d e.target ∨ e.target = entry := by
  obtain ⟨D, hD, rfl⟩ := exists_draft hg
  refine ⟨fun _ _ _ _ _ h => Block.exists_guard hD h, fun guard hguard entry hentry => ?_⟩
  obtain ⟨d₁, d₂, _, h₂, hw, hext, fs, htrace⟩ := hguard.drawn hD
  exact ⟨d₂, h₂, fun id b e hb he hid => hw.encloses htrace hext hentry hb he hid⟩

/-- A loop that is left by `break` from a `try` block and by `return` from its catch clause. -/
def exitsBody : Block where
  stmts :=
    [.whileStmt (.name "c" {})
      (.tryStmt [] ⟨[.expr (.call none "f" [] [] {}) {}, .breakStmt none {}], {}⟩
        [⟨"e", ["RuntimeException"], ⟨[.returnStmt none {}], {}⟩, {}⟩]
        (some ⟨[.expr (.call none "g" [] [] {}) {}], {}⟩) {}) {}]
  span := {}

/-- The body with all exits leaves its guarded blocks through the `finally` clause. -/
theorem build_encloses_exitsBody :
    ∃ g guard d, build ClassHierarchy.javaLang.subtyping exitsBody = .ok g ∧
      exitsBody.HasGuard ClassHierarchy.javaLang.subtyping guard ∧ guard.finalBlock? = some 6 ∧
      guard.drawGuarded = .ok d ∧ guard.Encloses d 7 ∧ guard.Encloses d 8 ∧
      ∀ id b e, g.block? id = some b → e ∈ b.successors → guard.Encloses d id →
        guard.Encloses d e.target ∨ e.target = 6 := by
  obtain ⟨g, hg⟩ : ∃ g, build ClassHierarchy.javaLang.subtyping exitsBody = .ok g := ⟨_, rfl⟩
  obtain ⟨guard, hguard, hentry, hfirst, hfresh⟩ : ∃ guard,
      exitsBody.HasGuard ClassHierarchy.javaLang.subtyping guard ∧ guard.finalBlock? = some 6 ∧
      guard.firstCatch = 7 ∧ guard.drawGuarded.toOption.map (·.fresh) = some 9 :=
    ⟨_, ⟨_, .part (.top .head) (.whileBody rfl), rfl⟩, rfl, rfl, rfl⟩
  obtain ⟨d, hd, hedges⟩ := (build_encloses hg).2 guard hguard 6 hentry
  rw [hd] at hfresh
  have hfresh : d.fresh = 9 := Option.some.inj hfresh
  refine ⟨g, guard, d, hg, hguard, hentry, hd, ?_, ?_, hedges⟩ <;>
  · rw [Guard.Encloses, hfirst, hfresh]
    decide

end Graph

end MethodFlow
