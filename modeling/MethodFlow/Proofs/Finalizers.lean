import Mathlib.Data.List.Nodup
import MethodFlow.Proofs.Remainders
import MethodFlow.Proofs.Resuming
import MethodFlow.Proofs.Views

/-!
# A `finally` clause has somewhere to go on

When the drawing of a `finally` clause begins, all code that the clause protects has been drawn. By
then something has been registered for it. The last piece of protected code is a catch clause, or
the `try` block if there is no catch clause. In its scope no catch clause of the statement is left,
so whatever leaves it goes through the `finally` clause, and if nothing leaves it then it comes to
its end in an open block (`Guard.Drawn.hasResumption`). An exception that the statement receives
itself registers nothing, but then there is a catch clause that does.

Resumptions are added at the end of one list, each once, and none is ever taken away. Nothing is
added for a clause while the clause itself is drawn. So what its end leads to is what had been
registered when it began.

Main result: `Graph.build_finalizers`.
-/

namespace MethodFlow

/-! ## The list of resumptions -/

namespace Draft

variable {d d' : Draft} {entry : BlockId}

/-- A move adds to the end of the list what is not there yet. -/
theorem Move.exists_resumptions (h : Move d d') :
    ∃ added, d'.resumptions = appendAllNew d.resumptions added := by
  cases h with
  | resume pending ahead => exact ⟨_, rfl⟩
  | resolve idle isBlock => exact ⟨[], resumptions_resolveDangling ..⟩
  | mark => exact ⟨[], resumptions_endCaseGroup ..⟩
  | _ => exact ⟨[], rfl⟩

/-- Resumptions are only ever added at the end. -/
theorem Run.resumptions_prefix (h : Run d d') : d.resumptions <+: d'.resumptions := by
  induction h with
  | refl => exact List.prefix_refl _
  | tail _ move ih =>
    obtain ⟨added, hadded⟩ := move.exists_resumptions
    exact ih.trans (hadded ▸ prefix_appendAllNew _ added)

theorem Run.nodup_resumptions (h : Run d d') (hd : d.resumptions.Nodup) : d'.resumptions.Nodup := by
  refine h.invariant (P := (·.resumptions.Nodup)) (fun move hd => ?_) hd
  obtain ⟨added, hadded⟩ := move.exists_resumptions
  exact hadded ▸ nodup_appendAllNew hd

theorem nodup_resumptionsOf (h : d.resumptions.Nodup) (entry : BlockId) :
    (d.resumptionsOf entry).Nodup := by
  unfold resumptionsOf
  refine List.Nodup.map_on ?_ (h.filter _)
  intro p hp q hq heq
  have hp := (List.mem_filter.mp hp).2
  have hq := (List.mem_filter.mp hq).2
  rw [beq_iff_eq] at hp hq
  exact Prod.ext (hp.trans hq.symm) heq

/-- The resumptions of a clause stay as they are if nothing is added for it. -/
theorem Run.resumptionsOf_eq (h : Run d d') (hd' : d'.resumptions.Nodup)
    (hold : ∀ e, (entry, e) ∈ d'.resumptions → (entry, e) ∈ d.resumptions) :
    d'.resumptionsOf entry = d.resumptionsOf entry := by
  obtain ⟨added, hadded⟩ := h.resumptions_prefix
  rw [← hadded] at hd' hold
  have hother : added.filter (·.1 == entry) = [] := by
    rw [List.filter_eq_nil_iff]
    rintro ⟨other, e⟩ hp heq
    rw [beq_iff_eq] at heq
    subst heq
    exact (List.nodup_append.mp hd').2.2 _ (hold e (List.mem_append_right _ hp)) _ hp rfl
  unfold resumptionsOf
  rw [← hadded, List.filter_append, hother, List.append_nil]

end Draft

/-! ## Protected code -/

/-- Every clause that is drawn gives the `finally` clause a place to go on at. -/
theorem CatchClause.hasResumption_all {scope : Scope} {d₀ d d' : Draft} {clauses : List CatchClause}
    {entry block after : BlockId} {W : BlockId → Prop}
    (hr : CatchClause.Ready scope d₀ (some entry) after clauses block W d) (hne : clauses ≠ [])
    (h : CatchClause.drawAll clauses (scope.guarded ⟨[], some entry⟩) (some entry) block after d =
      .ok d') :
    d'.HasResumption entry := by
  obtain ⟨clause, clauses, rfl⟩ := List.exists_cons_of_ne_nil hne
  obtain ⟨_, _, d₁, h₁, hext⟩ := CatchClause.Begins.drawn .head hr h
  obtain ⟨e, he⟩ := Stmt.hasResumption_all after hr.fits.depth_le h₁ (Draft.current_start _ _)
  exact ⟨e, hext.resumptions he⟩

/-- When the code in front of a `finally` clause has been drawn, the clause has a place to go on
at. -/
theorem Guard.Drawn.hasResumption {g : Guard} {d₁ d₂ : Draft} (hw : g.Drawn d₁ d₂)
    (h₁ : g.drawBlock = .ok d₁) (h₂ : g.drawGuarded = .ok d₂) {entry : BlockId}
    (hf : g.finalBlock? = some entry) :
    d₂.HasResumption entry := by
  have hready := hw.ready
  have hclauses : CatchClause.drawAll g.catches (g.scope.guarded ⟨[], g.finalBlock?⟩) g.finalBlock?
    g.firstCatch g.after
      (d₁.leaveRegion g.finalBlock? g.after) = .ok d₂ := by
    rw [Guard.drawGuarded, h₁] at h₂
    exact h₂
  rw [Guard.leaveBlock, hf] at hready
  rw [hf] at hclauses
  by_cases hcatches : g.catches = []
  · -- Without catch clauses the `try` block is the last code that the clause protects.
    have hhandler : g.handler = ⟨[], some entry⟩ := by
      show (⟨CatchClause.targets g.catches _, g.finalBlock?⟩ : Handler) = _
      rw [hcatches, hf]
      rfl
    rw [Guard.drawBlock, Guard.blockScope, hhandler] at h₁
    obtain ⟨id, hid⟩ := LocalVar.exists_current_resources g.blockScope g.resources
      (Draft.current_openTry g.draft g.scope.types g.catches g.finalizer g.block.span)
    have hlast := Stmt.hasResumption_all g.after hready.fits.depth_le h₁ hid
    rw [hcatches, CatchClause.drawAll] at hclauses
    exact Except.ok.inj hclauses ▸ hlast
  · exact CatchClause.hasResumption_all hready hcatches hclauses

section Drafts

variable {types : Subtyping} {body : Block} {D : Draft} (hD : Graph.draft types body = .ok D)
    {g : Guard}
include hD

/-- Up to the `finally` clause of a `try` statement, nothing is registered twice. -/
theorem Block.HasGuard.nodup_resumptions (hg : body.HasGuard types g) {d : Draft}
    (hd : g.drawGuarded = .ok d) :
    d.resumptions.Nodup := by
  obtain ⟨s, hhas, hs⟩ := hg
  obtain ⟨_, _, _, hbefore⟩ := hhas.within hD
  obtain ⟨_, d₂, _, _, h₂, hw, _⟩ := (hhas.good hD).guard hs
  cases hd.symm.trans h₂
  have hrun : Draft.Run (.begun body.span) d :=
    hbefore.before.trans ((Site.of_guard? hs).2.1 ▸ hw.done.drawn.run)
  exact hrun.nodup_resumptions List.nodup_nil

/-- While a `finally` clause is drawn, what is registered for it stays as it is. -/
theorem Block.HasGuard.resumptionsOf_finally (hg : body.HasGuard types g) {final : Block}
    (hf : g.finalizer = some final) {d₂ d : Draft} (h₂ : g.drawGuarded = .ok d₂)
    (hd : g.drawFinally final = .ok d) :
    d.resumptionsOf (g.after + 1) = d₂.resumptionsOf (g.after + 1) := by
  have hnodup := hg.nodup_resumptions hD h₂
  obtain ⟨_, h₂', hsame, _⟩ := hg.finally hD hf hd
  cases h₂.symm.trans h₂'
  obtain ⟨_, _, _, h₂', hw, _⟩ := hg.drawn hD
  cases h₂.symm.trans h₂'
  have hdone := hw.done
  rw [Guard.finalBlock?_of_some hf] at hdone
  obtain ⟨hopened, hfit⟩ := hdone.opened_finally
  have hstart : (d₂.start (g.after + 1)).resumptions = d₂.resumptions := by
    rw [Draft.start_of_none hdone.idle]
  rw [Guard.drawFinally, h₂] at hd
  have hrun := (Stmt.part_all (fun s _ => s.faithful) hopened.steady hfit hd).drawn.run
  have hkept := hrun.resumptionsOf_eq (hrun.nodup_resumptions (hstart ▸ hnodup))
    fun e he => hstart ▸ (hsame e).mp he
  rw [hkept, Draft.resumptionsOf, hstart, Draft.resumptionsOf]

/-- The statements of a `finally` clause are drawn. -/
theorem Block.HasGuard.exists_drawFinally (hg : body.HasGuard types g) {final : Block}
    (hf : g.finalizer = some final) : ∃ d, g.drawFinally final = .ok d := by
  obtain ⟨s, hhas, hs⟩ := hg
  obtain ⟨_, d₂, d₃, _, h₂, _, h₃, _⟩ := (hhas.good hD).guard hs
  rw [hf, Block.drawFinalizer_some] at h₃
  obtain ⟨d, hd, _⟩ := Except.of_bind_ok h₃
  refine ⟨d, ?_⟩
  rw [Guard.drawFinally, h₂]
  exact hd

end Drafts

namespace Graph

/-- A `finally` clause always has somewhere to go on. Every `try` statement in the text of a body is
drawn. If it has a `finally` clause then, when the drawing of the clause begins, there are places
where it goes on, and none is listed twice. The end of the clause is never drawn as one that runs on
into the code after the statement: if a block is open there, it is ended so that it resumes all of
these places. -/
theorem build_finalizers {types : Subtyping} {body : Block} {g : Graph}
    (hg : build types body = .ok g) :
    (∀ resources block catches finalizer span,
      body.Contains (.tryStmt resources block catches finalizer span) →
        ∃ scope d, body.HasGuard types ⟨resources, block, catches, finalizer, scope, d⟩) ∧
    ∀ guard, body.HasGuard types guard → ∀ final, guard.finalizer = some final →
      ∃ entry before after, guard.finalBlock? = some entry ∧ guard.drawGuarded = .ok before ∧
        guard.drawFinally final = .ok after ∧
        before.resumptionsOf entry ≠ [] ∧ (before.resumptionsOf entry).Nodup ∧
        after.leaveFinalizer entry guard.after =
          after.closeOpen .endFinally (before.resumptionsOf entry) ∧
        ∀ id, after.current = some id → ∃ b, g.block? id = some b ∧ b.terminator = .endFinally ∧
          ∀ e ∈ before.resumptionsOf entry, e ∈ b.successors := by
  obtain ⟨D, hD, rfl⟩ := exists_draft hg
  refine ⟨fun _ _ _ _ _ h => Block.exists_guard hD h, fun guard hguard final hf => ?_⟩
  have hentry := Guard.finalBlock?_of_some hf
  obtain ⟨d₁, before, h₁, h₂, hw, _⟩ := hguard.drawn hD
  obtain ⟨after, hafter⟩ := hguard.exists_drawFinally hD hf
  obtain ⟨_, _, _, hsteady, hext⟩ := hguard.finally hD hf hafter
  have hsame := hguard.resumptionsOf_finally hD hf h₂ hafter
  obtain ⟨e, he⟩ := hw.hasResumption h₁ h₂ hentry
  have hmem := Draft.mem_resumptionsOf.mpr he
  have hleave : after.leaveFinalizer (guard.after + 1) guard.after =
      after.closeOpen .endFinally (before.resumptionsOf (guard.after + 1)) := by
    have hafter : after.HasResumption (guard.after + 1) :=
      ⟨e, Draft.mem_resumptionsOf.mp (hsame ▸ hmem)⟩
    rw [hafter.leaveFinalizer, hsame]
  refine ⟨_, before, after, hentry, h₂, hafter, List.ne_nil_of_mem hmem,
    Draft.nodup_resumptionsOf (hguard.nodup_resumptions hD h₂) _, hleave, fun id hid => ?_⟩
  rw [hleave, Draft.closeOpen_of_some hsteady hid] at hext
  obtain ⟨b, hb, ht, _, hedges⟩ := Draft.block?_of_sealed hsteady hid hext
  exact ⟨b, hb, ht, hedges⟩

/-- A loop with a `try` statement that is sure to receive what its block throws, and leaves the loop
then. Nothing is registered for the `finally` clause but by the catch clause. -/
def caughtBody : Block where
  stmts :=
    [.whileStmt (.name "c" {})
      (.tryStmt [] ⟨[.throwStmt (.new "FileNotFoundException" [] [] {}) {}], {}⟩
        [⟨"e", ["Throwable"], ⟨[.breakStmt none {}], {}⟩, {}⟩]
        (some ⟨[.expr (.name "done" {}) {}], {}⟩) {}) {}]
  span := {}

/-- The caught call: how its `finally` clause is left, and what waits for it. -/
theorem build_finalizers_caughtBody :
    ∃ g guard final before after, build ClassHierarchy.javaLang.subtyping caughtBody = .ok g ∧
      caughtBody.HasGuard ClassHierarchy.javaLang.subtyping guard ∧ guard.finalizer = some final ∧
      guard.finalBlock? = some 6 ∧ guard.drawGuarded = .ok before ∧
        guard.drawFinally final = .ok after ∧
      before.resumptionsOf 6 = [.sequential 4] ∧ after.current = some 6 ∧
      ∃ b, g.block? 6 = some b ∧ b.terminator = .endFinally ∧ .sequential 4 ∈ b.successors := by
  obtain ⟨g, hg⟩ : ∃ g, build ClassHierarchy.javaLang.subtyping caughtBody = .ok g := ⟨_, rfl⟩
  obtain ⟨guard, final, hguard, hf, hentry, hlist, hopen⟩ : ∃ guard final,
      caughtBody.HasGuard ClassHierarchy.javaLang.subtyping guard ∧ guard.finalizer = some final ∧
      guard.finalBlock? = some 6 ∧
      guard.drawGuarded.toOption.map (·.resumptionsOf 6) = some [.sequential 4] ∧
      (guard.drawFinally final).toOption.map (·.current) = some (some 6) :=
    ⟨_, _, ⟨_, .part (.top .head) (.whileBody rfl), rfl⟩, rfl, rfl, rfl, rfl⟩
  obtain ⟨entry, before, after, hentry', hbefore, hafter, _, _, _, hblock⟩ :=
    (build_finalizers hg).2 guard hguard final hf
  obtain rfl := Option.some.inj (hentry.symm.trans hentry')
  rw [hbefore] at hlist
  rw [hafter] at hopen
  have hlist : before.resumptionsOf 6 = [.sequential 4] := Option.some.inj hlist
  have hopen : after.current = some 6 := Option.some.inj hopen
  obtain ⟨b, hb, ht, hedges⟩ := hblock 6 hopen
  exact ⟨g, guard, final, before, after, hg, hguard, hf, hentry, hbefore, hafter, hlist,
    hopen, b, hb, ht, hedges _ (hlist ▸ List.mem_cons_self)⟩

end Graph

end MethodFlow
