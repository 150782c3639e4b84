import MethodFlow.Proofs.Departures
import MethodFlow.Proofs.Regions

/-!
# `finally` clauses resume what is pending

What was registered for a `finally` clause becomes the edges of the block that ends it. A jump
registers itself at every clause that it crosses, and the end of a `try` block or catch clause
registers the block after the statement. By the rules of a body nothing else comes in but
exceptions, so the edges of these blocks can be read off the text: each belongs to a jump that
crosses the clause, and leads to the next clause on its way, or it goes on after the statement.

Main result: `Graph.build_resumes`.
-/

namespace MethodFlow

open Draft (Drawn Trace Step)

/-! ## The `try` statements around a site -/

section Frames

variable {types : Subtyping} {body : Block} {D : Draft}

/-- Going into a statement adds one frame at most, and if this is a `try` statement, it is the one
at the site. -/
theorem Site.Part.frames {s s' : Site} (hp : s.Part types s') :
    s'.frames = s.frames ∨
      ∃ frame, s'.frames = frame :: s.frames ∧ ∀ g, frame.guard? = some g →
        s.guard? types = some g := by
  cases hp with
  | whileBody | doBody | forBody | eachBody | inGroup | labeled => exact Or.inr ⟨_, rfl, nofun⟩
  | inTry hg | inCatch hg => exact Or.inr ⟨_, rfl, fun _ h => Option.some.inj h ▸ hg⟩
  | _ => exact Or.inl rfl

/-- The guards around a part are those around the whole, and perhaps the whole. -/
theorem Site.Part.guards {s s' : Site} (hp : s.Part types s') {g : Guard} (hg : g ∈ s'.guards) :
    g ∈ s.guards ∨ s.guard? types = some g := by
  unfold Site.guards at hg
  rcases hp.frames with hfs | ⟨frame, hfs, hframe⟩
  · rw [hfs] at hg
    exact Or.inl hg
  · rw [hfs] at hg
    obtain ⟨f, hf, hfg⟩ := List.mem_filterMap.mp hg
    rcases List.mem_cons.mp hf with rfl | hf
    · exact Or.inr (hframe g hfg)
    · exact Or.inl (List.mem_filterMap.mpr ⟨f, hf, hfg⟩)

theorem Block.Has.hasGuard {s : Site} (h : body.Has types s) :
    ∀ g ∈ s.guards, body.HasGuard types g := by
  induction h with
  | top => exact nofun
  | part h hp ih =>
    intro g hg
    rcases hp.guards hg with hg | hg
    · exact ih g hg
    · exact ⟨_, h, hg⟩

/-- The `finally` clauses around a site were made before it. -/
theorem Site.Good.finalEntry_lt {s : Site} (h : s.Good types D) {g : Guard} (hg : g ∈ s.guards)
    {entry : BlockId} (hf : g.finalBlock? = some entry) : entry < s.draft.fresh := by
  have hm : some entry ∈ (s.scope types).handlers.map (·.finalizer) := by
    rw [Site.scope, Frame.finalizers_scope]
    exact List.mem_map.mpr ⟨g, hg, hf⟩
  obtain ⟨handler, hm, hf⟩ := List.mem_map.mp hm
  exact (h.fits.entries handler hm entry (Or.inr hf)).lt

/-- Around a site, a `finally` clause is known by its entry. -/
theorem Block.Has.guard_unique (hD : Graph.draft types body = .ok D) {s : Site}
    (h : body.Has types s) {g g' : Guard} (hg : g ∈ s.guards) (hg' : g' ∈ s.guards)
    {entry : BlockId} (hf : g.finalBlock? = some entry) (hf' : g'.finalBlock? = some entry) :
      g = g' := by
  -- A `try` statement that is entered makes its own `finally` clause after all those around it.
  have newer : ∀ {s : Site} {a b : Guard}, body.Has types s → a ∈ s.guards →
    s.guard? types = some b →
      a.finalBlock? = some entry → b.finalBlock? ≠ some entry := by
    intro s a b h ha hb hfa hfb
    have hlt := (h.good hD).finalEntry_lt ha hfa
    rw [(Guard.of_finalBlock? hfb).1, Guard.after, (Site.of_guard? hb).2.1] at hlt
    exact Nat.lt_irrefl _ (Nat.lt_of_succ_lt hlt)
  induction h with
  | top => cases hg
  | part h hp ih =>
    rcases hp.guards hg with hg | hg <;> rcases hp.guards hg' with hg' | hg'
    · exact ih hg hg'
    · exact absurd hf' (newer h hg hg' hf)
    · exact absurd hf (newer h hg' hg hf')
    · exact Option.some.inj (hg.symm.trans hg')

end Frames

/-! ## What traces register and how they end `finally` clauses -/

namespace Draft

variable {R : Rules} {d d' : Draft}

/-- A step registers only the resumptions that its rules allow. -/
theorem Step.mem_resumptions (h : Step R d d') {p : BlockId × Edge} (hp : p ∈ d'.resumptions) :
    p ∈ d.resumptions ∨ R.resumption p := by
  cases h with
  | resume pending ahead allowed => exact (mem_appendAllNew.mp hp).imp_right (allowed p)
  | resolve idle isBlock =>
    rw [resumptions_resolveDangling] at hp
    exact Or.inl hp
  | mark =>
    rw [resumptions_endCaseGroup] at hp
    exact Or.inl hp
  | _ => exact Or.inl hp

/-- What is registered in the end was so before, or was registered by the rules. -/
theorem Trace.mem_resumptions (h : Trace R d d') {p : BlockId × Edge} (hp : p ∈ d'.resumptions) :
    p ∈ d.resumptions ∨ R.resumption p := by
  induction h with
  | refl => exact Or.inl hp
  | tail _ step ih =>
    rcases step.mem_resumptions hp with hp | hp
    · exact ih hp
    · exact Or.inr hp

/-- Every block that ends a `finally` clause does so by the rules, with no normal edges but those it
was given. -/
def Concludes (R : Rules) (d : Draft) : Prop :=
  ∀ id b, d.graph.block? id = some b → b.terminator = .endFinally →
    ∃ d₀ edges, R.ending d₀ id edges ∧ ∀ e ∈ b.successors, e.isExceptional = true ∨ e ∈ edges

theorem Concludes.of_cores (h : d.Concludes R)
    (cores : ∀ id, (d'.graph.block? id).map (·.core) = (d.graph.block? id).map (·.core)) :
    d'.Concludes R := by
  intro id b' hb ht
  obtain ⟨b, hb, hc⟩ := exists_block?_of_core (cores id) hb
  have hs : b'.successors = b.successors := congrArg (·.successors) hc
  rw [hs]
  exact h id b hb ((congrArg (·.terminator) hc).symm.trans ht)

/-- Sealing a block keeps to the rules when it ends no `finally` clause against them. -/
theorem Concludes.sealed (h : d.Concludes R) (hd : d.Steady) (hsound : d.Sound) {id : BlockId}
    {t : Terminator} {edges : List Edge} {span : Option Span} (isOpen : d.current = some id)
    (final : t = .endFinally → R.ending d id edges) : (d.sealed id t edges span).Concludes R := by
  intro i b' hb ht
  rw [block?_sealed] at hb
  split at hb
  · rename_i heq
    subst heq
    obtain ⟨b, hb₀, rfl⟩ := Option.map_eq_some_iff.mp hb
    refine ⟨d, edges, final ht, fun e he => (mem_appendAllNew.mp he).imp_left fun he => ?_⟩
    exact hsound.pending _ b hb₀ (hd.current_open _ isOpen) e he
  · exact h i b' hb ht

/-- Each step keeps `finally` clauses to the rules. -/
theorem Step.concludes (hs : Step R d d') (hd : d.Steady) (hsound : d.Sound) (h : d.Concludes R) :
    d'.Concludes R := by
  -- Only `close` can end a `finally` clause; later steps add nothing but exceptional edges.
  cases hs with
  | add kind elements span =>
    intro id b' hb ht
    rw [block?_add] at hb
    split at hb
    · cases hb
      cases ht
    · exact h id b' hb ht
  | enter | resume => exact h
  | emit element isOpen =>
    intro i b' hb ht
    rw [block?_modify] at hb
    split at hb
    · obtain ⟨b, hb₀, rfl⟩ := Option.map_eq_some_iff.mp hb
      exact h i b hb₀ ht
    · exact h i b' hb ht
  | link isOpen exceptional =>
    intro i b' hb ht
    rw [addEdges, block?_modify] at hb
    split at hb
    · obtain ⟨b, hb₀, rfl⟩ := Option.map_eq_some_iff.mp hb
      obtain ⟨d₀, edges, hend, hedges⟩ := h i b hb₀ ht
      refine ⟨d₀, edges, hend, fun e he => ?_⟩
      rcases mem_appendAllNew.mp he with he | he
      · exact hedges e he
      · exact Or.inl (exceptional e he)
    · exact h i b' hb ht
  | close isOpen ending ahead silent allowed final => exact h.sealed hd hsound isOpen final
  | jump span isOpen isJump =>
    refine (h.sealed hd hsound isOpen fun ht => ?_).of_cores fun _ => rfl
    rw [ht] at isJump
    cases isJump
  | resolve => exact h.of_cores (d.core_resolveDangling _)
  | mark => exact h.of_cores d.core_endCaseGroup

/-- Every trace keeps `finally` clauses to the rules. -/
theorem Trace.concludes (h : Trace R d d') (hd : d.Steady) (hsound : d.Sound)
    (hconc : d.Concludes R) :
    d'.Concludes R := by
  refine (h.invariant (P := fun d => d.Sound ∧ d.Concludes R) (fun hd hs ⟨hsound, hc⟩ => ?_) hd
    ⟨hsound, hconc⟩).2
  exact ⟨hs.move.sound hd hsound, hs.concludes hd hsound hc⟩

end Draft

/-! ## The block that a jump ends -/

/-- The block that the jump at a site ends. The value of a `return` is evaluated first. -/
def Site.jumpBlock (types : Subtyping) (s : Site) : BlockId :=
  match s.stmt with
  | .returnStmt arg _ => (Expr.drawOption (s.scope types) arg s.draft).openBlock
  | _ => s.draft.openBlock

/-- The open block keeps the ending that it was closed with. -/
theorem Draft.block?_of_sealed {D d : Draft} (hd : d.Steady) {id : BlockId}
    (isOpen : d.current = some id) {t : Terminator} {edges : List Edge} {span : Option Span}
    (hext : (d.sealed id t edges span).Extends D) :
    ∃ b, D.graph.block? id = some b ∧ b.terminator = t ∧ b.terminatorSpan = span ∧
      ∀ e ∈ edges, e ∈ b.successors := by
  obtain ⟨b₀, hb₀⟩ := Graph.exists_block? (hd.current_lt id isOpen)
  have hsealed : (d.sealed id t edges span).graph.block? id = some (endBlock t edges span b₀) := by
    rw [block?_sealed, if_pos rfl, hb₀]
    rfl
  obtain ⟨b, hb, hc⟩ := exists_block?_of_core
    (hext.cores id (Graph.lt_size_of_block? hsealed) (Or.inl List.mem_cons_self)).symm hsealed
  refine ⟨b, hb, (congrArg (·.terminator) hc).symm, (congrArg (·.terminatorSpan) hc).symm,
    fun e he => ?_⟩
  have hs : appendAllNew b₀.successors edges = b.successors := congrArg (·.successors) hc
  rw [← hs]
  exact mem_appendAllNew.mpr (Or.inr he)

section Drafts

variable {types : Subtyping} {body : Block} {D d : Draft}

/-- A jump ends the open block with the first edge of its route, and registers the others. -/
theorem Draft.block?_jumpVia (hd : d.Steady) {t : Terminator} {route : JumpRoute} {span : Span}
    (hext : (d.jumpVia t route span).Extends D) :
    ∃ b, D.graph.block? d.openBlock = some b ∧ b.terminator = t ∧ b.terminatorSpan = some span ∧
      route.edge ∈ b.successors := by
  have hjump : (d.ensureOpen.sealed d.openBlock t [route.edge] (some span)).Extends D := by
    rw [← terminate_eq_sealed hd]
    exact (extends_dangling _ _).trans ((extends_resumeAt _ _).trans hext)
  obtain ⟨b, hb, ht, hspan, he⟩ :=
    block?_of_sealed ((Run.ensureOpen hd).steady hd) d.current_ensureOpen hjump
  exact ⟨b, hb, ht, hspan, he _ List.mem_cons_self⟩

/-- What is known of a jump once it has been drawn: the block it ends and what it has registered. -/
structure Site.Jumped (types : Subtyping) (D : Draft) (s : Site) (route : JumpRoute)
    (b : BasicBlock) :
    Prop where
  taken : s.route? types = some route
  isBlock : D.graph.block? (s.jumpBlock types) = some b
  single : ∀ edges, b.terminator.Prescribes edges → ∃ e, edges.filter (·.isNormal) = [e]
  span : b.terminatorSpan = some s.stmt.span
  edge : route.edge ∈ b.successors
  normal : route.edge.isNormal = true
  registered : ∀ g ∈ s.guards, ∃ d₂, g.drawGuarded = .ok d₂ ∧ route.resumptions ⊆ d₂.resumptions

/-- A jump has a route, and a block that it ends. -/
theorem Site.Good.jumped {s : Site} (h : s.Good types D) (hs : s.stmt.isJump = true) :
    ∃ route b, s.Jumped types D route b := by
  obtain ⟨d', hdraw, hext, hguards⟩ := h.drawn
  obtain ⟨stmt, fs, labels, d⟩ := s
  -- All that the route puts off is still noted when each `finally` clause is drawn.
  have registered : ∀ {d₀ : Draft} {t : Terminator} {route : JumpRoute} {span : Span},
      d' = d₀.jumpVia t route span → ∀ g ∈ Site.guards ⟨stmt, fs, labels, d⟩,
        ∃ d₂, g.drawGuarded = .ok d₂ ∧ route.resumptions ⊆ d₂.resumptions := by
    rintro d₀ t route span rfl g hg
    obtain ⟨d₂, h₂, hext₂⟩ := hguards g hg
    exact ⟨d₂, h₂, fun p hp => hext₂.resumptions (mem_appendAllNew.mpr (Or.inr hp))⟩
  cases stmt with
  | breakStmt label span =>
    rw [Site.draw, Stmt.draw] at hdraw
    obtain ⟨target, ht, hdraw⟩ := Except.of_bind_ok hdraw
    cases hdraw
    obtain ⟨b, hb, hterm, hspan, he⟩ := Draft.block?_jumpVia h.steady hext
    refine ⟨_, b, Site.route?_break ht labels d, hb, ?_, hspan, he,
      JumpRoute.isNormal_edge rfl _, registered rfl⟩
    rw [hterm]
    rintro _ ⟨_, h⟩
    exact ⟨_, h⟩
  | continueStmt label span =>
    rw [Site.draw, Stmt.draw] at hdraw
    obtain ⟨⟨target, continueTo⟩, ht, hdraw⟩ := Except.of_bind_ok hdraw
    cases hdraw
    obtain ⟨b, hb, hterm, hspan, he⟩ := Draft.block?_jumpVia h.steady hext
    refine ⟨_, b, Site.route?_continue ht labels d, hb, ?_, hspan, he,
      JumpRoute.isNormal_edge rfl _, registered rfl⟩
    rw [hterm]
    rintro _ ⟨_, h⟩
    exact h.elim (⟨_, ·⟩) (⟨_, ·⟩)
  | returnStmt arg span =>
    rw [Site.draw, Stmt.draw] at hdraw
    cases hdraw
    have ha := (Expr.faithful_option arg h.steady h.fits).drawn
    obtain ⟨b, hb, hterm, hspan, he⟩ := Draft.block?_jumpVia ha.steady hext
    refine ⟨_, b, rfl, hb, ?_, hspan, he, JumpRoute.isNormal_edge rfl _, registered rfl⟩
    rw [hterm]
    rintro _ ⟨_, h⟩
    exact ⟨_, h⟩
  | _ => cases hs

end Drafts

/-! ## The end of a `finally` clause -/

/-- The `finally` clause comes to its end in a block, which is open by then. -/
def Guard.EndsAt (g : Guard) (id : BlockId) : Prop :=
  ∃ final d, g.finalizer = some final ∧ g.drawFinally final = .ok d ∧ d.current = some id

theorem Guard.finalBlock?_of_some {g : Guard} {final : Block} (h : g.finalizer = some final) :
    g.finalBlock? = some (g.after + 1) := by
  rw [finalBlock?, handler, Draft.handlerAt, h]
  rfl

/-- Control can run on past the `try` block or a catch clause: where it has been drawn, a block is
open. -/
def Guard.ReachesEnd (g : Guard) : Prop :=
  ∃ d₁, g.drawBlock = .ok d₁ ∧ (d₁.current.isSome = true ∨
    ∃ clause d₂ d₃, CatchClause.Begins g.clauseScope g.finalBlock? g.after g.catches g.firstCatch
        (g.leaveBlock d₁) clause d₂ ∧
      Stmt.drawAll clause.body.stmts g.clauseScope d₂ = .ok d₃ ∧ d₃.current.isSome = true)

theorem Draft.mem_resumptions_leaveRegion_iff {d : Draft} {finalizer : Option BlockId}
    {entry after : BlockId} (hf : finalizer = some entry) {p : BlockId × Edge} :
    p ∈ (d.leaveRegion finalizer after).resumptions ↔
      p ∈ d.resumptions ∨ d.current.isSome = true ∧ p = (entry, .sequential after) := by
  subst hf
  simp only [leaveRegion, resumptions_resolveDangling]
  cases hc : d.current with
  | none => simp
  | some id => simp [resumeAt, mem_appendAllNew]

section Completion

variable {scope : Scope} {d₀ d d₁ : Draft} {handler : Handler} {entry after : BlockId}

/-- Protected code does not go on after its statement by itself: what it registers leaves the
statement. -/
theorem Draft.completes_part {W : BlockId → Prop} (hfit : scope.Fits d₀) (hafter : d₀.fresh ≤ after)
    (hnew : d₀.fresh ≤ entry ∧ entry < d.fresh) (hd : d.Steady)
    (h : Drawn (scope.guarded handler) d d₁ W) :
    (entry, .sequential after) ∈ d₁.resumptions ↔ (entry, .sequential after) ∈ d.resumptions := by
  constructor
  · intro hp
    rcases h.resumptions _ hp with hp | hp | hp
    · exact hp
    · exact absurd (hfit.lt (leaves_of_guarded hfit hnew.1 hp).names) (Nat.not_lt_of_le hafter)
    · exact absurd hnew.2 (Nat.not_lt_of_le hp)
  · exact fun hp => (h.run.extends hd).resumptions hp

/-- Among the catch clauses, those at whose end a block is open go on after the statement. -/
theorem CatchClause.completes_all {clauses : List CatchClause} {block : BlockId}
    {W : BlockId → Prop} {finalizer : Option BlockId} {d' : Draft} (hf : finalizer = some entry)
    (hr : CatchClause.Ready scope d₀ finalizer after clauses block W d)
    (h : CatchClause.drawAll clauses (scope.guarded ⟨[], finalizer⟩) finalizer block after d =
      .ok d') :
    (entry, .sequential after) ∈ d'.resumptions ↔ (entry, .sequential after) ∈ d.resumptions ∨
      ∃ clause d₂ d₃, CatchClause.Begins (scope.guarded ⟨[], finalizer⟩) finalizer after
        clauses block d
          clause d₂ ∧
        Stmt.drawAll clause.body.stmts (scope.guarded ⟨[], finalizer⟩) d₂ = .ok d₃ ∧
        d₃.current.isSome = true := by
  induction clauses generalizing d block W with
  | nil =>
    rw [CatchClause.drawAll] at h
    cases h
    refine ⟨Or.inl, fun hp => hp.resolve_right ?_⟩
    rintro ⟨_, _, _, hb, _⟩
    cases hb
  | cons clause clauses ih =>
    rw [CatchClause.drawAll_cons] at h
    obtain ⟨d₁, h₁, h⟩ := Except.of_bind_ok h
    obtain ⟨hs, hp, hr'⟩ := hr.step (fun s _ => s.faithful) h₁
    obtain ⟨hW, _, hlt⟩ := hr.entry entry hf
    have hstart : (d.start block).resumptions = d.resumptions := by
      rw [Draft.start_of_none hr.idle]
    have hbody := Draft.completes_part hr.fits hr.past.2.1
      ⟨hr.entry_new hf, hr.opened_clause.1.lt ⟨hW, Nat.ne_of_lt hlt⟩⟩ hs hp.drawn
    rw [ih hr' h, Draft.mem_resumptions_leaveRegion_iff hf, hbody, hstart, or_assoc]
    -- The end of this clause is reached, or that of a later one.
    refine or_congr Iff.rfl ⟨?_, ?_⟩
    · rintro (⟨hc, _⟩ | ⟨c, d₂, d₃, hb, h₃, hc⟩)
      · exact ⟨clause, _, d₁, .head, h₁, hc⟩
      · exact ⟨c, d₂, d₃, .tail h₁ hb, h₃, hc⟩
    · rintro ⟨c, d₂, d₃, hb, h₃, hc⟩
      cases hb with
      | head =>
        cases h₁.symm.trans h₃
        exact Or.inl ⟨hc, rfl⟩
      | tail h₁' hb =>
        cases h₁.symm.trans h₁'
        exact Or.inr ⟨c, d₂, d₃, hb, h₃, hc⟩

end Completion

/-- The block after the statement is registered for its `finally` clause just if the code in front
of the clause can come to its end. -/
theorem Guard.Drawn.completes_iff {g : Guard} {d₁ d₂ : Draft} (hw : g.Drawn d₁ d₂)
    (h₁ : g.drawBlock = .ok d₁) (h₂ : g.drawGuarded = .ok d₂) {entry : BlockId}
    (hf : g.finalBlock? = some entry) :
    (entry, .sequential g.after) ∈ d₂.resumptions ↔ g.ReachesEnd := by
  have hd : g.draft.Steady := hw.ready.steady
  have hnew := hw.ready.entry_new hf
  have hbefore : (entry, Edge.sequential g.after) ∉
      (g.draft.openTry g.scope.types g.catches g.finalizer g.block.span).resumptions := by
    rw [Draft.resumptions_openTry]
    exact fun hp => absurd (hd.resumed_lt _ hp) (Nat.not_lt_of_le hnew)
  have hlt : entry < (g.draft.openTry g.scope.types g.catches g.finalizer g.block.span).fresh := by
    rw [Draft.fresh_openTry]
    exact Nat.lt_succ_of_lt (Nat.lt_of_lt_of_le (Guard.of_finalBlock? hf).2 (Nat.le_add_right _ _))
  have hres := (LocalVar.part_resources g.resources rfl hw.opened.steady hw.fits_opened).drawn
  have hblock := (Stmt.part_all (fun s _ => s.faithful) hw.resourced.steady hw.fits_block h₁).drawn
  have hpast : g.draft.fresh ≤ g.after := Nat.le_refl _
  -- No jump inside the block goes on just past the statement, so only its end counts.
  have hbody : (entry, Edge.sequential g.after) ∉ d₁.resumptions := fun hp => by
    have hp := (Draft.completes_part hw.ready.fits hpast
      ⟨hnew, Nat.lt_of_lt_of_le hlt (hres.fresh_le hw.opened.steady)⟩ hw.resourced.steady
        hblock).mp hp
    exact hbefore
      ((Draft.completes_part hw.ready.fits hpast ⟨hnew, hlt⟩ hw.opened.steady hres).mp hp)
  rw [Guard.drawGuarded, h₁] at h₂
  rw [CatchClause.completes_all hf hw.ready h₂, Guard.leaveBlock,
    Draft.mem_resumptions_leaveRegion_iff hf]
  constructor
  · rintro ((hp | ⟨hc, _⟩) | hc)
    · exact absurd hp hbody
    · exact ⟨d₁, h₁, Or.inl hc⟩
    · exact ⟨d₁, h₁, Or.inr hc⟩
  · rintro ⟨_, h₁', hc⟩
    cases h₁.symm.trans h₁'
    exact hc.imp_left fun hc => Or.inr ⟨hc, rfl⟩

section Drafts

variable {types : Subtyping} {body : Block} {D d : Draft} (hD : Graph.draft types body = .ok D)
    {g : Guard}
include hD

/-- Between the catch clauses and the end of the `finally` clause nothing is registered for the
clause. At its end the clause is left, and then the draft grows to the finished one. -/
theorem Block.HasGuard.finally (hg : body.HasGuard types g) {final : Block}
    (hf : g.finalizer = some final) (hd : g.drawFinally final = .ok d) :
    ∃ d₂, g.drawGuarded = .ok d₂ ∧
      (∀ e, (g.after + 1, e) ∈ d.resumptions ↔ (g.after + 1, e) ∈ d₂.resumptions) ∧ d.Steady ∧
      (d.leaveFinalizer (g.after + 1) g.after).Extends D := by
  obtain ⟨s, hhas, hs⟩ := hg
  obtain ⟨d₁, d₂, d₃, h₁, h₂, hw, h₃, _, hext⟩ := (hhas.good hD).guard hs
  obtain ⟨hended, _⟩ := hw.done.drawFinalizer (fun _ _ s _ => s.faithful) h₃
  rw [Guard.drawFinally, h₂] at hd
  have hd : Stmt.drawAll final.stmts g.scope (d₂.start (g.after + 1)) = .ok d := hd
  rw [hf, Block.drawFinalizer_some, hd] at h₃
  obtain rfl : d.leaveFinalizer (g.after + 1) g.after = d₃ := Except.ok.inj h₃
  have hdone := hw.done
  rw [Guard.finalBlock?, Guard.handler, Draft.handlerAt, hf] at hdone
  obtain ⟨ho, hfit⟩ := hdone.opened_finally
  have hp := (Stmt.part_all (fun s _ => s.faithful) ho.steady hfit hd).drawn
  refine ⟨d₂, h₂, fun e => ⟨fun he => hdone.resumptions_finally hp he, fun he => ?_⟩, hp.steady,
    (Draft.extends_continueAt hended.steady _).trans hext⟩
  refine (hp.run.extends ho.steady).resumptions ?_
  rw [Draft.start_of_none hdone.idle]
  exact he

/-- The block that ends a `finally` clause leads to all that was registered for the clause. -/
theorem Block.HasGuard.endBlock (hg : body.HasGuard types g) {id : BlockId} (hend : g.EndsAt id)
    {d₂ : Draft} (h₂ : g.drawGuarded = .ok d₂) {e : Edge} (he : (g.after + 1, e) ∈ d₂.resumptions) :
    ∃ b, D.graph.block? id = some b ∧ b.terminator = .endFinally ∧ e ∈ b.successors := by
  obtain ⟨final, d, hf, hd, hid⟩ := hend
  obtain ⟨_, h₂', hsame, hsteady, hext⟩ := hg.finally hD hf hd
  cases h₂.symm.trans h₂'
  have hmem := Draft.mem_resumptionsOf.mpr ((hsame e).mpr he)
  unfold Draft.leaveFinalizer at hext
  split at hext
  · rename_i hnil
    rw [hnil] at hmem
    exact nomatch hmem
  · rw [Draft.closeOpen_of_some hsteady hid] at hext
    obtain ⟨b, hb, ht, _, hedges⟩ := Draft.block?_of_sealed hsteady hid hext
    exact ⟨b, hb, ht, hedges e hmem⟩

/-- Whatever is registered for a `finally` clause, exceptions apart, goes on after its statement or
belongs to a jump that crosses the clause. -/
theorem Block.HasGuard.origin (hg : body.HasGuard types g) {d₂ : Draft}
    (h₂ : g.drawGuarded = .ok d₂) (hf : g.finalBlock? = some (g.after + 1)) {e : Edge}
    (he : (g.after + 1, e) ∈ d₂.resumptions) (hnormal : e.isNormal = true) :
    e = .sequential g.after ∨ ∃ s dep pre post, body.Has types s ∧ s.departure? = some dep ∧
      dep.guards = pre ++ g :: post ∧ e = Departure.next post dep.final := by
  obtain ⟨d₁, _, _, h₂', hw, _, fs, htrace⟩ := hg.drawn hD
  cases h₂.symm.trans h₂'
  rcases htrace.mem_resumptions he with he | ⟨frame, hframe, hresumes⟩
  · exact absurd (hw.ready.steady.resumed_lt _ he) (Nat.not_lt_of_le (Nat.le_succ _))
  · rcases hresumes with hexc | ⟨s, route, hhas, hfs, hroute, hp⟩ | ⟨g', _, hf', he'⟩
    · rw [Edge.isNormal, hexc] at hnormal
      cases hnormal
    · obtain ⟨dep, hdep, hsub, hroutes⟩ := Site.exists_departure hroute
      obtain ⟨pre, g', post, hsplit, hf', rfl⟩ := (hroutes.resumptions _).mp hp
      have hmem : g ∈ s.guards :=
        List.mem_filterMap.mpr ⟨frame, hfs.subset List.mem_cons_self, hframe⟩
      have hmem' : g' ∈ s.guards := hsub (hsplit ▸ List.mem_append_right _ List.mem_cons_self)
      cases hhas.guard_unique hD hmem hmem' hf hf'
      exact Or.inr ⟨s, dep, pre, post, hhas, hdep, hsplit, rfl⟩
    · have hafter : g.after = g'.after := Nat.succ.inj (Guard.of_finalBlock? hf').1
      exact Or.inl (hafter ▸ he')

/-- A jump has no normal edge but the first of its route. -/
theorem Site.Jumped.normalSuccessors {s : Site} {route : JumpRoute} {b : BasicBlock}
    (h : s.Jumped types D route b) : b.normalSuccessors = [route.edge] := by
  obtain ⟨e, he⟩ := h.single _ (Graph.prescribes_draft hD h.isBlock)
  have hmem : route.edge ∈ b.normalSuccessors := List.mem_filter.mpr ⟨h.edge, h.normal⟩
  rw [BasicBlock.normalSuccessors, he] at hmem ⊢
  rw [List.mem_singleton.mp hmem]

/-- Whatever block ends a `finally` clause stands at the end of one in the text. -/
theorem Block.concluded {id : BlockId} {b : BasicBlock} (hb : D.graph.block? id = some b)
    (ht : b.terminator = .endFinally) :
    ∃ d₀ edges, body.EndsFinally types d₀ id edges ∧ ∀ e ∈ b.successors, e.isExceptional = true ∨
      e ∈ edges := by
  refine (Graph.draft_trace hD).concludes (Draft.steady_begun _) (Draft.sound_begun _) ?_ id b hb ht
  intro id b hb ht
  rcases Draft.block?_begun hb with ⟨_, rfl⟩ | ⟨_, rfl⟩ <;> exact nomatch ht

end Drafts

namespace Graph

/-- `finally` clauses resume just the exits that are pending. Every jump in the text of a body is
drawn. It ends its block by one normal edge, to the innermost `finally` clause that it crosses or
else to its destination, and each of these clauses, if it comes to its end, goes on to the next one,
the last one to the destination of the jump. There are no other normal edges at the end of a
`finally` clause, except that it goes on after its statement just if the code before it can come to
its end. -/
theorem build_resumes {types : Subtyping} {body : Block} {g : Graph}
    (hg : build types body = .ok g) :
    (∀ stmt, body.Contains stmt → ∃ site, body.Has types site ∧ site.stmt = stmt) ∧
    (∀ site, body.Has types site → site.stmt.isJump = true → ∃ dep, site.departure? = some dep ∧
      (∃ b, g.block? (site.jumpBlock types) = some b ∧ b.terminatorSpan = some site.stmt.span ∧
        b.normalSuccessors = [Departure.next dep.guards dep.final]) ∧
      ∀ pre guard post, dep.guards = pre ++ guard :: post → body.HasGuard types guard ∧
        ∀ id, guard.EndsAt id → ∃ b, g.block? id = some b ∧ b.terminator = .endFinally ∧
          Departure.next post dep.final ∈ b.successors) ∧
    ∀ id b, g.block? id = some b → b.terminator = .endFinally →
      ∃ guard, body.HasGuard types guard ∧ guard.EndsAt id ∧
        (∀ e ∈ b.normalSuccessors, e = .sequential guard.after ∨
          ∃ site dep pre post, body.Has types site ∧ site.departure? = some dep ∧
            dep.guards = pre ++ guard :: post ∧ e = Departure.next post dep.final) ∧
        (.sequential guard.after ∈ b.successors ↔ guard.ReachesEnd) := by
  obtain ⟨D, hD, rfl⟩ := exists_draft hg
  refine ⟨fun stmt h => Block.exists_site hD h, fun site hhas hjump => ?_, fun id b hb ht => ?_⟩
  · obtain ⟨route, b, hj⟩ := (hhas.good hD).jumped hjump
    obtain ⟨dep, hdep, hsub, hroutes⟩ := Site.exists_departure hj.taken
    refine ⟨dep, hdep, ⟨b, hj.isBlock, hj.span, hroutes.edge ▸ hj.normalSuccessors hD⟩,
      fun pre guard post hsplit => ?_⟩
    have hmem : guard ∈ site.guards := hsub (hsplit ▸ List.mem_append_right _ List.mem_cons_self)
    refine ⟨hhas.hasGuard guard hmem, fun id hend => ?_⟩
    obtain ⟨d₂, h₂, hres⟩ := hj.registered guard hmem
    refine (hhas.hasGuard guard hmem).endBlock hD hend h₂ (hres ((hroutes.resumptions _).mpr ?_))
    obtain ⟨final, _, hf, _⟩ := hend
    exact ⟨pre, guard, post, hsplit, Guard.finalBlock?_of_some hf, rfl⟩
  · obtain ⟨d, edges, ⟨guard, final, hguard, hf, hd, hid, rfl⟩, hedges⟩ := Block.concluded hD hb ht
    obtain ⟨d₁, d₂, h₁, h₂, hw, _⟩ := hguard.drawn hD
    obtain ⟨_, h₂', hsame, _⟩ := hguard.finally hD hf hd
    cases h₂.symm.trans h₂'
    have hentry := Guard.finalBlock?_of_some hf
    have hend : guard.EndsAt id := ⟨final, d, hf, hd, hid⟩
    -- The edges of the block, exceptions apart, are those registered for the clause.
    have hreg : ∀ {e : Edge}, e.isNormal = true →
        (e ∈ b.successors ↔ (guard.after + 1, e) ∈ d₂.resumptions) := by
      refine fun {e} hn => ⟨fun he => ?_, fun he => ?_⟩
      · rcases hedges e he with hexc | he
        · rw [Edge.isNormal, hexc] at hn
          cases hn
        · exact (hsame e).mp (Draft.mem_resumptionsOf.mp he)
      · obtain ⟨b', hb', _, he⟩ := hguard.endBlock hD hend h₂ he
        cases hb.symm.trans hb'
        exact he
    refine ⟨guard, hguard, hend, fun e he => ?_, (hreg rfl).trans (hw.completes_iff h₁ h₂ hentry)⟩
    obtain ⟨he, hn⟩ := List.mem_filter.mp he
    exact hguard.origin hD h₂ hentry ((hreg hn).mp he) hn

/-- A loop that is left through two `finally` clauses, one in the other. -/
def nestedBody : Block where
  stmts :=
    [.whileStmt (.name "c" {})
      (.tryStmt []
        ⟨[.tryStmt [] ⟨[.breakStmt none {}], {}⟩ []
          (some ⟨[.expr (.call none "f" [] [] {}) {}], {}⟩) {}], {}⟩ []
        (some ⟨[.expr (.call none "g" [] [] {}) {}], {}⟩) {}) {}]
  span := {}

/-- The `break` in the nested body is resumed first by the inner clause, then by the outer. -/
theorem build_resumes_nestedBody :
    ∃ g, build ClassHierarchy.javaLang.subtyping nestedBody = .ok g ∧
      ∃ site dep inner outer, nestedBody.Has ClassHierarchy.javaLang.subtyping site ∧
        site.stmt = .breakStmt none {} ∧ site.departure? = some dep ∧ dep.guards = [inner, outer] ∧
        inner.EndsAt 9 ∧ outer.EndsAt 6 ∧
        (∃ b, g.block? 10 = some b ∧ b.terminatorSpan = some site.stmt.span ∧
          b.normalSuccessors = [.sequential 9]) ∧
        (∃ b, g.block? 9 = some b ∧ b.terminator = .endFinally ∧ .sequential 6 ∈ b.successors) ∧
        ∃ b, g.block? 6 = some b ∧ b.terminator = .endFinally ∧ .sequential 4 ∈ b.successors := by
  obtain ⟨g, hg⟩ : ∃ g, build ClassHierarchy.javaLang.subtyping nestedBody = .ok g := ⟨_, rfl⟩
  obtain ⟨site, inner, outer, hhas, hstmt, hblock, hdep, hinner, houter, hfirst, hnext, hlast⟩ :
      ∃ site inner outer, nestedBody.Has ClassHierarchy.javaLang.subtyping site ∧
        site.stmt = .breakStmt none {} ∧ site.jumpBlock ClassHierarchy.javaLang.subtyping = 10 ∧
        site.departure? = some ⟨[inner, outer], .sequential 4⟩ ∧ inner.EndsAt 9 ∧ outer.EndsAt 6 ∧
        Departure.next [inner, outer] (.sequential 4) = .sequential 9 ∧
        Departure.next [outer] (.sequential 4) = .sequential 6 ∧
        Departure.next [] (.sequential 4) = .sequential 4 :=
    ⟨_, _, _,
      .part (.part (.part (.top .head) (.whileBody rfl)) (.inTry rfl .head))
        (.inTry rfl .head), rfl,
      rfl, rfl, ⟨_, _, rfl, rfl, rfl⟩, ⟨_, _, rfl, rfl, rfl⟩, rfl, rfl, rfl⟩
  obtain ⟨dep, hdep', hedge, hresumed⟩ := (build_resumes hg).2.1 site hhas (hstmt ▸ rfl)
  obtain rfl := Option.some.inj (hdep.symm.trans hdep')
  refine ⟨g, hg, site, _, inner, outer, hhas, hstmt, hdep, rfl, hinner, houter, ?_, ?_, ?_⟩
  · exact hblock ▸ hfirst ▸ hedge
  · exact hnext ▸ (hresumed [] inner [outer] rfl).2 9 hinner
  · exact hlast ▸ (hresumed [inner] outer [] rfl).2 6 houter

end Graph

end MethodFlow
