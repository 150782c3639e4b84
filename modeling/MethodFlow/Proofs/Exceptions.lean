import MethodFlow.Proofs.Comparison

/-!
# Where exceptions lead

An exceptional edge leads to a block that receives exceptions, the entry of a catch clause or of a
`finally` clause, or it leads to the exit. Two kinds of blocks let exceptions out of the method:
those that end with a `throw`, and those at the end of a `finally` clause that an exception has come
through. An element that may raise an exception which nothing receives has no edge for it.

`Draft.Guided` says so of a draft, where the clauses that the scope names have to be such entries
already. It is kept by all of drawing; the induction over the code is the one for two drafts
(`Comparison`), with a draft in the place of both.
-/

namespace MethodFlow

/-- The block is the entry of a catch clause or of a `finally` clause. -/
def Graph.Receives (g : Graph) (id : BlockId) : Prop :=
  ∃ b, g.block? id = some b ∧ (b.kind = .handler ∨ b.kind = .finalizer)

/-- The ways for an exception to leave a method. -/
def Terminator.letsOut (t : Terminator) : Prop := t = .throwing ∨ t = .endFinally

namespace Draft

/-- Exceptional edges lead to entries of clauses, and to the exit only from closed blocks that may
do so. -/
structure Guided (scope : Scope) (d : Draft) : Prop where
  edges : ∀ id b, d.graph.block? id = some b → ∀ e ∈ b.successors, e.isExceptional = true →
    d.graph.Receives e.target ∨ e.target = Graph.exit ∧ id ∈ d.closed ∧ b.terminator.letsOut
  resumptions : ∀ p ∈ d.resumptions, p.2.isExceptional = true →
    d.graph.Receives p.2.target ∨ p.2.target = Graph.exit
  entries : ∀ h ∈ scope.handlers, ∀ id, h.HasEntry id → d.graph.Receives id

namespace Guided

variable {scope : Scope} {d d' : Draft}

/-- What changes neither the cores of blocks nor what is closed or registered. -/
theorem of_cores (h : Guided scope d) (closed : d'.closed = d.closed)
    (resumptions : d'.resumptions = d.resumptions)
    (cores : ∀ id, (d'.graph.block? id).map (·.core) = (d.graph.block? id).map (·.core)) :
    Guided scope d' := by
  have receives : ∀ {id}, d.graph.Receives id → d'.graph.Receives id := by
    rintro id ⟨b, hb, hk⟩
    obtain ⟨b', hb', hc⟩ := exists_block?_of_core (cores id).symm hb
    have hkind : b.kind = b'.kind := congrArg (·.kind) hc
    exact ⟨b', hb', hkind ▸ hk⟩
  refine ⟨fun id b hb e he hx => ?_, fun p hp hx => ?_, fun handler hm id hid => ?_⟩
  · obtain ⟨b₀, hb₀, hc⟩ := exists_block?_of_core (cores id) hb
    have hs : b.successors = b₀.successors := congrArg (·.successors) hc
    have ht : b.terminator = b₀.terminator := congrArg (·.terminator) hc
    rw [closed, ht]
    exact (h.edges id b₀ hb₀ e (hs ▸ he) hx).imp_left receives
  · exact (h.resumptions p (resumptions ▸ hp) hx).imp_left receives
  · exact receives (h.entries handler hm id hid)

theorem receives_add {id : BlockId} (b : BasicBlock) (h : d.graph.Receives id) :
    (d.add b).graph.Receives id := by
  obtain ⟨b₀, hb, hk⟩ := h
  exact ⟨b₀, (block?_add_of_lt (Graph.lt_size_of_block? hb) b).trans hb, hk⟩

theorem add (h : Guided scope d) (kind : BlockKind) (elements : List Element) (span : Option Span) :
    Guided scope (d.add { kind, elements, span }) := by
  refine ⟨fun id b hb e he hx => ?_,
    fun p hp hx => (h.resumptions p hp hx).imp_left (receives_add _),
    fun handler hm id hid => receives_add _ (h.entries handler hm id hid)⟩
  rw [block?_add] at hb
  split at hb
  · -- The new block has no edges.
    cases hb
    exact nomatch he
  · exact (h.edges id b hb e he hx).imp_left (receives_add _)

/-- A change of one block, which may close it. -/
theorem of_change (h : Guided scope d) {id : BlockId} {f : BasicBlock → BasicBlock}
    (blocks : ∀ i, d'.graph.block? i = if id = i then (d.graph.block? i).map f
      else d.graph.block? i)
    (closed : d.closed ⊆ d'.closed) (resumptions : d'.resumptions = d.resumptions)
    (hkind : ∀ b, (f b).kind = b.kind ∨ b.kind = .normal)
    (hedges : ∀ b, d.graph.block? id = some b → ∀ e ∈ (f b).successors, e.isExceptional = true →
      d.graph.Receives e.target ∨ e.target = Graph.exit ∧ id ∈ d'.closed ∧
        (f b).terminator.letsOut) :
    Guided scope d' := by
  have receives : ∀ {i}, d.graph.Receives i → d'.graph.Receives i := by
    rintro i ⟨b, hb, hk⟩
    unfold Graph.Receives
    rw [blocks i]
    split
    · refine ⟨f b, by rw [hb]; rfl, ?_⟩
      rcases hkind b with hf | hf
      · rw [hf]
        exact hk
      · rw [hf] at hk
        exact hk.elim nofun nofun
    · exact ⟨b, hb, hk⟩
  refine ⟨fun i b hb e he hx => ?_, fun p hp hx => ?_, fun handler hm i hi => ?_⟩
  · rw [blocks i] at hb
    split at hb
    · rename_i heq
      subst heq
      obtain ⟨b₀, hb₀, rfl⟩ := Option.map_eq_some_iff.mp hb
      exact (hedges b₀ hb₀ e he hx).imp_left receives
    · exact (h.edges i b hb e he hx).imp receives fun ⟨ht, hi, hend⟩ => ⟨ht, closed hi, hend⟩
  · exact (h.resumptions p (resumptions ▸ hp) hx).imp_left receives
  · exact receives (h.entries handler hm i hi)

theorem record (h : Guided scope d) (id : BlockId) (element : Element) :
    Guided scope (d.modify id fun b => { b with elements := b.elements ++ [element] }) :=
  h.of_change (block?_modify d _ id) (List.Subset.refl _) rfl (fun _ => Or.inl rfl)
    fun b hb e he hx =>
    h.edges id b hb e he hx

/-- More exceptional edges, to entries of clauses. -/
theorem addEdges (h : Guided scope d) (id : BlockId) {edges : List Edge}
    (hedges : ∀ e ∈ edges, d.graph.Receives e.target) : Guided scope (d.addEdges id edges) := by
  refine h.of_change (block?_modify d _ id) (List.Subset.refl _) rfl (fun _ => Or.inl rfl)
    fun b hb e he hx => ?_
  rcases mem_appendAllNew.mp he with he | he
  · exact h.edges id b hb e he hx
  · exact Or.inl (hedges e he)

/-- Closing a block. An open block has no edge to the exit so far, so its terminator is all that
matters. -/
theorem close (h : Guided scope d) (id : BlockId) {t : Terminator} {edges : List Edge}
    (span : Option Span) (hedges : ∀ e ∈ edges, e.isExceptional = true →
      d.graph.Receives e.target ∨ e.target = Graph.exit ∧ t.letsOut) :
    Guided scope (d.close id t edges span) := by
  unfold Draft.close
  split
  · exact h.of_cores rfl rfl fun _ => rfl
  · rename_i hopen
    refine h.of_change (block?_modify d _ id) (List.subset_cons_self _ _) rfl (fun b => ?_)
      fun b hb e he hx => ?_
    · unfold endBlock
      dsimp only
      split
      · rename_i hk
        exact Or.inr (beq_iff_eq.mp (Bool.and_eq_true_iff.mp hk).2)
      · exact Or.inl rfl
    · rcases mem_appendAllNew.mp he with he | he
      · rcases h.edges id b hb e he hx with hr | ⟨_, hclosed, _⟩
        · exact Or.inl hr
        · exact absurd (List.contains_iff_mem.mpr hclosed) hopen
      · exact (hedges e he hx).imp_right fun ⟨ht, hend⟩ => ⟨ht, List.mem_cons_self, hend⟩

/-- Resumptions keep a draft guided when their exceptional edges lead to receivers or out. -/
theorem resumeAt (h : Guided scope d) {resumptions : List (BlockId × Edge)}
    (hres : ∀ p ∈ resumptions, p.2.isExceptional = true →
      d.graph.Receives p.2.target ∨ p.2.target = Graph.exit) :
        Guided scope (d.resumeAt resumptions) := by
  refine ⟨h.edges, fun p hp hx => ?_, h.entries⟩
  rcases mem_appendAllNew.mp hp with hp | hp
  · exact h.resumptions p hp hx
  · exact hres p hp hx

theorem not_exceptional {e : Edge} (h : e.isNormal = true) : ¬ e.isExceptional = true := by
  rw [Edge.isNormal, Bool.not_eq_true'] at h
  rw [h]
  exact Bool.false_ne_true

/-- All of drawing but what depends on exceptions. -/
theorem stable (scope : Scope) : Stable Eq fun d d' => d = d' ∧ Guided scope d where
  refl _ := rfl
  fresh := by
    rintro d _ ⟨rfl, _⟩
    rfl
  current := by
    rintro d _ ⟨rfl, _⟩
    rfl
  report := by
    rintro d _ ⟨rfl, h⟩ fault
    exact ⟨rfl, h.of_cores rfl rfl fun _ => rfl⟩
  enter := by
    rintro d _ ⟨rfl, h⟩ id
    exact ⟨rfl, h.of_cores rfl rfl fun _ => rfl⟩
  add := by
    rintro d _ ⟨rfl, h⟩ kind elements span _ rfl
    exact ⟨rfl, h.add kind elements span⟩
  record := by
    rintro d _ ⟨rfl, h⟩ id element
    exact ⟨rfl, h.record id element⟩
  close := by
    rintro d _ ⟨rfl, h⟩ id t edges span span' hnormal hspan
    have hspan : span = span' := hspan.elim (fun hs => hs) (·.2)
    subst hspan
    exact ⟨rfl, h.close id span fun e he hx => absurd hx (not_exceptional (hnormal e he))⟩
  dangle := by
    rintro d _ ⟨rfl, h⟩ id
    exact ⟨rfl, h.of_cores rfl rfl fun _ => rfl⟩
  resolve := by
    rintro d _ ⟨rfl, h⟩ next
    exact ⟨rfl, h.of_cores (by simp) (by simp) (d.core_resolveDangling next)⟩
  mark := by
    rintro d _ ⟨rfl, h⟩
    exact ⟨rfl, h.of_cores (by simp) (by simp) d.core_endCaseGroup⟩
  resume := by
    rintro d _ ⟨rfl, h⟩ resumptions hnormal
    exact ⟨rfl, h.resumeAt fun p hp hx => absurd hx (not_exceptional (hnormal p hp))⟩

/-! ## Exceptions -/

/-- Along a route, exceptions lead to blocks that receive them. -/
theorem receives_edge (h : Guided scope d) {types : Subtyping} {thrown : List TypeName} {e : Edge}
    (he : e ∈ (ThrowRoute.through types false scope.handlers thrown []).edges) :
    d.graph.Receives e.target := by
  obtain ⟨id, hid, rfl⟩ := List.mem_map.mp he
  rcases ThrowRoute.mem_targets hid with hid | ⟨hfalse, _⟩ | ⟨handler, hm, hid⟩
  · exact nomatch hid
  · exact nomatch hfalse
  · exact h.entries handler hm id hid

/-- Where exceptions come to when nothing keeps them from leaving the method. -/
theorem receives_or_exit (h : Guided scope d) {id : BlockId}
    (hid : id = Graph.exit ∨ ∃ handler ∈ scope.handlers, handler.HasEntry id) :
    d.graph.Receives id ∨ id = Graph.exit := by
  rcases hid with hid | ⟨handler, hm, hid⟩
  · exact Or.inr hid
  · exact Or.inl (h.entries handler hm id hid)

theorem resumeThrown (h : Guided scope d) (types : Subtyping) (toExit : Bool)
    (thrown : List TypeName) :
    Guided scope
      (d.resumeAt (ThrowRoute.through types toExit scope.handlers thrown []).resumptions) := by
  refine h.resumeAt fun p hp _ => ?_
  obtain ⟨_, id, he, hid⟩ := ThrowRoute.mem_resumptions hp
  rw [he]
  exact h.receives_or_exit hid

theorem raise (h : Guided scope d) (types : Subtyping) (declared : List TypeName) :
    Guided scope (d.raise (scope.under types) declared) :=
  (h.addEdges d.openBlock fun _ he => h.receives_edge he).resumeThrown types false _

theorem ensureOpen (h : Guided scope d) : Guided scope d.ensureOpen :=
    ((stable scope).ensureOpen ⟨rfl, h⟩).2

/-- A `throw` statement keeps a draft guided. -/
theorem throw (h : Guided scope d) (types : Subtyping) (thrown : TypeName) (span : Span) :
    Guided scope ((d.jump .throwing ((scope.under types).throwRoute thrown).edges span).resumeAt
      ((scope.under types).throwRoute thrown).resumptions) := by
  have hopen : Guided scope { d.ensureOpen with current := none } :=
    ((stable scope).enter ⟨rfl, h.ensureOpen⟩ _).2
  have hclosed :
      Guided scope
        (d.terminate .throwing ((scope.under types).throwRoute thrown).edges (some span)) := by
    refine hopen.close d.openBlock (some span) fun e he _ => ?_
    obtain ⟨id, rfl, hid⟩ := ThrowRoute.mem_edges he
    exact (hopen.receives_or_exit hid).imp_right fun hid => ⟨hid, Or.inl rfl⟩
  exact Guided.resumeThrown ((stable scope).dangle ⟨rfl, hclosed⟩ d.openBlock).2 types true _

theorem leaveFinalizer (h : Guided scope d) (entry after : BlockId) :
    Guided scope (d.leaveFinalizer entry after) := by
  unfold Draft.leaveFinalizer
  split
  · exact ((stable scope).fallInto ⟨rfl, h⟩ after).2
  · unfold Draft.closeOpen
    split
    · have hnone : Guided scope { d with current := none } := ((stable scope).enter ⟨rfl, h⟩ none).2
      refine hnone.close _ none fun e he hx => ?_
      exact (h.resumptions _ (mem_resumptionsOf.mp he) hx).imp_right fun ht => ⟨ht, Or.inr rfl⟩
    · exact h

/-! ## `try` statements -/

theorem receives_createClauses (clauses : List CatchClause) {d : Draft} {id : BlockId}
    (h : d.graph.Receives id ∨ d.fresh ≤ id ∧ id < d.fresh + clauses.length) :
    (CatchClause.createBlocks clauses d).graph.Receives id := by
  unfold CatchClause.createBlocks
  induction clauses generalizing d with
  | nil =>
    rcases h with h | ⟨hle, hlt⟩
    · exact h
    · exact absurd hlt (Nat.not_lt_of_le hle)
  | cons clause clauses ih =>
    rw [List.foldl_cons, createClause_eq]
    refine ih ?_
    rcases h with h | ⟨hle, hlt⟩
    · exact Or.inl (receives_add _ h)
    · rcases Nat.eq_or_lt_of_le hle with rfl | hgt
      · exact Or.inl ⟨_, (block?_add d _ d.fresh).trans (if_pos rfl), Or.inl rfl⟩
      · rw [List.length_cons] at hlt
        rw [fresh_add]
        exact Or.inr ⟨hgt, by grind⟩

/-- The entries of the clauses are made as such. -/
theorem receives_makeTry (d : Draft) (catches : List CatchClause) (finalizer : Option Block)
    {id : BlockId} (h : (handlerAt d.fresh catches finalizer).HasEntry id) :
    (d.makeTry catches finalizer).graph.Receives id := by
  obtain ⟨hl, hr⟩ := hasEntry_handlerAt h
  unfold Draft.makeTry
  refine receives_createClauses catches ?_
  cases finalizer with
  | none =>
    right
    show (d.create .normal none).fresh ≤ id ∧ id < (d.create .normal none).fresh + catches.length
    rw [fresh_create]
    exact ⟨hl, hr⟩
  | some final =>
    show ((d.create .normal none).create .finalizer (some final.span)).graph.Receives id ∨
      ((d.create .normal none).create .finalizer (some final.span)).fresh ≤ id ∧
        id < ((d.create .normal none).create .finalizer (some final.span)).fresh + catches.length
    rw [fresh_create, fresh_create]
    rcases Nat.eq_or_lt_of_le (Nat.succ_le_of_lt hl) with rfl | hgt
    · refine Or.inl ⟨_, (block?_add _ _ _).trans (if_pos ?_), Or.inr rfl⟩
      exact (fresh_create d .normal none).symm
    · exact Or.inr ⟨hgt, hr⟩

/-- Inside a `try` statement exceptions are guided to its clauses as well. -/
theorem openTry (h : Guided scope d) (types : Subtyping) (catches : List CatchClause)
    (finalizer : Option Block) (block : Span) :
    Guided (scope.guarded (handlerAt d.fresh catches finalizer))
      (d.openTry types catches finalizer block) := by
  have hmade : Guided scope (d.makeTry catches finalizer) := ((stable scope).makeTry ⟨rfl, h⟩ _ _).2
  have hnamed :
      Guided (scope.guarded (handlerAt d.fresh catches finalizer))
        (d.makeTry catches finalizer) := by
    refine ⟨hmade.edges, hmade.resumptions, fun handler hm id hid => ?_⟩
    rcases List.mem_cons.mp hm with rfl | hm
    · exact receives_makeTry d catches finalizer hid
    · exact hmade.entries handler hm id hid
  have hs := stable (scope.guarded (handlerAt d.fresh catches finalizer))
  have hopen := (hs.continueAt (hs.create ⟨rfl, hnamed⟩ .normal (rfl : some block = some block))
    (firstCatch d.fresh finalizer + catches.length)).2
  refine hopen.addEdges _ fun e he => ?_
  obtain ⟨c, hc, rfl⟩ := List.mem_map.mp he
  exact hopen.entries _ List.mem_cons_self _ (Or.inl ⟨c, (List.mem_filter.mp hc).1, rfl⟩)

/-- The scope matters by its handlers only, and fewer of them do no harm. -/
theorem of_handlers {scope' : Scope} (h : Guided scope d)
    (hsub : ∀ handler ∈ scope'.handlers, ∃ handler₀ ∈ scope.handlers,
      ∀ id, handler.HasEntry id → handler₀.HasEntry id) : Guided scope' d := by
  refine ⟨h.edges, h.resumptions, fun handler hm id hid => ?_⟩
  obtain ⟨handler₀, hm₀, hsame⟩ := hsub handler hm
  exact h.entries handler₀ hm₀ id (hsame id hid)

/-- Guidance is kept by all of drawing: a comparison of a drawing with itself. -/
theorem comparison (types : Subtyping) :
    Comparison types types Eq fun scope _ d d' => d = d' ∧ Guided scope d where
  stable scope _ := stable scope
  raise := by
    rintro scope _ d _ ⟨rfl, h⟩ declared
    exact ⟨rfl, h.raise types declared⟩
  throw := by
    rintro scope _ d _ ⟨rfl, h⟩ thrown span
    exact ⟨rfl, h.throw types thrown span⟩
  inside := by
    intro scope _ d d' labels kind after
    exact ⟨fun ⟨he, h⟩ => ⟨he, h.edges, h.resumptions, h.entries⟩,
      fun ⟨he, h⟩ => ⟨he, h.edges, h.resumptions, h.entries⟩⟩
  guard := by
    rintro scope _ d _ ⟨rfl, h⟩ catches finalizer block
    exact ⟨rfl, h.openTry types catches finalizer block⟩
  clause := by
    rintro scope _ d _ handler ⟨rfl, h⟩
    refine ⟨rfl, h.of_handlers fun handler' hm => ?_⟩
    rcases List.mem_cons.mp hm with rfl | hm
    · exact ⟨handler, List.mem_cons_self,
        fun id hid => Or.inr (hid.resolve_left fun ⟨_, hc, _⟩ => nomatch hc)⟩
    · exact ⟨handler', List.mem_cons_of_mem _ hm, fun _ hid => hid⟩
  leave := by
    rintro scope _ d _ handler ⟨rfl, h⟩
    exact ⟨rfl, h.of_handlers fun handler' hm =>
      ⟨handler', List.mem_cons_of_mem _ hm, fun _ hid => hid⟩⟩
  await := by
    rintro scope _ d _ entry ⟨rfl, h⟩ _ _
    exact ⟨rfl, h⟩
  final := by
    rintro scope _ d _ entry ⟨rfl, h⟩ after
    exact ⟨rfl, h.leaveFinalizer entry after⟩

end Guided

theorem guided_begun (types : Subtyping) (span : Span) : Guided { types } (begun span) := by
  refine ⟨fun id b hb e he _ => ?_, nofun, nofun⟩
  rcases block?_begun hb with ⟨_, rfl⟩ | ⟨_, rfl⟩ <;> exact nomatch he

end Draft

/-- The exceptional edges of a body. -/
theorem Graph.draft_guided {types : Subtyping} {body : Block} {D : Draft}
    (hD : Graph.draft types body = .ok D) : D.Guided { types } := by
  have hc := Draft.Guided.comparison types
  have h' : Graph.draft types (body.mapExpr id) = .ok D := by
    rw [Block.mapExpr_id]
    exact hD
  exact
    (Graph.draft_compared hc hc.covers_id (fun types => ⟨rfl, Draft.guided_begun types body.span⟩)
      hD h').2

end MethodFlow
