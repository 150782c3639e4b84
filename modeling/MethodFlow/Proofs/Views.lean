import MethodFlow.Proofs.Comparison

/-!
# What is seen of a draft

A view says which edges of a draft are looked at and how spans are read; everything else is always
seen. Two drafts are alike in a view if the same is seen of both: the same blocks in the same order,
the same open block, the same jumps that wait, the same resumptions.

Drawing the same code keeps drafts alike in two cases: with one type hierarchy for both, or in a
view that does not show exceptional edges (`View.comparison`). The second case rests on the list of
`finally` clauses with a place to go on at. Whether such a clause ends by resuming or by running on
is decided by what is registered for it, and part of that is not seen.
-/

namespace MethodFlow

theorem filter_appendNew {α : Type} [BEq α] [LawfulBEq α] (p : α → Bool) (xs : List α) (x : α) :
    (appendNew xs x).filter p = if p x then appendNew (xs.filter p) x else xs.filter p := by
  unfold appendNew
  by_cases hx : x ∈ xs
  · rw [if_pos (List.contains_iff_mem.mpr hx)]
    split
    · rename_i hp
      rw [if_pos (List.contains_iff_mem.mpr (List.mem_filter.mpr ⟨hx, hp⟩))]
    · rfl
  · rw [if_neg (mt List.contains_iff_mem.mp hx), List.filter_append]
    split
    · rename_i hp
      have hx' : ¬ (xs.filter p).contains x = true := fun hm =>
        hx (List.mem_filter.mp (List.contains_iff_mem.mp hm)).1
      rw [if_neg hx', List.filter_cons_of_pos hp, List.filter_nil]
    · rename_i hp
      rw [List.filter_cons_of_neg hp, List.filter_nil, List.append_nil]

/-- Adding what is new and looking at a part of it may be done in either order. -/
theorem filter_addAllNew {α : Type} [BEq α] [LawfulBEq α] (p : α → Bool) (xs ys : List α) :
    (appendAllNew xs ys).filter p = appendAllNew (xs.filter p) (ys.filter p) := by
  unfold appendAllNew
  induction ys generalizing xs with
  | nil => rfl
  | cons y ys ih =>
    rw [List.foldl_cons, ih, filter_appendNew, List.filter_cons]
    split <;> rfl

/-- What is seen of blocks: some of the edges, among them all normal ones, and some of each span. -/
structure View where
  shows : Edge → Bool
  span : Option Span → Option Span
  normal : ∀ e : Edge, e.isNormal = true → shows e = true

namespace View

variable (v : View)

/-- What is seen of a block. The place of a jump is always seen. -/
def block (b : BasicBlock) : BasicBlock :=
  { b with
    successors := b.successors.filter v.shows
    span := v.span b.span
    terminatorSpan := if b.terminator.isJump then b.terminatorSpan else v.span b.terminatorSpan }

/-- What is seen of a graph. -/
def graph (g : Graph) : Graph where
  blocks := g.blocks.map v.block
  two_le_size := by
    rw [Array.size_map]
    exact g.two_le_size

theorem block?_graph (g : Graph) (id : BlockId) :
    (v.graph g).block? id = (g.block? id).map v.block :=
  Array.getElem?_map

theorem block_link (b : BasicBlock) (edges : List Edge) :
    v.block { b with successors := appendAllNew b.successors edges } =
      { v.block b with
        successors := appendAllNew (v.block b).successors (edges.filter v.shows) } := by
  unfold block
  dsimp only
  rw [filter_addAllNew]

/-- An ended block is seen with the edges that are shown. -/
theorem block_endBlock (b : BasicBlock) (t : Terminator) (edges : List Edge) (span : Option Span) :
    v.block (Draft.endBlock t edges span b) =
      Draft.endBlock t (edges.filter v.shows) (if t.isJump then span else v.span span)
        (v.block b) := by
  unfold block Draft.endBlock
  dsimp only
  rw [filter_addAllNew]

end View

/-! ## Drafts that look alike -/

/-- The same is seen of both drafts, and both know a place to go on at for the listed `finally`
clauses. -/
structure Draft.Alike (v : View) (due : List BlockId) (d d' : Draft) : Prop where
  fresh : d.fresh = d'.fresh
  blocks : ∀ id, (d.graph.block? id).map v.block = (d'.graph.block? id).map v.block
  current : d.current = d'.current
  dangling : d.dangling = d'.dangling
  closed : d.closed = d'.closed
  resumptions : d.resumptions.filter (v.shows ·.2) = d'.resumptions.filter (v.shows ·.2)
  due : ∀ entry ∈ due, d.HasResumption entry ∧ d'.HasResumption entry

namespace Draft.Alike

variable {v : View} {due : List BlockId} {d d' : Draft}

theorem refl (v : View) (d : Draft) : Alike v [] d d :=
  ⟨rfl, fun _ => rfl, rfl, rfl, rfl, rfl, nofun⟩

/-- The same graph is seen. -/
theorem graph (h : Alike v due d d') : v.graph d.graph = v.graph d'.graph := by
  have hblocks : (v.graph d.graph).blocks = (v.graph d'.graph).blocks :=
    Array.ext_getElem? fun id => by
      have hid := h.blocks id
      rw [← v.block?_graph, ← v.block?_graph] at hid
      exact hid
  rw [Graph.mk.injEq]
  exact hblocks

theorem add (h : Alike v due d d') (kind : BlockKind) (elements : List Element)
    {span span' : Option Span} (hs : v.span span = v.span span') :
    Alike v due (d.add { kind, elements, span }) (d'.add { kind, elements, span := span' }) := by
  refine { h with fresh := ?_, blocks := fun id => ?_ }
  · rw [fresh_add, fresh_add, h.fresh]
  · rw [block?_add, block?_add, h.fresh]
    split
    · unfold View.block
      simp only [Option.map_some, hs]
    · exact h.blocks id

/-- Changes that keep blocks alike keep drafts alike. -/
theorem modify (h : Alike v due d d') (id : BlockId) {f f' : BasicBlock → BasicBlock}
    (hf : ∀ b b', v.block b = v.block b' → v.block (f b) = v.block (f' b')) :
    Alike v due (d.modify id f) (d'.modify id f') := by
  refine { h with fresh := ?_, blocks := fun id' => ?_ }
  · rw [fresh_modify, fresh_modify, h.fresh]
  · have hid := h.blocks id'
    rw [block?_modify, block?_modify]
    split
    · cases hb : d.graph.block? id' with
      | none =>
        rw [hb, Option.map_none] at hid
        rw [Option.map_eq_none_iff.mp hid.symm]
        rfl
      | some b =>
        rw [hb, Option.map_some] at hid
        obtain ⟨b', hb', he⟩ := Option.map_eq_some_iff.mp hid.symm
        rw [hb']
        exact congrArg some (hf b b' he.symm)
    · exact hid

/-- A note made on all waiting jumps. -/
theorem note (h : Alike v due d d') {f : BasicBlock → BasicBlock}
    (hf : ∀ b b', v.block b = v.block b' → v.block (f b) = v.block (f b')) :
    Alike v due (d.modifyAll d.dangling f) (d'.modifyAll d'.dangling f) := by
  rw [h.dangling]
  unfold Draft.modifyAll
  generalize d'.dangling = ids
  induction ids generalizing d d' with
  | nil => exact h
  | cons id ids ih => exact ih (h.modify id hf)

theorem resolveDangling (h : Alike v due d d') (next : BlockId) :
    Alike v due (d.resolveDangling next) (d'.resolveDangling next) := by
  have hnoted := h.note (f := fun b => { b with lexicalNext := some next }) fun b b' hb =>
    congrArg (fun b : BasicBlock => { b with lexicalNext := some next }) hb
  exact { hnoted with dangling := rfl }

theorem endCaseGroup (h : Alike v due d d') : Alike v due d.endCaseGroup d'.endCaseGroup :=
  h.note fun _ _ hb => congrArg (fun b : BasicBlock => { b with endsCaseGroup := true }) hb

theorem resumeAt (h : Alike v due d d') {rs rs' : List (BlockId × Edge)}
    (hrs : rs.filter (v.shows ·.2) = rs'.filter (v.shows ·.2)) :
    Alike v due (d.resumeAt rs) (d'.resumeAt rs') := by
  refine { h with resumptions := ?_, due := fun entry he => ?_ }
  · unfold Draft.resumeAt
    rw [filter_addAllNew, filter_addAllNew, h.resumptions, hrs]
  · obtain ⟨⟨e, hm⟩, ⟨e', hm'⟩⟩ := h.due entry he
    exact ⟨⟨e, mem_appendAllNew.mpr (Or.inl hm)⟩, ⟨e', mem_appendAllNew.mpr (Or.inl hm')⟩⟩

theorem addEdges (h : Alike v due d d') (id : BlockId) {edges edges' : List Edge}
    (he : edges.filter v.shows = edges'.filter v.shows) :
    Alike v due (d.addEdges id edges) (d'.addEdges id edges') := by
  refine h.modify id fun b b' hb => ?_
  rw [v.block_link, v.block_link, hb, he]

theorem close (h : Alike v due d d') (id : BlockId) {t : Terminator} {edges edges' : List Edge}
    {span span' : Option Span} (he : edges.filter v.shows = edges'.filter v.shows)
    (hs : span = span' ∨ t.isJump = false ∧ v.span span = v.span span') :
    Alike v due (d.close id t edges span) (d'.close id t edges' span') := by
  unfold Draft.close
  rw [h.closed]
  split
  · exact { h with }
  · have hend := h.modify id fun b b' hb => by
      show v.block (endBlock t edges span b) = v.block (endBlock t edges' span' b')
      rw [v.block_endBlock, v.block_endBlock, hb, he]
      rcases hs with rfl | ⟨hj, hs⟩
      · rfl
      · rw [hj, hs]
        rfl
    exact { hend with closed := rfl }

/-- Looking alike is a stable relation. -/
theorem stable (v : View) (due : List BlockId) :
    Stable (fun span span' => v.span span = v.span span') (Alike v due) where
  refl _ := rfl
  fresh h := h.fresh
  current h := h.current
  report h _ := { h with }
  enter h _ := { h with current := rfl }
  add h kind elements _ _ hs := h.add kind elements hs
  record h id element := h.modify id fun _ _ hb =>
    congrArg (fun b : BasicBlock => { b with elements := b.elements ++ [element] }) hb
  close h id _ _ _ _ _ hs := h.close id rfl hs
  dangle h id := { h with dangling := congrArg (· ++ [id]) h.dangling }
  resolve h next := h.resolveDangling next
  mark h := h.endCaseGroup
  resume h _ _ := h.resumeAt rfl

theorem jump (h : Alike v due d d') (t : Terminator) {edges edges' : List Edge}
    (he : edges.filter v.shows = edges'.filter v.shows) (span : Span) :
    Alike v due (d.jump t edges span) (d'.jump t edges' span) := by
  have hs := stable v due
  unfold Draft.jump Draft.terminate
  rw [hs.openBlock h]
  exact hs.dangle ((hs.enter (hs.ensureOpen h) none).close _ he (Or.inl rfl)) _

/-- The places that are seen of those where a `finally` clause goes on. -/
theorem filter_resumptionsOf (h : Alike v due d d') (entry : BlockId) :
    (d.resumptionsOf entry).filter v.shows = (d'.resumptionsOf entry).filter v.shows := by
  have hseen : ∀ d : Draft, (d.resumptionsOf entry).filter v.shows =
      ((d.resumptions.filter (v.shows ·.2)).filter (·.1 == entry)).map (·.2) := fun d => by
    unfold Draft.resumptionsOf
    rw [List.filter_map, List.filter_filter, List.filter_filter]
    simp only [Function.comp_def, Bool.and_comm]
  rw [hseen, hseen, h.resumptions]

end Draft.Alike

/-- With a place to go on at, a `finally` clause ends by resuming. -/
theorem Draft.HasResumption.leaveFinalizer {d : Draft} {entry : BlockId} (h : d.HasResumption entry)
    (after : BlockId) :
      d.leaveFinalizer entry after = d.closeOpen .endFinally (d.resumptionsOf entry) := by
  obtain ⟨e, he⟩ := h
  have hmem := mem_resumptionsOf.mpr he
  unfold Draft.leaveFinalizer
  cases hr : d.resumptionsOf entry with
  | nil =>
    rw [hr] at hmem
    exact nomatch hmem
  | cons e edges => rfl

/-! ## Drawing keeps drafts alike -/

namespace View

/-- Both drawings use the same types, or what depends on the types is not seen. -/
def Hides (v : View) (t t' : Subtyping) : Prop :=
  t = t' ∨ ∀ e : Edge, e.isExceptional = true → v.shows e = false

namespace Hides

variable {v : View} {t t' : Subtyping} (hv : v.Hides t t')

include hv

/-- Both hierarchies lead throws along the same edges, as far as they are shown. -/
theorem filter_edges (toExit : Bool) (handlers : List Handler) (thrown : List TypeName) :
    (ThrowRoute.through t toExit handlers thrown []).edges.filter v.shows =
      (ThrowRoute.through t' toExit handlers thrown []).edges.filter v.shows := by
  rcases hv with rfl | hv
  · rfl
  · have hnil : ∀ types,
        (ThrowRoute.through types toExit handlers thrown []).edges.filter v.shows = [] :=
      fun types => List.filter_eq_nil_iff.mpr fun e he => by
        obtain ⟨id, rfl, _⟩ := ThrowRoute.mem_edges he
        rw [hv _ rfl]
        exact Bool.false_ne_true
    rw [hnil, hnil]

/-- Both hierarchies leave the same resumptions, as far as they are shown. -/
theorem filter_resumptions (toExit : Bool) (handlers : List Handler) (thrown : List TypeName) :
    (ThrowRoute.through t toExit handlers thrown []).resumptions.filter (v.shows ·.2) =
      (ThrowRoute.through t' toExit handlers thrown []).resumptions.filter (v.shows ·.2) := by
  rcases hv with rfl | hv
  · rfl
  · have hnil : ∀ types,
        (ThrowRoute.through types toExit handlers thrown []).resumptions.filter
        (v.shows ·.2) = [] :=
      fun types => List.filter_eq_nil_iff.mpr fun p hp => by
        obtain ⟨_, id, he, _⟩ := ThrowRoute.mem_resumptions hp
        rw [he, hv _ rfl]
        exact Bool.false_ne_true
    rw [hnil, hnil]

theorem filter_unchecked (clauses : List CatchTarget) :
    ((clauses.filter (·.receivesUnchecked t)).map fun c => Edge.exceptional c.entry).filter
      v.shows =
      ((clauses.filter (·.receivesUnchecked t')).map fun c => Edge.exceptional c.entry).filter
        v.shows := by
  rcases hv with rfl | hv
  · rfl
  · have hnil : ∀ types : Subtyping, ((clauses.filter (·.receivesUnchecked types)).map
        fun c => Edge.exceptional c.entry).filter v.shows = [] :=
      fun types => List.filter_eq_nil_iff.mpr fun e he => by
        obtain ⟨c, _, rfl⟩ := List.mem_map.mp he
        rw [hv _ rfl]
        exact Bool.false_ne_true
    rw [hnil, hnil]

end Hides

/-- Drawing keeps drafts alike. -/
theorem comparison {v : View} {t t' : Subtyping} (hv : v.Hides t t') :
    Comparison t t' (fun span span' => v.span span = v.span span')
      fun _ due d d' => d.Alike v due d' where
  stable _ due := Draft.Alike.stable v due
  raise h declared := by
    unfold Draft.raise
    dsimp only
    rw [(Draft.Alike.stable v _).openBlock h]
    exact (h.addEdges _ (hv.filter_edges false _ _)).resumeAt (hv.filter_resumptions false _ _)
  throw h thrown span :=
    (h.jump .throwing (hv.filter_edges true _ _) span).resumeAt (hv.filter_resumptions true _ _)
  inside _ _ _ := Iff.rfl
  guard {scope due d d'} h catches finalizer block := by
    have henter := (Draft.Alike.stable v due).enterTry h catches finalizer block
    unfold Draft.openTry Draft.expectUnchecked
    rw [(Draft.Alike.stable v due).openBlock henter, h.fresh]
    rw [h.fresh] at henter
    exact henter.addEdges _ (hv.filter_unchecked _)
  clause h := h
  leave h := h
  await {scope due d d' entry} h hr hr' := by
    refine { h with due := fun id hid => ?_ }
    rcases List.mem_cons.mp hid with rfl | hid
    · exact ⟨hr, hr'⟩
    · exact h.due id hid
  final {scope due d d' entry} h after := by
    obtain ⟨hr, hr'⟩ := h.due entry List.mem_cons_self
    have hrest : d.Alike v due d' :=
      { h with due := fun id hid => h.due id (List.mem_cons_of_mem _ hid) }
    rw [hr.leaveFinalizer, hr'.leaveFinalizer]
    unfold Draft.closeOpen
    rw [h.current]
    cases d'.current with
    | none => exact hrest
    | some id =>
      have hidle := (Draft.Alike.stable v due).enter hrest none
      exact hidle.close id (h.filter_resumptionsOf entry) (Or.inl rfl)

end View

/-- In a view that hides what the types decide, a body and its rewriting fail alike or give graphs
of which the same is seen. -/
theorem Graph.build_alike {v : View} {t t' : Subtyping} (hv : v.Hides t t') {f : Expr → Expr}
    (hf : Comparison.Covers t t' (fun span span' => v.span span = v.span span')
      (fun _ due d d' => d.Alike v due d') f) (body : Block) :
    (∃ failure, Graph.build t body = .error failure ∧ Graph.build t' (body.mapExpr f) =
      .error failure) ∨
      ∃ g g', Graph.build t body = .ok g ∧ Graph.build t' (body.mapExpr f) = .ok g' ∧
        v.graph g = v.graph g' := by
  have hsame : Except.failure? (Graph.build t' (body.mapExpr f)) =
      Except.failure? (Graph.build t body) := by
    rw [Graph.failure?_build, Graph.failure?_build, Block.scopeErrorIn?_mapExpr]
  cases hg : Graph.build t body with
  | error failure =>
    rw [hg] at hsame
    exact Or.inl ⟨failure, rfl, Except.failure?_eq_some_iff.mp hsame⟩
  | ok g =>
    rw [hg] at hsame
    obtain ⟨g', hg'⟩ := Except.failure?_eq_none_iff.mp hsame
    obtain ⟨d, hd, rfl⟩ := Graph.exists_draft hg
    obtain ⟨d', hd', rfl⟩ := Graph.exists_draft hg'
    have halike :=
      Graph.draft_compared (View.comparison hv) hf (fun _ => Draft.Alike.refl v _) hd hd'
    exact Or.inr ⟨_, _, rfl, hg', halike.graph⟩

end MethodFlow
