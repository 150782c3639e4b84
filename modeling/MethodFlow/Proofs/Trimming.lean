import MethodFlow.Proofs.Renaming
import MethodFlow.Proofs.Parts

/-!
# Drafts with and without dead tails

The same code is drawn twice, the second time without some statements that follow a jump. While both
drawings are at the same place in the code, they make the same blocks in the same order; a tail that
only the first one draws is drawn into blocks that only the first one has.

`Trimmed ρ astray d d'` says that every block of `d'` is a block of `d` under the name that `ρ`
gives it. If `astray` is false then both are at the same place. Otherwise `d` is in a tail: no block
is open in `d'`, and none of its blocks is open in `d`. Each operation of drawing gets one lemma.
Operations that add something need both drafts to be at the same place; those that close the open
block and go on in another bring them back there, since a block that only `d` has may be closed in
any way.

Main result: `Expr.trimmed`.
-/

namespace MethodFlow

/-! ## Edges and blocks under new names -/

/-- The first edges are those of the second list under new names, in any order. -/
def Edge.Renames (name : BlockId → BlockId) (edges edges' : List Edge) : Prop :=
  ∀ e, e ∈ edges ↔ e ∈ edges'.map (·.rename name)

namespace Edge.Renames

variable {name : BlockId → BlockId} {edges edges' new new' : List Edge}

theorem refl (name : BlockId → BlockId) (edges : List Edge) :
    Renames name (edges.map (·.rename name)) edges :=
  fun _ => Iff.rfl

theorem appendAllNew (h : Renames name edges edges') (hnew : Renames name new new') :
    Renames name (appendAllNew edges new) (appendAllNew edges' new') := by
  intro e
  rw [mem_appendAllNew, h e, hnew e, ← List.mem_append, ← List.map_append, List.mem_map,
    List.mem_map]
  simp only [List.mem_append, mem_appendAllNew]

theorem eq_nil_iff (h : Renames name edges edges') : edges = [] ↔ edges' = [] := by
  constructor
  · rintro rfl
    refine List.eq_nil_iff_forall_not_mem.mpr fun e he => ?_
    exact nomatch (h (e.rename name)).mpr (List.mem_map_of_mem he)
  · rintro rfl
    exact List.eq_nil_iff_forall_not_mem.mpr fun e he => nomatch (h e).mp he

end Edge.Renames

/-- A block does and decides the same as another one, under new names. -/
structure BasicBlock.Mirrors (name : BlockId → BlockId) (b b' : BasicBlock) : Prop where
  elements : b.elements = b'.elements
  successors : Edge.Renames name b.successors b'.successors
  decisions : b.terminator.decisions = b'.terminator.decisions

namespace BasicBlock.Mirrors

variable {name : BlockId → BlockId} {b b' : BasicBlock}

/-- Mirroring reads the cores of blocks only. -/
theorem of_core {b₁ b₁' : BasicBlock} (h : b.Mirrors name b') (hl : b₁.core = b.core)
    (hr : b₁'.core = b'.core) : b₁.Mirrors name b₁' := by
  have he : b₁.elements = b.elements := congrArg (·.elements) hl
  have he' : b₁'.elements = b'.elements := congrArg (·.elements) hr
  have hs : b₁.successors = b.successors := congrArg (·.successors) hl
  have hs' : b₁'.successors = b'.successors := congrArg (·.successors) hr
  have ht : b₁.terminator = b.terminator := congrArg (·.terminator) hl
  have ht' : b₁'.terminator = b'.terminator := congrArg (·.terminator) hr
  refine ⟨?_, ?_, ?_⟩
  · rw [he, he', h.elements]
  · rw [hs, hs']
    exact h.successors
  · rw [ht, ht', h.decisions]

theorem emit (h : b.Mirrors name b') (element : Element) :
    Mirrors name { b with elements := b.elements ++ [element] }
      { b' with elements := b'.elements ++ [element] } :=
  ⟨congrArg (· ++ [element]) h.elements, h.successors, h.decisions⟩

theorem link (h : b.Mirrors name b') {edges edges' : List Edge}
    (he : Edge.Renames name edges edges') :
    Mirrors name { b with successors := appendAllNew b.successors edges }
      { b' with successors := appendAllNew b'.successors edges' } :=
  ⟨h.elements, h.successors.appendAllNew he, h.decisions⟩

/-- Blocks that end alike mirror each other. -/
theorem endBlock (h : b.Mirrors name b') {t t' : Terminator} (ht : t.decisions = t'.decisions)
    {edges edges' : List Edge} (he : Edge.Renames name edges edges') (span span' : Option Span) :
    (Draft.endBlock t edges span b).Mirrors name (Draft.endBlock t' edges' span' b') :=
  ⟨h.elements, h.successors.appendAllNew he, ht⟩

end BasicBlock.Mirrors

/-! ## Trimmed drafts -/

/-- The second draft is the first one without some tails; `astray` says whether the first is in
one. -/
structure Draft.Trimmed (ρ : Renaming) (astray : Bool) (d d' : Draft) : Prop where
  entry : ρ.name Graph.entry = Graph.entry
  shift : ∀ n, ρ.name (d'.fresh + n) = d.fresh + n
  closed : ∀ x, ρ.name x ∈ d.closed ↔ x ∈ d'.closed
  resumptions : ∀ x e, (ρ.name x, e) ∈ d.resumptions ↔ ∃ e', (x, e') ∈ d'.resumptions ∧
    e'.rename ρ.name = e
  blocks : ∀ x b', d'.graph.block? x = some b' →
    ∃ b, d.graph.block? (ρ.name x) = some b ∧ b.Mirrors ρ.name b'
  along : astray = false → d.current = d'.current.map ρ.name
  idle : astray = true → d'.current = none
  strays : astray = true → ∀ x, d.current ≠ some (ρ.name x)

namespace Draft.Trimmed

variable {ρ : Renaming} {astray : Bool} {d d' : Draft}

/-! ## Numbers -/

theorem shift_fresh (h : Trimmed ρ astray d d') : ρ.name d'.fresh = d.fresh := h.shift 0

/-- The blocks that both drafts have are those with the lower numbers. -/
theorem lt_iff (h : Trimmed ρ astray d d') (x : BlockId) : x < d'.fresh ↔ ρ.name x < d.fresh := by
  constructor
  · intro hx
    refine Nat.lt_of_not_le fun hge => ?_
    obtain ⟨n, hn⟩ := Nat.exists_eq_add_of_le hge
    rw [← h.shift n] at hn
    have hlt : d'.fresh + n < d'.fresh := ρ.inj _ _ hn ▸ hx
    exact Nat.not_lt_of_le (Nat.le_add_right _ n) hlt
  · intro hx
    refine Nat.lt_of_not_le fun hge => ?_
    obtain ⟨n, rfl⟩ := Nat.exists_eq_add_of_le hge
    rw [h.shift n] at hx
    exact Nat.not_lt_of_le (Nat.le_add_right _ n) hx

/-- The open blocks of both drafts correspond. -/
theorem openBlock (h : Trimmed ρ false d d') : d.openBlock = ρ.name d'.openBlock := by
  unfold Draft.openBlock
  rw [h.along rfl]
  cases d'.current with
  | none => exact h.shift_fresh.symm
  | some id => rfl

/-! ## Changes -/

theorem report (h : Trimmed ρ astray d d') (fault fault' : Fault) :
    Trimmed ρ astray (d.report fault) (d'.report fault') :=
  { h with }

/-- Both drafts go on at the same place, wherever they were. -/
theorem withCurrent (h : Trimmed ρ astray d d') (id : Option BlockId) :
    Trimmed ρ false { d with current := id.map ρ.name } { d' with current := id } :=
  { h with along := fun _ => rfl, idle := nofun, strays := nofun }

/-- When no block is open, a tail may begin or end. -/
theorem idle_both (h : Trimmed ρ astray d d') (hd : d.current = none) (hd' : d'.current = none)
    (astray' : Bool) :
    Trimmed ρ astray' d d' :=
  { h with
    along := fun _ => by rw [hd, hd', Option.map_none]
    idle := fun _ => hd'
    strays := fun _ x hx => nomatch hd.symm.trans hx }

/-- A block added on both sides gets corresponding numbers. -/
theorem add (h : Trimmed ρ astray d d') (kind : BlockKind) (elements : List Element)
    (span : Option Span) :
    Trimmed ρ astray (d.add { kind, elements, span }) (d'.add { kind, elements, span }) where
  entry := h.entry
  shift n := by rw [fresh_add, fresh_add, Nat.add_assoc, h.shift, Nat.add_assoc]
  closed := h.closed
  resumptions := h.resumptions
  blocks x c' hc' := by
    rw [block?_add] at hc'
    rw [block?_add]
    split at hc'
    · rename_i hx
      cases hc'
      exact ⟨_, if_pos (hx ▸ h.shift_fresh), rfl, fun _ => Iff.rfl, rfl⟩
    · rename_i hx
      rw [if_neg fun he => hx (ρ.inj _ _ (he.trans h.shift_fresh.symm))]
      exact h.blocks x c' hc'
  along := h.along
  idle := h.idle
  strays := h.strays

theorem create (h : Trimmed ρ astray d d') (kind : BlockKind) (span : Option Span) :
    Trimmed ρ astray (d.create kind span) (d'.create kind span) :=
  h.add kind [] span

/-- Corresponding changes to corresponding blocks keep drafts trimmed. -/
theorem modify (h : Trimmed ρ astray d d') (x : BlockId) {f f' : BasicBlock → BasicBlock}
    (hf : ∀ b b', b.Mirrors ρ.name b' → (f b).Mirrors ρ.name (f' b')) :
    Trimmed ρ astray (d.modify (ρ.name x) f) (d'.modify x f') where
  entry := h.entry
  shift n := by
    rw [fresh_modify, fresh_modify]
    exact h.shift n
  closed := h.closed
  resumptions := h.resumptions
  blocks y c' hc' := by
    rw [block?_modify] at hc'
    rw [block?_modify]
    split at hc'
    · rename_i hy
      subst hy
      obtain ⟨b', hb', rfl⟩ := Option.map_eq_some_iff.mp hc'
      obtain ⟨b, hb, hm⟩ := h.blocks x b' hb'
      rw [if_pos rfl, hb]
      exact ⟨f b, rfl, hf b b' hm⟩
    · rename_i hy
      rw [if_neg fun he => hy (ρ.inj _ _ he)]
      exact h.blocks y c' hc'
  along := h.along
  idle := h.idle
  strays := h.strays

/-- Notes on the text after jumps do not count. -/
theorem note (h : Trimmed ρ astray d d') {f f' : BasicBlock → BasicBlock}
    (hf : ∀ b, (f b).core = b.core) (hf' : ∀ b, (f' b).core = b.core) :
    Trimmed ρ astray (d.modifyAll d.dangling f) (d'.modifyAll d'.dangling f') := by
  have hd := d.modifyAll_eq d.dangling f
  have hd' := d'.modifyAll_eq d'.dangling f'
  constructor
  · exact h.entry
  · intro n
    rw [fresh_modifyAll, fresh_modifyAll]
    exact h.shift n
  · rw [hd, hd']
    exact h.closed
  · rw [hd, hd']
    exact h.resumptions
  · -- The dangling blocks of the drafts need not correspond, since blocks are compared without
    -- their notes.
    intro x c' hc'
    obtain ⟨b', hb', hcore'⟩ := exists_block?_of_core (d'.core_modifyAll d'.dangling hf' x) hc'
    obtain ⟨b, hb, hm⟩ := h.blocks x b' hb'
    obtain ⟨c, hc, hcore⟩ :=
      exists_block?_of_core (d.core_modifyAll d.dangling hf (ρ.name x)).symm hb
    exact ⟨c, hc, hm.of_core hcore.symm hcore'⟩
  · rw [hd, hd']
    exact h.along
  · rw [hd']
    exact h.idle
  · rw [hd]
    exact h.strays

theorem endCaseGroup (h : Trimmed ρ astray d d') :
    Trimmed ρ astray d.endCaseGroup d'.endCaseGroup :=
  h.note (fun _ => rfl) fun _ => rfl

theorem resolveDangling (h : Trimmed ρ astray d d') (next next' : BlockId) :
    Trimmed ρ astray (d.resolveDangling next) (d'.resolveDangling next') := by
  have hnoted :
      Trimmed ρ astray (d.modifyAll d.dangling fun b => { b with lexicalNext := some next })
      (d'.modifyAll d'.dangling fun b => { b with lexicalNext := some next' }) :=
    h.note (fun _ => rfl) fun _ => rfl
  exact { hnoted with }

theorem resumeAt (h : Trimmed ρ astray d d') (resumptions : List (BlockId × Edge)) :
    Trimmed ρ astray (d.resumeAt (resumptions.map (Edge.renameResumption ρ.name)))
      (d'.resumeAt resumptions) := by
  refine { h with resumptions := fun x e => ?_ }
  have hnew : (ρ.name x, e) ∈ resumptions.map (Edge.renameResumption ρ.name) ↔
      ∃ e', (x, e') ∈ resumptions ∧ e'.rename ρ.name = e := by
    constructor
    · intro hm
      obtain ⟨⟨y, e'⟩, hp, he⟩ := List.mem_map.mp hm
      obtain ⟨hy, he⟩ := Prod.mk.inj he
      exact ⟨e', ρ.inj _ _ hy ▸ hp, he⟩
    · rintro ⟨e', hp, rfl⟩
      exact List.mem_map.mpr ⟨(x, e'), hp, rfl⟩
  simp only [Draft.resumeAt, mem_appendAllNew, h.resumptions, hnew, or_and_right, exists_or]

/-! ## Opening and closing blocks -/

theorem ensureOpen (h : Trimmed ρ false d d') : Trimmed ρ false d.ensureOpen d'.ensureOpen := by
  have hcur := h.along rfl
  cases hc : d'.current with
  | some id =>
    rw [ensureOpen_of_some hc, ensureOpen_of_some (hcur.trans (congrArg _ hc))]
    exact h
  | none =>
    rw [ensureOpen_of_none hc, ensureOpen_of_none (hcur.trans (congrArg _ hc))]
    have hmade :=
      ((h.create .normal none).resolveDangling d.fresh d'.fresh).withCurrent (some d'.fresh)
    rw [Option.map_some, h.shift_fresh] at hmade
    exact hmade

theorem close (h : Trimmed ρ astray d d') (x : BlockId) {t t' : Terminator}
    (ht : t.decisions = t'.decisions) {edges edges' : List Edge}
    (he : Edge.Renames ρ.name edges edges') (span : Option Span) :
    Trimmed ρ astray (d.close (ρ.name x) t edges span) (d'.close x t' edges' span) := by
  have hcontains : d.closed.contains (ρ.name x) = d'.closed.contains x := by
    rw [Bool.eq_iff_iff, List.contains_iff_mem, List.contains_iff_mem]
    exact h.closed x
  unfold Draft.close
  rw [hcontains]
  split
  · exact h.report _ _
  · have hend := h.modify x fun b b' hb => hb.endBlock ht he span span
    refine { hend with closed := fun y => ?_ }
    rw [List.mem_cons, List.mem_cons, ← h.closed y]
    exact or_congr_left ⟨ρ.inj y x, congrArg ρ.name⟩

/-- A block that only the first draft has may be closed in any way. -/
theorem close_stray (h : Trimmed ρ astray d d') {y : BlockId} (hy : ∀ x, ρ.name x ≠ y)
    (t : Terminator) (edges : List Edge) (span : Option Span) :
      Trimmed ρ astray (d.close y t edges span) d' := by
  unfold Draft.close
  split
  · exact { h with }
  · refine { h with shift := fun n => ?_, closed := fun x => ?_, blocks := fun x b' hb' => ?_ }
    · exact (h.shift n).trans (congrArg (· + n) (d.fresh_modify y _).symm)
    · rw [List.mem_cons, h.closed x]
      exact or_iff_right (hy x)
    · rw [block?_modify, if_neg (hy x).symm]
      exact h.blocks x b' hb'

theorem terminate (h : Trimmed ρ false d d') {t t' : Terminator} (ht : t.decisions = t'.decisions)
    (edges : List Edge) (span : Option Span) :
    Trimmed ρ false (d.terminate t (edges.map (·.rename ρ.name)) span)
      (d'.terminate t' edges span) := by
  unfold Draft.terminate
  rw [h.openBlock]
  exact (h.ensureOpen.withCurrent none).close d'.openBlock ht (.refl _ edges) span

/-- Closing what is open ends a tail. -/
theorem closeOpen (h : Trimmed ρ astray d d') {t t' : Terminator} (ht : t.decisions = t'.decisions)
    {edges edges' : List Edge} (he : Edge.Renames ρ.name edges edges') :
    Trimmed ρ false (d.closeOpen t edges) (d'.closeOpen t' edges') := by
  cases astray with
  | false =>
    unfold Draft.closeOpen
    rw [h.along rfl]
    cases d'.current with
    | none => exact h
    | some id => exact (h.withCurrent none).close id ht he none
  | true =>
    have hidle := h.idle rfl
    rw [closeOpen_of_none hidle]
    cases hc : d.current with
    | none =>
      rw [closeOpen_of_none hc]
      exact h.idle_both hc hidle false
    | some y =>
      -- The block that is open is in a tail, so `d'` has no block that would have to follow.
      have hy : ∀ x, ρ.name x ≠ y := fun x hx => h.strays rfl x (hc.trans (congrArg some hx.symm))
      have hclosed : Trimmed ρ true (d.closeOpen t edges) d' := by
        simp only [Draft.closeOpen, hc]
        have hleft : Trimmed ρ true { d with current := none } d' :=
          { h with along := by rintro ⟨⟩, strays := by rintro _ _ ⟨⟩ }
        exact hleft.close_stray hy t edges none
      exact hclosed.idle_both (d.current_closeOpen t edges) hidle false

/-- After starting corresponding blocks neither draft is astray. -/
theorem start (h : Trimmed ρ astray d d') {id id' : BlockId} (hid : ρ.name id' = id) :
    Trimmed ρ false (d.start id) (d'.start id') := by
  have hopen := h.withCurrent (some id')
  rw [Option.map_some, hid] at hopen
  unfold Draft.start
  cases d.current with
  | none =>
    cases d'.current with
    | none => exact hopen
    | some left => exact { hopen with }
  | some left =>
    cases d'.current with
    | none => exact { hopen with }
    | some left => exact hopen.report _ _

theorem emit (h : Trimmed ρ false d d') (kind : ElementKind) (span : Span) :
    Trimmed ρ false (d.emit kind span) (d'.emit kind span) := by
  unfold Draft.emit
  rw [h.openBlock]
  exact h.ensureOpen.modify d'.openBlock fun b b' hb => hb.emit _

/-- Edges are added to the block that is open. -/
theorem link (h : Trimmed ρ false d d') (edges : List Edge) :
    Trimmed ρ false (d.addEdges d.openBlock (edges.map (·.rename ρ.name)))
      (d'.addEdges d'.openBlock edges) := by
  rw [h.openBlock]
  exact h.modify d'.openBlock fun b b' hb => hb.link (.refl _ edges)

/-- After a jump a tail may begin. -/
theorem jump (h : Trimmed ρ false d d') {t t' : Terminator} (ht : t.decisions = t'.decisions)
    (edges : List Edge) (span : Span) (astray : Bool) :
    Trimmed ρ astray (d.jump t (edges.map (·.rename ρ.name)) span) (d'.jump t' edges span) := by
  have hend :=
    (h.terminate ht edges (some span)).idle_both (d.current_terminate ..)
    (d'.current_terminate ..) astray
  exact { hend with }

/-- After a jump the longer draft may go astray. -/
theorem jumpVia (h : Trimmed ρ false d d') {t t' : Terminator} (ht : t.decisions = t'.decisions)
    (route : JumpRoute) (span : Span) (astray : Bool) :
    Trimmed ρ astray (d.jumpVia t (route.rename ρ.name) span) (d'.jumpVia t' route span) :=
  (h.jump ht [route.edge] span astray).resumeAt route.resumptions

/-- Falling into corresponding blocks brings both drafts together again. -/
theorem fallInto (h : Trimmed ρ astray d d') {next next' : BlockId} (hn : ρ.name next' = next) :
    Trimmed ρ false (d.fallInto next) (d'.fallInto next') := by
  have he : Edge.Renames ρ.name [.sequential next] [.sequential next'] := by
    rw [← hn]
    exact .refl _ [.sequential next']
  exact (h.closeOpen rfl he).resolveDangling next next'

theorem goto (h : Trimmed ρ astray d d') (kind : EdgeKind) {target target' : BlockId}
    (ht : ρ.name target' = target) :
      Trimmed ρ false (d.goto kind target) (d'.goto kind target') := by
  have he : Edge.Renames ρ.name [⟨kind, target⟩] [⟨kind, target'⟩] := by
    rw [← ht]
    exact .refl _ [⟨kind, target'⟩]
  have hjump : (Terminator.jump target).decisions = (Terminator.jump target').decisions := rfl
  exact (h.closeOpen hjump he).resolveDangling target target'

theorem turn (h : Trimmed ρ astray d d') (kind : EdgeKind) {target target' next next' : BlockId}
    (ht : ρ.name target' = target) (hn : ρ.name next' = next) :
    Trimmed ρ false (d.turn kind target next) (d'.turn kind target' next') :=
  (h.goto kind ht).start hn

theorem continueAt (h : Trimmed ρ astray d d') {next next' : BlockId} (hn : ρ.name next' = next) :
    Trimmed ρ false (d.continueAt next) (d'.continueAt next') := by
  rw [← fallInto_start, ← fallInto_start]
  exact (h.fallInto hn).start hn

theorem branch (h : Trimmed ρ false d d') {a a' b b' : BlockId} (ha : ρ.name a' = a)
    (hb : ρ.name b' = b) (span : Span) :
      Trimmed ρ false (d.branch a b span) (d'.branch a' b' span) := by
  have hbranch : (Terminator.branch a b).decisions = (Terminator.branch a' b').decisions := rfl
  have hend := h.terminate hbranch [⟨.onTrue, a'⟩, ⟨.onFalse, b'⟩] (some span)
  rw [List.map_cons, List.map_singleton, Edge.rename, Edge.rename, ha, hb] at hend
  exact hend

theorem leaveArrowGroup (h : Trimmed ρ astray d d') {after after' : BlockId}
    (ha : ρ.name after' = after) :
    Trimmed ρ false (d.leaveArrowGroup after) (d'.leaveArrowGroup after') := by
  have he : Edge.Renames ρ.name [.sequential after] [.sequential after'] := by
    rw [← ha]
    exact .refl _ [.sequential after']
  have hbreak : (Terminator.breaking after).decisions =
      (Terminator.breaking after').decisions := rfl
  exact (h.closeOpen hbreak he).resolveDangling after after'

theorem raise (h : Trimmed ρ false d d') (scope : Scope) (declared : List TypeName) :
    Trimmed ρ false (d.raise (scope.rename ρ.name) declared) (d'.raise scope declared) := by
  unfold Draft.raise
  dsimp only
  rw [Scope.raiseRoute_rename, ThrowRoute.edges_rename]
  exact (h.link _).resumeAt _

/-- Corresponding clauses have corresponding resumptions. -/
theorem renames_resumptionsOf (h : Trimmed ρ astray d d') (entry : BlockId) :
    Edge.Renames ρ.name (d.resumptionsOf (ρ.name entry)) (d'.resumptionsOf entry) := by
  intro e
  simp only [mem_resumptionsOf, h.resumptions, List.mem_map]

/-- Code that a `finally` clause follows must not have gone astray, or the clause would learn where
to go on from the first draft only. -/
theorem leaveRegion (h : Trimmed ρ astray d d') (finalizer : Option BlockId)
    (hstray : finalizer.isSome = true → astray = false) {after after' : BlockId}
    (ha : ρ.name after' = after) :
    Trimmed ρ false (d.leaveRegion (finalizer.map ρ.name) after)
      (d'.leaveRegion finalizer after') := by
  cases finalizer with
  | none => exact h.fallInto ha
  | some entry =>
    obtain rfl : astray = false := hstray rfl
    unfold Draft.leaveRegion
    rw [Option.map_some, h.along rfl]
    dsimp only
    cases d'.current with
    | none => exact h.resolveDangling after after'
    | some id =>
      have hsame : Terminator.fallThrough.decisions = Terminator.fallThrough.decisions := rfl
      have hclose :=
        (h.closeOpen hsame (.refl _ [.sequential entry])).resumeAt [(entry, .sequential after')]
      simp only [List.map_cons, List.map_nil, Edge.rename, Edge.sequential, Edge.renameResumption,
        ha] at hclose
      exact hclose.resolveDangling after after'

/-- Leaving corresponding `finally` clauses brings both drafts together again. -/
theorem leaveFinalizer (h : Trimmed ρ astray d d') {entry entry' after after' : BlockId}
    (he : ρ.name entry' = entry) (ha : ρ.name after' = after) :
    Trimmed ρ false (d.leaveFinalizer entry after) (d'.leaveFinalizer entry' after') := by
  subst he
  have hedges := h.renames_resumptionsOf entry'
  unfold Draft.leaveFinalizer
  by_cases hnil : d'.resumptionsOf entry' = []
  · rw [hnil, hedges.eq_nil_iff.mpr hnil]
    exact h.fallInto ha
  · obtain ⟨e', edges', hes'⟩ := List.exists_cons_of_ne_nil hnil
    obtain ⟨e, edges, hes⟩ := List.exists_cons_of_ne_nil fun hs => hnil (hedges.eq_nil_iff.mp hs)
    rw [hes, hes'] at hedges ⊢
    exact h.closeOpen rfl hedges

/-! ## Pieces of constructs -/

theorem openCond (h : Trimmed ρ false d d') (cons alt test : Span) :
    Trimmed ρ false (d.openCond cons alt test) (d'.openCond cons alt test) := by
  have hmade := ((h.create .normal (some cons)).create .normal (some alt)).create .join none
  exact (hmade.branch h.shift_fresh (h.shift 1) test).start h.shift_fresh

theorem openIf (h : Trimmed ρ false d d') (cons : Stmt) (alt : Option Stmt) (test : Span) :
    Trimmed ρ false (d.openIf cons alt test) (d'.openIf cons alt test) := by
  have hmade := (h.create .normal (some cons.span)).create .join none
  cases alt with
  | none => exact (hmade.branch h.shift_fresh (h.shift 1) test).start h.shift_fresh
  | some alt =>
    have hmade := hmade.create .normal (some alt.span)
    exact (hmade.branch h.shift_fresh (h.shift 2) test).start h.shift_fresh

theorem openHeader (h : Trimmed ρ astray d d') (span : Option Span) :
    Trimmed ρ false (d.openHeader span) (d'.openHeader span) :=
  (h.create .loopHeader span).continueAt h.shift_fresh

theorem openBody (h : Trimmed ρ false d d') (body test : Span) :
    Trimmed ρ false (d.openBody body test) (d'.openBody body test) := by
  have hmade := (h.create .normal (some body)).create .normal none
  exact (hmade.branch h.shift_fresh (h.shift 1) test).start h.shift_fresh

theorem openDo (h : Trimmed ρ false d d') (body test : Span) :
    Trimmed ρ false (d.openDo body test) (d'.openDo body test) := by
  have hmade :=
    ((h.create .loopHeader (some body)).create .condition (some test)).create .normal none
  exact hmade.continueAt h.shift_fresh

theorem makeFor (h : Trimmed ρ astray d d') (updates : Bool) (body : Span) :
    Trimmed ρ astray (d.makeFor updates body) (d'.makeFor updates body) := by
  have hmade := (h.create .normal (some body)).create .normal none
  cases updates with
  | false => exact hmade
  | true => exact hmade.create .normal none

theorem createGroups (h : Trimmed ρ astray d d') (groups : List CaseGroup) :
    Trimmed ρ astray (CaseGroup.createBlocks groups d) (CaseGroup.createBlocks groups d') := by
  unfold CaseGroup.createBlocks
  induction groups generalizing d d' with
  | nil => exact h
  | cons group groups ih => exact ih (h.create .caseGroup (some group.span))

theorem createClauses (h : Trimmed ρ astray d d') (clauses : List CatchClause) :
    Trimmed ρ astray (CatchClause.createBlocks clauses d)
      (CatchClause.createBlocks clauses d') := by
  unfold CatchClause.createBlocks
  induction clauses generalizing d d' with
  | nil => exact h
  | cons clause clauses ih =>
    rw [List.foldl_cons, List.foldl_cons, createClause_eq, createClause_eq]
    exact ih (h.add _ _ _)

theorem openSwitch (h : Trimmed ρ false d d') (groups : List CaseGroup) (selector : Span) :
    Trimmed ρ false (d.openSwitch groups selector) (d'.openSwitch groups selector) := by
  have hfirst : ∀ n, ρ.name (d'.fresh + 1 + n) = d.fresh + 1 + n := fun n => by
    rw [Nat.add_assoc, h.shift, Nat.add_assoc]
  have hdefault : some ((CaseGroup.defaultTarget? groups (d.fresh + 1)).getD d.fresh) =
      (some ((CaseGroup.defaultTarget? groups (d'.fresh + 1)).getD d'.fresh)).map ρ.name := by
    rw [CaseGroup.defaultTarget?_rename hfirst]
    cases CaseGroup.defaultTarget? groups (d'.fresh + 1) with
    | none => exact congrArg some h.shift_fresh.symm
    | some id => rfl
  have hmade := (h.create .normal none).createGroups groups
  unfold Draft.openSwitch select
  dsimp only
  rw [CaseGroup.valueTargets_rename hfirst, hdefault, Terminator.switchEdges_rename]
  refine hmade.terminate ?_ _ _
  simp only [Terminator.decisions, List.length_map, Option.map_some, Option.toList_some,
    List.length_singleton]

theorem makeTry (h : Trimmed ρ astray d d') (catches : List CatchClause)
    (finalizer : Option Block) :
    Trimmed ρ astray (d.makeTry catches finalizer) (d'.makeTry catches finalizer) := by
  have hmade := h.create .normal none
  unfold Draft.makeTry
  cases finalizer with
  | none => exact hmade.createClauses catches
  | some block => exact (hmade.create .finalizer (some block.span)).createClauses catches

theorem expectUnchecked (h : Trimmed ρ false d d') (types : Subtyping)
    (clauses : List CatchTarget) :
    Trimmed ρ false (d.expectUnchecked types (clauses.map (·.rename ρ.name)))
      (d'.expectUnchecked types clauses) := by
  unfold Draft.expectUnchecked
  rw [List.filter_map, List.map_map]
  have hlink :=
    h.link ((clauses.filter (·.receivesUnchecked types)).map fun clause =>
      .exceptional clause.entry)
  rw [List.map_map] at hlink
  exact hlink

/-- Opening a `try` statement keeps drafts trimmed. -/
theorem openTry (h : Trimmed ρ false d d') (types : Subtyping) (catches : List CatchClause)
    (finalizer : Option Block) (block : Span) :
    Trimmed ρ false (d.openTry types catches finalizer block)
      (d'.openTry types catches finalizer block) := by
  have hmade := ((h.makeTry catches finalizer).create .normal (some block)).continueAt
    (firstCatch_rename h.shift finalizer catches.length)
  unfold Draft.openTry
  rw [← handlerAt_rename h.shift catches finalizer]
  exact hmade.expectUnchecked types _

end Draft.Trimmed

/-! ## Expressions -/

section Expressions

open Draft (Trimmed)

variable {ρ : Renaming} {scope : Scope} {d d' : Draft}

theorem Expr.trimmed_option_of {e : Option Expr}
    (ih : ∀ e', e = some e' → ∀ {d d' : Draft}, Trimmed ρ false d d' →
      Trimmed ρ false (e'.draw (scope.rename ρ.name) d) (e'.draw scope d'))
        (h : Trimmed ρ false d d') :
    Trimmed ρ false (Expr.drawOption (scope.rename ρ.name) e d) (Expr.drawOption scope e d') := by
  cases e with
  | none => simpa only [Expr.drawOption] using h
  | some e => simpa only [Expr.drawOption] using ih e rfl h

theorem Expr.trimmed_all_of {es : List Expr}
    (ih : ∀ e' ∈ es, ∀ {d d' : Draft}, Trimmed ρ false d d' →
      Trimmed ρ false (e'.draw (scope.rename ρ.name) d) (e'.draw scope d'))
        (h : Trimmed ρ false d d') :
    Trimmed ρ false (Expr.drawAll (scope.rename ρ.name) es d) (Expr.drawAll scope es d') := by
  induction es generalizing d d' with
  | nil => simpa only [Expr.drawAll] using h
  | cons e es ihs =>
    rw [Expr.drawAll, Expr.drawAll]
    exact ihs (fun e' he => ih e' (List.mem_cons_of_mem _ he)) (ih e List.mem_cons_self h)

/-- Expressions have no tails. -/
theorem Expr.trimmed (e : Expr) (h : Trimmed ρ false d d') :
    Trimmed ρ false (e.draw (scope.rename ρ.name) d) (e.draw scope d') := by
  induction e using Expr.induct generalizing d d' with
  | name ident span | this span | literal value span | lambda span =>
    rw [Expr.draw, Expr.draw]
    exact h.emit _ _
  | binary op left right span ihl ihr =>
    rw [Expr.draw, Expr.draw]
    have hop := (ihr (ihl h)).emit (.binary op) span
    split
    · exact hop.raise scope []
    · exact hop
  | unary op arg span ih =>
    rw [Expr.draw, Expr.draw]
    exact (ih h).emit _ _
  | assign op target value span iht ihv =>
    rw [Expr.draw, Expr.draw]
    -- A plain name on the left is not drawn, with the tails and without.
    have htarget :
      Trimmed ρ false (if target.plainName?.isSome then d else target.draw (scope.rename ρ.name) d)
        (if target.plainName?.isSome then d' else target.draw scope d') := by
      split
      · exact h
      · exact iht h
    have hop := (ihv htarget).emit (.assignment target.plainName? op) span
    by_cases hthrow : op.mayThrow = true
    · rw [if_pos hthrow, if_pos hthrow]
      exact hop.raise scope []
    · rw [if_neg hthrow, if_neg hthrow]
      exact hop
  | cond test cons alt span iht ihc iha =>
    rw [Expr.draw_cond, Expr.draw_cond]
    have ht := iht h
    have hc := ihc (ht.openCond cons.span alt.span test.span)
    have ha := iha ((hc.fallInto (ht.shift 2)).start (ht.shift 1))
    exact ha.continueAt (ht.shift 2)
  | call receiver method args throws span ihr iha =>
    rw [Expr.draw, Expr.draw]
    exact ((Expr.trimmed_all_of iha (Expr.trimmed_option_of ihr h)).emit _ _).raise scope throws
  | new cls args throws span iha =>
    rw [Expr.draw, Expr.draw]
    exact ((Expr.trimmed_all_of iha h).emit _ _).raise scope throws
  | newArray elem dims init span ihd ihi =>
    rw [Expr.draw, Expr.draw]
    exact ((Expr.trimmed_all_of ihi (Expr.trimmed_all_of ihd h)).emit _ _).raise scope []
  | member object field span ih | cast ty inner span ih =>
    rw [Expr.draw, Expr.draw]
    exact ((ih h).emit _ _).raise scope []
  | index array offset span iha iho =>
    rw [Expr.draw, Expr.draw]
    exact ((iho (iha h)).emit _ _).raise scope []
  | instanceOf inner ty span ih =>
    rw [Expr.draw, Expr.draw]
    exact (ih h).emit _ _
  | paren inner span ih =>
    rw [Expr.draw, Expr.draw]
    exact ih h

theorem Expr.trimmed_option (e : Option Expr) (h : Trimmed ρ false d d') :
    Trimmed ρ false (Expr.drawOption (scope.rename ρ.name) e d) (Expr.drawOption scope e d') :=
  Expr.trimmed_option_of (fun e _ => e.trimmed) h

theorem LocalVar.trimmed (decl : LocalVar) (h : Trimmed ρ false d d') :
    Trimmed ρ false (decl.draw (scope.rename ρ.name) d) (decl.draw scope d') :=
  (Expr.trimmed_option decl.init h).emit _ _

theorem LocalVar.trimmed_resources (decls : List LocalVar) (h : Trimmed ρ false d d') :
    Trimmed ρ false (LocalVar.drawResources (scope.rename ρ.name) decls d)
      (LocalVar.drawResources scope decls d') := by
  induction decls generalizing d d' with
  | nil => exact h
  | cons decl decls ih => exact ih ((decl.trimmed h).raise scope [Throwable.exception])

namespace Draft.Trimmed

theorem testFor (h : Trimmed ρ false d d') (scope : Scope) (test : Option Expr)
    {inner inner' after after' : BlockId} (hi : ρ.name inner' = inner)
    (ha : ρ.name after' = after) :
    Trimmed ρ false (d.testFor (scope.rename ρ.name) test inner after)
      (d'.testFor scope test inner' after') := by
  unfold Draft.testFor
  cases test with
  | some test => exact ((test.trimmed h).branch hi ha test.span).start hi
  | none =>
    have hjump : (Terminator.jump inner).decisions = (Terminator.jump inner').decisions := rfl
    have hend := h.terminate hjump [.sequential inner'] none
    rw [List.map_singleton, Edge.rename, Edge.sequential, hi] at hend
    exact hend.start hi

theorem updateFor {astray : Bool} (h : Trimmed ρ astray d d') (scope : Scope) (update : List Expr)
    {next next' : BlockId} (hn : ρ.name next' = next) :
    Trimmed ρ (update.isEmpty && astray) (d.updateFor (scope.rename ρ.name) update next)
      (d'.updateFor scope update next') := by
  unfold Draft.updateFor
  cases hu : update.isEmpty with
  | true => exact h
  | false => exact Expr.trimmed_all_of (fun e _ => e.trimmed) (h.turn .loopBack hn hn)

end Draft.Trimmed

end Expressions

end MethodFlow
