import MethodFlow.Proofs.Bookkeeping

/-!
# Drafts only grow

`Extends d d'` collects what a run from `d` to `d'` cannot take back: blocks stay, their elements
and edges only get longer, a closed block keeps its core, and so does a block for as long as it
waits. Only the open block changes at all, so everything known about a block when it is closed is
known of the finished graph (`Run.extends`).
-/

namespace MethodFlow

section

variable {α : Type} [BEq α]

theorem prefix_appendNew (xs : List α) (x : α) : xs <+: appendNew xs x := by
  unfold appendNew
  split
  · exact List.prefix_refl xs
  · exact List.prefix_append xs [x]

theorem prefix_appendAllNew (xs ys : List α) : xs <+: appendAllNew xs ys := by
  unfold appendAllNew
  induction ys generalizing xs with
  | nil => exact List.prefix_refl xs
  | cons y ys ih =>
    rw [List.foldl_cons]
    exact (prefix_appendNew xs y).trans (ih (appendNew xs y))

end

namespace BasicBlock

/-- What can become of a block while it is drawn. -/
structure Grows (b b' : BasicBlock) : Prop where
  kind : b'.kind = b.kind ∨ b.kind = .normal ∧ b'.kind = .condition
  elements : b.elements <+: b'.elements
  successors : b.successors <+: b'.successors

namespace Grows

theorem refl (b : BasicBlock) : b.Grows b :=
  ⟨Or.inl rfl, List.prefix_refl _, List.prefix_refl _⟩

theorem trans {a b c : BasicBlock} (h₁ : a.Grows b) (h₂ : b.Grows c) : a.Grows c := by
  refine ⟨?_, h₁.elements.trans h₂.elements, h₁.successors.trans h₂.successors⟩
  rcases h₁.kind with hk₁ | ⟨ha, hb⟩
  · rcases h₂.kind with hk₂ | ⟨hb, hc⟩
    · exact Or.inl (hk₂.trans hk₁)
    · exact Or.inr ⟨hk₁.symm.trans hb, hc⟩
  · rcases h₂.kind with hk₂ | ⟨hb', hc⟩
    · exact Or.inr ⟨ha, hk₂.trans hb⟩
    · exact Or.inr ⟨ha, hc⟩

/-- The core says all that `Grows` asks about. -/
theorem of_core {b b' : BasicBlock} (h : b'.core = b.core) : b.Grows b' := by
  have hk : b'.kind = b.kind := congrArg (·.kind) h
  have he : b'.elements = b.elements := congrArg (·.elements) h
  have hs : b'.successors = b.successors := congrArg (·.successors) h
  exact ⟨Or.inl hk, he ▸ List.prefix_refl _, hs ▸ List.prefix_refl _⟩

theorem emit (b : BasicBlock) (element : Element) :
    b.Grows { b with elements := b.elements ++ [element] } :=
  ⟨Or.inl rfl, List.prefix_append _ _, List.prefix_refl _⟩

theorem link (b : BasicBlock) (edges : List Edge) :
    b.Grows { b with successors := appendAllNew b.successors edges } :=
  ⟨Or.inl rfl, List.prefix_refl _, prefix_appendAllNew _ _⟩

theorem endBlock (b : BasicBlock) (t : Terminator) (edges : List Edge) (span : Option Span) :
    b.Grows (Draft.endBlock t edges span b) := by
  refine ⟨?_, List.prefix_refl _, prefix_appendAllNew _ _⟩
  unfold Draft.endBlock
  dsimp only
  split
  · rename_i h
    rw [Bool.and_eq_true, beq_iff_eq] at h
    exact Or.inr ⟨h.2, rfl⟩
  · exact Or.inl rfl

end Grows

end BasicBlock

namespace Draft

/-- What a run cannot take back. -/
structure Extends (d d' : Draft) : Prop where
  fresh_le : d.fresh ≤ d'.fresh
  closed : d.closed <:+ d'.closed
  /-- No block goes back to waiting. -/
  waiting : ∀ id, id < d.fresh → d'.Waiting id → d.Waiting id
  blocks : ∀ id b, d.graph.block? id = some b → ∃ b', d'.graph.block? id = some b' ∧ b.Grows b'
  cores : ∀ id, id < d.fresh → id ∈ d.closed ∨ d'.Waiting id →
    (d'.graph.block? id).map (·.core) = (d.graph.block? id).map (·.core)
  resumptions : d.resumptions ⊆ d'.resumptions
  fault : d'.fault = d.fault

namespace Extends

theorem refl (d : Draft) : d.Extends d where
  fresh_le := Nat.le_refl _
  closed := List.suffix_refl _
  waiting _ _ h := h
  blocks _ b h := ⟨b, h, .refl b⟩
  cores _ _ _ := rfl
  resumptions _ h := h
  fault := rfl

/-- Extension goes on from draft to draft. -/
theorem trans {d₁ d₂ d₃ : Draft} (h₁ : d₁.Extends d₂) (h₂ : d₂.Extends d₃) : d₁.Extends d₃ where
  fresh_le := Nat.le_trans h₁.fresh_le h₂.fresh_le
  closed := h₁.closed.trans h₂.closed
  waiting id hlt h := h₁.waiting id hlt (h₂.waiting id (Nat.lt_of_lt_of_le hlt h₁.fresh_le) h)
  blocks id b hb := by
    obtain ⟨b₂, hb₂, hg₂⟩ := h₁.blocks id b hb
    obtain ⟨b₃, hb₃, hg₃⟩ := h₂.blocks id b₂ hb₂
    exact ⟨b₃, hb₃, hg₂.trans hg₃⟩
  cores id hlt h := by
    have hlt₂ : id < d₂.fresh := Nat.lt_of_lt_of_le hlt h₁.fresh_le
    rcases h with h | h
    · rw [h₂.cores id hlt₂ (Or.inl (h₁.closed.subset h)), h₁.cores id hlt (Or.inl h)]
    · rw [h₂.cores id hlt₂ (Or.inr h), h₁.cores id hlt (Or.inr (h₂.waiting id hlt₂ h))]
  resumptions := List.Subset.trans h₁.resumptions h₂.resumptions
  fault := h₂.fault.trans h₁.fault

/-- A loop header stays one. -/
theorem isLoopHeader {d d' : Draft} (h : d.Extends d') {id : BlockId}
    (hd : d.graph.isLoopHeader id = true) : d'.graph.isLoopHeader id = true := by
  obtain ⟨b, hb, hk⟩ := Graph.isLoopHeader_eq_true_iff.mp hd
  obtain ⟨b', hb', hg⟩ := h.blocks id b hb
  refine Graph.isLoopHeader_eq_true_iff.mpr ⟨b', hb', ?_⟩
  rcases hg.kind with hk' | ⟨hn, _⟩
  · exact hk'.trans hk
  · rw [hk] at hn
    exact nomatch hn

/-- A move that changes no core and none of the bookkeeping extends the draft. -/
theorem of_cores {d d' : Draft} (fresh : d'.fresh = d.fresh) (closed : d'.closed = d.closed)
    (current : d'.current = d.current)
    (cores : ∀ id, (d'.graph.block? id).map (·.core) = (d.graph.block? id).map (·.core))
    (resumptions : d.resumptions ⊆ d'.resumptions) (fault : d'.fault = d.fault) : d.Extends d' where
  fresh_le := Nat.le_of_eq fresh.symm
  closed := closed ▸ List.suffix_refl _
  waiting id _ h := (waiting_congr fresh closed current id).mp h
  blocks id b hb := by
    obtain ⟨b', hb', hc⟩ := exists_block?_of_core (cores id).symm hb
    exact ⟨b', hb', .of_core hc.symm⟩
  cores id _ _ := cores id
  resumptions := resumptions
  fault := fault

/-- A move that changes the open block only, and lets it grow, extends the draft. -/
theorem of_modify {d d' : Draft} (hd : d.Steady) {id : BlockId} (isOpen : d.current = some id)
    {f : BasicBlock → BasicBlock} (hf : ∀ b : BasicBlock, b.Grows (f b))
    (graph : d'.graph = d.graph.modify id f) (closed : d.closed <:+ d'.closed)
    (waiting : ∀ i, d'.Waiting i → d.Waiting i) (resumptions : d'.resumptions = d.resumptions)
    (fault : d'.fault = d.fault) : d.Extends d' where
  fresh_le := by
    have hsize : d'.fresh = d.fresh := by
      unfold fresh
      rw [graph, Graph.size_modify]
    exact Nat.le_of_eq hsize.symm
  closed := closed
  waiting i _ h := waiting i h
  blocks i b hb := by
    rw [graph, Graph.block?_modify, hb]
    by_cases hi : id = i
    · rw [if_pos hi]
      exact ⟨f b, rfl, hf b⟩
    · rw [if_neg hi]
      exact ⟨b, rfl, .refl b⟩
  cores i _ h := by
    -- The open block is neither closed nor waiting.
    have hi : id ≠ i := by
      rintro rfl
      rcases h with h | h
      · exact hd.current_open _ isOpen h
      · exact (waiting _ h).2.2 isOpen
    rw [graph, Graph.block?_modify, if_neg hi]
  resumptions := resumptions ▸ List.Subset.refl _
  fault := fault

end Extends

section Operations

variable {d : Draft}

theorem extends_add (hd : d.Steady) (kind : BlockKind) (elements : List Element)
    (span : Option Span) :
    d.Extends (d.add { kind, elements, span }) := by
  refine ⟨?_, List.suffix_refl _, ?_, ?_, ?_, List.Subset.refl _, rfl⟩
  · rw [fresh_add]
    exact Nat.le_succ _
  · intro id hlt h
    rcases (waiting_add hd _ id).mp h with h | rfl
    · exact h
    · exact absurd hlt (Nat.lt_irrefl _)
  · intro id b hb
    rw [block?_add_of_lt (Graph.lt_size_of_block? hb)]
    exact ⟨b, hb, .refl b⟩
  · intro id hlt _
    rw [block?_add_of_lt hlt]

theorem extends_enter (idle : d.current = none) (next : BlockId) :
    d.Extends { d with current := some next } := by
  refine ⟨Nat.le_refl _, List.suffix_refl _, ?_, fun _ b hb => ⟨b, hb, .refl b⟩, fun _ _ _ => rfl,
    List.Subset.refl _, rfl⟩
  intro i _ h
  exact ((waiting_enter idle i _).mp h).1

theorem extends_addEdges (hd : d.Steady) {id : BlockId} (isOpen : d.current = some id)
    (edges : List Edge) : d.Extends (d.addEdges id edges) :=
  .of_modify hd isOpen (fun b => .link b _) rfl (List.suffix_refl _)
    (fun i => (waiting_congr (fresh_addEdges ..) rfl rfl i).mp) rfl rfl

theorem extends_sealed (hd : d.Steady) {id : BlockId} (isOpen : d.current = some id)
    (t : Terminator) (edges : List Edge) (span : Option Span) :
      d.Extends (d.sealed id t edges span) :=
  .of_modify hd isOpen (fun b => .endBlock b _ _ _) rfl (List.suffix_cons _ _)
    (fun i => (waiting_sealed isOpen _ _ _ i).mp) rfl rfl

theorem extends_resolveDangling (d : Draft) (next : BlockId) : d.Extends (d.resolveDangling next) :=
  .of_cores (by simp) (by simp) (by simp) (d.core_resolveDangling next) (by simp) (by simp)

theorem extends_endCaseGroup (d : Draft) : d.Extends d.endCaseGroup :=
  .of_cores (by simp) (by simp) (by simp) d.core_endCaseGroup (by simp) (by simp)

theorem extends_resumeAt (d : Draft) (resumptions : List (BlockId × Edge)) :
    d.Extends (d.resumeAt resumptions) :=
  .of_cores rfl rfl rfl (fun _ => rfl) (fun _ hp => mem_appendAllNew.mpr (Or.inl hp)) rfl

end Operations

/-- Each move extends a draft. -/
theorem Move.extends {d d' : Draft} (h : Move d d') (hd : d.Steady) : d.Extends d' := by
  cases h with
  | add kind elements span => exact extends_add hd kind elements span
  | enter idle waiting => exact extends_enter idle _
  | emit element isOpen =>
    exact .of_modify hd isOpen (fun b => .emit b element) rfl (List.suffix_refl _)
      (fun i => (waiting_congr (fresh_modify ..) rfl rfl i).mp) rfl rfl
  | link isOpen exceptional ahead => exact extends_addEdges hd isOpen _
  | close isOpen ending ahead silent => exact extends_sealed hd isOpen _ _ _
  | jump span isOpen isJump ending ahead =>
    exact .of_modify hd isOpen (fun b => .endBlock b _ _ (some span)) rfl (List.suffix_cons _ _)
      (fun i => (waiting_sealed isOpen _ _ (some span) i).mp) rfl rfl
  | resolve idle isBlock => exact extends_resolveDangling d _
  | mark => exact d.extends_endCaseGroup
  | resume pending ahead => exact extends_resumeAt d _

/-- Every run of moves extends a draft. -/
theorem Run.extends {d d' : Draft} (h : Run d d') (hd : d.Steady) : d.Extends d' := by
  induction h with
  | refl => exact .refl d
  | tail hr hm ih => exact ih.trans (hm.extends (hr.steady hd))

end Draft

end MethodFlow
