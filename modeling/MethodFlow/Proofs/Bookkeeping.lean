import MethodFlow.Proofs.Moves

/-!
# What moves do to the bookkeeping of a draft

The state of a drawing besides the blocks themselves: how many blocks there are, which one is open,
which are closed and which are waiting. `Steady` says that the open block is a block and is not
closed; every move keeps it. The waiting blocks change in two ways only: making a block adds it,
opening a block takes it away.

`BasicBlock.core` forgets the two marks that a closed block can still get from the text after it.
-/

namespace MethodFlow

namespace BasicBlock

/-- A block without what is found out about the jump at its end later on. -/
def core (b : BasicBlock) : BasicBlock := { b with lexicalNext := none, endsCaseGroup := false }

end BasicBlock

namespace Graph

theorem isLoopHeader_eq_true_iff {g : Graph} {id : BlockId} :
    g.isLoopHeader id = true ↔ ∃ b, g.block? id = some b ∧ b.kind = .loopHeader := by
  simp [isLoopHeader, Option.any_eq_true]

/-- Changing a block that was just added is the same as adding the changed block. -/
theorem modify_push (g : Graph) (b : BasicBlock) (f : BasicBlock → BasicBlock) :
    (g.push b).modify g.size f = g.push (f b) := by
  have h : (g.blocks.push b).modify g.blocks.size f = g.blocks.push (f b) := by
    apply Array.ext_getElem?
    intro i
    rw [Array.getElem?_modify, Array.getElem?_push, Array.getElem?_push]
    by_cases hi : i = g.blocks.size
    · subst hi
      rw [if_pos rfl, if_pos rfl, if_pos rfl]
      rfl
    · rw [if_neg (fun he => hi he.symm), if_neg hi, if_neg hi]
  simp only [push, modify, size, h]

end Graph

namespace Draft

/-! ## Fields that moves leave alone -/

@[simp] theorem fresh_add (d : Draft) (b : BasicBlock) : (d.add b).fresh = d.fresh + 1 :=
  d.graph.size_push b

@[simp] theorem fresh_modify (d : Draft) (id : BlockId) (f : BasicBlock → BasicBlock) :
    (d.modify id f).fresh = d.fresh :=
  d.graph.size_modify id f

@[simp] theorem fresh_addEdges (d : Draft) (id : BlockId) (edges : List Edge) :
    (d.addEdges id edges).fresh = d.fresh :=
  d.graph.size_modify id _

@[simp] theorem fresh_sealed (d : Draft) (id : BlockId) (t : Terminator) (edges : List Edge)
    (span : Option Span) : (d.sealed id t edges span).fresh = d.fresh :=
  d.graph.size_modify id _

/-- Changing several blocks changes nothing but the graph. -/
theorem modifyAll_eq (d : Draft) (ids : List BlockId) (f : BasicBlock → BasicBlock) :
    d.modifyAll ids f = { d with graph := (d.modifyAll ids f).graph } := by
  unfold modifyAll
  induction ids generalizing d with
  | nil => rfl
  | cons id ids ih =>
    rw [List.foldl_cons, ih (d.modify id f)]
    rfl

@[simp] theorem fresh_modifyAll (d : Draft) (ids : List BlockId) (f : BasicBlock → BasicBlock) :
    (d.modifyAll ids f).fresh = d.fresh := by
  unfold modifyAll
  induction ids generalizing d with
  | nil => rfl
  | cons id ids ih => rw [List.foldl_cons, ih, fresh_modify]

/-- Resolving dangling blocks changes the graph and the list of dangling blocks, nothing else. -/
theorem resolveDangling_eq (d : Draft) (next : BlockId) :
    d.resolveDangling next =
      { d with graph := (d.resolveDangling next).graph, dangling := [] } := by
  unfold resolveDangling
  rw [modifyAll_eq]

@[simp] theorem fresh_resolveDangling (d : Draft) (next : BlockId) :
    (d.resolveDangling next).fresh = d.fresh :=
  d.fresh_modifyAll d.dangling _

@[simp] theorem current_resolveDangling (d : Draft) (next : BlockId) :
    (d.resolveDangling next).current = d.current := by
  rw [resolveDangling_eq]

@[simp] theorem closed_resolveDangling (d : Draft) (next : BlockId) :
    (d.resolveDangling next).closed = d.closed := by
  rw [resolveDangling_eq]

@[simp] theorem resumptions_resolveDangling (d : Draft) (next : BlockId) :
    (d.resolveDangling next).resumptions = d.resumptions := by
  rw [resolveDangling_eq]

@[simp] theorem fault_resolveDangling (d : Draft) (next : BlockId) :
    (d.resolveDangling next).fault = d.fault := by
  rw [resolveDangling_eq]

@[simp] theorem fresh_endCaseGroup (d : Draft) : d.endCaseGroup.fresh = d.fresh :=
  d.fresh_modifyAll d.dangling _

@[simp] theorem current_endCaseGroup (d : Draft) : d.endCaseGroup.current = d.current := by
  unfold endCaseGroup
  rw [modifyAll_eq]

@[simp] theorem closed_endCaseGroup (d : Draft) : d.endCaseGroup.closed = d.closed := by
  unfold endCaseGroup
  rw [modifyAll_eq]

@[simp] theorem resumptions_endCaseGroup (d : Draft) :
    d.endCaseGroup.resumptions = d.resumptions := by
  unfold endCaseGroup
  rw [modifyAll_eq]

@[simp] theorem fault_endCaseGroup (d : Draft) : d.endCaseGroup.fault = d.fault := by
  unfold endCaseGroup
  rw [modifyAll_eq]

/-! ## Blocks that moves leave alone -/

theorem block?_add (d : Draft) (b : BasicBlock) (id : BlockId) :
    (d.add b).graph.block? id = if id = d.fresh then some b else d.graph.block? id :=
  d.graph.block?_push b id

theorem block?_add_of_lt {d : Draft} {id : BlockId} (h : id < d.fresh) (b : BasicBlock) :
    (d.add b).graph.block? id = d.graph.block? id := by
  rw [block?_add, if_neg (Nat.ne_of_lt h)]

theorem block?_modify (d : Draft) (f : BasicBlock → BasicBlock) (i id : BlockId) :
    (d.modify i f).graph.block? id = if i = id then (d.graph.block? id).map f
      else d.graph.block? id :=
  d.graph.block?_modify f i id

theorem block?_sealed (d : Draft) (i : BlockId) (t : Terminator) (edges : List Edge)
    (span : Option Span) (id : BlockId) :
    (d.sealed i t edges span).graph.block? id =
      if i = id then (d.graph.block? id).map (endBlock t edges span) else d.graph.block? id :=
  d.graph.block?_modify _ i id

/-- A change that the core does not show leaves all cores as they are. -/
theorem core_modifyAll (d : Draft) (ids : List BlockId) {f : BasicBlock → BasicBlock}
    (hf : ∀ b, (f b).core = b.core) (id : BlockId) :
    ((d.modifyAll ids f).graph.block? id).map (·.core) = (d.graph.block? id).map (·.core) := by
  unfold modifyAll
  induction ids generalizing d with
  | nil => rfl
  | cons i ids ih =>
    rw [List.foldl_cons, ih, block?_modify]
    split
    · rw [Option.map_map]
      exact congrArg (fun g => (d.graph.block? id).map g) (funext hf)
    · rfl

/-- Resolving dangling blocks leaves the core of every block alone. -/
theorem core_resolveDangling (d : Draft) (next id : BlockId) :
    ((d.resolveDangling next).graph.block? id).map (·.core) = (d.graph.block? id).map (·.core) :=
  d.core_modifyAll d.dangling (f := fun b => { b with lexicalNext := some next }) (fun _ => rfl) id

theorem core_endCaseGroup (d : Draft) (id : BlockId) :
    (d.endCaseGroup.graph.block? id).map (·.core) = (d.graph.block? id).map (·.core) :=
  d.core_modifyAll d.dangling (f := fun b => { b with endsCaseGroup := true }) (fun _ => rfl) id

/-- A fact about the core of a block carries over between drafts whose cores agree. -/
theorem exists_block?_of_core {g g' : Graph} {id : BlockId} {b : BasicBlock}
    (h : (g'.block? id).map (·.core) = (g.block? id).map (·.core)) (hb : g'.block? id = some b) :
    ∃ b₀, g.block? id = some b₀ ∧ b.core = b₀.core := by
  rw [hb, Option.map_some] at h
  obtain ⟨b₀, hb₀, hc⟩ := Option.map_eq_some_iff.mp h.symm
  exact ⟨b₀, hb₀, hc.symm⟩

/-! ## The open block and the waiting blocks -/

/-- All numbers kept are numbers of blocks, and the open block has not been closed. -/
structure Steady (d : Draft) : Prop where
  closed_lt : ∀ id ∈ d.closed, id < d.fresh
  current_lt : ∀ id, d.current = some id → id < d.fresh
  current_open : ∀ id, d.current = some id → id ∉ d.closed
  resumed_lt : ∀ p ∈ d.resumptions, p.1 < d.fresh

/-- The draft in which the drawing of a body begins. -/
def begun (span : Span) : Draft := initial.modify Graph.entry fun b => { b with span := some span }

theorem steady_begun (span : Span) : Steady (begun span) := by
  constructor
  · intro id hid
    rw [show id = Graph.exit from List.mem_singleton.mp hid, begun, fresh_modify]
    decide
  · intro id hid
    rw [show id = Graph.entry from (Option.some.inj hid).symm, begun, fresh_modify]
    decide
  · intro id hid
    rw [show id = Graph.entry from (Option.some.inj hid).symm]
    exact show Graph.entry ∉ [Graph.exit] by decide
  · intro p hp
    exact nomatch hp

/-- At the start there are an entry and an exit, and nothing else. -/
theorem block?_begun {span : Span} {id : BlockId} {b : BasicBlock}
    (h : (begun span).graph.block? id = some b) :
    id = Graph.entry ∧ b = { kind := .entry, span := some span } ∨
      id = Graph.exit ∧ b = { kind := .exit, terminator := .methodExit } := by
  rw [begun, block?_modify] at h
  match id with
  | 0 => exact Or.inl ⟨rfl, (Option.some.inj h).symm⟩
  | 1 => exact Or.inr ⟨rfl, (Option.some.inj h).symm⟩
  | _ + 2 => exact nomatch h

theorem not_waiting_begun (span : Span) (id : BlockId) : ¬ (begun span).Waiting id := by
  rintro ⟨hlt, hcl, hcur⟩
  rw [begun, fresh_modify] at hlt
  match id with
  | 0 => exact hcur rfl
  | 1 => exact hcl List.mem_cons_self
  | _ + 2 => exact absurd hlt (Nat.not_lt_of_le (Nat.le_add_left _ _))

theorem Waiting.lt {d : Draft} {id : BlockId} (h : d.Waiting id) : id < d.fresh := h.1

theorem Awaits.lt {d : Draft} {id : BlockId} (h : d.Awaits id) : id < d.fresh := by
  rcases h with rfl | h | h
  · exact d.graph.two_le_size
  · exact h.lt
  · obtain ⟨b, hb, _⟩ := Graph.isLoopHeader_eq_true_iff.mp h
    exact Graph.lt_size_of_block? hb

/-- After an addition the new block waits too. -/
theorem waiting_add {d : Draft} (hd : d.Steady) (b : BasicBlock) (id : BlockId) :
    (d.add b).Waiting id ↔ d.Waiting id ∨ id = d.fresh := by
  unfold Waiting
  rw [fresh_add]
  change id < d.fresh + 1 ∧ id ∉ d.closed ∧ d.current ≠ some id ↔ _
  constructor
  · rintro ⟨hlt, hcl, hcur⟩
    by_cases h : id = d.fresh
    · exact Or.inr h
    · exact Or.inl ⟨Nat.lt_of_le_of_ne (Nat.le_of_lt_succ hlt) h, hcl, hcur⟩
  · rintro (⟨hlt, hcl, hcur⟩ | rfl)
    · exact ⟨Nat.lt_succ_of_lt hlt, hcl, hcur⟩
    · refine ⟨Nat.lt_succ_self _, fun h => ?_, fun h => ?_⟩
      · exact Nat.lt_irrefl _ (hd.closed_lt _ h)
      · exact Nat.lt_irrefl _ (hd.current_lt _ h)

theorem waiting_enter {d : Draft} (idle : d.current = none) (id next : BlockId) :
    Waiting { d with current := some next } id ↔ d.Waiting id ∧ id ≠ next := by
  unfold Waiting
  rw [idle]
  change id < d.fresh ∧ id ∉ d.closed ∧ some next ≠ some id ↔ _
  constructor
  · rintro ⟨hlt, hcl, hne⟩
    exact ⟨⟨hlt, hcl, by simp⟩, fun he => hne (by rw [he])⟩
  · rintro ⟨⟨hlt, hcl, _⟩, hne⟩
    exact ⟨hlt, hcl, fun he => hne (Option.some.inj he).symm⟩

/-- Sealing the open block lets none of the waiting blocks go. -/
theorem waiting_sealed {d : Draft} {next : BlockId} (isOpen : d.current = some next)
    (t : Terminator) (edges : List Edge) (span : Option Span) (id : BlockId) :
    (d.sealed next t edges span).Waiting id ↔ d.Waiting id := by
  unfold Waiting
  rw [fresh_sealed, isOpen]
  change id < d.fresh ∧ id ∉ next :: d.closed ∧ none ≠ some id ↔ _
  constructor
  · rintro ⟨hlt, hcl, _⟩
    rw [List.mem_cons, not_or] at hcl
    exact ⟨hlt, hcl.2, fun he => hcl.1 (Option.some.inj he).symm⟩
  · rintro ⟨hlt, hcl, hne⟩
    refine ⟨hlt, ?_, by simp⟩
    rw [List.mem_cons, not_or]
    exact ⟨fun he => hne (by rw [he]), hcl⟩

/-- The waiting blocks depend on three fields only. -/
theorem waiting_congr {d d' : Draft} (fresh : d'.fresh = d.fresh) (closed : d'.closed = d.closed)
    (current : d'.current = d.current) (id : BlockId) : d'.Waiting id ↔ d.Waiting id := by
  unfold Waiting
  rw [fresh, closed, current]

theorem waiting_resolveDangling (d : Draft) (next id : BlockId) :
    (d.resolveDangling next).Waiting id ↔ d.Waiting id :=
  waiting_congr (by simp) (by simp) (by simp) id

theorem waiting_endCaseGroup (d : Draft) (id : BlockId) :
    d.endCaseGroup.Waiting id ↔ d.Waiting id :=
  waiting_congr (by simp) (by simp) (by simp) id

/-- Steadiness reads four fields of a draft only. -/
theorem Steady.congr {d d' : Draft} (hd : d.Steady) (fresh : d'.fresh = d.fresh)
    (closed : d'.closed = d.closed) (current : d'.current = d.current)
    (resumptions : d'.resumptions = d.resumptions) : d'.Steady := by
  constructor
  · intro id hid
    rw [closed] at hid
    rw [fresh]
    exact hd.closed_lt id hid
  · intro id hid
    rw [current] at hid
    rw [fresh]
    exact hd.current_lt id hid
  · intro id hid
    rw [current] at hid
    rw [closed]
    exact hd.current_open id hid
  · intro p hp
    rw [resumptions] at hp
    rw [fresh]
    exact hd.resumed_lt p hp

theorem Steady.sealed {d : Draft} (hd : d.Steady) {id : BlockId} (isOpen : d.current = some id)
    (t : Terminator) (edges : List Edge) (span : Option Span) :
    (d.sealed id t edges span).Steady := by
  constructor
  · intro i hi
    rw [fresh_sealed]
    rcases List.mem_cons.mp hi with rfl | hi
    · exact hd.current_lt _ isOpen
    · exact hd.closed_lt i hi
  · intro i hi
    exact nomatch hi
  · intro i hi
    exact nomatch hi
  · intro p hp
    rw [fresh_sealed]
    exact hd.resumed_lt p hp

/-- Every move keeps the open block in order. -/
theorem Move.steady {d d' : Draft} (h : Move d d') (hd : d.Steady) : d'.Steady := by
  -- Blocks are only added and closed, and the open one is never a closed one.
  cases h with
  | add kind elements span =>
    constructor
    · intro id hid
      rw [fresh_add]
      exact Nat.lt_succ_of_lt (hd.closed_lt id hid)
    · intro id hid
      rw [fresh_add]
      exact Nat.lt_succ_of_lt (hd.current_lt id hid)
    · exact hd.current_open
    · intro p hp
      rw [fresh_add]
      exact Nat.lt_succ_of_lt (hd.resumed_lt p hp)
  | enter idle waiting =>
    constructor
    · exact hd.closed_lt
    · intro i hi
      rw [← Option.some.inj hi]
      exact waiting.1
    · intro i hi
      rw [← Option.some.inj hi]
      exact waiting.2.1
    · exact hd.resumed_lt
  | emit element isOpen | link isOpen exceptional ahead => exact hd.congr (by simp) rfl rfl rfl
  | close isOpen ending ahead silent => exact hd.sealed isOpen _ _ _
  | jump span isOpen isJump ending ahead =>
    exact (hd.sealed isOpen _ _ (some span)).congr rfl rfl rfl rfl
  | resolve idle isBlock | mark => exact hd.congr (by simp) (by simp) (by simp) (by simp)
  | resume pending ahead =>
    refine ⟨hd.closed_lt, hd.current_lt, hd.current_open, fun p hp => ?_⟩
    rcases mem_appendAllNew.mp hp with hp | hp
    · exact hd.resumed_lt p hp
    · exact (pending p hp).lt

/-- Every run of moves keeps a draft steady. -/
theorem Run.steady {d d' : Draft} (h : Run d d') (hd : d.Steady) : d'.Steady :=
  h.invariant Move.steady hd

end Draft

end MethodFlow
