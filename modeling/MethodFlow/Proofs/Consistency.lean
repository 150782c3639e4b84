import MethodFlow.Proofs.Drawing
import MethodFlow.Proofs.Gathering
import MethodFlow.Proofs.Scoping

/-!
# Drafts are consistent

`Terminator.Prescribes` spells out which edges may leave a block with a given terminator. The
invariant of a drawing is `Draft.Sound`: closed blocks have exactly the edges that their terminators
prescribe, all other blocks have exceptional edges only, no block was closed twice and nothing leads
to the entry. Every move keeps it (`Move.sound`), and at the end of a body no block is left open or
waiting (`Graph.draft_settled`), so the final check of a draft finds nothing.

Main results: `Graph.build_consistent`, and `Graph.build_error_iff`, by which the scoping errors of
the text are the only reasons why a body has no graph.
-/

namespace MethodFlow

/-! ## Prescribed edges -/

namespace Terminator

/-- The edges out of a block are those that its terminator prescribes. Besides these, any terminator
but `methodExit` admits exceptional edges. -/
def Prescribes (t : Terminator) (edges : List Edge) : Prop :=
  let normal := edges.filter (·.isNormal)
  match t with
  | fallThrough | returning _ | breaking _ => ∃ next, normal = [.sequential next]
  | continuing _ => ∃ next, normal = [.sequential next] ∨ normal = [.loopBack next]
  | jump target => normal = [.sequential target] ∨ normal = [.loopBack target]
  | branch onTrue onFalse => normal = [⟨.onTrue, onTrue⟩, ⟨.onFalse, onFalse⟩]
  | switch cases default => normal = switchEdges cases default
  | throwing => normal = [] ∧ edges ≠ []
  | methodExit => edges = []
  | endFinally => (∀ e ∈ normal, e.kind = .sequential ∨ e.kind = .loopBack) ∧ edges ≠ []

/-- Edges that a terminator prescribes pass its check. -/
theorem Prescribes.checkEdges {t : Terminator} {edges : List Edge} (h : t.Prescribes edges) :
    t.checkEdges edges = .ok () := by
  cases t with
  | fallThrough | returning | breaking =>
    obtain ⟨next, h⟩ := h
    simp only [Terminator.checkEdges, h]
    rfl
  | continuing target =>
    obtain ⟨next, h | h⟩ := h <;>
    · simp only [Terminator.checkEdges, h]
      rfl
  | jump target =>
    obtain h | h := h <;>
    · simp only [Terminator.checkEdges, h]
      exact if_pos (beq_self_eq_true target)
  | branch onTrue onFalse | methodExit =>
    simp only [Prescribes] at h
    simp [Terminator.checkEdges, h]
  | switch cases default =>
    simp only [Prescribes] at h
    have hnone : (switchEdges cases default).find? (!(switchEdges cases default).contains ·) =
        none := by
      rw [List.find?_eq_none]
      intro e he
      simp [he]
    simp only [Terminator.checkEdges, h, hnone, bne_self_eq_false, Bool.false_eq_true, if_false]
  | throwing =>
    obtain ⟨hn, hne⟩ := h
    simp [Terminator.checkEdges, hn, hne]
  | endFinally =>
    obtain ⟨hk, hne⟩ := h
    have hall : ((edges.filter (·.isNormal)).map (·.kind)).all
        [EdgeKind.sequential, EdgeKind.loopBack].contains = true := by
      rw [List.all_eq_true]
      intro kind hm
      obtain ⟨e, he, rfl⟩ := List.mem_map.mp hm
      simpa using hk e he
    simp [Terminator.checkEdges, hall, hne]

end Terminator

/-- New values are added at the end, one after the other. -/
theorem appendAllNew_eq_append {α : Type} [BEq α] [LawfulBEq α] {xs ys : List α}
    (hnew : ∀ y ∈ ys, y ∉ xs) (hnodup : ys.Nodup) : appendAllNew xs ys = xs ++ ys := by
  unfold appendAllNew
  induction ys generalizing xs with
  | nil => rw [List.foldl_nil, List.append_nil]
  | cons y ys ih =>
    obtain ⟨hy, hnodup⟩ := List.nodup_cons.mp hnodup
    have hadd : appendNew xs y = xs ++ [y] := by
      unfold appendNew
      rw [if_neg]
      intro hm
      exact hnew y List.mem_cons_self (List.contains_iff_mem.mp hm)
    rw [List.foldl_cons, hadd, ih ?_ hnodup, List.append_assoc, List.singleton_append]
    intro z hz hm
    rcases List.mem_append.mp hm with hm | hm
    · exact hnew z (List.mem_cons_of_mem _ hz) hm
    · rw [List.mem_singleton.mp hm] at hz
      exact hy hz

namespace Terminator

/-- Normal edges that end a block with exceptional edges only are its normal edges. -/
theorem filter_appendAllNew {edges own : List Edge} (hexc : ∀ e ∈ edges, e.isExceptional = true)
    (hnormal : ∀ e ∈ own, e.isNormal = true) (hnodup : own.Nodup) :
    (appendAllNew edges own).filter (·.isNormal) = own := by
  have hnew : ∀ e ∈ own, e ∉ edges := by
    intro e he hm
    have hn := hnormal e he
    rw [Edge.isNormal, hexc e hm] at hn
    exact nomatch hn
  rw [appendAllNew_eq_append hnew hnodup, List.filter_append, List.filter_eq_self.mpr hnormal,
    List.filter_eq_nil_iff.mpr, List.nil_append]
  intro e he
  rw [Edge.isNormal, hexc e he]
  exact Bool.false_ne_true

theorem nodup_switchEdges (cases : List BlockId) (default : Option BlockId) :
    (switchEdges cases default).Nodup := by
  unfold switchEdges
  rw [List.nodup_append]
  refine ⟨?_, ?_, ?_⟩
  · rw [List.Nodup, List.pairwise_iff_getElem]
    intro i j hi hj hij
    simp only [List.getElem_mapIdx]
    intro he
    injection he with hk _
    injection hk with hk
    exact Nat.ne_of_lt hij hk
  · cases default <;> simp
  · intro a ha b hb hab
    obtain ⟨i, hi, rfl⟩ := List.mem_mapIdx.mp ha
    obtain ⟨target, _, rfl⟩ := List.mem_map.mp hb
    exact nomatch hab

theorem isNormal_switchEdges {cases : List BlockId} {default : Option BlockId} {e : Edge}
    (h : e ∈ switchEdges cases default) : e.isNormal = true := by
  rcases List.mem_append.mp h with h | h
  · obtain ⟨i, hi, rfl⟩ := List.mem_mapIdx.mp h
    rfl
  · obtain ⟨target, _, rfl⟩ := List.mem_map.mp h
    rfl

/-- Ending a block that has exceptional edges only gives it the edges that the terminator
prescribes. -/
theorem Ending.prescribes {t : Terminator} {edges own : List Edge} (ending : t.Ending own)
    (hexc : ∀ e ∈ edges, e.isExceptional = true) : t.Prescribes (appendAllNew edges own) := by
  -- The exceptional edges made before are no part of what the terminator prescribes.
  have single : ∀ {e : Edge}, e.isNormal = true →
      (appendAllNew edges [e]).filter (·.isNormal) = [e] := by
    intro e he
    refine filter_appendAllNew hexc (fun e' he' => ?_) (by simp)
    rw [List.mem_singleton.mp he']
    exact he
  have nonempty : own ≠ [] → appendAllNew edges own ≠ [] := by
    intro hne
    obtain ⟨e, he⟩ := List.exists_mem_of_ne_nil own hne
    exact List.ne_nil_of_mem (mem_appendAllNew.mpr (Or.inr he))
  cases ending with
  | fallThrough next => exact ⟨next, single rfl⟩
  | branch onTrue onFalse =>
    exact filter_appendAllNew hexc (by simp [Edge.isNormal, Edge.isExceptional]) (by simp)
  | jump target hk =>
    rcases hk with rfl | rfl
    · exact Or.inl (single rfl)
    · exact Or.inr (single rfl)
  | switch cases default =>
    exact filter_appendAllNew hexc (fun e he => isNormal_switchEdges he) (nodup_switchEdges _ _)
  | returning hasExpression next | breaking target next => exact ⟨next, single rfl⟩
  | @continuing e target hk =>
    obtain ⟨kind, next⟩ := e
    rcases hk with hk | hk <;> cases hk
    · exact ⟨next, Or.inl (single rfl)⟩
    · exact ⟨next, Or.inr (single rfl)⟩
  | throwing hne =>
    refine ⟨List.filter_eq_nil_iff.mpr fun e he => ?_, nonempty (by simpa using hne)⟩
    rcases mem_appendAllNew.mp he with he | he
    · rw [Edge.isNormal, hexc e he]
      exact Bool.false_ne_true
    · obtain ⟨target, _, rfl⟩ := List.mem_map.mp he
      exact Bool.false_ne_true
  | endFinally hne kinds =>
    refine ⟨fun e he => ?_, nonempty hne⟩
    obtain ⟨he, hn⟩ := List.mem_filter.mp he
    rw [Edge.isNormal] at hn
    rcases mem_appendAllNew.mp he with he | he
    · rw [hexc e he] at hn
      exact nomatch hn
    · rcases kinds e he with hk | hk | hk
      · exact Or.inl hk
      · exact Or.inr hk
      · rw [Edge.isExceptional, hk] at hn
        exact nomatch hn

end Terminator

/-! ## The invariant -/

namespace Draft

/-- What holds of a draft at every moment. -/
structure Sound (d : Draft) : Prop where
  nodup : d.closed.Nodup
  /-- The entry was opened first and is no place to go back to. -/
  opened : ¬ d.Waiting Graph.entry
  noLoop : d.graph.isLoopHeader Graph.entry = false
  ended : ∀ id b, d.graph.block? id = some b → id ∈ d.closed → b.terminator.Prescribes b.successors
  pending : ∀ id b, d.graph.block? id = some b → id ∉ d.closed →
    ∀ e ∈ b.successors, e.isExceptional = true
  /-- Edges lead to blocks, but not to the entry. -/
  entered : ∀ id b, d.graph.block? id = some b →
    ∀ e ∈ b.successors, e.target ≠ Graph.entry ∧ e.target < d.fresh

namespace Sound

variable {d d' : Draft}

/-- An edge may be added only if it leads to a block other than the entry. -/
theorem enterable (h : d.Sound) {id : BlockId} (hid : d.Awaits id) :
    id ≠ Graph.entry ∧ id < d.fresh := by
  refine ⟨?_, hid.lt⟩
  rintro rfl
  rcases hid with hid | hid | hid
  · exact nomatch hid
  · exact h.opened hid
  · rw [h.noLoop] at hid
    exact nomatch hid

/-- The invariant is about cores and closed blocks only. -/
theorem of_cores (h : d.Sound) (closed : d'.closed = d.closed)
    (opened : d'.Waiting Graph.entry → d.Waiting Graph.entry)
    (cores : ∀ id, (d'.graph.block? id).map (·.core) = (d.graph.block? id).map (·.core)) :
      d'.Sound := by
  have hblock : ∀ id b, d'.graph.block? id = some b → ∃ b₀, d.graph.block? id = some b₀ ∧
      b.kind = b₀.kind ∧ b.terminator = b₀.terminator ∧ b.successors = b₀.successors := by
    intro id b hb
    obtain ⟨b₀, hb₀, hc⟩ := exists_block?_of_core (cores id) hb
    exact ⟨b₀, hb₀, congrArg (·.kind) hc, congrArg (·.terminator) hc, congrArg (·.successors) hc⟩
  refine ⟨closed ▸ h.nodup, fun hw => h.opened (opened hw), ?_, ?_, ?_, ?_⟩
  · rw [← Bool.not_eq_true, Graph.isLoopHeader_eq_true_iff]
    rintro ⟨b, hb, hk⟩
    obtain ⟨b₀, hb₀, hk₀, _⟩ := hblock _ b hb
    have hloop := Graph.isLoopHeader_eq_true_iff.mpr ⟨b₀, hb₀, hk₀.symm.trans hk⟩
    rw [h.noLoop] at hloop
    exact nomatch hloop
  · intro id b hb hid
    obtain ⟨b₀, hb₀, _, ht, hs⟩ := hblock id b hb
    rw [ht, hs]
    exact h.ended id b₀ hb₀ (closed ▸ hid)
  · intro id b hb hid
    obtain ⟨b₀, hb₀, _, _, hs⟩ := hblock id b hb
    rw [hs]
    exact h.pending id b₀ hb₀ (closed ▸ hid)
  · intro id b hb e he
    obtain ⟨b₀, hb₀, _, _, hs⟩ := hblock id b hb
    obtain ⟨hne, hlt⟩ := h.entered id b₀ hb₀ e (hs ▸ he)
    obtain ⟨target, ht⟩ := Graph.exists_block? hlt
    obtain ⟨_, ht', _⟩ := exists_block?_of_core (cores e.target).symm ht
    exact ⟨hne, Graph.lt_size_of_block? ht'⟩

/-- A change of the open block that keeps it open, and adds exceptional edges only. -/
theorem of_modify (h : d.Sound) (hd : d.Steady) {id : BlockId} (isOpen : d.current = some id)
    {f : BasicBlock → BasicBlock} (hkind : ∀ b, (f b).kind = b.kind)
    (hadded : ∀ b, ∀ e ∈ (f b).successors, e ∈ b.successors ∨
      e.isExceptional = true ∧ d.Awaits e.target) : (d.modify id f).Sound := by
  -- Only the open block changes, so what is closed stays as it was.
  have hblock : ∀ i b, (d.modify id f).graph.block? i = some b →
      d.graph.block? i = some b ∨ id = i ∧ ∃ b₀, d.graph.block? i = some b₀ ∧ b = f b₀ := by
    intro i b hb
    rw [block?_modify] at hb
    split at hb
    · obtain ⟨b₀, hb₀, rfl⟩ := Option.map_eq_some_iff.mp hb
      exact Or.inr ⟨‹_›, b₀, hb₀, rfl⟩
    · exact Or.inl hb
  refine ⟨h.nodup, fun hw => h.opened ((waiting_congr (fresh_modify ..) rfl rfl _).mp hw),
    ?_, ?_, ?_, ?_⟩
  · rw [← Bool.not_eq_true, Graph.isLoopHeader_eq_true_iff]
    rintro ⟨b, hb, hk⟩
    have hloop : d.graph.isLoopHeader Graph.entry = true := by
      rcases hblock _ b hb with hb | ⟨_, b₀, hb₀, rfl⟩
      · exact Graph.isLoopHeader_eq_true_iff.mpr ⟨b, hb, hk⟩
      · exact Graph.isLoopHeader_eq_true_iff.mpr ⟨b₀, hb₀, (hkind b₀).symm.trans hk⟩
    rw [h.noLoop] at hloop
    exact nomatch hloop
  · intro i b hb hi
    rcases hblock i b hb with hb | ⟨rfl, _⟩
    · exact h.ended i b hb hi
    · exact absurd hi (hd.current_open _ isOpen)
  · intro i b hb hi e he
    rcases hblock i b hb with hb | ⟨rfl, b₀, hb₀, rfl⟩
    · exact h.pending i b hb hi e he
    · rcases hadded b₀ e he with he | ⟨hx, _⟩
      · exact h.pending _ b₀ hb₀ hi e he
      · exact hx
  · intro i b hb e he
    rcases hblock i b hb with hb | ⟨rfl, b₀, hb₀, rfl⟩
    · rw [fresh_modify]
      exact h.entered i b hb e he
    · rw [fresh_modify]
      rcases hadded b₀ e he with he | ⟨_, ha⟩
      · exact h.entered _ b₀ hb₀ e he
      · exact h.enterable ha

/-- Closing the open block. -/
theorem sealed (h : d.Sound) (hd : d.Steady) {id : BlockId} (isOpen : d.current = some id)
    {t : Terminator} {edges : List Edge} (span : Option Span) (ending : t.Ending edges)
    (ahead : ∀ e ∈ edges, d.Awaits e.target) : (d.sealed id t edges span).Sound := by
  -- Only the block that is closed changes, and it had exceptional edges only.
  have hblock : ∀ i b, (d.sealed id t edges span).graph.block? i = some b →
      id ≠ i ∧ d.graph.block? i = some b ∨
        id = i ∧ ∃ b₀, d.graph.block? i = some b₀ ∧ b = endBlock t edges span b₀ := by
    intro i b hb
    rw [block?_sealed] at hb
    split at hb
    · obtain ⟨b₀, hb₀, rfl⟩ := Option.map_eq_some_iff.mp hb
      exact Or.inr ⟨‹_›, b₀, hb₀, rfl⟩
    · exact Or.inl ⟨‹_›, hb⟩
  have hopen := hd.current_open id isOpen
  refine ⟨List.nodup_cons.mpr ⟨hopen, h.nodup⟩,
    fun hw => h.opened ((waiting_sealed isOpen t edges span _).mp hw), ?_, ?_, ?_, ?_⟩
  · rw [← Bool.not_eq_true, Graph.isLoopHeader_eq_true_iff]
    rintro ⟨b, hb, hk⟩
    have hloop : d.graph.isLoopHeader Graph.entry = true := by
      rcases hblock _ b hb with ⟨_, hb⟩ | ⟨_, b₀, hb₀, rfl⟩
      · exact Graph.isLoopHeader_eq_true_iff.mpr ⟨b, hb, hk⟩
      · rcases (BasicBlock.Grows.endBlock b₀ t edges span).kind with hk' | ⟨_, hk'⟩
        · exact Graph.isLoopHeader_eq_true_iff.mpr ⟨b₀, hb₀, hk'.symm.trans hk⟩
        · rw [hk] at hk'
          exact nomatch hk'
    rw [h.noLoop] at hloop
    exact nomatch hloop
  · intro i b hb hi
    rcases hblock i b hb with ⟨hne, hb⟩ | ⟨rfl, b₀, hb₀, rfl⟩
    · rcases List.mem_cons.mp hi with rfl | hi
      · exact absurd rfl hne
      · exact h.ended i b hb hi
    · exact ending.prescribes (h.pending _ b₀ hb₀ hopen)
  · intro i b hb hi
    rcases hblock i b hb with ⟨_, hb⟩ | ⟨rfl, _⟩
    · exact h.pending i b hb fun hm => hi (List.mem_cons_of_mem _ hm)
    · exact absurd List.mem_cons_self hi
  · intro i b hb e he
    rcases hblock i b hb with ⟨_, hb⟩ | ⟨rfl, b₀, hb₀, rfl⟩
    · rw [fresh_sealed]
      exact h.entered i b hb e he
    · rw [fresh_sealed]
      rcases mem_appendAllNew.mp he with he | he
      · exact h.entered _ b₀ hb₀ e he
      · exact h.enterable (ahead e he)

end Sound

/-- Each move keeps a draft sound. -/
theorem Move.sound {d d' : Draft} (hm : Move d d') (hd : d.Steady) (h : d.Sound) : d'.Sound := by
  cases hm with
  | add kind elements span =>
    -- A new block has no edges yet, and the others are as before.
    have hblock : ∀ id b, (d.add { kind, elements, span }).graph.block? id = some b →
        d.graph.block? id = some b ∨ id = d.fresh ∧ b = { kind, elements, span } := by
      intro id b hb
      rw [block?_add] at hb
      split at hb
      · exact Or.inr ⟨‹_›, (Option.some.inj hb).symm⟩
      · exact Or.inl hb
    have hentry : Graph.entry < d.fresh := Nat.lt_of_lt_of_le (by decide) d.graph.two_le_size
    refine ⟨h.nodup, fun hw => ?_, ?_, ?_, ?_, ?_⟩
    · rcases (waiting_add hd _ _).mp hw with hw | he
      · exact h.opened hw
      · exact absurd he (Nat.ne_of_lt hentry)
    · rw [Graph.isLoopHeader, block?_add_of_lt hentry]
      exact h.noLoop
    · intro id b hb hid
      rcases hblock id b hb with hb | ⟨rfl, _⟩
      · exact h.ended id b hb hid
      · exact absurd (hd.closed_lt _ hid) (Nat.lt_irrefl _)
    · intro id b hb hid e he
      rcases hblock id b hb with hb | ⟨_, rfl⟩
      · exact h.pending id b hb hid e he
      · cases he
    · intro id b hb e he
      rcases hblock id b hb with hb | ⟨_, rfl⟩
      · rw [fresh_add]
        exact (h.entered id b hb e he).imp_right Nat.lt_succ_of_lt
      · cases he
  | enter idle waiting =>
    exact h.of_cores rfl (fun hw => ((waiting_enter idle _ _).mp hw).1) fun _ => rfl
  | emit element isOpen => exact h.of_modify hd isOpen (fun _ => rfl) fun _ _ he => Or.inl he
  | link isOpen exceptional ahead =>
    refine h.of_modify hd isOpen (fun _ => rfl) fun b e he => ?_
    rcases mem_appendAllNew.mp he with he | he
    · exact Or.inl he
    · exact Or.inr ⟨exceptional e he, ahead e he⟩
  | close isOpen ending ahead silent => exact h.sealed hd isOpen _ ending ahead
  | jump span isOpen isJump ending ahead =>
    exact (h.sealed hd isOpen (some span) ending ahead).of_cores rfl
      (fun hw => (waiting_congr rfl rfl rfl _).mp hw) fun _ => rfl
  | resolve idle isBlock =>
    exact h.of_cores (by simp) (fun hw => (waiting_resolveDangling d _ _).mp hw)
      (d.core_resolveDangling _)
  | mark =>
    exact h.of_cores (by simp) (fun hw => (waiting_endCaseGroup d _).mp hw) d.core_endCaseGroup
  | resume pending ahead =>
    exact h.of_cores rfl (fun hw => (waiting_congr rfl rfl rfl _).mp hw) fun _ => rfl

/-- Every run of moves keeps a draft sound. -/
theorem Run.sound {d d' : Draft} (hr : Run d d') (hd : d.Steady) (h : d.Sound) : d'.Sound := by
  induction hr with
  | refl => exact h
  | tail hr hm ih => exact hm.sound (hr.steady hd) ih

theorem sound_begun (span : Span) : (begun span).Sound := by
  refine ⟨?_, not_waiting_begun span _, rfl, ?_, ?_, ?_⟩
  · exact List.nodup_cons.mpr ⟨List.not_mem_nil, List.nodup_nil⟩
  · intro id b hb hid
    rcases block?_begun hb with ⟨rfl, _⟩ | ⟨_, rfl⟩
    · exact absurd (List.mem_singleton.mp hid) (by decide)
    · rfl
  · intro id b hb _ e he
    rcases block?_begun hb with ⟨_, rfl⟩ | ⟨_, rfl⟩ <;> exact nomatch he
  · intro id b hb e he
    rcases block?_begun hb with ⟨_, rfl⟩ | ⟨_, rfl⟩ <;> exact nomatch he

end Draft

/-! ## Finished drafts -/

namespace Graph

variable {types : Subtyping} {body : Block} {d : Draft}

theorem draft_sound (h : draft types body = .ok d) : d.Sound :=
  (draft_settled h).1.sound (Draft.steady_begun _) (Draft.sound_begun _)

theorem draft_fault (h : draft types body = .ok d) : d.fault = none :=
  ((draft_settled h).1.extends (Draft.steady_begun _)).fault

/-- In the end the closed blocks are all the blocks. -/
theorem mem_closed_draft (h : draft types body = .ok d) {id : BlockId} :
    id ∈ d.closed ↔ id < d.graph.size := by
  obtain ⟨hrun, idle, hnone⟩ := draft_settled h
  constructor
  · exact (hrun.steady (Draft.steady_begun _)).closed_lt id
  · intro hlt
    by_cases hcl : id ∈ d.closed
    · exact hcl
    · exact absurd ⟨hlt, hcl, by simp [idle]⟩ (hnone id)

/-- Every block of a finished draft has the edges its terminator prescribes. -/
theorem prescribes_draft (h : draft types body = .ok d) {id : BlockId} {b : BasicBlock}
    (hb : d.graph.block? id = some b) : b.terminator.Prescribes b.successors :=
  (draft_sound h).ended id b hb ((mem_closed_draft h).mpr (lt_size_of_block? hb))

/-- Nothing leads back to the entry. -/
theorem predecessors_entry_draft (h : draft types body = .ok d) :
    d.graph.predecessors entry = [] := by
  refine List.filter_eq_nil_iff.mpr fun source _ hm => ?_
  rw [List.contains_iff_mem, targets, edgesFrom] at hm
  obtain ⟨e, he, hentry⟩ := List.mem_map.mp hm
  cases hb : d.graph.block? source with
  | none =>
    rw [hb] at he
    cases he
  | some b =>
    rw [hb] at he
    exact ((draft_sound h).entered source b hb e he).1 hentry

theorem edges_draft_lt (h : draft types body = .ok d) {id : BlockId} {b : BasicBlock} {e : Edge}
    (hb : d.graph.block? id = some b) (he : e ∈ b.successors) : e.target < d.graph.size :=
  ((draft_sound h).entered id b hb e he).2

theorem lt_of_mem_edges_draft (h : draft types body = .ok d) :
    ∀ p ∈ d.graph.edges, p.2.target < d.graph.size := by
  intro p hp
  obtain ⟨b, hb, he⟩ := mem_edgesFrom.mp (mem_edges.mp hp)
  exact edges_draft_lt h hb he

/-- The pass over the edges finds that nothing leads to the entry. -/
theorem entryFault?_draft (h : draft types body = .ok d) : d.entryFault? = none := by
  have hentry : entry < d.graph.size := Nat.lt_of_lt_of_le (by decide) d.graph.two_le_size
  rw [Draft.entryFault?, gatherPredecessors?_eq (lt_of_mem_edges_draft h), Option.bind_some,
    List.getElem?_toArray, List.getElem?_map, ids, List.getElem?_range hentry, Option.map_some,
    predecessors_entry_draft h, if_pos rfl]

/-- The final check finds no fault in a finished draft. -/
theorem finish_draft (h : draft types body = .ok d) : d.finish = .ok d.graph := by
  have hblocks : d.graph.ids.findSome? d.blockFault? = none := by
    refine List.findSome?_eq_none_iff.mpr fun id hid => ?_
    have hlt : id < d.graph.size := List.mem_range.mp hid
    obtain ⟨b, hb⟩ := exists_block? hlt
    simp [Draft.blockFault?, (mem_closed_draft h).mpr hlt, hb, (prescribes_draft h hb).checkEdges]
  simp [Draft.finish, Draft.firstFault?, draft_fault h, hblocks, entryFault?_draft h]

/-- Building adds nothing to drawing but the final check, which finds nothing. -/
theorem build_eq (types : Subtyping) (body : Block) :
    build types body = (draft types body).map (·.graph) := by
  unfold build
  cases h : draft types body with
  | error f => rfl
  | ok d => exact finish_draft h

theorem exists_draft {types : Subtyping} {body : Block} {g : Graph}
    (hg : build types body = .ok g) :
    ∃ d, draft types body = .ok d ∧ d.graph = g := by
  rw [build_eq] at hg
  cases hd : draft types body with
  | error f =>
    rw [hd] at hg
    exact nomatch hg
  | ok d =>
    rw [hd] at hg
    exact ⟨d, rfl, Except.ok.inj hg⟩

/-- Building fails with the first scope error of the body, and only with that. -/
theorem failure?_build (types : Subtyping) (body : Block) :
    Except.failure? (build types body) = Stmt.scopeErrorIn? body.stmts [] := by
  rw [← failure?_draft types body, build_eq]
  cases draft types body <;> rfl

/-- Whenever the statements of a body can be drawn, the draft is consistent: no mistake was made on
the way, every block was closed once, every block has the edges that its terminator asks for, and
nothing leads back to the entry. So building never fails for an inconsistency, and in every graph
that is built each block has exactly the edges that its terminator prescribes. -/
theorem build_consistent (types : Subtyping) (body : Block) :
    (∀ d, draft types body = .ok d →
      d.fault = none ∧ d.closed.Nodup ∧ (∀ id, id ∈ d.closed ↔ id < d.graph.size) ∧
        (∀ id b, d.graph.block? id = some b → b.terminator.checkEdges b.successors = .ok ()) ∧
        d.graph.predecessors entry = [] ∧ d.finish = .ok d.graph) ∧
      (∀ fault, build types body ≠ .error (.inconsistent fault)) ∧
      ∀ g, build types body = .ok g →
        ∀ id b, g.block? id = some b → b.terminator.Prescribes b.successors := by
  refine ⟨fun d h => ?_, fun fault h => ?_, fun g h id b hb => ?_⟩
  · exact ⟨draft_fault h, (draft_sound h).nodup, fun _ => mem_closed_draft h,
      fun _ _ hb => (prescribes_draft h hb).checkEdges, predecessors_entry_draft h, finish_draft h⟩
  · have herror := Except.failure?_eq_some_iff.mpr h
    rw [failure?_build] at herror
    exact Stmt.inText_scopeErrorIn? (fun s _ => s.inText_scopeError?) [] fault herror
  · rw [build_eq] at h
    cases hd : draft types body with
    | error f =>
      rw [hd] at h
      exact nomatch h
    | ok d =>
      rw [hd] at h
      cases h
      exact prescribes_draft hd hb

/-- A loop left from inside a `try` statement with a `finally` clause, with code after the jump. -/
def loopBody : Block where
  stmts :=
    [.whileStmt (.name "c" {})
      (.tryStmt [] ⟨[.breakStmt none {}, .expr (.name "x" {}) {}], {}⟩ []
        (some ⟨[.expr (.call none "f" [] [] {}) {}], {}⟩) {}) {}]
  span := {}

/-- The loop body has a draft, and each part of the final check passes on it. -/
theorem build_consistent_loopBody :
    ∃ d, draft ClassHierarchy.javaLang.subtyping loopBody = .ok d ∧ d.fault = none ∧
      d.graph.predecessors entry = [] ∧ d.finish = .ok d.graph := by
  obtain ⟨d, hd⟩ := Except.failure?_eq_none_iff.mp
    ((failure?_draft ClassHierarchy.javaLang.subtyping loopBody).trans rfl)
  obtain ⟨hfault, _, _, _, hentry, hfinish⟩ := (build_consistent _ loopBody).1 d hd
  exact ⟨d, hd, hfault, hentry, hfinish⟩

/-- A body has no graph exactly when its text has a scoping error, and building reports the first
one. Types play no part in this, and every body without such an error has a graph. -/
theorem build_error_iff (types : Subtyping) (body : Block) :
    (∀ failure, build types body = .error failure ↔
      Stmt.scopeErrorIn? body.stmts [] = some failure) ∧
      ((∃ g, build types body = .ok g) ↔ Stmt.scopeErrorIn? body.stmts [] = none) := by
  rw [← failure?_build types body]
  exact ⟨fun _ => Except.failure?_eq_some_iff.symm, Except.failure?_eq_none_iff.symm⟩

end Graph

end MethodFlow
