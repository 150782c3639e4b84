import MethodFlow.Proofs.Leaving
import MethodFlow.Proofs.Skeletons
import MethodFlow.Proofs.Words

/-!
# Reading executions off a way through the graph

Coverage goes from executions to paths. Here is the way back, for code outside of all `try`
statements: what a way to the exit spells from some block on begins with an execution of the code
that was drawn there.

`b.Splits K n v` says that `v` begins with an execution of `b`, after which `K` holds of the edges
and elements that are left and of how the code was left. `d.Rest D n v` says that some way of the
finished graph to the exit, over `n` more edges, goes on from the end of the open block of `d` and
spells `v`. A piece of code with behaviour `b` unfolds if `v` can be split there, and what is left
of the way goes on where such an execution goes on: at the open block after the code, or where a
jump leads. The number of edges gets smaller from round to round of a loop.

Main result: `Expr.unfolded`.
-/

namespace MethodFlow

/-! ## Splitting a word -/

namespace Behaviour

/-- The elements begin with an execution of the code, and what comes after it is as it should be:
`rest` tells from the number of edges and the elements that are left and from the way the code was
left. -/
def Splits (b : Behaviour) (rest : Nat → List Element → Exit → Prop) (n : Nat)
    (v : List Element) : Prop :=
  ∃ t u x m, v = t ++ u ∧ m ≤ n ∧ b t x ∧ rest m u x

namespace Splits

variable {a b : Behaviour} {n m : Nat} {v : List Element} {K K' : Nat → List Element → Exit → Prop}

/-- What is left may go on without spelling anything. -/
theorem advance (h : b.Splits K n v) (hK : ∀ m u x, m ≤ n → K m u x → ∃ k, k ≤ m ∧ K' k u x) :
    b.Splits K' n v := by
  obtain ⟨t, u, x, m, rfl, hm, hb, hk⟩ := h
  obtain ⟨k, hle, hk⟩ := hK m u x hm hk
  exact ⟨t, u, x, k, rfl, Nat.le_trans hle hm, hb, hk⟩

theorem mono (h : b.Splits K n v) (hK : ∀ m u x, m ≤ n → K m u x → K' m u x) : b.Splits K' n v :=
  h.advance fun m u x hm hk => ⟨m, Nat.le_refl m, hK m u x hm hk⟩

theorem of_le (h : b.Splits K m v) (hle : m ≤ n) : b.Splits K n v := by
  obtain ⟨t, u, x, k, rfl, hk, hb, hr⟩ := h
  exact ⟨t, u, x, k, rfl, Nat.le_trans hk hle, hb, hr⟩

theorem leave {x : Exit} (h : K n v x) : (Behaviour.leave x).Splits K n v :=
  ⟨[], v, x, n, rfl, Nat.le_refl n, ⟨rfl, rfl⟩, h⟩

/-- A way through one behaviour and the next is split where the first completes. -/
theorem andThen
    (h : a.Splits (fun m u x => x = .completed ∧ b.Splits K m u ∨ x ≠ .completed ∧ K m u x) n v) :
    (a.andThen b).Splits K n v := by
  obtain ⟨t, u, x, m, rfl, hm, ha, ⟨rfl, hb⟩ | ⟨hx, hk⟩⟩ := h
  · obtain ⟨t', u', x, k, rfl, hk, hb, hr⟩ := hb
    exact ⟨t ++ t', u', x, k, (List.append_assoc ..).symm, Nat.le_trans hk hm,
      Or.inr ⟨t, t', rfl, ha, hb⟩, hr⟩
  · exact ⟨t, u, x, m, rfl, hm, Or.inl ⟨ha, hx⟩, hk⟩

theorem left (h : a.Splits K n v) : (a.either b).Splits K n v := by
  obtain ⟨t, u, x, m, hv, hm, ha, hk⟩ := h
  exact ⟨t, u, x, m, hv, hm, Or.inl ha, hk⟩

theorem right (h : b.Splits K n v) : (a.either b).Splits K n v := by
  obtain ⟨t, u, x, m, hv, hm, hb, hk⟩ := h
  exact ⟨t, u, x, m, hv, hm, Or.inr hb, hk⟩

theorem catching {f : Exit → Exit} (h : b.Splits (fun m u x => K m u (f x)) n v) :
    (b.catching f).Splits K n v := by
  obtain ⟨t, u, x, m, hv, hm, hb, hk⟩ := h
  exact ⟨t, u, f x, m, hv, hm, ⟨x, hb, rfl⟩, hk⟩

/-- Any number of rounds, each of which uses up some edges. -/
theorem rounds {round last : Behaviour} {header : Nat → List Element → Prop}
    (step : ∀ n v, header n v → last.Splits K n v ∨
      round.Splits (fun m u x => x = .completed ∧ m < n ∧ header m u ∨ x ≠ .completed ∧
        K m u x) n v)
    (h : header n v) : Splits (Rounds round last) K n v := by
  induction n using Nat.strongRecOn generalizing v with
  | ind n ih =>
    rcases step n v h with ⟨t, u, x, m, hv, hm, hlast, hk⟩ | ⟨t, u, x, m, rfl, hm, hround, hk⟩
    · exact ⟨t, u, x, m, hv, hm, .last hlast, hk⟩
    rcases hk with ⟨rfl, hlt, h⟩ | ⟨hx, hk⟩
    · obtain ⟨t', u', x, k, rfl, hk, hrest, hr⟩ := ih m hlt h
      exact ⟨t ++ t', u', x, k, (List.append_assoc ..).symm, Nat.le_trans hk hm,
        .next hround hrest, hr⟩
    · exact ⟨t, u, x, m, rfl, hm, .left hround hx, hk⟩

end Splits

end Behaviour

namespace Draft

/-! ## The rest of a way -/

/-- Blocks that wait have no edges yet, and the exit is closed. -/
structure Tidy (d : Draft) : Prop where
  exit_closed : Graph.exit ∈ d.closed
  unlinked : ∀ id b, d.graph.block? id = some b → d.Waiting id → b.successors = []

/-- Some way to the exit goes on from the end of the open block, over `n` more edges, and spells the
elements from there on. The block has no edges yet. -/
structure Rest (D d : Draft) (n : Nat) (v : List Element) : Prop where
  steady : d.Steady
  tidy : d.Tidy
  finishes : ∃ id b, d.current = some id ∧ d.graph.block? id = some b ∧ b.successors = [] ∧
    D.graph.Finishes n id (b.elements ++ v)

variable {D d d' : Draft} {id : BlockId} {n : Nat} {v : List Element}

theorem tidy_begun (span : Span) : (begun span).Tidy where
  exit_closed := List.mem_cons_self
  unlinked id _ _ hw := absurd hw (not_waiting_begun span id)

theorem Move.tidy (hm : Move d d') (hd : d.Steady) (h : d.Tidy) : d'.Tidy := by
  have hext := hm.extends hd
  refine ⟨hext.closed.subset h.exit_closed, fun id b hb hw => ?_⟩
  by_cases hlt : id < d.fresh
  · obtain ⟨b₀, hb₀, hcore⟩ := exists_block?_of_core (hext.cores id hlt (Or.inr hw)) hb
    have hs : b.successors = b₀.successors := congrArg (·.successors) hcore
    rw [hs]
    exact h.unlinked id b₀ hb₀ (hext.waiting id hlt hw)
  · -- Only a block that was made just now is as new as that.
    cases hm with
    | add kind elements span =>
      rw [block?_add] at hb
      split at hb
      · cases hb
        rfl
      · exact absurd (Graph.lt_size_of_block? hb) hlt
    | enter | resume => exact absurd hw.lt hlt
    | jump => exact absurd (fresh_sealed .. ▸ hw.lt) hlt
    | emit | link | close | resolve | mark => exact absurd (by simpa using hw.lt) hlt

/-- Every run of moves keeps a draft tidy. -/
theorem Run.tidy (hr : Run d d') (hd : d.Steady) (h : d.Tidy) : d'.Tidy := by
  induction hr with
  | refl => exact h
  | tail hr hm ih => exact hm.tidy (hr.steady hd) ih

namespace Rest

theorem current (h : Rest D d n v) : ∃ id, d.current = some id := by
  obtain ⟨id, _, hi, _⟩ := h.finishes
  exact ⟨id, hi⟩

theorem ne_exit (h : Rest D d n v) (isOpen : d.current = some id) : id ≠ Graph.exit :=
  fun he => h.steady.current_open id isOpen (he ▸ h.tidy.exit_closed)

/-- When the open block is closed, the way takes one of the edges that end it. -/
theorem sealed (h : Rest D d n v) (isOpen : d.current = some id) {t : Terminator}
    {edges : List Edge} {span : Option Span} (hext : (d.sealed id t edges span).Extends D) :
    ∃ m e, n = m + 1 ∧ e ∈ edges ∧ D.graph.Finishes m e.target v := by
  obtain ⟨i, b, hi, hb, hs, hf⟩ := h.finishes
  cases isOpen.symm.trans hi
  obtain ⟨m, b', e, u, rfl, hb', he, hrest, hv⟩ := hf.exists_step (h.ne_exit isOpen)
  have hsealed : (d.sealed id t edges span).graph.block? id = some (endBlock t edges span b) := by
    rw [block?_sealed, if_pos rfl, hb]
    rfl
  obtain ⟨b₁, hb₁, hcore⟩ := exists_block?_of_core
    (hext.cores id (Graph.lt_size_of_block? hsealed) (Or.inl List.mem_cons_self)).symm hsealed
  cases hb'.symm.trans hb₁
  have hes : b.elements = b'.elements := congrArg (·.elements) hcore
  have hsucc : appendAllNew b.successors edges = b'.successors := congrArg (·.successors) hcore
  rw [hes] at hv
  rw [← hsucc, hs] at he
  exact ⟨m, e, rfl, (mem_appendAllNew.mp he).resolve_left List.not_mem_nil,
    List.append_cancel_left hv ▸ hrest⟩

/-- What is left when the open block is closed goes on along one of its edges. -/
theorem closeOpen (h : Rest D d n v) {t : Terminator} {edges : List Edge}
    (hext : (d.closeOpen t edges).Extends D) :
    ∃ m e, n = m + 1 ∧ e ∈ edges ∧ D.graph.Finishes m e.target v := by
  obtain ⟨id, isOpen⟩ := h.current
  rw [closeOpen_of_some h.steady isOpen] at hext
  exact h.sealed isOpen hext

theorem terminate (h : Rest D d n v) {t : Terminator} {edges : List Edge} {span : Option Span}
    (hext : (d.terminate t edges span).Extends D) :
    ∃ m e, n = m + 1 ∧ e ∈ edges ∧ D.graph.Finishes m e.target v := by
  obtain ⟨id, isOpen⟩ := h.current
  rw [terminate_eq_sealed h.steady, ensureOpen_of_some isOpen, openBlock_eq isOpen] at hext
  exact h.sealed isOpen hext

theorem fallInto (h : Rest D d n v) {next : BlockId} (hext : (d.fallInto next).Extends D) :
    ∃ m, n = m + 1 ∧ D.graph.Finishes m next v := by
  obtain ⟨m, e, hn, he, hf⟩ := h.closeOpen ((extends_resolveDangling _ _).trans hext)
  cases List.mem_singleton.mp he
  exact ⟨m, hn, hf⟩

theorem turn (h : Rest D d n v) {kind : EdgeKind} {target next : BlockId}
    (hext : (d.turn kind target next).Extends D) : ∃ m, n = m + 1 ∧
      D.graph.Finishes m target v := by
  have hext := (extends_start (current_goto d kind target) next).trans hext
  obtain ⟨m, e, hn, he, hf⟩ := h.closeOpen ((extends_resolveDangling _ _).trans hext)
  cases List.mem_singleton.mp he
  exact ⟨m, hn, hf⟩

/-- What is left at a branch goes on one way or the other. -/
theorem branch (h : Rest D d n v) {onTrue onFalse next : BlockId} {span : Span}
    (hext : ((d.branch onTrue onFalse span).start next).Extends D) :
    ∃ m, n = m + 1 ∧ (D.graph.Finishes m onTrue v ∨ D.graph.Finishes m onFalse v) := by
  obtain ⟨m, e, hn, he, hf⟩ :=
    h.terminate ((extends_start (d.current_branch onTrue onFalse span) next).trans hext)
  rcases List.mem_cons.mp he with rfl | he
  · exact ⟨m, hn, Or.inl hf⟩
  · cases List.mem_singleton.mp he
    exact ⟨m, hn, Or.inr hf⟩

theorem create (h : Rest D d n v) (kind : BlockKind) (span : Option Span) :
    Rest D (d.create kind span) n v := by
  have hm : Move d (d.create kind span) := .add kind [] span
  obtain ⟨id, b, hi, hb, hs, hf⟩ := h.finishes
  exact ⟨hm.steady h.steady, hm.tidy h.steady h.tidy, id, b, hi,
    (block?_add_of_lt (Graph.lt_size_of_block? hb) _).trans hb, hs, hf⟩

/-- Going on in a waiting block. -/
theorem start (hf : D.graph.Finishes n id v) (ht : d.Tidy) (hw : d.Waiting id)
    (hc : d.Contains id []) (hext : d.Extends d') (hw' : d'.Waiting id) (idle : d'.current = none)
    (hsteady : (d'.start id).Steady) (htidy : (d'.start id).Tidy) : Rest D (d'.start id) n v := by
  obtain ⟨b, hb, hnil⟩ := contains_iff.mp hc
  obtain ⟨b', hb', hcore⟩ := exists_block?_of_core (hext.cores id hw.lt (Or.inr hw')).symm hb
  have hes : b.elements = b'.elements := congrArg (·.elements) hcore
  have hs : b.successors = b'.successors := congrArg (·.successors) hcore
  refine ⟨hsteady, htidy, id, b', current_start d' id, ?_, hs ▸ ht.unlinked id b hb hw, ?_⟩
  · rw [start_of_none idle]
    exact hb'
  · rw [← hes, hnil]
    exact hf

variable {scope : Scope} {d₀ : Draft} {W W' : BlockId → Prop}

/-- What finishes from a blank block is left once drawing goes on there. -/
theorem continueAt {next : BlockId} (hf : D.graph.Finishes n next v) (hd : d₀.Steady) (ht : d₀.Tidy)
    (h : Drawn scope d₀ d W) (hw : W next) (hc : d.Contains next []) :
      Rest D (d.continueAt next) n v := by
  have hnew := h.continueAt next hw
  have hwaits := (h.waiting next).mpr hw
  rw [← fallInto_start] at hnew ⊢
  exact .start hf (h.run.tidy hd ht) hwaits hc (extends_fallInto h.steady next)
    ((waiting_fallInto h.steady next next).mpr hwaits) (current_fallInto d next) hnew.steady
    (hnew.run.tidy hd ht)

theorem turn_start {kind : EdgeKind} {target next : BlockId} (hf : D.graph.Finishes n next v)
    (hd : d₀.Steady) (ht : d₀.Tidy) (h : Drawn scope d₀ d W) (hw : W next) (hc : d.Contains next [])
    (hnew : Drawn scope d₀ (d.turn kind target next) W') :
      Rest D (d.turn kind target next) n v := by
  have hwaits := (h.waiting next).mpr hw
  exact .start hf (h.run.tidy hd ht) hwaits hc (extends_goto h.steady kind target)
    ((waiting_goto h.steady kind target next).mpr hwaits) (current_goto d kind target) hnew.steady
    (hnew.run.tidy hd ht)

theorem branch_start {onTrue onFalse next : BlockId} {span : Span} (hf : D.graph.Finishes n next v)
    (hd : d₀.Steady) (ht : d₀.Tidy) (h : Drawn scope d₀ d W) (hw : W next) (hc : d.Contains next [])
    (hnew : Drawn scope d₀ ((d.branch onTrue onFalse span).start next) W') :
    Rest D ((d.branch onTrue onFalse span).start next) n v := by
  have hwaits := (h.waiting next).mpr hw
  exact .start hf (h.run.tidy hd ht) hwaits hc (extends_terminate h.steady _ _ _)
    ((waiting_terminate h.steady _ _ _ next).mpr hwaits)
    (current_branch ..) hnew.steady (hnew.run.tidy hd ht)

/-- Running on into a waiting block. -/
theorem run_on (h : Rest D d n v) {next : BlockId} (hd : d₀.Steady) (ht : d₀.Tidy)
    (hdrawn : Drawn scope d₀ d W) (hw : W next) (hc : d.Contains next [])
    (hext : (d.continueAt next).Extends D) :
    ∃ m, n = m + 1 ∧ Rest D (d.continueAt next) m v := by
  have hfall : (d.fallInto next).Extends D := by
    refine (extends_start (current_fallInto d next) next).trans ?_
    rw [fallInto_start]
    exact hext
  obtain ⟨m, hn, hf⟩ := h.fallInto hfall
  exact ⟨m, hn, .continueAt hf hd ht hdrawn hw hc⟩

/-- A branch into a block that was made and to another one. -/
theorem fork (h : Rest D d n v) (hmade : Made d₀ d) {onTrue onFalse : BlockId} {span : Span}
    (hle : d₀.fresh ≤ onTrue) (hlt : onTrue < d.fresh)
    (hnew : Drawn scope d₀ ((d.branch onTrue onFalse span).start onTrue) W') (hd : d₀.Steady)
    (ht : d₀.Tidy) (hext : ((d.branch onTrue onFalse span).start onTrue).Extends D) :
    ∃ m, n = m + 1 ∧ (Rest D ((d.branch onTrue onFalse span).start onTrue) m v ∨
      D.graph.Finishes m onFalse v) := by
  obtain ⟨m, hn, hf | hf⟩ := h.branch hext
  · have hw := hmade.waiting onTrue hle hlt
    exact ⟨m, hn, Or.inl (.start hf h.tidy hw (hmade.blank onTrue hle hw)
      (extends_terminate h.steady _ _ _) ((waiting_terminate h.steady _ _ _ onTrue).mpr hw)
      (current_branch ..) hnew.steady (hnew.run.tidy hd ht))⟩
  · exact ⟨m, hn, Or.inr hf⟩

/-- What is drawn in the open block is what the way spells next. -/
theorem emit (h : Rest D d n v) {kind : ElementKind} {span : Span}
    (hext : (d.emit kind span).Extends D) :
    ∃ u, v = ⟨kind, span⟩ :: u ∧ Rest D (d.emit kind span) n u := by
  obtain ⟨id, b, hi, hb, hs, hf⟩ := h.finishes
  have hm : Move d (d.emit kind span) := by
    rw [Draft.emit, ensureOpen_of_some hi, openBlock_eq hi]
    exact .emit _ hi
  have hemit : (d.emit kind span).graph.block? id =
      some { b with elements := b.elements ++ [⟨kind, span⟩] } := by
    rw [Draft.emit, ensureOpen_of_some hi, openBlock_eq hi, block?_modify, if_pos rfl, hb]
    rfl
  obtain ⟨b₁, hb₁, hgrows⟩ := hext.blocks id _ hemit
  obtain ⟨m, b', e, u, rfl, hb', he, hrest, hv⟩ := hf.exists_step (h.ne_exit hi)
  cases hb'.symm.trans hb₁
  obtain ⟨more, hmore⟩ := hgrows.elements
  rw [← hmore, List.append_assoc, List.append_assoc] at hv
  refine ⟨more ++ u, List.append_cancel_left hv, hm.steady h.steady, hm.tidy h.steady h.tidy, id,
    _, ?_, hemit, hs, ?_⟩
  · rw [current_emit, openBlock_eq hi]
  · refine (congrArg (D.graph.Finishes (m + 1) id) ?_).mp (.step hb' he hrest)
    rw [← hmore, List.append_assoc]

end Rest

/-! ## Evaluating expressions -/

/-- An expression with behaviour `b` was drawn from `d` to `d'`, and any way from there on spells an
evaluation of it first. -/
structure Evaluated (scope : Scope) (d d' : Draft) (b : Behaviour) : Prop where
  drawn : Drawn scope d d' d.Waiting
  splits : ∀ {D : Draft} {n : Nat} {v : List Element}, d'.Extends D → Rest D d n v →
    b.Splits (fun m u x => x = .completed ∧ Rest D d' m u) n v

namespace Evaluated

variable {scope : Scope} {d₁ d₂ : Draft} {a b : Behaviour}

theorem skip (hd : d.Steady) : Evaluated scope d d (.leave .completed) :=
  ⟨.refl hd, fun _ hr => .leave ⟨rfl, hr⟩⟩

theorem emit (hd : d.Steady) (kind : ElementKind) (span : Span) :
    Evaluated scope d (d.emit kind span) (.emit kind span) := by
  refine ⟨(Drawn.refl hd).emit kind span, fun {D n v} hext hr => ?_⟩
  obtain ⟨u, rfl, hrest⟩ := hr.emit hext
  exact ⟨[_], u, .completed, n, rfl, Nat.le_refl n, ⟨rfl, Or.inl rfl⟩, rfl, hrest⟩

/-- What is evaluated one after the other is split in between. -/
theorem andThen (ha : Evaluated scope d d₁ a) (hd : d.Steady) (hfit : scope.Fits d)
    (hb : d₁.Steady → scope.Fits d₁ → Evaluated scope d₁ d₂ b) :
      Evaluated scope d d₂ (a.andThen b) := by
  have hb := hb ha.drawn.steady (ha.drawn.fits hd hfit fun _ _ hid => hid)
  refine ⟨ha.drawn.part hd hb.drawn fun _ hp => Or.inl hp, fun {D n v} hext hr => .andThen ?_⟩
  refine (ha.splits ((hb.drawn.run.extends ha.drawn.steady).trans hext) hr).mono
    fun m u x _ ⟨hx, hr⟩ => ?_
  exact Or.inl ⟨hx, hb.splits hext hr⟩

/-- Outside of all `try` statements an element gets no edges. -/
theorem raise (hs : scope.handlers = []) (hd : d.Steady) (hfit : scope.Fits d)
    (isOpen : d.current = some id) (declared : List TypeName) :
    Evaluated scope d (d.raise scope declared) (.mayRaise (!scope.handlers.isEmpty) declared) := by
  have hnew := Drawn.raise hd isOpen hfit declared
  refine ⟨hnew, fun {D n v} _ hr => ?_⟩
  have hroute : (scope.raiseRoute declared).edges = [] := by
    rw [Scope.raiseRoute, hs]
    rfl
  obtain ⟨i, b, hi, hb, hs, hf⟩ := hr.finishes
  refine ⟨[], v, .completed, n, rfl, Nat.le_refl n, ⟨rfl, Or.inl rfl⟩, rfl, hnew.steady,
    hnew.run.tidy hd hr.tidy, i, b, hi, ?_, hs, hf⟩
  rw [Draft.raise, hroute, openBlock_eq hi]
  exact (block?_modify ..).trans ((if_pos rfl).trans (congrArg (Option.map _) hb))

/-- The conditional operator evaluates its test and then one of its branches. -/
theorem cond {test cons alt : Expr} (span : Span) (iht : test.Obeys scope (Evaluated scope))
    (ihc : cons.Obeys scope (Evaluated scope)) (iha : alt.Obeys scope (Evaluated scope)) :
    (Expr.cond test cons alt span).Obeys scope (Evaluated scope) := by
  intro d hd hfit
  rw [Expr.draw_cond, Expr.behaviour]
  refine (iht hd hfit).andThen hd hfit ?_
  generalize test.draw scope d = d
  intro hd hfit
  have h : CondDrawn scope d _ _ cons.span alt.span test.span :=
    .of_parts hd hfit (fun hd hfit => (ihc hd hfit).drawn) fun hd hfit => (iha hd hfit).drawn
  have hc := ihc h.opened.steady h.fits_cons
  have ha := iha h.turned.steady h.fits_alt
  generalize hdc : cons.draw scope (d.openCond cons.span alt.span test.span) = dc at *
  generalize hda : alt.draw scope ((dc.fallInto (d.fresh + 2)).start (d.fresh + 1)) = da at *
  simp only [hdc, hda]
  refine ⟨h.whole, fun {D n v} hext hr => ?_⟩
  have idle := dc.current_fallInto (d.fresh + 2)
  have hext_a := extends_continueAt h.after_alt.steady (d.fresh + 2)
  have hext_f :=
    ((extends_start idle (d.fresh + 1)).trans (ha.drawn.run.extends h.turned.steady)).trans hext_a
  have hext_c := (extends_fallInto h.after_cons.steady (d.fresh + 2)).trans hext_f
  have hblank := (blank_openCond hd cons.span alt.span test.span).part h.opened.steady hc.drawn
  have hjoin_blank :=
    ((hblank.fallInto h.after_cons.steady _).start idle (d.fresh + 1)).part h.turned.steady
    ha.drawn (d.fresh + 2) (Nat.le_add_right _ _) ((h.after_alt.waiting _).mpr (Or.inr rfl))
  have hmade :=
    (((Made.refl hd).create .normal (some cons.span)).create .normal (some alt.span)).create
    .join none
  have hmade_r :=
    ((hr.create .normal (some cons.span)).create .normal (some alt.span)).create .join none
  -- The path takes one of the two edges of the test.
  obtain ⟨m, rfl, hin | hpast⟩ :=
    hmade_r.fork hmade (Nat.le_refl _) (by grind [fresh_create]) h.opened hd hr.tidy
    ((hc.drawn.run.extends h.opened.steady).trans (hext_c.trans hext))
  · refine .left
      (.of_le (.advance (hc.splits (hext_c.trans hext) hin) fun k u x _ hx => ?_) (Nat.le_succ m))
    obtain ⟨hx, hr'⟩ := hx
    obtain ⟨k, rfl, hf⟩ := hr'.fallInto (hext_f.trans hext)
    exact ⟨k, Nat.le_succ k, hx, .continueAt hf hd hr.tidy h.after_alt (Or.inr rfl) hjoin_blank⟩
  · have hin : Rest D ((dc.fallInto (d.fresh + 2)).start (d.fresh + 1)) m v := by
      have hw := (h.after_cons.waiting (d.fresh + 1)).mpr (Or.inr (Or.inl rfl))
      exact .start hpast (h.after_cons.run.tidy hd hr.tidy) hw (hblank _ (Nat.le_succ _) hw)
        (extends_fallInto h.after_cons.steady _)
        ((waiting_fallInto h.after_cons.steady _ _).mpr hw) idle
        h.turned.steady (h.turned.run.tidy hd hr.tidy)
    refine .right
      (.of_le (.advance (ha.splits (hext_a.trans hext) hin) fun k u x _ hx => ?_) (Nat.le_succ m))
    obtain ⟨hx, hr'⟩ := hx
    obtain ⟨k, rfl, hrest⟩ := hr'.run_on hd hr.tidy h.after_alt (Or.inr rfl) hjoin_blank hext
    exact ⟨k, Nat.le_succ k, hx, hrest⟩

theorem compositional (hs : scope.handlers = []) : Expr.Compositional scope (Evaluated scope) where
  skip := .skip
  andThen := .andThen
  emit := .emit
  raise := fun hd hfit isOpen declared => .raise hs hd hfit isOpen declared
  cond := .cond

end Evaluated

end Draft

open Draft (Evaluated)

section Expressions

variable {scope : Scope} {d : Draft} (hs : scope.handlers = [])
include hs

/-- Any way from the start of an expression on spells an evaluation of it. -/
theorem Expr.evaluated (e : Expr) : e.Obeys scope (Evaluated scope) :=
  e.compose (Evaluated.compositional hs)

theorem Expr.evaluated_option (e : Option Expr) (hd : d.Steady) (hfit : scope.Fits d) :
    Evaluated scope d (Expr.drawOption scope e d)
      (Expr.behaviourOption (!scope.handlers.isEmpty) e) :=
  Expr.compose_option (Evaluated.compositional hs) (fun e _ => e.evaluated hs) hd hfit

/-- Expressions drawn one after another are evaluated in this order. -/
theorem Expr.evaluated_all (es : List Expr) (hd : d.Steady) (hfit : scope.Fits d) :
    Evaluated scope d (Expr.drawAll scope es d) (Expr.behaviourAll (!scope.handlers.isEmpty) es) :=
  Expr.compose_all (Evaluated.compositional hs) (fun e _ => e.evaluated hs) hd hfit

theorem LocalVar.evaluated (decl : LocalVar) (hd : d.Steady) (hfit : scope.Fits d) :
    Evaluated scope d (decl.draw scope d) (decl.behaviour (!scope.handlers.isEmpty)) :=
  decl.compose (Evaluated.compositional hs) hd hfit

end Expressions

end MethodFlow
