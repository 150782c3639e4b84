import MethodFlow.Proofs.Coverage
import MethodFlow.Proofs.Unrolling

/-!
# The graph has no spurious paths

Outside of `try` statements, every way from the entry to the exit of a graph spells an execution of
the body. `Stmt.Unfolds` says so of a statement: whatever a way spells from its start on begins with
an execution of it, and the way goes on where such an execution goes on. The statements are treated
one by one, from what the parts do.

Main result: `Graph.build_executes`.
-/

namespace MethodFlow

open Behaviour (Splits)
open Draft (Drawn Rest Reaches Departs Evaluated Unfolded)

/-! ## Code without `try` statements -/

mutual

/-- Whether there is no `try` statement in a statement. -/
def Stmt.isTryFree : Stmt → Bool
  | .tryStmt .. => false
  | .block ⟨stmts, _⟩ => Stmt.areTryFree stmts
  | .synchronized _ ⟨stmts, _⟩ _ => Stmt.areTryFree stmts
  | .ifStmt _ cons alt _ => cons.isTryFree && Stmt.isTryFreeElse alt
  | .whileStmt _ body _ | .doWhile body _ _ | .forEach _ _ body _ | .labeled _ body _ =>
    body.isTryFree
  | .forStmt init _ _ body _ => Stmt.areTryFree init && body.isTryFree
  | .switch _ groups _ => CaseGroup.areTryFree groups
  | .expr .. | .localVar .. | .breakStmt .. | .continueStmt .. | .returnStmt .. | .throwStmt ..
  | .assertStmt .. | .localClass .. | .empty .. | .missing .. => true

/-- Whether there is no `try` statement in a list of statements. -/
def Stmt.areTryFree : List Stmt → Bool
  | [] => true
  | stmt :: stmts => stmt.isTryFree && Stmt.areTryFree stmts

/-- Whether there is no `try` statement in an `else` branch. -/
def Stmt.isTryFreeElse : Option Stmt → Bool
  | none => true
  | some alt => alt.isTryFree

/-- Whether there is no `try` statement in the groups of a `switch`. -/
def CaseGroup.areTryFree : List CaseGroup → Bool
  | [] => true
  | ⟨_, body, _, _⟩ :: groups => Stmt.areTryFree body && CaseGroup.areTryFree groups

end

/-- Whether there is no `try` statement in a body, at any depth. -/
def Block.isTryFree (body : Block) : Bool := Stmt.areTryFree body.stmts

theorem Stmt.isTryFree_of_mem {stmts : List Stmt} (h : Stmt.areTryFree stmts = true) :
    ∀ s ∈ stmts, s.isTryFree = true := by
  induction stmts with
  | nil => exact nofun
  | cons stmt stmts ih =>
    rw [Stmt.areTryFree, Bool.and_eq_true] at h
    intro s hs
    rcases List.mem_cons.mp hs with rfl | hs
    · exact h.1
    · exact ih h.2 s hs

theorem CaseGroup.areTryFree_of_mem {groups : List CaseGroup}
    (h : CaseGroup.areTryFree groups = true) :
    ∀ group ∈ groups, Stmt.areTryFree group.body = true := by
  induction groups with
  | nil => exact nofun
  | cons group groups ih =>
    cases group
    rw [CaseGroup.areTryFree, Bool.and_eq_true] at h
    intro group' hg
    rcases List.mem_cons.mp hg with rfl | hg
    · exact h.1
    · exact ih h.2 group' hg

/-! ## Statements as parts -/

/-- Drawn outside of all `try` statements, any way from the start of the statement on spells an
execution of it. -/
def Stmt.Unfolds (s : Stmt) : Prop :=
  ∀ {scope : Scope} {labels : List String} {d d' D : Draft} {n : Nat} {v : List Element},
    scope.handlers = [] → scope.Fits d →
      (∀ l ∈ labels, s.carriesLabels = true ∧ scope.hasLabel l = false) →
    s.draw scope labels d = .ok d' → d'.Extends D → Rest D d n v →
    (s.behaviour scope.types (!scope.handlers.isEmpty) labels).Splits
    (Reaches D scope labels d') n v

section Statements

variable {scope : Scope} {d d' D : Draft} {n : Nat} {v : List Element}

theorem Stmt.Unfolds.unfolded {s : Stmt} (h : s.Unfolds) (hs : scope.handlers = [])
    (hdraw : s.draw scope [] d = .ok d') :
    Unfolded scope d d' (s.behaviour scope.types (!scope.handlers.isEmpty) []) :=
  ⟨s.draws hdraw, fun hext hfit hr => h hs hfit (List.forall_mem_nil _) hdraw hext hr⟩

/-- Statements drawn one after another unfold into their joint behaviour. -/
theorem Stmt.unfolded_all {stmts : List Stmt} (ih : ∀ s ∈ stmts, s.Unfolds)
    (hs : scope.handlers = []) (h : Stmt.drawAll stmts scope d = .ok d') :
    Unfolded scope d d' (Stmt.behaviourAll scope.types stmts (!scope.handlers.isEmpty)) := by
  refine ⟨fun hd hfit => (Stmt.part_all (fun s _ => s.faithful) hd hfit h).drawn,
    fun {D n v} hext hfit hr => ?_⟩
  induction stmts generalizing d n v with
  | nil =>
    rw [Stmt.drawAll] at h
    cases h
    rw [Stmt.behaviourAll]
    exact .leave (.completed hr)
  | cons s stmts ihs =>
    rw [Stmt.drawAll] at h
    obtain ⟨d₁, h₁, h⟩ := Except.of_bind_ok h
    rw [Stmt.behaviourAll]
    have hp := s.draws h₁ hr.steady hfit
    have hfit₁ := hp.fits hr.steady hfit fun _ _ hid => hid
    have hrest := (Stmt.part_all (fun s _ => s.faithful) hp.steady hfit₁ h).extends hp.steady
    refine Draft.splits_andThen
      ((Stmt.Unfolds.unfolded (ih s List.mem_cons_self) hs h₁).splits (hrest.trans hext) hfit hr) ?_
    exact fun hr => ihs (fun s hm => ih s (List.mem_cons_of_mem _ hm)) h hfit₁ hr

end Statements

theorem Stmt.unfolds_if (test : Expr) {cons : Stmt} {alt : Option Stmt} (span : Span)
    (ihc : cons.Unfolds) (iha : ∀ s, alt = some s → s.Unfolds) :
    (Stmt.ifStmt test cons alt span).Unfolds := by
  intro scope labels d d' D n v hs hfit hl h hext hr
  obtain rfl := Stmt.labels_eq_nil rfl hl
  rw [Stmt.draw_if] at h
  obtain ⟨d₁, h₁, h⟩ := Except.of_bind_ok h
  obtain ⟨d₂, h₂, h⟩ := Except.of_bind_ok h
  cases h
  rw [Stmt.behaviour]
  have ht := test.evaluated hs hr.steady hfit
  have hfit' := ht.drawn.fits hr.steady hfit fun _ _ hid => hid
  generalize test.draw scope d = dt at *
  cases alt with
  | none =>
    rw [Stmt.drawElse] at h₂
    cases h₂
    rw [Stmt.behaviourElse]
    have h := Draft.IfDrawn.of_parts ht.drawn.steady hfit' (cons.draws h₁)
    refine Draft.splits_andThen (ht.reaches ((h.whole.run.extends ht.drawn.steady).trans hext) hr)
      fun hr => ?_
    exact h.splits (Stmt.Unfolds.unfolded ihc hs h₁) hext hr
  | some alt =>
    rw [Stmt.drawElse] at h₂
    rw [Stmt.behaviourElse]
    have h := Draft.IfElseDrawn.of_parts ht.drawn.steady hfit' (cons.draws h₁) (alt.draws h₂)
    refine Draft.splits_andThen (ht.reaches ((h.whole.run.extends ht.drawn.steady).trans hext) hr)
      fun hr => ?_
    exact h.splits (Stmt.Unfolds.unfolded ihc hs h₁)
      (Stmt.Unfolds.unfolded (iha alt rfl) hs h₂) hext hr

/-- The paths through a `while` loop are its executions. -/
theorem Stmt.unfolds_while (test : Expr) {body : Stmt} (span : Span) (ih : body.Unfolds) :
    (Stmt.whileStmt test body span).Unfolds := by
  intro scope labels d d' D n v hs hfit _ h hext hr
  obtain ⟨d₁, h₁, rfl, hw⟩ := Stmt.drawn_while hr.steady hfit h
  rw [Stmt.behaviour]
  exact hw.splits (test.evaluated hs hw.opened.steady hw.fits_test)
    (Stmt.Unfolds.unfolded ih hs h₁) hext hr

theorem Stmt.unfolds_doWhile {body : Stmt} (test : Expr) (span : Span) (ih : body.Unfolds) :
    (Stmt.doWhile body test span).Unfolds := by
  intro scope labels d d' D n v hs hfit _ h hext hr
  obtain ⟨d₁, h₁, rfl, hw⟩ := Stmt.drawn_doWhile hr.steady hfit h
  rw [Stmt.behaviour]
  exact hw.splits (Stmt.Unfolds.unfolded ih hs h₁)
    (test.evaluated hs hw.turned.steady hw.fits_test) hext hr

/-- The paths through a `for` loop are its executions. -/
theorem Stmt.unfolds_for {init : List Stmt} (test : Option Expr) (update : List Expr) {body : Stmt}
    (span : Span) (ihi : ∀ s ∈ init, s.Unfolds) (ih : body.Unfolds) :
    (Stmt.forStmt init test update body span).Unfolds := by
  intro scope labels d d' D n v hs hfit _ h hext hr
  obtain ⟨d₀, d₁, h₀, hp, h₁, rfl, hw⟩ := Stmt.drawn_for hr.steady hfit h
  rw [Stmt.behaviour]
  have hi := Stmt.unfolded_all ihi hs h₀
  refine Draft.splits_andThen (hi.splits ((hw.whole.run.extends hp.steady).trans hext) hfit hr)
    fun hr => ?_
  exact hw.splits hs (Stmt.Unfolds.unfolded ih hs h₁) hext hr

theorem Stmt.unfolds_forEach (var : String) (iterable : Expr) {body : Stmt} (span : Span)
    (ih : body.Unfolds) :
    (Stmt.forEach var iterable body span).Unfolds := by
  intro scope labels d d' D n v hs hfit _ h hext hr
  obtain ⟨d₁, h₁, rfl, hw⟩ := Stmt.drawn_forEach hr.steady hfit h
  rw [Stmt.behaviour]
  have hi := iterable.evaluated hs hr.steady hfit
  refine Draft.splits_andThen (hi.reaches ((hw.whole.run.extends hi.drawn.steady).trans hext) hr)
    fun hr => ?_
  exact hw.splits (Stmt.Unfolds.unfolded ih hs h₁) hext hr

theorem Stmt.unfolds_labeled (label : String) {body : Stmt} (span : Span) (ih : body.Unfolds) :
    (Stmt.labeled label body span).Unfolds := by
  intro scope labels d d' D n v hs hfit hlabels h hext hr
  rw [Stmt.draw_labeled] at h
  split at h
  · exact nomatch h
  rename_i hnew
  rw [Bool.or_eq_true, not_or, Bool.not_eq_true, Bool.not_eq_true] at hnew
  rw [Stmt.behaviour]
  split at h
  · rename_i hcarries
    refine .catching (.mono (ih hs hfit (fun l hl => ⟨hcarries, ?_⟩) h hext hr) fun m u x _ hx =>
      hx.of_carried hnew.2)
    rcases List.mem_append.mp hl with hl | hl
    · exact (hlabels l hl).2
    · rw [List.mem_singleton.mp hl]
      exact hnew.2
  · rename_i hcarries
    have hcarries := Bool.eq_false_iff.mpr hcarries
    obtain rfl := Stmt.labels_eq_nil hcarries hlabels
    obtain ⟨d₁, h₁, h⟩ := Except.of_bind_ok h
    cases h
    have h := Draft.LabelDrawn.of_parts hr.steady hfit (body.draws h₁)
    have hpart := body.draws h₁ h.made.steady h.fits
    have hextc := Draft.extends_continueAt h.after_body.steady d.fresh
    have hblank := ((d.blank_fresh.create hr.steady .normal none).part h.made.steady hpart) d.fresh
      (Nat.le_refl _) ((h.after_body.waiting d.fresh).mpr (Or.inr rfl))
    rw [List.nil_append, Stmt.behaviour_labels _ _ hcarries [label] []]
    have hinner : (scope.inside ([] ++ [label]) .labeled d.fresh).handlers = [] := hs
    have hbody :=
      (Stmt.Unfolds.unfolded ih hinner h₁).splits (hextc.trans hext) h.fits (hr.create .normal none)
    refine .catching (hbody.advance fun m u x _ hx => ?_)
    -- The body runs to its end, or breaks to the label, or leaves both.
    rcases hx.cases with ⟨rfl, hr'⟩ | ⟨_, hdep⟩
    · obtain ⟨k, rfl, hafter⟩ := hr'.run_on hr.steady hr.tidy h.after_body (Or.inr rfl) hblank hext
      exact ⟨k, Nat.le_succ k, .completed hafter⟩
    · refine ⟨m, Nat.le_refl m, hdep.of_label fun hf => ?_⟩
      exact .continueAt hf hr.steady hr.tidy h.after_body (Or.inr rfl) hblank

/-! ## Jumps -/

section Jumps

variable {scope : Scope} {d D : Draft} {n : Nat} {v : List Element}

/-- What is left after a jump starts behind one of its edges. -/
theorem Draft.Rest.jump (h : Rest D d n v) {t : Terminator} {edges : List Edge} {span : Span}
    (hext : (d.jump t edges span).Extends D) :
    ∃ m e, n = m + 1 ∧ e ∈ edges ∧ D.graph.Finishes m e.target v :=
  h.terminate ((Draft.extends_dangling _ _).trans hext)

/-- Outside of all `try` statements a jump goes straight to its goal. -/
theorem Draft.Rest.jumpVia (h : Rest D d n v) {t : Terminator} {final : Edge}
    {handlers : List Handler} (hs : handlers = []) {span : Span}
    (hext : (d.jumpVia t (.through final handlers) span).Extends D) :
    ∃ m, n = m + 1 ∧ D.graph.Finishes m final.target v := by
  subst hs
  obtain ⟨m, e, hn, he, hf⟩ := h.jump ((Draft.extends_resumeAt _ _).trans hext)
  cases List.mem_singleton.mp he
  exact ⟨m, hn, hf⟩

theorem Scope.crossed_of_unguarded (hs : scope.handlers = []) (target : Target) :
    scope.crossed target = [] := by
  rw [crossed, hs, List.take_nil]

end Jumps

theorem Stmt.unfolds_break (label : Option String) (span : Span) :
    (Stmt.breakStmt label span).Unfolds := by
  intro scope labels d d' D n v hs hfit hlabels h hext hr
  obtain rfl := Stmt.labels_eq_nil rfl hlabels
  rw [Stmt.draw] at h
  obtain ⟨target, ht, h⟩ := Except.of_bind_ok h
  cases h
  rw [Stmt.behaviour]
  obtain ⟨m, rfl, hf⟩ := hr.jumpVia (Scope.crossed_of_unguarded hs target) hext
  exact .of_le (.leave (Or.inr ⟨span.line, target, ht, hf⟩)) (Nat.le_succ m)

theorem Stmt.unfolds_continue (label : Option String) (span : Span) :
    (Stmt.continueStmt label span).Unfolds := by
  intro scope labels d d' D n v hs hfit hlabels h hext hr
  obtain rfl := Stmt.labels_eq_nil rfl hlabels
  rw [Stmt.draw] at h
  obtain ⟨⟨target, next⟩, ht, h⟩ := Except.of_bind_ok h
  cases h
  rw [Stmt.behaviour]
  obtain ⟨m, rfl, hf⟩ := hr.jumpVia (Scope.crossed_of_unguarded hs target) hext
  exact .of_le (.leave (Or.inr ⟨span.line, target, next, ht, hf⟩)) (Nat.le_succ m)

theorem Stmt.unfolds_return (arg : Option Expr) (span : Span) :
    (Stmt.returnStmt arg span).Unfolds := by
  intro scope labels d d' D n v hs hfit hlabels h hext hr
  obtain rfl := Stmt.labels_eq_nil rfl hlabels
  rw [Stmt.draw] at h
  cases h
  rw [Stmt.behaviour]
  have ha := Expr.evaluated_option hs arg hr.steady hfit
  have hj :=
    Draft.Part.returning ha.drawn.steady (ha.drawn.fits hr.steady hfit fun _ _ hid => hid)
      arg.isSome span
  refine Draft.splits_andThen (ha.reaches ((hj.extends ha.drawn.steady).trans hext) hr) fun hr => ?_
  obtain ⟨m, rfl, hf⟩ := hr.jumpVia hs hext
  exact .of_le (.leave (Or.inr hf)) (Nat.le_succ m)

/-- The paths from a `throw` outside of `try` end the method. -/
theorem Stmt.unfolds_throw (arg : Expr) (span : Span) : (Stmt.throwStmt arg span).Unfolds := by
  intro scope labels d d' D n v hs hfit hlabels h hext hr
  obtain rfl := Stmt.labels_eq_nil rfl hlabels
  rw [Stmt.draw] at h
  cases h
  rw [Stmt.behaviour]
  have ha := arg.evaluated hs hr.steady hfit
  have hj := Draft.Part.throwing ha.drawn.steady (ha.drawn.fits hr.steady hfit fun _ _ hid => hid)
    (arg.newClass?.getD Throwable.root) span
  refine Draft.splits_andThen (ha.reaches ((hj.extends ha.drawn.steady).trans hext) hr) fun hr => ?_
  obtain ⟨m, e, rfl, he, hf⟩ := hr.jump ((Draft.extends_resumeAt _ _).trans hext)
  rw [Scope.throwRoute, hs] at he
  cases List.mem_singleton.mp he
  exact .of_le (.leave (Or.inr hf)) (Nat.le_succ m)

/-! ## `switch` statements -/

namespace CaseGroup

variable {scope : Scope} {group : CaseGroup} {groups : List CaseGroup} {block after id : BlockId}
  {d d₁ d' D : Draft} {n : Nat} {v : List Element}

theorem any_hasDefault_of_none {first : BlockId} (h : defaultTarget? groups first = none) :
    groups.any (·.hasDefault) = false := by
  induction groups generalizing first with
  | nil => rfl
  | cons group groups ih =>
    rw [defaultTarget?, Option.or_eq_none_iff] at h
    rw [List.any_cons, ih h.1, Bool.or_false]
    refine Bool.eq_false_iff.mpr fun hg => ?_
    cases (if_pos hg).symm.trans h.2

/-- What a value or the default leads to is the first group, which can be selected then, or a later
one. -/
theorem isSelectable_of_target {first : BlockId}
    (h : id ∈ valueTargets (group :: groups) first ∨
      defaultTarget? (group :: groups) first = some id) :
    id = first ∧ group.isSelectable groups = true ∨
      (id ∈ valueTargets groups (first + 1) ∨ defaultTarget? groups (first + 1) = some id) := by
  rw [isSelectable, Bool.or_eq_true, Bool.and_eq_true, Bool.not_eq_true']
  rcases h with h | h
  · rcases List.mem_append.mp h with h | h
    · obtain ⟨hne, rfl⟩ := List.mem_replicate.mp h
      obtain ⟨value, hm⟩ := List.exists_mem_of_length_pos (Nat.pos_of_ne_zero hne)
      obtain ⟨label, hl, hv⟩ := List.mem_flatMap.mp hm
      refine Or.inl ⟨rfl, Or.inl (List.any_eq_true.mpr ⟨label, hl, ?_⟩)⟩
      rw [List.isEmpty_eq_false_iff.mpr (List.ne_nil_of_mem hv)]
      rfl
    · exact Or.inr (Or.inl h)
  · rw [defaultTarget?] at h
    cases hrest : defaultTarget? groups (first + 1) with
    | some id' =>
      rw [hrest] at h
      exact Or.inr (Or.inr h)
    | none =>
      rw [hrest, Option.none_or] at h
      split at h
      · cases h
        exact Or.inl ⟨rfl, Or.inr ⟨‹_›, any_hasDefault_of_none hrest⟩⟩
      · cases h

/-- The way has come to the end of the last group or to the block after the `switch`, or goes
elsewhere. -/
def Leaves (D : Draft) (scope : Scope) (after : BlockId) (d : Draft) (n : Nat) (v : List Element)
    (x : Exit) :
    Prop :=
  x = .completed ∧ (Rest D d n v ∨ D.graph.Finishes n after v) ∨ Departs D scope n v x

/-- Marking a group changes nothing for the way. -/
theorem rest_endCaseGroup (h : Rest D d n v) : Rest D d.endCaseGroup n v := by
  obtain ⟨id, b, hi, hb, hs, hf⟩ := h.finishes
  obtain ⟨b', hb', hcore⟩ := Draft.exists_block?_of_core (d.core_endCaseGroup id).symm hb
  have hes : b.elements = b'.elements := congrArg (·.elements) hcore
  have hsucc : b.successors = b'.successors := congrArg (·.successors) hcore
  have hm : Draft.Move d d.endCaseGroup := .mark
  exact ⟨hm.steady h.steady, hm.tidy h.steady h.tidy, id, b',
    (Draft.current_endCaseGroup d).trans hi, hb', hsucc ▸ hs, hes ▸ hf⟩

/-- Running one group, and on into the next ones unless it is an arrow group. -/
theorem Ready.splits_run (hr : Ready scope (group :: groups) block after d)
    (ih : ∀ s ∈ group.body, s.Unfolds) (hs : scope.handlers = [])
    (h : Stmt.drawAll group.body scope (d.continueAt block) = .ok d₁)
    (hext : (group.finish d₁ after).Extends D) {next : Behaviour}
    (hnext : ∀ {m u}, Rest D (group.finish d₁ after) m u →
      next.Splits (Leaves D scope after d') m u)
    (hin : Rest D (d.continueAt block) n v) :
    ((Stmt.behaviourAll scope.types group.body (!scope.handlers.isEmpty)).andThen
      (if group.arrow then .leave .completed else next)).Splits (Leaves D scope after d') n v := by
  obtain ⟨_, hp, _, _⟩ := hr.step (fun s _ => s.faithful) h
  have hext_f := extends_finish hp.drawn.steady group after
  have hbody := (Stmt.unfolded_all ih hs h).splits (hext_f.trans hext) hr.fits_opened hin
  refine .andThen (hbody.mono fun m u x _ hx => ?_)
  rcases hx.cases with ⟨rfl, hr'⟩ | ⟨hne, hdep⟩
  · refine Or.inl ⟨rfl, ?_⟩
    unfold finish at hext hnext
    split
    · rename_i harrow
      rw [if_pos harrow] at hext
      obtain ⟨k, e, rfl, he, hf⟩ := hr'.closeOpen ((Draft.extends_resolveDangling _ _).trans hext)
      cases List.mem_singleton.mp he
      exact .of_le (.leave (Or.inl ⟨rfl, Or.inr hf⟩)) (Nat.le_succ k)
    · rename_i harrow
      rw [if_neg harrow] at hnext
      exact hnext (rest_endCaseGroup hr')
  · exact Or.inr ⟨hne, Or.inr hdep⟩

/-- Whether the way comes from the group before or from the choice of a group, it spells an
execution of the groups from there on. -/
theorem splits_all (hr : Ready scope groups block after d)
    (ih : ∀ group ∈ groups, ∀ s ∈ group.body, s.Unfolds) (hs : scope.handlers = [])
    (h : CaseGroup.drawAll groups scope block after d = .ok d') (hext : d'.Extends D)
    (ht : d.Tidy) :
    (∀ n v, Rest D d n v →
      (CaseGroup.behaviour scope.types groups (!scope.handlers.isEmpty) true).Splits
      (Leaves D scope after d') n v) ∧
    ∀ n v id, D.graph.Finishes n id v →
      id ∈ valueTargets groups block ∨ defaultTarget? groups block = some id →
      (CaseGroup.behaviour scope.types groups (!scope.handlers.isEmpty) false).Splits
        (Leaves D scope after d') n v := by
  induction groups generalizing d block with
  | nil =>
    rw [CaseGroup.drawAll] at h
    cases h
    refine ⟨fun n v hrest => ?_, fun n v id _ hid => ?_⟩
    · rw [CaseGroup.behaviour, if_pos rfl]
      exact .leave (Or.inl ⟨rfl, Or.inl hrest⟩)
    · rcases hid with hid | hid <;> cases hid
  | cons group groups ihg =>
    rw [CaseGroup.drawAll_cons] at h
    obtain ⟨d₁, h₁, h⟩ := Except.of_bind_ok h
    obtain ⟨hsteady, hp, hd, hr'⟩ := hr.step (fun s _ => s.faithful) h₁
    have hext₁ := ((drawn_all hr' (fun _ _ s _ => s.faithful) h).run.extends hr'.steady).trans hext
    obtain ⟨hentered, hselected⟩ := ihg hr' (fun g hg => ih g (List.mem_cons_of_mem _ hg)) h
      (hd.run.tidy hr.steady ht)
    have hrun :=
      fun {n v} => hr.splits_run (n := n) (v := v) (ih group List.mem_cons_self) hs h₁ hext₁
      (hentered _ _)
    have hblank := hr.blank block (Nat.le_of_lt hr.past_lt) hr.waiting
    have hdrawn : Drawn scope d d d.Waiting := .refl hr.steady
    -- The path enters from the group before, or by an edge of the selector.
    refine ⟨fun n v hrest => ?_, fun n v id hf hid => ?_⟩
    · rw [behaviour_entered]
      obtain ⟨m, rfl, hin⟩ := hrest.run_on hr.steady ht hdrawn hr.waiting hblank
        ((hp.extends hsteady).trans ((extends_finish hp.drawn.steady group after).trans hext₁))
      exact .of_le (hrun hin) (Nat.le_succ m)
    · rw [behaviour_selected, behaviour_entered]
      rcases isSelectable_of_target hid with ⟨rfl, hsel⟩ | hid
      · rw [if_pos hsel]
        exact .left (hrun (.continueAt hf hr.steady ht hdrawn hr.waiting hblank))
      · exact .right (hselected n v id hf hid)

end CaseGroup

theorem Draft.Rest.createBlocks {d D : Draft} {n : Nat} {v : List Element} (h : Rest D d n v)
    (groups : List CaseGroup) : Rest D (CaseGroup.createBlocks groups d) n v := by
  unfold CaseGroup.createBlocks
  induction groups generalizing d with
  | nil => exact h
  | cons group groups ih => exact ih (h.create .caseGroup (some group.span))

/-- The paths through a switch are its executions. -/
theorem Stmt.unfolds_switch (selector : Expr) {groups : List CaseGroup} (span : Span)
    (ih : ∀ group ∈ groups, ∀ s ∈ group.body, s.Unfolds) :
    (Stmt.switch selector groups span).Unfolds := by
  intro scope labels d d' D n v hs hfit _ h hext hr
  rw [Stmt.draw_switch] at h
  obtain ⟨d₁, h₁, h⟩ := Except.of_bind_ok h
  cases h
  rw [Stmt.behaviour]
  have hsel := selector.evaluated hs hr.steady hfit
  have hfit' := hsel.drawn.fits hr.steady hfit fun _ _ hid => hid
  generalize selector.draw scope d = ds at *
  have hd := hsel.drawn.steady
  have hlt : ∀ id, ds.Waiting id → id < ds.fresh := fun id hid => hid.lt
  have ho : Drawn scope ds _ _ := (Drawn.refl hd).openSwitch groups selector.span
  have hready := CaseGroup.ready_openSwitch hd hfit' labels groups selector.span
  have hg := CaseGroup.drawn_all hready (fun _ _ s _ => s.faithful) h₁
  have hall := ho.trans hd hg registers_of_inside
  have hafter := (hall.waiting ds.fresh).mpr ⟨hready.past, by grind⟩
  have hext_a := Draft.extends_continueAt hall.steady ds.fresh
  have hext_o := (hg.run.extends hready.steady).trans (hext_a.trans hext)
  have hblank := (hready.blank.of_extends (hg.run.extends hready.steady) fun id hid =>
    ((hg.waiting id).mp hid).1) ds.fresh (Nat.le_refl _) hafter
  refine Draft.splits_andThen (hsel.reaches ((ho.run.extends hd).trans hext_o) hr)
    fun {m u} hr => ?_
  have hpast : ∀ {m u}, D.graph.Finishes m ds.fresh u → Rest D (d₁.continueAt ds.fresh) m u :=
    fun hf => .continueAt hf hd hr.tidy hall ((hall.waiting _).mp hafter) hblank
  have hgroups := CaseGroup.splits_all hready ih hs h₁ (hext_a.trans hext) (ho.run.tidy hd hr.tidy)
  obtain ⟨k, e, rfl, he, hf⟩ := ((hr.create .normal none).createBlocks groups).terminate hext_o
  refine .of_le ?_ (Nat.le_succ k)
  have hselected : ∀ id, D.graph.Finishes k id u →
      id ∈ CaseGroup.valueTargets groups (ds.fresh + 1) ∨
        CaseGroup.defaultTarget? groups (ds.fresh + 1) = some id →
      (CaseGroup.behaviour scope.types groups (!scope.handlers.isEmpty) false).Splits
        (fun m u x => Reaches D scope labels (d₁.continueAt ds.fresh) m u x.afterBreak) k u := by
    intro id hf hid
    refine (hgroups.2 k u id hf hid).advance fun m u x _ hx => ?_
    rcases hx with ⟨rfl, hr' | hf⟩ | hdep
    · obtain ⟨j, rfl, hjoin⟩ := hr'.run_on hd hr.tidy hall ((hall.waiting _).mp hafter) hblank hext
      exact ⟨j, Nat.le_succ j, .completed hjoin⟩
    · exact ⟨m, Nat.le_refl m, .completed (hpast hf)⟩
    · exact ⟨m, Nat.le_refl m, hdep.of_inside (by rintro ⟨⟩) (by rintro _ ⟨⟩) hpast⟩
  refine .catching ?_
  rcases Terminator.mem_switchEdges he with ht | ht
  · exact .left (hselected _ hf (Or.inl ht))
  · cases hdef : CaseGroup.defaultTarget? groups (ds.fresh + 1) with
    | some id =>
      rw [hdef] at ht
      have htarget : id = e.target := Option.some.inj ht
      exact .left (hselected id (htarget ▸ hf) (Or.inr hdef))
    | none =>
      -- Without a default label control goes on after the statement.
      rw [hdef] at ht
      rw [CaseGroup.any_hasDefault_of_none hdef, if_neg Bool.false_ne_true]
      have htarget : ds.fresh = e.target := Option.some.inj ht
      exact .right (.leave (.completed (hpast (htarget ▸ hf))))

/-! ## All statements -/

/-- Without `try`, the paths through a statement are its executions. -/
theorem Stmt.unfolds {s : Stmt} (h : s.isTryFree = true) : s.Unfolds := by
  -- `try` is excluded at each level, so the scope never has a handler.
  induction s using Stmt.induct with
  | block b ih =>
    cases b
    intro scope labels d d' D n v hs hfit hl hdraw hext hr
    obtain rfl := Stmt.labels_eq_nil rfl hl
    rw [Stmt.draw] at hdraw
    rw [Stmt.behaviour]
    exact (Stmt.unfolded_all (fun s hm => ih s hm (Stmt.isTryFree_of_mem h s hm)) hs hdraw).splits
      hext hfit hr
  | expr e span =>
    intro scope labels d d' D n v hs hfit hl hdraw hext hr
    obtain rfl := Stmt.labels_eq_nil rfl hl
    rw [Stmt.draw] at hdraw
    cases hdraw
    rw [Stmt.behaviour]
    exact (e.evaluated hs hr.steady hfit).reaches hext hr
  | localVar decl =>
    intro scope labels d d' D n v hs hfit hl hdraw hext hr
    obtain rfl := Stmt.labels_eq_nil rfl hl
    rw [Stmt.draw] at hdraw
    cases hdraw
    rw [Stmt.behaviour]
    exact (decl.evaluated hs hr.steady hfit).reaches hext hr
  | ifStmt test cons alt span ihc iha =>
    rw [Stmt.isTryFree, Bool.and_eq_true] at h
    refine Stmt.unfolds_if test span (ihc h.1) fun s hs => iha s hs ?_
    subst hs
    exact h.2
  | whileStmt test body span ih => exact Stmt.unfolds_while test span (ih h)
  | doWhile body test span ih => exact Stmt.unfolds_doWhile test span (ih h)
  | forStmt init test update body span ihi ih =>
    rw [Stmt.isTryFree, Bool.and_eq_true] at h
    exact Stmt.unfolds_for test update span (fun s hm => ihi s hm (Stmt.isTryFree_of_mem h.1 s hm))
      (ih h.2)
  | forEach var iterable body span ih => exact Stmt.unfolds_forEach var iterable span (ih h)
  | switch selector groups span ih =>
    exact Stmt.unfolds_switch selector span fun group hg s hm =>
      ih group hg s hm (Stmt.isTryFree_of_mem (CaseGroup.areTryFree_of_mem h group hg) s hm)
  | tryStmt => cases h
  | labeled label body span ih => exact Stmt.unfolds_labeled label span (ih h)
  | breakStmt label span => exact Stmt.unfolds_break label span
  | continueStmt label span => exact Stmt.unfolds_continue label span
  | returnStmt arg span => exact Stmt.unfolds_return arg span
  | throwStmt arg span => exact Stmt.unfolds_throw arg span
  | synchronized lock body span ih =>
    cases body
    intro scope labels d d' D n v hs hfit hl hdraw hext hr
    obtain rfl := Stmt.labels_eq_nil rfl hl
    rw [Stmt.draw] at hdraw
    rw [Stmt.behaviour]
    have hlock := (lock.evaluated hs hr.steady hfit).andThen hr.steady hfit
      fun hd _ => .emit hd .synchronized span
    have hfit' := hlock.drawn.fits hr.steady hfit fun _ _ hid => hid
    have hbody := Stmt.unfolded_all (fun s hm => ih s hm (Stmt.isTryFree_of_mem h s hm)) hs hdraw
    have hext' := (hbody.draws hlock.drawn.steady hfit').run.extends hlock.drawn.steady
    exact Draft.splits_andThen (hlock.reaches (hext'.trans hext) hr) fun hr =>
      hbody.splits hext hfit' hr
  | assertStmt test message span | empty span =>
    intro scope labels d d' D n v hs hfit hl hdraw hext hr
    obtain rfl := Stmt.labels_eq_nil rfl hl
    rw [Stmt.draw] at hdraw
    cases hdraw
    rw [Stmt.behaviour]
    exact .leave (.completed hr)
  | localClass ident span =>
    intro scope labels d d' D n v hs hfit hl hdraw hext hr
    obtain rfl := Stmt.labels_eq_nil rfl hl
    rw [Stmt.draw] at hdraw
    cases hdraw
    rw [Stmt.behaviour]
    exact (Evaluated.emit hr.steady _ span).reaches hext hr
  | missing span =>
    intro scope labels d d' D n v hs hfit hl hdraw hext hr
    rw [Stmt.draw] at hdraw
    cases hdraw

/-! ## Bodies -/

namespace Graph

variable {types : Subtyping} {body : Block} {d : Draft}

theorem rest_begun {D : Draft} {span : Span} {n : Nat} {v : List Element}
    (h : D.graph.Finishes n entry v) :
    Rest D (.begun span) n v :=
  ⟨Draft.steady_begun span, Draft.tidy_begun span, entry, _, rfl, rfl, rfl, h⟩

/-- At the exit there is nothing left to spell. -/
theorem Finishes.eq_nil {n : Nat} {v : List Element} (hd : draft types body = .ok d)
    (h : d.graph.Finishes n exit v) : v = [] := by
  have hext := (draft_settled hd).1.extends (Draft.steady_begun _)
  have hcore := hext.cores exit (two_le_size _) (Or.inl List.mem_cons_self)
  cases h with
  | done isBlock =>
    rw [isBlock] at hcore
    exact congrArg (·.elements) (Option.some.inj hcore)
  | step isBlock isEdge =>
    rw [isBlock] at hcore
    have hnone : _ = [] := congrArg (·.successors) (Option.some.inj hcore)
    exact nomatch hnone ▸ isEdge

/-- Every way from the entry to the exit of the graph of a body without `try` statements spells an
execution of the body that comes to its end, by `return` or by `throw` or at the end of the body. -/
theorem build_executes {g : Graph} (hg : build types body = .ok g) (hfree : body.isTryFree = true)
    {w : List Element} (hw : g.Word w) : ∃ x, x.leavesMethod = true ∧ body.behaviour types w x := by
  obtain ⟨d, hd, rfl⟩ := exists_draft hg
  obtain ⟨n, hn⟩ := word_iff.mp hw
  obtain ⟨d₁, h₁, h⟩ := Except.of_bind_ok (id hd)
  cases h
  have hu : Draft.Unfolded { types } (.begun body.span) d₁ (body.behaviour types) :=
    Stmt.unfolded_all (fun s hm => Stmt.unfolds (Stmt.isTryFree_of_mem hfree s hm)) rfl h₁
  have hfit := Scope.fits_empty types (.begun body.span)
  have hext := Draft.extends_fallInto (hu.draws (Draft.steady_begun _) hfit).steady exit
  obtain ⟨t, u, x, m, rfl, _, ht, hx⟩ := hu.splits hext hfit (rest_begun hn)
  have ends : ∀ {k}, (d₁.fallInto exit).graph.Finishes k exit u → x.leavesMethod = true →
      ∃ x, x.leavesMethod = true ∧ body.behaviour types (t ++ u) x := by
    intro k hf hx
    rw [hf.eq_nil hd, List.append_nil]
    exact ⟨x, hx, ht⟩
  rcases hx.cases with ⟨rfl, hr⟩ | ⟨_, hdep⟩
  · obtain ⟨k, rfl, hf⟩ := hr.fallInto (.refl _)
    exact ends hf rfl
  · cases x with
    | completed | stopped | raised _ => exact hdep.elim
    | breaking label =>
      -- A body has no targets around it.
      obtain ⟨line, target, ht, _⟩ := hdep
      exact nomatch Scope.breakTarget_mem ht
    | continuing label =>
      obtain ⟨line, target, next, ht, _⟩ := hdep
      exact nomatch (Scope.continueTarget_mem ht).1
    | returning | threw type => exact ends hdep rfl

/-- A loop around a `switch` whose first group runs on into one that goes on with the next round. -/
def choosingBody : Block where
  stmts :=
    [.labeled "outer" (.whileStmt (.name "c" {})
      (.switch (.name "k" {})
        [⟨[.case [.name "A" {}]], [callTo "f"], false, {}⟩,
          ⟨[.default], [.continueStmt (some "outer") {}], false, {}⟩] {}) {}) {}]
  span := {}

/-- One round selects the first group and runs through both, and the test of the next one fails. -/
theorem build_executes_choosingBody :
    let w : List Element :=
      [⟨.identifier "c", {}⟩, ⟨.identifier "k", {}⟩, ⟨.invocation "f" [], {}⟩,
        ⟨.identifier "c", {}⟩]
    ∃ g, build ClassHierarchy.javaLang.subtyping choosingBody = .ok g ∧ g.Word w ∧
      ∃ x, x.leavesMethod = true ∧
        choosingBody.behaviour ClassHierarchy.javaLang.subtyping w x := by
  intro w
  obtain ⟨g, hg⟩ : ∃ g, build ClassHierarchy.javaLang.subtyping choosingBody = .ok g := ⟨_, rfl⟩
  have hw : g.Word w := by
    cases hg
    refine ⟨[(0, 2), (2, 3), (3, 6), (6, 7), (7, 2), (2, 4), (4, 1)], ?_, by decide +kernel⟩
    exact .step (by decide)
      (.step (by decide) (.step (by decide) (.step (by decide) (.step (by decide)
      (.step (by decide) (.step (by decide) .here))))))
  exact ⟨g, hg, hw, build_executes hg (by decide +kernel) hw⟩

end Graph

end MethodFlow
