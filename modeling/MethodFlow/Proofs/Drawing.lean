import MethodFlow.Proofs.Handlers

/-!
# Every statement is drawn faithfully

Labels and jumps are what is left of the statements. A label in front of a loop or of a `switch` is
handed on to it, and any other one is a target of its own. A jump closes the open block with the
first edge of its route, and the `finally` clauses on the way are told where to go on.

Main results: `Stmt.faithful`, and for whole bodies `Graph.draft_settled` and `Graph.draft_follows`.
-/

namespace MethodFlow

open Draft (Drawn Part)

/-! ## Jumps -/

namespace Draft

variable {D d : Draft} {w : List Element} {scope : Scope} {t : Terminator} {span : Span}

theorem extends_dangling (d : Draft) (dangling : List BlockId) :
    d.Extends { d with dangling := dangling } :=
  .of_cores rfl rfl rfl (fun _ => rfl) (List.Subset.refl _) rfl

theorem At.jump (h : At D d w) (hd : d.Steady) {edges : List Edge}
    (hext : (d.jump t edges span).Extends D) {e : Edge} (he : e ∈ edges) : D.Leads w e.target :=
  h.terminate hd ((extends_dangling _ _).trans hext) he

/-- A jump takes the route of its scope. -/
theorem At.jumpVia (h : At D d w) (hd : d.Steady) {route : JumpRoute}
    (hext : (d.jumpVia t route span).Extends D) : Takes D (d.jumpVia t route span) w route := by
  refine ⟨h.jump hd ((extends_resumeAt _ _).trans hext) List.mem_cons_self, fun p hp => ?_⟩
  exact mem_appendAllNew.mpr (Or.inr hp)

end Draft

section Jumps

variable {scope : Scope} {d : Draft}

theorem Scope.ending_breakRoute (scope : Scope) (target : Target) :
    (Terminator.breaking target.breakTo).Ending [(scope.breakRoute target).edge] := by
  rcases JumpRoute.edge_through (.sequential target.breakTo) (scope.crossed target) with
    he | ⟨_, _, entry, _, he⟩ <;> rw [breakRoute, he] <;> exact .breaking _ _

theorem Scope.ending_continueRoute (scope : Scope) (target : Target) (continueTo : BlockId) :
    (Terminator.continuing continueTo).Ending [(scope.continueRoute target continueTo).edge] := by
  rcases JumpRoute.edge_through (.loopBack continueTo) (scope.crossed target) with
    he | ⟨_, _, entry, _, he⟩ <;> rw [continueRoute, he]
  · exact .continuing _ (Or.inr rfl)
  · exact .continuing _ (Or.inl rfl)

theorem Scope.ending_returnRoute (scope : Scope) (hasValue : Bool) :
    (Terminator.returning hasValue).Ending [scope.returnRoute.edge] := by
  rcases JumpRoute.edge_through (.sequential Graph.exit) scope.handlers
    with he | ⟨_, _, entry, _, he⟩ <;>
    rw [returnRoute, he] <;> exact .returning _ _

theorem Scope.ending_throwRoute (scope : Scope) (thrown : TypeName) :
    Terminator.throwing.Ending (scope.throwRoute thrown).edges :=
  .throwing (ThrowRoute.targets_ne_nil _ (Or.inl (List.cons_ne_nil _ _)))

/-- A `break` is drawn to where an execution goes on. -/
theorem Stmt.faithful_break (label : Option String) (span : Span) :
    (Stmt.breakStmt label span).Faithful := by
  intro scope labels d d' hd hfit hlabels h
  obtain rfl := Stmt.labels_eq_nil rfl hlabels
  rw [Stmt.draw] at h
  obtain ⟨target, ht, h⟩ := Except.of_bind_ok h
  cases h
  have hm := Scope.breakTarget_mem ht
  refine ⟨.jumpVia hd hfit span rfl (scope.ending_breakRoute target) (.breaking hm)
    fun p hp => .breaking hm hp, fun {D} hext => ?_⟩
  rw [Stmt.behaviour]
  rintro w hat t x ⟨rfl, rfl⟩
  rw [List.append_nil]
  exact Or.inr ⟨List.forall_mem_nil _, span.line, target, ht, hat.jumpVia hd hext⟩

theorem Stmt.faithful_continue (label : Option String) (span : Span) :
    (Stmt.continueStmt label span).Faithful := by
  intro scope labels d d' hd hfit hlabels h
  obtain rfl := Stmt.labels_eq_nil rfl hlabels
  rw [Stmt.draw] at h
  obtain ⟨⟨target, continueTo⟩, ht, h⟩ := Except.of_bind_ok h
  cases h
  obtain ⟨hm, hc⟩ := Scope.continueTarget_mem ht
  refine ⟨.jumpVia hd hfit span rfl (scope.ending_continueRoute target continueTo)
    (.continuing hm hc) fun p hp => .continuing hm hc hp, fun {D} hext => ?_⟩
  rw [Stmt.behaviour]
  rintro w hat t x ⟨rfl, rfl⟩
  rw [List.append_nil]
  exact ⟨span.line, target, continueTo, ht, hat.jumpVia hd hext⟩

/-- The jump of a `return`, once its value has been evaluated. -/
theorem Draft.Part.returning (hd : d.Steady) (hfit : scope.Fits d) (hasValue : Bool) (span : Span) :
    Part scope [] d (d.jumpVia (.returning hasValue) scope.returnRoute span)
      (.leave .returning) := by
  refine ⟨.jumpVia hd hfit span rfl (scope.ending_returnRoute hasValue) .returning
    fun p hp => .returning hp, fun {D} hext => ?_⟩
  rintro w hat t x ⟨rfl, rfl⟩
  rw [List.append_nil]
  exact hat.jumpVia hd hext

/-- The jump of a `throw`, once the exception has been evaluated. -/
theorem Draft.Part.throwing (hd : d.Steady) (hfit : scope.Fits d) (thrown : TypeName)
    (span : Span) :
    Part scope [] d
      ((d.jump .throwing (scope.throwRoute thrown).edges span).resumeAt
        (scope.throwRoute thrown).resumptions)
      (.leave (.threw thrown)) := by
  have hj : Drawn scope d (d.jump .throwing (scope.throwRoute thrown).edges span) d.Waiting :=
    (Drawn.refl hd).jump span rfl (scope.ending_throwRoute thrown) fun e he =>
      hfit.awaits (Scope.Leaves.throwing he).names
  refine ⟨hj.register (hj.fits hd hfit fun _ _ hid => hid) fun p hp => .throwing hp,
    fun {D} hext => ?_⟩
  rintro w hat t x ⟨rfl, rfl⟩
  rw [List.append_nil]
  refine ⟨[thrown], List.mem_cons_self, fun id hid => ?_,
    fun p hp => mem_appendAllNew.mpr (Or.inr hp)⟩
  exact hat.jump hd ((Draft.extends_resumeAt _ _).trans hext) (List.mem_map.mpr ⟨id, hid, rfl⟩)

end Jumps

/-! ## Labels -/

/-- A label that was handed on to a loop or a `switch`. -/
theorem Draft.Lands.of_carried {D d : Draft} {scope : Scope} {labels : List String} {label : String}
    {w : List Element} {x : Exit} (h : Lands D scope (labels ++ [label]) d w x) :
    Lands D scope labels d w (x.afterLabel label) := by
  cases x with
  | breaking target =>
    cases target with
    | none =>
      rcases h with ⟨⟨_, _, hl⟩, _⟩ | ⟨_, ht⟩
      · exact nomatch hl
      · exact Or.inr ⟨fun _ _ => nofun, ht⟩
    | some l =>
      by_cases hl : l = label
      · subst hl
        rw [Exit.afterLabel, if_pos rfl]
        rcases h with ⟨_, hat⟩ | ⟨hl, _⟩
        · exact hat
        · exact absurd rfl (hl l (List.mem_append_right _ List.mem_cons_self))
      · rw [Exit.afterLabel, if_neg hl]
        rcases h with ⟨⟨_, hm, ⟨⟩⟩, hat⟩ | ⟨hne, ht⟩
        · refine Or.inl ⟨⟨l, ?_, rfl⟩, hat⟩
          exact (List.mem_append.mp hm).resolve_right fun hm => hl (List.mem_singleton.mp hm)
        · exact Or.inr ⟨fun l' hm => hne l' (List.mem_append_left _ hm), ht⟩
  | _ => exact h

/-- Labels mean nothing to a statement that does not carry them. -/
theorem Stmt.behaviour_labels (types : Subtyping) (guarded : Bool) {s : Stmt}
    (hs : s.carriesLabels = false) (labels labels' : List String) :
    s.behaviour types guarded labels = s.behaviour types guarded labels' := by
  induction s using Stmt.induct generalizing labels labels' with
  | labeled label body span ih =>
    rw [Stmt.behaviour, Stmt.behaviour, ih hs (labels ++ [label]) (labels' ++ [label])]
  | block b | tryStmt resources b | synchronized lock b =>
    cases b
    rw [Stmt.behaviour, Stmt.behaviour]
  | whileStmt | doWhile | forStmt | forEach | switch => cases hs
  | _ => rw [Stmt.behaviour, Stmt.behaviour]

/-- A label is drawn faithfully if what it labels is. -/
theorem Stmt.faithful_labeled (label : String) {body : Stmt} (span : Span) (ih : body.Faithful) :
    (Stmt.labeled label body span).Faithful := by
  intro scope labels d d' hd hfit hlabels h
  rw [Stmt.draw_labeled] at h
  split at h
  · exact nomatch h
  rename_i hnew
  rw [Bool.or_eq_true, not_or, Bool.not_eq_true, Bool.not_eq_true] at hnew
  split at h
  · -- The statement takes the label over and makes the block for `break` itself.
    rename_i hcarries
    have hp := ih hd hfit (fun l hl => ⟨hcarries, ?_⟩) h
    · refine ⟨hp.drawn, fun {D} hext => ?_⟩
      rw [Stmt.behaviour]
      rintro w hat t _ ⟨x, hx, rfl⟩
      exact (hp.follows hext w hat t x hx).of_carried
    · rcases List.mem_append.mp hl with hl | hl
      · exact (hlabels l hl).2
      · rw [List.mem_singleton.mp hl]
        exact hnew.2
  · -- Any other statement gets a block of its own, at which `break` ends.
    rename_i hcarries
    have hcarries := Bool.eq_false_iff.mpr hcarries
    obtain rfl := Stmt.labels_eq_nil hcarries hlabels
    obtain ⟨d₁, h₁, h⟩ := Except.of_bind_ok h
    cases h
    have h := Draft.LabelDrawn.of_parts hd hfit (ih.draws h₁)
    have hp := ih h.made.steady h.fits (List.forall_mem_nil _) h₁
    refine ⟨h.whole, fun {D} hext => ?_⟩
    rw [Stmt.behaviour, List.nil_append, Stmt.behaviour_labels _ _ hcarries [label] []]
    rintro w hat t _ ⟨x, hx, rfl⟩
    have hextc := Draft.extends_continueAt h.after_body.steady d.fresh
    have hwaits := (h.after_body.waiting d.fresh).mpr (Or.inr rfl)
    have hblank := ((d.blank_fresh.create hd .normal none).part h.made.steady hp.drawn) d.fresh
      (Nat.le_refl _) hwaits
    have hl := hp.follows (hextc.trans hext) w (hat.add _) t x hx
    by_cases hxc : x = .completed
    · subst hxc
      exact Draft.At.continueAt hl h.after_body.steady hwaits hblank hext
    · exact hl.of_label hxc hextc fun hp => .continueAt_of_path hp h.after_body.steady hwaits hblank

/-! ## Statements -/

/-- Every statement is drawn as a part with its behaviour. -/
theorem Stmt.faithful (s : Stmt) : s.Faithful := by
  -- Labels stand only before statements that carry them; elsewhere there are none.
  induction s using Stmt.induct with
  | block b ih =>
    intro scope labels d d' hd hfit hlabels h
    obtain rfl := Stmt.labels_eq_nil rfl hlabels
    cases b
    rw [Stmt.draw] at h
    rw [Stmt.behaviour]
    exact Stmt.part_all ih hd hfit h
  | expr e span =>
    intro scope labels d d' hd hfit hlabels h
    obtain rfl := Stmt.labels_eq_nil rfl hlabels
    rw [Stmt.draw] at h
    rw [Stmt.behaviour]
    cases h
    exact e.faithful hd hfit
  | localVar decl =>
    intro scope labels d d' hd hfit hlabels h
    obtain rfl := Stmt.labels_eq_nil rfl hlabels
    rw [Stmt.draw] at h
    rw [Stmt.behaviour]
    cases h
    exact decl.part hd hfit
  | ifStmt test cons alt span ihc iha => exact Stmt.faithful_if test span ihc iha
  | whileStmt test body span ih => exact Stmt.faithful_while test span ih
  | doWhile body test span ih => exact Stmt.faithful_doWhile test span ih
  | forStmt init test update body span ihi ih => exact Stmt.faithful_for test update span ihi ih
  | forEach var iterable body span ih => exact Stmt.faithful_forEach var iterable span ih
  | switch selector groups span ih => exact Stmt.faithful_switch selector span ih
  | tryStmt resources block catches finalizer span ihb ihc ihf =>
    exact Stmt.faithful_try resources span ihb ihc ihf
  | labeled label body span ih => exact Stmt.faithful_labeled label span ih
  | breakStmt label span => exact Stmt.faithful_break label span
  | continueStmt label span => exact Stmt.faithful_continue label span
  | returnStmt arg span =>
    intro scope labels d d' hd hfit hlabels h
    obtain rfl := Stmt.labels_eq_nil rfl hlabels
    rw [Stmt.draw] at h
    rw [Stmt.behaviour]
    cases h
    exact (Expr.faithful_option arg hd hfit).andThen hd hfit
      fun hd hfit => .returning hd hfit arg.isSome span
  | throwStmt arg span =>
    intro scope labels d d' hd hfit hlabels h
    obtain rfl := Stmt.labels_eq_nil rfl hlabels
    rw [Stmt.draw] at h
    rw [Stmt.behaviour]
    cases h
    exact (arg.faithful hd hfit).andThen hd hfit fun hd hfit => .throwing hd hfit _ span
  | synchronized lock body span ih =>
    intro scope labels d d' hd hfit hlabels h
    obtain rfl := Stmt.labels_eq_nil rfl hlabels
    cases body
    rw [Stmt.draw] at h
    rw [Stmt.behaviour]
    have hlock : Part scope [] d ((lock.draw scope d).emit .synchronized span) _ :=
      (lock.faithful hd hfit).andThen hd hfit fun hd _ => .emit hd .synchronized span
    exact hlock.andThen hd hfit fun hd hfit => Stmt.part_all ih hd hfit h
  | assertStmt test message span | empty span =>
    intro scope labels d d' hd hfit hlabels h
    obtain rfl := Stmt.labels_eq_nil rfl hlabels
    rw [Stmt.draw] at h
    rw [Stmt.behaviour]
    cases h
    exact .skip hd
  | localClass ident span =>
    intro scope labels d d' hd hfit hlabels h
    obtain rfl := Stmt.labels_eq_nil rfl hlabels
    rw [Stmt.draw] at h
    rw [Stmt.behaviour]
    cases h
    exact .emit hd _ span
  | missing span =>
    intro scope labels d d' hd hfit hlabels h
    rw [Stmt.draw] at h
    cases h

/-- Drawing a statement opens, closes and awaits the blocks it should. -/
theorem Stmt.draws {scope : Scope} {d d' : Draft} (s : Stmt) (h : s.draw scope [] d = .ok d') :
    Draft.Draws scope d d' :=
  Stmt.Faithful.draws s.faithful h

/-! ## Loops that have been drawn

Each comes apart into the drawing of its body and the drafts around it. -/

section Loops

variable {scope : Scope} {labels : List String} {d d' : Draft} {body : Stmt} {span : Span}

/-- How a `while` loop was drawn. -/
theorem Stmt.drawn_while {test : Expr} (hd : d.Steady) (hfit : scope.Fits d)
    (h : (Stmt.whileStmt test body span).draw scope labels d = .ok d') :
    ∃ d₁, body.draw (scope.inside labels (.loop d.fresh)
        ((test.draw scope (d.openHeader (some test.span))).fresh + 1)) []
        ((test.draw scope (d.openHeader (some test.span))).openBody body.span test.span) = .ok d₁ ∧
      d' = d₁.turn .loopBack d.fresh
        ((test.draw scope (d.openHeader (some test.span))).fresh + 1) ∧
      Draft.WhileDrawn scope labels d (test.draw scope (d.openHeader (some test.span))) d₁
        test.span body.span test.span := by
  rw [Stmt.draw_while] at h
  obtain ⟨d₁, h₁, h⟩ := Except.of_bind_ok h
  cases h
  exact ⟨d₁, h₁, rfl,
    .of_parts hd hfit (fun hd hfit => (test.faithful hd hfit).drawn) (body.draws h₁)⟩

/-- How a `do` loop was drawn. -/
theorem Stmt.drawn_doWhile {test : Expr} (hd : d.Steady) (hfit : scope.Fits d)
    (h : (Stmt.doWhile body test span).draw scope labels d = .ok d') :
    ∃ d₁, body.draw (scope.inside labels (.loop (d.fresh + 1)) (d.fresh + 2)) []
        (d.openDo body.span test.span) = .ok d₁ ∧
      d' = (test.draw scope (d₁.continueAt (d.fresh + 1))).closeDo d.fresh (d.fresh + 2)
        test.span ∧
      Draft.DoDrawn scope labels d d₁ (test.draw scope (d₁.continueAt (d.fresh + 1)))
        body.span test.span := by
  rw [Stmt.draw_doWhile] at h
  obtain ⟨d₁, h₁, h⟩ := Except.of_bind_ok h
  cases h
  exact ⟨d₁, h₁, rfl,
    .of_parts hd hfit (body.draws h₁) fun hd hfit => (test.faithful hd hfit).drawn⟩

/-- How a `for` loop was drawn. -/
theorem Stmt.drawn_for {init : List Stmt} {test : Option Expr} {update : List Expr}
    (hd : d.Steady) (hfit : scope.Fits d)
    (h : (Stmt.forStmt init test update body span).draw scope labels d = .ok d') :
    ∃ d₀ d₁, Stmt.drawAll init scope d = .ok d₀ ∧ Drawn scope d d₀ d.Waiting ∧
      body.draw (scope.inside labels (.loop (Draft.forNext d₀.fresh update)) (d₀.fresh + 2)) []
        (((d₀.openHeader (some (test.elim span (·.span)))).makeFor (!update.isEmpty)
          body.span).testFor scope test (d₀.fresh + 1) (d₀.fresh + 2)) = .ok d₁ ∧
      d' = (d₁.updateFor scope update (Draft.forNext d₀.fresh update)).turn .loopBack d₀.fresh
        (d₀.fresh + 2) ∧
      Draft.ForDrawn scope labels d₀ ((d₀.openHeader (some (test.elim span (·.span)))).makeFor
        (!update.isEmpty) body.span) d₁ (test.elim span (·.span)) test update := by
  rw [Stmt.draw_for] at h
  obtain ⟨d₀, h₀, h⟩ := Except.of_bind_ok h
  obtain ⟨d₁, h₁, h⟩ := Except.of_bind_ok h
  cases h
  have hinit := (Stmt.part_all (fun s _ => s.faithful) hd hfit h₀).drawn
  exact ⟨d₀, d₁, h₀, hinit, h₁, rfl,
    .of_parts hinit.steady (hinit.fits hd hfit fun _ _ hid => hid) (body.draws h₁)⟩

/-- How a loop over the elements of something was drawn. -/
theorem Stmt.drawn_forEach {var : String} {iterable : Expr} (hd : d.Steady) (hfit : scope.Fits d)
    (h : (Stmt.forEach var iterable body span).draw scope labels d = .ok d') :
    ∃ d₁, body.draw (scope.inside labels (.loop (iterable.draw scope d).fresh)
        ((iterable.draw scope d).fresh + 2)) []
        ((((iterable.draw scope d).openHeader (some span)).openBody body.span iterable.span).emit
          (.declaration var) span) = .ok d₁ ∧
      d' = d₁.turn .loopBack (iterable.draw scope d).fresh ((iterable.draw scope d).fresh + 2) ∧
      Draft.EachDrawn scope labels (iterable.draw scope d) d₁ span body.span iterable.span
        (.declaration var) span := by
  rw [Stmt.draw_forEach] at h
  obtain ⟨d₁, h₁, h⟩ := Except.of_bind_ok h
  cases h
  have hi := iterable.faithful hd hfit
  exact ⟨d₁, h₁, rfl, .of_parts hi.drawn.steady (hi.fits hd hfit) (body.draws h₁)⟩

end Loops

/-! ## Bodies -/

theorem Scope.fits_empty (types : Subtyping) (d : Draft) : ({ types } : Scope).Fits d :=
  ⟨fun _ h => (nomatch h), fun _ h => (nomatch h), fun _ h => (nomatch h), fun _ h => (nomatch h)⟩

/-- The statements of a body are drawn as one part, and its end runs on into the exit. -/
theorem Graph.draft_part {types : Subtyping} {body : Block} {d : Draft}
    (h : Graph.draft types body = .ok d) :
    ∃ d₁, Part { types } [] (.begun body.span) d₁ (body.behaviour types) ∧
      d = d₁.fallInto Graph.exit := by
  obtain ⟨d₁, h₁, h⟩ := Except.of_bind_ok h
  cases h
  have hp := Stmt.part_all (fun s _ => s.faithful) (Draft.steady_begun body.span)
    (Scope.fits_empty types _) h₁
  exact ⟨d₁, hp, rfl⟩

/-- At the end of a body no block is open or waiting. -/
theorem Graph.draft_settled {types : Subtyping} {body : Block} {d : Draft}
    (h : Graph.draft types body = .ok d) :
    Draft.Run (.begun body.span) d ∧ d.current = none ∧ ∀ id, ¬ d.Waiting id := by
  obtain ⟨d₁, hp, rfl⟩ := Graph.draft_part h
  have hc : Drawn { types } (.begun body.span) (d₁.closeOpen .fallThrough [.sequential Graph.exit])
      (Draft.begun body.span).Waiting := by
    refine hp.drawn.closeOpen (.fallThrough _) fun e he => ?_
    rw [List.mem_singleton.mp he]
    exact Or.inl rfl
  have hexit : Graph.exit < (d₁.closeOpen .fallThrough [.sequential Graph.exit]).fresh :=
    Graph.two_le_size _
  have hr := hc.resolve Graph.exit (by simp) hexit
  exact ⟨hr.run, d₁.current_fallInto _,
    fun id hw => Draft.not_waiting_begun _ _ ((hr.waiting id).mp hw)⟩

end MethodFlow
