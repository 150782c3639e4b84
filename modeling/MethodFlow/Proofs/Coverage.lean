import MethodFlow.Proofs.Consistency

/-!
# The graph covers every execution

An execution of a body (`Block.behaviour`) is followed from the entry on, since every statement is
drawn faithfully. If it comes to an end, at the end of the body, by `return` or by `throw`, a path
leads to the exit that spells just the elements it has run through. If the observation breaks off,
or an element raises an exception that nothing in the method receives, a path spells what has been
seen so far. In each case all elements stand in blocks that the search from the entry finds, so
nothing that can be run counts as dead.

Main result: `Graph.build_covers`.
-/

namespace MethodFlow

/-- Whether an exit of the body leads to the exit of the method. Exceptions that elements raise are
followed only as far as something in the method receives them. -/
def Exit.leavesMethod : Exit → Bool
  | completed | returning | threw _ => true
  | _ => false

namespace Graph

variable {g : Graph} {w : List Element} {id : BlockId}

/-- The element stands in a block that the search from the entry finds. -/
def HasLive (g : Graph) (e : Element) : Prop :=
  ∃ id b, g.block? id = some b ∧ e ∈ b.elements ∧ g.reachability.isReachable id = true

theorem Path.hasLive_of_prefix {b : BasicBlock} {u : List Element} (h : g.Path entry w id)
    (hb : g.block? id = some b) (hu : u <+: b.elements) : ∀ e ∈ u, g.HasLive e :=
  fun _ he => ⟨id, b, hb, hu.subset he, h.isReachable (lt_size_of_block? hb)⟩

theorem Path.hasLive (h : g.Path entry w id) : ∀ e ∈ w, g.HasLive e := by
  induction h with
  | here => exact nofun
  | step path isBlock _ spelled ih =>
    intro e he
    rcases List.mem_append.mp he with he | he
    · exact ih e he
    · exact path.hasLive_of_prefix isBlock spelled.isPrefix e he

/-- Whatever the graph shows is live. -/
theorem Shows.hasLive (h : g.Shows w) : ∀ e ∈ w, g.HasLive e := by
  obtain ⟨id, b, u, p, rfl, path, hb, hp⟩ := h
  intro e he
  rcases List.mem_append.mp he with he | he
  · exact path.hasLive e he
  · exact path.hasLive_of_prefix hb hp e he

theorem Path.shows (h : g.Path entry w id) (hlt : id < g.size) : g.Shows w := by
  obtain ⟨b, hb⟩ := exists_block? hlt
  exact ⟨id, b, w, [], (List.append_nil w).symm, h, hb, List.nil_prefix⟩

end Graph

theorem Draft.at_begun (D : Draft) (span : Span) : D.At (.begun span) [] :=
  ⟨Graph.entry, [], [], rfl, rfl, .here, rfl⟩

/-- Where the executions of a body end in its drawing. -/
theorem Graph.draft_covers {types : Subtyping} {body : Block} {d : Draft}
    (hd : Graph.draft types body = .ok d) {w : List Element} {x : Exit}
    (h : body.behaviour types w x) :
    x.isJump = false ∧ (x.leavesMethod = true → d.Leads w Graph.exit) ∧
      (x.leavesMethod = false → d.graph.Shows w) := by
  obtain ⟨d₁, hp, rfl⟩ := Graph.draft_part hd
  have hext := Draft.extends_fallInto hp.drawn.steady Graph.exit
  have hl : Draft.Lands _ { types } [] d₁ w x := hp.follows hext [] (Draft.at_begun _ _) w x h
  cases x with
  | completed => exact ⟨rfl, fun _ => Draft.At.fallInto hl hp.drawn.steady (.refl _), nofun⟩
  | stopped => exact ⟨rfl, nofun, fun _ => hl⟩
  | breaking label =>
    -- A body has no targets around it.
    rcases hl with ⟨⟨_, hm, _⟩, _⟩ | ⟨_, line, target, ht, _⟩
    · exact nomatch hm
    · exact nomatch Scope.breakTarget_mem ht
  | continuing label =>
    obtain ⟨line, target, next, ht, _⟩ := hl
    exact nomatch (Scope.continueTarget_mem ht).1
  | returning => exact ⟨rfl, fun _ => hl.1, nofun⟩
  | threw type =>
    obtain ⟨thrown, hm, hs, _⟩ := hl
    refine ⟨rfl, fun _ => hs Graph.exit ?_, nofun⟩
    cases thrown with
    | nil => exact nomatch hm
    | cons => exact List.mem_cons_self
  | raised type => exact ⟨rfl, nofun, fun _ => hl.1⟩

namespace Graph

/-- Every execution of a body, for any types, is covered by the graph. No jump leaves the body. If
the execution ends, a path from the entry to the exit spells the elements it has run through, and
else some path from the entry spells what was seen of it. All these elements stand in blocks that
are found reachable. -/
theorem build_covers {types : Subtyping} {body : Block} {g : Graph} (hg : build types body = .ok g)
    {w : List Element} {x : Exit} (h : body.behaviour types w x) :
    x.isJump = false ∧ (x.leavesMethod = true → g.Path entry w exit) ∧ g.Shows w ∧
      ∀ e ∈ w, g.HasLive e := by
  rw [build_eq] at hg
  cases hd : draft types body with
  | error f =>
    rw [hd] at hg
    exact nomatch hg
  | ok d =>
    rw [hd] at hg
    cases hg
    obtain ⟨hjump, hexit, hshows⟩ := draft_covers hd h
    have shown : d.graph.Shows w := by
      cases hx : x.leavesMethod with
      | true => exact (hexit hx).shows d.graph.two_le_size
      | false => exact hshows hx
    exact ⟨hjump, hexit, shown, shown.hasLive⟩

/-- A call without arguments, as a statement. -/
def callTo (name : String) : Stmt := .expr (.call none name [] [] {}) {}

/-- A `try` statement whose block may be left in the middle of its call or by `return`. -/
def tryBody : Block where
  stmts :=
    [.tryStmt [] ⟨[callTo "open", .returnStmt none {}], {}⟩
      [⟨"e", ["RuntimeException"], ⟨[callTo "log"], {}⟩, {}⟩] (some ⟨[callTo "close"], {}⟩) {}]
  span := {}

/-- The call in the `try` block raises an exception that the clause receives. -/
theorem build_covers_tryBody :
    let w : List Element := [⟨.invocation "open" [], {}⟩, ⟨.declaration "e", {}⟩,
      ⟨.invocation "log" [], {}⟩, ⟨.invocation "close" [], {}⟩]
    ∃ g, build ClassHierarchy.javaLang.subtyping tryBody = .ok g ∧
      tryBody.behaviour ClassHierarchy.javaLang.subtyping w .completed ∧ g.Path entry w exit := by
  intro w
  have invoke : ∀ name x guarded, Behaviour.mayRaise guarded [] [] x →
      (callTo name).behaviour ClassHierarchy.javaLang.subtyping guarded []
        [⟨.invocation name [], {}⟩] x := by
    intro name x guarded hx
    rw [callTo, Stmt.behaviour, Expr.behaviour, Expr.behaviourOption, Expr.behaviourAll]
    refine Or.inr ⟨[], _, rfl, Or.inr ⟨[], [], rfl, ⟨rfl, rfl⟩, ⟨rfl, rfl⟩⟩, ?_⟩
    exact Or.inr ⟨[⟨.invocation name [], {}⟩], [], rfl, ⟨rfl, Or.inl rfl⟩, hx⟩
  have single : ∀ {name guarded},
      Stmt.behaviourAll ClassHierarchy.javaLang.subtyping [callTo name] guarded
        [⟨.invocation name [], {}⟩] .completed := by
    intro name guarded
    rw [Stmt.behaviourAll, Stmt.behaviourAll]
    exact Or.inr ⟨_, [], rfl, invoke name _ _ ⟨rfl, Or.inl rfl⟩, rfl, rfl⟩
  have hw : tryBody.behaviour ClassHierarchy.javaLang.subtyping w .completed := by
    rw [Block.behaviour, tryBody, Stmt.behaviourAll, Stmt.behaviourAll]
    refine Or.inr ⟨w, [], rfl, ?_, rfl, rfl⟩
    rw [Stmt.behaviour, Block.behaviourFinally, LocalVar.behaviourResources, Stmt.behaviourAll]
    refine Or.inr ⟨w.take 3, w.drop 3, .completed, rfl, ?_, by rintro ⟨⟩, Or.inl ⟨single, rfl⟩⟩
    refine Or.inr ⟨w.take 1, (w.drop 1).take 2, .raised "RuntimeException",
      "RuntimeException", rfl, ?_, rfl, ?_⟩
    · refine Or.inr ⟨[], w.take 1, rfl, ⟨rfl, rfl⟩, Or.inl ⟨?_, by rintro ⟨⟩⟩⟩
      exact invoke _ _ _ ⟨rfl, Or.inr ⟨rfl, "RuntimeException", by decide, rfl⟩⟩
    · rw [CatchClause.behaviour, if_pos (by decide +kernel)]
      exact Or.inl (Or.inr ⟨[⟨.declaration "e", {}⟩], [⟨.invocation "log" [], {}⟩], rfl,
        ⟨rfl, Or.inl rfl⟩, single⟩)
  obtain ⟨g, hg⟩ := Except.failure?_eq_none_iff.mp
    ((failure?_build ClassHierarchy.javaLang.subtyping tryBody).trans rfl)
  exact ⟨g, hg, hw, (build_covers hg hw).2.1 rfl⟩

end Graph

end MethodFlow
