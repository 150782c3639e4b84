import MethodFlow.Proofs.Sites

/-!
# Every statement of the text has a site

`Block.Contains` is about the text of a body alone: the statements in it, at any depth. If the body
can be drawn, each of them has a site (`Block.exists_site`), so what holds at all sites of a body
holds of all statements in its text.
-/

namespace MethodFlow

/-- The statements directly inside a statement. -/
def Stmt.parts : Stmt → List Stmt
  | .block b | .synchronized _ b _ => b.stmts
  | .ifStmt _ cons alt _ => cons :: alt.toList
  | .whileStmt _ body _ | .doWhile body _ _ | .forEach _ _ body _ | .labeled _ body _ => [body]
  | .forStmt init _ _ body _ => init ++ [body]
  | .switch _ groups _ => groups.flatMap (·.body)
  | .tryStmt _ b catches finalizer _ =>
    b.stmts ++ catches.flatMap (·.body.stmts) ++ finalizer.elim [] (·.stmts)
  | _ => []

/-- The statements in the text of a body, at any depth. -/
inductive Block.Contains (body : Block) : Stmt → Prop
  | top {s : Stmt} (h : s ∈ body.stmts) : Contains body s
  | part {s s' : Stmt} (h : Contains body s) (hp : s' ∈ s.parts) : Contains body s'

section Lists

variable {scope : Scope} {d d' : Draft}

/-- Each statement of a list has a draft that it begins with. -/
theorem Stmt.exists_begins {stmts : List Stmt} {s : Stmt} (hs : s ∈ stmts)
    (h : Stmt.drawAll stmts scope d = .ok d') : ∃ d₁, Stmt.Begins scope stmts d s d₁ := by
  induction stmts generalizing d with
  | nil => exact nomatch hs
  | cons s₀ stmts ih =>
    rw [Stmt.drawAll] at h
    obtain ⟨d₁, h₁, h⟩ := Except.of_bind_ok h
    rcases List.mem_cons.mp hs with rfl | hs
    · exact ⟨d, .head⟩
    · obtain ⟨d₂, h₂⟩ := ih hs h
      exact ⟨d₂, .tail h₁ h₂⟩

theorem CaseGroup.exists_begins {groups : List CaseGroup} {group : CaseGroup}
    {block after : BlockId} (hg : group ∈ groups)
    (h : CaseGroup.drawAll groups scope block after d = .ok d') :
    ∃ d₁ d₂, CaseGroup.Begins scope after groups block d group d₁ ∧
      Stmt.drawAll group.body scope d₁ = .ok d₂ := by
  induction groups generalizing d block with
  | nil => exact nomatch hg
  | cons g₀ groups ih =>
    rw [CaseGroup.drawAll_cons] at h
    obtain ⟨d₁, h₁, h⟩ := Except.of_bind_ok h
    rcases List.mem_cons.mp hg with rfl | hg
    · exact ⟨_, d₁, .head, h₁⟩
    · obtain ⟨d₂, d₃, hb, h₂⟩ := ih hg h
      exact ⟨d₂, d₃, .tail h₁ hb, h₂⟩

theorem CatchClause.exists_begins {clauses : List CatchClause} {clause : CatchClause}
    {finalizer : Option BlockId} {block after : BlockId} (hc : clause ∈ clauses)
    (h : CatchClause.drawAll clauses scope finalizer block after d = .ok d') :
    ∃ d₁ d₂, CatchClause.Begins scope finalizer after clauses block d clause d₁ ∧
      Stmt.drawAll clause.body.stmts scope d₁ = .ok d₂ := by
  induction clauses generalizing d block with
  | nil => exact nomatch hc
  | cons c₀ clauses ih =>
    rw [CatchClause.drawAll_cons] at h
    obtain ⟨d₁, h₁, h⟩ := Except.of_bind_ok h
    rcases List.mem_cons.mp hc with rfl | hc
    · exact ⟨_, d₁, .head, h₁⟩
    · obtain ⟨d₂, d₃, hb, h₂⟩ := ih hc h
      exact ⟨d₂, d₃, .tail h₁ hb, h₂⟩

end Lists

/-- A statement directly inside a `try` statement has a site. -/
theorem Site.Good.exists_part_of_guard {types : Subtyping} {D : Draft} {s : Site}
    {g : Guard} {c : Stmt} (h : s.Good types D) (hg : s.guard? types = some g)
    (hc : c ∈ s.stmt.parts) :
    ∃ s', s.Part types s' ∧ s'.stmt = c := by
  obtain ⟨d₁, d₂, d₃, h₁, h₂, hw, h₃, _, _⟩ := h.guard hg
  obtain ⟨_, _, span, hstmt⟩ := Site.of_guard? hg
  rw [hstmt, Stmt.parts, List.mem_append, List.mem_append] at hc
  rcases hc with (hc | hc) | hc
  · obtain ⟨d', hb⟩ := Stmt.exists_begins hc h₁
    exact ⟨_, .inTry hg hb, rfl⟩
  · obtain ⟨clause, hm, hc⟩ := List.mem_flatMap.mp hc
    have hclauses := h₂
    rw [Guard.drawGuarded, h₁] at hclauses
    obtain ⟨_, _, hbegins, hbody⟩ := CatchClause.exists_begins hm hclauses
    obtain ⟨d', hb⟩ := Stmt.exists_begins hc hbody
    exact ⟨_, .inCatch hg h₁ hbegins hb, rfl⟩
  · cases hf : g.finalizer with
    | none =>
      rw [hf] at hc
      cases hc
    | some final =>
      rw [hf] at hc
      rw [hf, Block.drawFinalizer_some] at h₃
      obtain ⟨_, hbody, _⟩ := Except.of_bind_ok h₃
      obtain ⟨d', hb⟩ := Stmt.exists_begins hc hbody
      exact ⟨_, .inFinally hg hf h₂ hb, rfl⟩

/-- Where drawing succeeds, each statement directly inside has a site. -/
theorem Site.Good.exists_part {types : Subtyping} {D : Draft} {s : Site} {c : Stmt}
    (h : s.Good types D) (hc : c ∈ s.stmt.parts) : ∃ s', s.Part types s' ∧ s'.stmt = c := by
  -- A `try` statement has its parts in the guard; any other statement has them in its fields.
  cases hg : s.guard? types with
  | some g => exact h.exists_part_of_guard hg hc
  | none =>
    obtain ⟨stmt, fs, labels, d⟩ := s
    obtain ⟨d', hdraw, _, _⟩ := h.drawn
    cases stmt with
    | block b =>
      cases b
      rw [Site.draw, Stmt.draw] at hdraw
      obtain ⟨_, hb⟩ := Stmt.exists_begins hc hdraw
      exact ⟨_, .inBlock hb, rfl⟩
    | synchronized lock b span =>
      cases b
      rw [Site.draw, Stmt.draw] at hdraw
      obtain ⟨_, hb⟩ := Stmt.exists_begins hc hdraw
      exact ⟨_, .inSynchronized hb, rfl⟩
    | ifStmt test cons alt span =>
      rw [Site.draw, Stmt.draw_if] at hdraw
      obtain ⟨d₁, h₁, _⟩ := Except.of_bind_ok hdraw
      rcases List.mem_cons.mp hc with rfl | hc
      · exact ⟨_, .thenBranch, rfl⟩
      · obtain rfl := Option.mem_toList.mp hc
        exact ⟨_, .elseBranch rfl h₁, rfl⟩
    | whileStmt test body span =>
      obtain rfl := List.mem_singleton.mp hc
      exact ⟨_, .whileBody rfl, rfl⟩
    | doWhile body test span =>
      obtain rfl := List.mem_singleton.mp hc
      exact ⟨_, .doBody, rfl⟩
    | forStmt init test update body span =>
      rw [Site.draw, Stmt.draw_for] at hdraw
      obtain ⟨d₀, h₀, _⟩ := Except.of_bind_ok hdraw
      rcases List.mem_append.mp hc with hc | hc
      · obtain ⟨_, hb⟩ := Stmt.exists_begins hc h₀
        exact ⟨_, .forInit hb, rfl⟩
      · obtain rfl := List.mem_singleton.mp hc
        exact ⟨_, .forBody h₀ rfl, rfl⟩
    | forEach var iterable body span =>
      obtain rfl := List.mem_singleton.mp hc
      exact ⟨_, .eachBody rfl, rfl⟩
    | switch selector groups span =>
      rw [Site.draw, Stmt.draw_switch] at hdraw
      obtain ⟨_, h₁, _⟩ := Except.of_bind_ok hdraw
      obtain ⟨group, hm, hc⟩ := List.mem_flatMap.mp hc
      obtain ⟨_, _, hbegins, hbody⟩ := CaseGroup.exists_begins hm h₁
      obtain ⟨_, hb⟩ := Stmt.exists_begins hc hbody
      exact ⟨_, .inGroup rfl hbegins hb, rfl⟩
    | labeled label body span =>
      obtain rfl := List.mem_singleton.mp hc
      cases hcarries : c.carriesLabels with
      | true => exact ⟨_, .carried hcarries, rfl⟩
      | false => exact ⟨_, .labeled hcarries, rfl⟩
    | tryStmt resources b catches finalizer span => cases hg
    | _ => cases hc

/-- If a body can be drawn, every statement of its text is drawn somewhere. -/
theorem Block.exists_site {types : Subtyping} {body : Block} {D : Draft} {s : Stmt}
    (hd : Graph.draft types body = .ok D) (h : body.Contains s) :
    ∃ site, body.Has types site ∧ site.stmt = s := by
  induction h with
  | top hs =>
    obtain ⟨_, h₁, _⟩ := Except.of_bind_ok hd
    obtain ⟨_, hb⟩ := Stmt.exists_begins hs h₁
    exact ⟨_, .top hb, rfl⟩
  | part _ hp ih =>
    obtain ⟨site, hhas, rfl⟩ := ih
    obtain ⟨site', hpart, rfl⟩ := (hhas.good hd).exists_part hp
    exact ⟨site', hhas.part hpart, rfl⟩

end MethodFlow
