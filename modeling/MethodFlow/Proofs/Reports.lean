import MethodFlow.Lint.Engine
import MethodFlow.Proofs.Parentheses

/-!
# Reports and parentheses

Where blocks stand in the text plays no part in anything that is derived from a graph: what is
reachable, the dead regions, the measures, where jumps lead. Rules read spans of elements, of
methods and of jumps only. So two methods that differ by parentheses get the same reports.

Main result: `Engine.analyze_parentheses`.
-/

namespace MethodFlow

/-! ## Results that do not depend on spans -/

namespace View

variable (g : Graph)

@[simp] theorem successors_placeless (b : BasicBlock) :
    (placeless.block b).successors = b.successors :=
  List.filter_eq_self.mpr fun _ _ => rfl

@[simp] theorem ids_placeless : (placeless.graph g).ids = g.ids := by
  unfold Graph.ids Graph.size View.graph
  rw [Array.size_map]

@[simp] theorem edgesFrom_placeless : (placeless.graph g).edgesFrom = g.edgesFrom := by
  funext id
  unfold Graph.edgesFrom
  rw [block?_graph]
  cases g.block? id with
  | none => rfl
  | some b => exact successors_placeless b

@[simp] theorem targets_placeless : (placeless.graph g).targets = g.targets := by
  funext id
  unfold Graph.targets
  rw [edgesFrom_placeless]

@[simp] theorem predecessors_placeless : (placeless.graph g).predecessors = g.predecessors := by
  funext id
  unfold Graph.predecessors
  rw [targets_placeless, ids_placeless]

/-- Reachability does not depend on spans. -/
@[simp] theorem reachability_placeless : (placeless.graph g).reachability = g.reachability := by
  unfold Graph.reachability
  rw [targets_placeless, ids_placeless]

@[simp] theorem deadRegions_placeless (r : Reachability) :
    (placeless.graph g).deadRegions r = g.deadRegions r := by
  unfold Graph.deadRegions Graph.isDeadHead
  rw [targets_placeless, predecessors_placeless]

@[simp] theorem complexityWithin_placeless (r : Reachability) :
    (placeless.graph g).complexityWithin r = g.complexityWithin r := by
  have hblock : ∀ id, ((placeless.graph g).block? id).elim 0 (·.decisions) =
      (g.block? id).elim 0 (·.decisions) := by
    intro id
    rw [block?_graph]
    cases g.block? id <;> rfl
  unfold Graph.complexityWithin Graph.decisions
  simp only [hblock, ids_placeless]

theorem passesTo?_placeless (id : BlockId) : (placeless.graph g).passesTo? id = g.passesTo? id := by
  unfold Graph.passesTo?
  rw [block?_graph]
  cases g.block? id with
  | none => rfl
  | some b =>
    show (placeless.block b).passesTo? = b.passesTo?
    unfold BasicBlock.passesTo?
    rw [successors_placeless]
    rfl

theorem passOver_placeless (unpassed : List BlockId) (id : BlockId) :
    (placeless.graph g).passOver unpassed id = g.passOver unpassed id := by
  -- The recursion follows `passesTo?`, which both graphs share.
  fun_induction Graph.passOver g unpassed id with
  | case1 unpassed id hmem next hnext ih =>
    rw [Graph.passOver, dif_pos hmem, passesTo?_placeless, hnext]
    exact ih
  | case2 unpassed id hmem hstop =>
    rw [Graph.passOver, dif_pos hmem, passesTo?_placeless, hstop]
  | case3 unpassed id hmem => rw [Graph.passOver, dif_neg hmem]

@[simp] theorem normalize_placeless : (placeless.graph g).normalize = g.normalize := by
  funext id
  unfold Graph.normalize
  rw [passOver_placeless, ids_placeless]

@[simp] theorem successor?_placeless (id : BlockId) :
    (placeless.graph g).successor? id = g.successor? id := by
  unfold Graph.successor?
  rw [block?_graph]
  cases g.block? id with
  | none => rfl
  | some b => simp only [Option.map_some, BasicBlock.normalSuccessors, successors_placeless]

@[simp] theorem withoutJump?_placeless (id : BlockId) :
    (placeless.graph g).withoutJump? id = g.withoutJump? id := by
  unfold Graph.withoutJump?
  rw [block?_graph, normalize_placeless]
  cases g.block? id <;> rfl

end View

/-! ## Flows that agree -/

/-- The flows are the same but for spans of blocks. -/
structure Flow.Agrees (flow flow' : Flow) : Prop where
  graph : View.placeless.graph flow.graph = View.placeless.graph flow'.graph
  reachability : flow.reachability = flow'.reachability
  metrics : flow.metrics = flow'.metrics

/-- A body has the flow that it has without parentheses. -/
theorem Flow.build_unparen (types : Subtyping) (body : Block) :
    (∃ failure, Flow.build types body = .error failure ∧ Flow.build types body.unparen =
      .error failure) ∨
      ∃ flow flow', Flow.build types body = .ok flow ∧ Flow.build types body.unparen = .ok flow' ∧
        flow.Agrees flow' := by
  unfold Flow.build
  rcases Graph.build_unparen types body with ⟨failure, hg, hg'⟩ | ⟨g, g', hg, hg', hsame⟩
  · rw [hg, hg']
    exact Or.inl ⟨failure, rfl, rfl⟩
  · rw [hg, hg']
    have hreach : g.reachability = g'.reachability := by
      rw [← View.reachability_placeless g, hsame, View.reachability_placeless]
    have hcomplexity : ∀ r, g.complexityWithin r = g'.complexityWithin r := fun r => by
      rw [← View.complexityWithin_placeless g, hsame, View.complexityWithin_placeless]
    refine Or.inr ⟨_, _, rfl, rfl, hsame, hreach, ?_⟩
    show Metrics.ofBody body g g.reachability = Metrics.ofBody body.unparen g' g'.reachability
    unfold Metrics.ofBody
    rw [hcomplexity, hreach, Block.nestingLevel_unparen, Block.variableCount_unparen]
    rfl

/-! ## Rules -/

/-- Rules see the same in both contexts. -/
structure MethodContext.Agrees (c c' : MethodContext) : Prop where
  file : c.file = c'.file
  settings : c.settings = c'.settings
  name : c.method.name = c'.method.name
  span : c.method.span = c'.method.span
  nesting : c.body.nestingLevel = c'.body.nestingLevel
  flow : c.flow = none ∧ c'.flow = none ∨
    ∃ flow flow', c.flow = some flow ∧ c'.flow = some flow' ∧ flow.Agrees flow'

namespace MethodContext.Agrees

variable {c c' : MethodContext} (h : c.Agrees c')

include h

theorem report (info : RuleInfo) (message : String) (span : Option Span) :
    c.report info message span = c'.report info message span := by
  unfold MethodContext.report MethodContext.position
  rw [h.file, h.span]

theorem reportMethod (info : RuleInfo) (message : String) :
    c.reportMethod info message = c'.reportMethod info message := by
  unfold MethodContext.reportMethod
  rw [h.report, h.span]

theorem isSome_flow : c.flow.isSome = c'.flow.isSome := by
  rcases h.flow with ⟨hf, hf'⟩ | ⟨flow, flow', hf, hf', _⟩
  · rw [hf, hf']
  · rw [hf, hf']
    rfl

end MethodContext.Agrees

theorem MaxDepth.check_agrees {c c' : MethodContext} (h : c.Agrees c') :
    MaxDepth.rule.check c = MaxDepth.rule.check c' := by
  unfold MaxDepth.rule
  simp only [h.settings, h.nesting, h.name, h.reportMethod]

theorem MaxComplexity.check_agrees {c c' : MethodContext} (h : c.Agrees c') :
    MaxComplexity.rule.check c = MaxComplexity.rule.check c' := by
  unfold MaxComplexity.rule
  rcases h.flow with ⟨hf, hf'⟩ | ⟨flow, flow', hf, hf', hflow⟩
  · simp only [hf, hf']
  · simp only [hf, hf', hflow.metrics, h.settings, h.name, h.reportMethod]

theorem BrainMethod.check_agrees {c c' : MethodContext} (h : c.Agrees c') :
    BrainMethod.rule.check c = BrainMethod.rule.check c' := by
  unfold BrainMethod.rule
  rcases h.flow with ⟨hf, hf'⟩ | ⟨flow, flow', hf, hf', hflow⟩
  · simp only [hf, hf']
  · simp only [hf, hf', hflow.metrics, h.settings, h.name, h.reportMethod]

namespace UnreachableCode

/-- What is said of a dead region does not depend on the spans of blocks. -/
theorem report?_placeless (c : MethodContext) (g : Graph) (region : List BlockId) :
    report? c (View.placeless.graph g) region = report? c g region := by
  have hfirst : firstElement? (View.placeless.graph g) region = firstElement? g region := by
    unfold firstElement?
    congr 1
    funext id
    rw [View.block?_graph]
    cases g.block? id <;> rfl
  have hstart : startsWithHandler (View.placeless.graph g) region = startsWithHandler g region := by
    unfold startsWithHandler
    cases region with
    | nil => rfl
    | cons id region =>
      show ((View.placeless.graph g).block? id).any _ = (g.block? id).any _
      rw [View.block?_graph]
      cases g.block? id <;> rfl
  unfold report? message
  rw [hfirst, hstart]

theorem check_agrees {c c' : MethodContext} (h : c.Agrees c') : rule.check c = rule.check c' := by
  unfold rule
  rcases h.flow with ⟨hf, hf'⟩ | ⟨flow, flow', hf, hf', hflow⟩
  · simp only [hf, hf']
  · have hregions : flow.deadRegions = flow'.deadRegions := by
      unfold Flow.deadRegions
      rw [← View.deadRegions_placeless, hflow.graph, View.deadRegions_placeless, hflow.reachability]
    have hreport : report? c flow.graph = report? c' flow'.graph := by
      funext region
      rw [← report?_placeless c, hflow.graph, report?_placeless]
      unfold report?
      simp only [h.report]
    simp only [hf, hf', hregions, hreport]

end UnreachableCode

namespace RedundantJump

/-- The place of a jump is seen. -/
theorem terminatorSpan_placeless {b : BasicBlock} {word : String}
    (hw : word? b.terminator = some word) :
    (View.placeless.block b).terminatorSpan = b.terminatorSpan := by
  have hjump : b.terminator.isJump = true := by
    cases ht : b.terminator with
    | returning _ | continuing _ => rfl
    | _ =>
      rw [ht] at hw
      exact nomatch hw
  show (if b.terminator.isJump then b.terminatorSpan else none) = b.terminatorSpan
  rw [if_pos hjump]

theorem report?_placeless (c : MethodContext) (g : Graph) (id : BlockId) :
    report? c (View.placeless.graph g) id = report? c g id := by
  unfold report?
  rw [View.block?_graph]
  cases hb : g.block? id with
  | none => rfl
  | some b =>
    have hredundant : isRedundant (View.placeless.graph g) id (View.placeless.block b) =
        isRedundant g id b := by
      unfold isRedundant
      rw [View.successor?_placeless, View.withoutJump?_placeless, View.normalize_placeless]
      rfl
    have hterm : (View.placeless.block b).terminator = b.terminator := rfl
    simp only [Option.map_some, Option.bind_eq_bind, Option.bind_some, hterm, hredundant]
    cases hw : word? b.terminator with
    | none => rfl
    | some word =>
      unfold report
      rw [Option.bind_some, Option.bind_some, terminatorSpan_placeless hw]

theorem check_agrees {c c' : MethodContext} (h : c.Agrees c') : rule.check c = rule.check c' := by
  unfold rule
  rcases h.flow with ⟨hf, hf'⟩ | ⟨flow, flow', hf, hf', hflow⟩
  · simp only [hf, hf']
  · have hids : flow.graph.ids = flow'.graph.ids := by
      rw [← View.ids_placeless, hflow.graph, View.ids_placeless]
    have hreport : report? c flow.graph = report? c' flow'.graph := by
      funext id
      rw [← report?_placeless c, hflow.graph, report?_placeless]
      unfold report? report
      simp only [h.report]
    simp only [hf, hf', hids, hflow.reachability, hreport]

end RedundantJump

/-- Each built-in rule says the same of contexts that agree. -/
theorem Rule.check_builtin {c c' : MethodContext} (h : c.Agrees c') :
    ∀ rule ∈ Rule.builtin, rule.check c = rule.check c' := by
  intro rule hr
  simp only [Rule.builtin, List.mem_cons, List.not_mem_nil, or_false] at hr
  rcases hr with rfl | rfl | rfl | rfl | rfl
  · exact UnreachableCode.check_agrees h
  · exact MaxComplexity.check_agrees h
  · exact MaxDepth.check_agrees h
  · exact RedundantJump.check_agrees h
  · exact BrainMethod.check_agrees h

/-! ## Engines -/

/-- A registry says the same of contexts that agree if its rules do. -/
theorem Registry.run_agrees {r : Registry} {c c' : MethodContext} (h : c.Agrees c')
    (hrules : ∀ rule ∈ r.rules, rule.check c = rule.check c') : r.run c = r.run c' := by
  have happlies : r.applies c = r.applies c' := by
    funext rule
    unfold Registry.applies
    rw [h.isSome_flow]
  unfold Registry.run
  rw [happlies, List.flatMap_def, List.flatMap_def]
  refine congrArg _ (List.map_congr_left fun rule hr => ?_)
  unfold Registry.runRule
  rw [hrules rule (List.mem_filter.mp hr).1]

namespace Engine

variable (settings : Settings)

/-- Parentheses make contexts that agree. -/
theorem context_unparen (file : String) (method : Method) (body : Block) :
    ((ofSettings settings).context file method body).Agrees
      ((ofSettings settings).context file method.unparen body.unparen) where
  file := rfl
  settings := rfl
  name := rfl
  span := rfl
  nesting := body.nestingLevel_unparen.symm
  flow := by
    unfold context
    rcases Flow.build_unparen (ofSettings settings).settings.hierarchy.subtyping body with
      ⟨failure, hf, hf'⟩ | ⟨flow, flow', hf, hf', hflow⟩
    · rw [hf, hf']
      exact Or.inl ⟨rfl, rfl⟩
    · rw [hf, hf']
      exact Or.inr ⟨flow, flow', rfl, rfl, hflow⟩

/-- Parentheses make no difference to what is said of a method. -/
theorem checkMethod_unparen (file : String) (method : Method) :
    (ofSettings settings).checkMethod file method.unparen =
    (ofSettings settings).checkMethod file method := by
  unfold checkMethod Method.unparen
  cases hb : method.body with
  | none => rfl
  | some body =>
    have hagrees := context_unparen settings file method body
    have hrun := Registry.run_agrees hagrees (r := (ofSettings settings).registry)
      (rules_ofSettings settings ▸ Rule.check_builtin hagrees)
    unfold Method.unparen at hrun
    rw [hb] at hrun
    exact hrun.symm

/-- Parentheses make no difference to what is said of a unit. -/
theorem analyze_unparen (unit : CompilationUnit) :
    (ofSettings settings).analyze unit.unparen = (ofSettings settings).analyze unit := by
  unfold analyze CompilationUnit.unparen
  rw [List.flatMap_map]
  simp only [checkMethod_unparen]

/-- Parentheses do not matter: files that differ by parentheses alone get the same reports, and
bodies that do fail to build for the same reason or have graphs that differ in spans only, and the
same measures. -/
theorem analyze_parentheses (settings : Settings) (types : Subtyping) :
    (∀ unit unit' : CompilationUnit, unit.unparen = unit'.unparen →
      (ofSettings settings).analyze unit = (ofSettings settings).analyze unit') ∧
    ∀ body body' : Block, body.unparen = body'.unparen →
      (∃ failure, Flow.build types body = .error failure ∧
        Flow.build types body' = .error failure) ∨
        ∃ flow flow', Flow.build types body = .ok flow ∧ Flow.build types body' = .ok flow' ∧
          View.placeless.graph flow.graph = View.placeless.graph flow'.graph ∧
          flow.metrics = flow'.metrics := by
  refine ⟨fun unit unit' h => ?_, fun body body' h => ?_⟩
  · rw [← analyze_unparen settings unit, h, analyze_unparen]
  · have hbody := Flow.build_unparen types body
    have hbody' := Flow.build_unparen types body'
    rw [h] at hbody
    rcases hbody with ⟨failure, hf, hu⟩ | ⟨flow, bare, hf, hu, hflow⟩
    · rcases hbody' with ⟨failure', hf', hu'⟩ | ⟨flow', bare', hf', hu', hflow'⟩
      · cases hu.symm.trans hu'
        exact Or.inl ⟨failure, hf, hf'⟩
      · exact nomatch hu.symm.trans hu'
    · rcases hbody' with ⟨failure', hf', hu'⟩ | ⟨flow', bare', hf', hu', hflow'⟩
      · exact nomatch hu.symm.trans hu'
      · cases hu.symm.trans hu'
        exact Or.inr ⟨flow, flow', hf, hf', hflow.graph.trans hflow'.graph.symm,
          hflow.metrics.trans hflow'.metrics.symm⟩

/-- Parentheses where they are read: around a test, a target, `this` and what is thrown. -/
def wrappedBody : Block where
  stmts :=
    [.whileStmt (.paren (.name "c" {}) ⟨1, 1, 1, 4⟩)
      (.expr
        (.assign .assign (.paren (.name "x" {}) {}) (.member (.paren (.this {}) {}) "f" {}) {}) {})
          {},
      .throwStmt (.paren (.new "IOException" [] [] {}) {}) {}]
  span := {}

def plainBody : Block where
  stmts :=
    [.whileStmt (.name "c" {})
      (.expr (.assign .assign (.name "x" {}) (.member (.this {}) "f" {}) {}) {}) {},
      .throwStmt (.new "IOException" [] [] {}) {}]
  span := {}

/-- A file with one method. -/
def fileOf (body : Block) : CompilationUnit where
  methods := [{ name := "m", body := some body }]

/-- Every loop is one too many. -/
def loopless : Settings where
  thresholds := { complexity := 1, depth := 0 }

/-- The two bodies have equal reports, and these are not empty. -/
theorem analyze_parentheses_wrappedBody :
    wrappedBody.unparen = plainBody.unparen ∧
      (ofSettings loopless).analyze (fileOf wrappedBody) =
      (ofSettings loopless).analyze (fileOf plainBody) ∧
      (((ofSettings loopless).analyze (fileOf plainBody)).map (·.message)).Perm
        ["Method 'm' has a cyclomatic complexity of 2 (max: 1)",
          "Method 'm' has a nesting depth of 1 (max: 0)"] ∧
      ∃ flow flow', Flow.build ClassHierarchy.javaLang.subtyping wrappedBody = .ok flow ∧
        Flow.build ClassHierarchy.javaLang.subtyping plainBody = .ok flow' ∧
          flow.metrics = flow'.metrics := by
  have hbody : wrappedBody.unparen = plainBody.unparen := rfl
  obtain ⟨hunits, hbodies⟩ := analyze_parentheses loopless ClassHierarchy.javaLang.subtyping
  refine ⟨hbody, hunits _ _ ?_, ?_, ?_⟩
  · simp only [fileOf, CompilationUnit.unparen, Method.unparen, List.map_cons, List.map_nil,
      Option.map_some, hbody]
  · refine ((Diagnostic.perm_sort _).map _).trans (List.Perm.of_eq ?_)
    decide +kernel
  · rcases hbodies _ _ hbody with ⟨failure, hf, _⟩ | ⟨flow, flow', hf, hf', _, hm⟩
    · obtain ⟨g, hg⟩ := Except.failure?_eq_none_iff.mp
        ((Graph.failure?_build ClassHierarchy.javaLang.subtyping wrappedBody).trans rfl)
      rw [Flow.build, hg] at hf
      exact nomatch hf
    · exact ⟨flow, flow', hf, hf', hm⟩

end Engine

end MethodFlow
