import MethodFlow.Lint.Limits
import MethodFlow.Lint.RedundantJump
import MethodFlow.Lint.Registry
import MethodFlow.Lint.UnreachableCode

/-!
# Analysing files

The engine runs the built-in rules over every method of a file that has a body and puts the reports
in order. Methods are looked at one by one; what is found in one does not depend on the others.
-/

namespace MethodFlow

/-- The built-in rules, in the order in which they run. -/
def Rule.builtin : List Rule :=
  [UnreachableCode.rule, MaxComplexity.rule, MaxDepth.rule, RedundantJump.rule, BrainMethod.rule]

/-- A registry that the built-in rules have been added to. -/
def Registry.builtin : Registry := registerAll {} Rule.builtin

/-- A registry with the settings that its rules read. -/
structure Engine where
  registry : Registry
  settings : Settings

namespace Engine

/-- The built-in rules under the given settings. -/
def ofSettings (settings : Settings) : Engine where
  registry := Registry.builtin.configure settings.rules
  settings := settings

theorem rules_ofSettings (settings : Settings) :
    (ofSettings settings).registry.rules = Rule.builtin :=
  Registry.rules_configure Registry.builtin settings.rules

/-- The identifiers of the rules that run. -/
def enabledIds (e : Engine) : List String :=
  (e.registry.rules.map (·.info.id)).filter e.registry.isEnabled

/-- What a rule sees of a method: the flow is absent when the graph cannot be built. -/
def context (e : Engine) (file : String) (method : Method) (body : Block) : MethodContext where
  file := file
  method := method
  body := body
  flow := (Flow.build e.settings.hierarchy.subtyping body).toOption
  settings := e.settings

/-- The reports about one method, none if it has no body. -/
def checkMethod (e : Engine) (file : String) (method : Method) : List Diagnostic :=
  match method.body with
  | none => []
  | some body => e.registry.run (e.context file method body)

/-- The reports about a file, in order. -/
def analyze (e : Engine) (unit : CompilationUnit) : List Diagnostic :=
  Diagnostic.sort (unit.methods.flatMap (e.checkMethod unit.filename))

/-- The reports about several files. -/
def analyzeAll (e : Engine) (units : List CompilationUnit) : List (List Diagnostic) :=
  units.map e.analyze

end Engine

end MethodFlow
