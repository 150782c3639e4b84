import MethodFlow.Flow
import MethodFlow.Lint.Diagnostic
import MethodFlow.Settings.Basic

/-!
# Rules

A rule looks at one method at a time and reports what it finds. A flow-sensitive rule needs the
method's graph, and is not asked about a method that has none.
-/

namespace MethodFlow

/-- What a rule is about. -/
inductive Category where
  | quality
  | complexity
  deriving DecidableEq, Inhabited

namespace Category

def name : Category → String
  | quality => "Quality"
  | complexity => "Complexity"

end Category

/-- What is known of a rule without running it. -/
structure RuleInfo where
  id : String
  name : String
  description : String
  category : Category
  severity : Severity
  flowSensitive : Bool := false
  docsUrl : Option String := none
  examples : Option String := none
  deriving DecidableEq, Inhabited

namespace RuleInfo

/-- Whether a list of references names the rule, by its identifier or by its name. -/
def isAmong (info : RuleInfo) (refs : List String) : Bool :=
  refs.contains info.id || refs.contains info.name

end RuleInfo

/-- A method with a body, as a rule sees it. -/
structure MethodContext where
  file : String
  method : Method
  body : Block
  /-- Absent when the graph of the body could not be built. -/
  flow : Option Flow
  settings : Settings

namespace MethodContext

/-- Where to report a finding: at its own span or, if that is not known, at the method. -/
def position (c : MethodContext) (span : Option Span) : Position :=
  match span with
  | some s => if s.isUnknown then c.method.span.position else s.position
  | none => c.method.span.position

/-- A report of a rule at a span of the method. -/
def report (c : MethodContext) (info : RuleInfo) (message : String) (span : Option Span) :
    Diagnostic where
  ruleId := info.id
  severity := info.severity
  message := message
  file := c.file
  start := c.position span

/-- A report of a rule about the method as a whole. -/
def reportMethod (c : MethodContext) (info : RuleInfo) (message : String) : Diagnostic :=
  c.report info message (some c.method.span)

end MethodContext

/-- A rule: what is known of it, and what it reports about a method. -/
structure Rule where
  info : RuleInfo
  check : MethodContext → List Diagnostic

end MethodFlow
