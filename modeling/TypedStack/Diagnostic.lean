import TypedStack.Span

/-! Messages to whoever wrote the source text. -/
namespace TypedStack

inductive ErrorCode where
  | badDelegateConstructor
  | missingBlobView
  deriving DecidableEq, Repr

namespace ErrorCode

def text : ErrorCode → String
  | badDelegateConstructor => "E0301"
  | missingBlobView => "E0302"

def description : ErrorCode → String
  | badDelegateConstructor => "delegate type does not have a valid constructor"
  | missingBlobView => "runtime helper for read-only blob views is unavailable"

def help? : ErrorCode → Option String
  | badDelegateConstructor =>
    some "delegate types must declare a constructor taking (object, native int)"
  | missingBlobView => none

end ErrorCode

inductive Severity where
  | error
  | warning
  | note
  deriving DecidableEq, Repr

def Severity.text : Severity → String
  | error => "error"
  | warning => "warning"
  | note => "note"

structure Remark where
  span : Span
  message : String
  primary : Bool
  deriving DecidableEq, Repr

structure Diagnostic where
  severity : Severity
  code : Option ErrorCode
  message : String
  span : Span
  remarks : List Remark
  suggestions : List String
  deriving DecidableEq, Repr

namespace Diagnostic

def plain (severity : Severity) (message : String) (span : Span) : Diagnostic :=
  ⟨severity, none, message, span, [], []⟩

/-- The last code given counts; the help of every one given is kept. -/
def withCode (d : Diagnostic) (code : ErrorCode) : Diagnostic :=
  { d with code := some code, suggestions := d.suggestions ++ code.help?.toList }

def withRemark (d : Diagnostic) (span : Span) (message : String) (primary : Bool) : Diagnostic :=
  { d with remarks := d.remarks ++ [⟨span, message, primary⟩] }

def withSuggestion (d : Diagnostic) (text : String) : Diagnostic :=
  { d with suggestions := d.suggestions ++ [text] }

def isError (d : Diagnostic) : Bool := d.severity == .error

def text (d : Diagnostic) : String :=
  let code := match d.code with
    | some c => "[" ++ c.text ++ "]"
    | none => ""
  d.severity.text ++ code ++ " at " ++ d.span.text ++ ": " ++ d.message

end Diagnostic

structure Reports where
  entries : Array Diagnostic
  deriving Repr

namespace Reports

def empty : Reports := ⟨#[]⟩

def size (r : Reports) : Nat := r.entries.size

def push (r : Reports) (d : Diagnostic) : Reports := ⟨r.entries.push d⟩

def hasErrors (r : Reports) : Bool := r.entries.any Diagnostic.isError

def take (r : Reports) : List Diagnostic × Reports := (r.entries.toList, empty)

end Reports

end TypedStack
