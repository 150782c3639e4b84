import MethodFlow.Tree.Basic

/-!
# Classes that can be thrown

A `ClassHierarchy` maps classes to their superclasses. It is open: a class without an entry is not
known, and nothing is said about what it extends. `Throwable` is the root; every class is below it,
and it is known without an entry. Entries come from settings as well, so they may form a cycle; the
walk towards the root therefore makes at most one step for every entry.
-/

namespace MethodFlow

namespace Throwable

/-- The class above everything that can be thrown. -/
def root : TypeName := "Throwable"

def exception : TypeName := "Exception"

def runtimeException : TypeName := "RuntimeException"

def error : TypeName := "Error"

/-- What any piece of code may throw without saying so. -/
def unchecked : List TypeName := [runtimeException, error]

end Throwable

/-- Classes and their superclasses, each class at most once. -/
structure ClassHierarchy where
  parents : List (TypeName × TypeName) := []
  deriving Inhabited

namespace ClassHierarchy

/-- The hierarchy in which only the root is known. -/
def empty : ClassHierarchy := {}

/-- The number of classes with a superclass entry. -/
def size (h : ClassHierarchy) : Nat := h.parents.length

def superclass? (h : ClassHierarchy) (cls : TypeName) : Option TypeName := h.parents.lookup cls

/-- Gives a class its superclass, in place of any that it had. -/
def insert (h : ClassHierarchy) (cls superclass : TypeName) : ClassHierarchy :=
  ⟨(cls, superclass) :: h.parents.filter (·.1 != cls)⟩

/-- Adds entries in order, so that the last one for a class stays. -/
def extend (h : ClassHierarchy) (entries : List (TypeName × TypeName)) : ClassHierarchy :=
  entries.foldl (fun h entry => h.insert entry.1 entry.2) h

/-- Whether the hierarchy says what is above a class. -/
def contains (h : ClassHierarchy) (cls : TypeName) : Bool :=
  cls == Throwable.root || (h.superclass? cls).isSome

/-- Whether `sup` is met within `n` tests on the way up from `cls`. -/
def meets (h : ClassHierarchy) (sup : TypeName) : Nat → TypeName → Bool
  | 0, _ => false
  | n + 1, cls =>
    cls == sup ||
      match h.superclass? cls with
      | some above => h.meets sup n above
      | none => false

/-- Whether `sub` is `sup` or below it. One test more than there are entries is enough, since a
longer way up passes some class twice. -/
def isSubtype (h : ClassHierarchy) (sub sup : TypeName) : Bool :=
  sup == Throwable.root || h.meets sup (h.size + 1) sub

/-- The throwable classes of the standard library that methods commonly name. -/
def javaLang : ClassHierarchy :=
  empty.extend
    [ ("Exception", "Throwable"),
      ("Error", "Throwable"),
      ("RuntimeException", "Exception"),
      ("IOException", "Exception"),
      ("FileNotFoundException", "IOException"),
      ("EOFException", "IOException"),
      ("UncheckedIOException", "RuntimeException"),
      ("InterruptedException", "Exception"),
      ("ReflectiveOperationException", "Exception"),
      ("ClassNotFoundException", "ReflectiveOperationException"),
      ("CloneNotSupportedException", "Exception"),
      ("TimeoutException", "Exception"),
      ("ExecutionException", "Exception"),
      ("IllegalArgumentException", "RuntimeException"),
      ("NumberFormatException", "IllegalArgumentException"),
      ("IllegalStateException", "RuntimeException"),
      ("NullPointerException", "RuntimeException"),
      ("ArithmeticException", "RuntimeException"),
      ("ClassCastException", "RuntimeException"),
      ("IndexOutOfBoundsException", "RuntimeException"),
      ("ArrayIndexOutOfBoundsException", "IndexOutOfBoundsException"),
      ("StringIndexOutOfBoundsException", "IndexOutOfBoundsException"),
      ("UnsupportedOperationException", "RuntimeException"),
      ("ConcurrentModificationException", "RuntimeException"),
      ("NoSuchElementException", "RuntimeException"),
      ("SecurityException", "RuntimeException"),
      ("AssertionError", "Error"),
      ("OutOfMemoryError", "VirtualMachineError"),
      ("StackOverflowError", "VirtualMachineError"),
      ("VirtualMachineError", "Error") ]

end ClassHierarchy

end MethodFlow
