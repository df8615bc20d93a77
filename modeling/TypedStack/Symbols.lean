import TypedStack.Symbol

/-! Members that emission looks up by shape. -/
namespace TypedStack

structure Symbols where
  constructors : List Method
  /-- The runtime can show constant data as a read-only view. -/
  hasBlobView : Bool
  deriving DecidableEq, Repr

/-- How constant data is read through a view: made from a handle, then pinned. -/
structure BlobView where
  create : Method
  view : Ty
  pin : Method
  deriving DecidableEq, Repr

namespace Symbols

def constructor (owner : Ty) (params : List Parameter) : Method :=
  { name := ".ctor", owner, kind := .constructor, isStatic := false, isVirtual := false,
    isReadonly := false, result := .void, resultMode := .byValue, params }

def delegateConstructor (owner : Ty) : Method :=
  constructor owner
    [⟨"object", 0, .object, .byValue, .unscoped⟩, ⟨"method", 1, .nint, .byValue, .unscoped⟩]

def constructorsOf (s : Symbols) (ty : Ty) : List Method :=
  s.constructors.filter (·.owner == ty)

def blobView? (s : Symbols) (element : Ty) : Option BlobView :=
  if s.hasBlobView then
    let view := Ty.structNamed ("ReadOnlySpan<" ++ element.name ++ ">") true true
    some
      { create :=
          { name := "CreateSpan<" ++ element.name ++ ">", owner := .classNamed "RuntimeHelpers",
            kind := .ordinary, isStatic := true, isVirtual := false, isReadonly := false,
            result := view, resultMode := .byValue,
            params := [⟨"fldHandle", 0, .nint, .byValue, .unscoped⟩] }
        view
        pin :=
          { name := "GetPinnableReference", owner := view, kind := .ordinary, isStatic := false,
            isVirtual := false, isReadonly := true, result := element,
            resultMode := .refReadonly, params := [] } }
  else none

end Symbols

end TypedStack
