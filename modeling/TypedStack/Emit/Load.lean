import TypedStack.Emit.Basic

/-! Loading constants. -/
namespace TypedStack.Emit

def nullPointer : Emit Unit := do
  int 0
  instr (.conv .u .unchecked)

/-- An address-sized integer goes through the narrowest constant that holds it. -/
def addressSized (v : Int64) (target : ConvTarget) : Emit Unit := do
  instr (if Constant.fitsInt32 v then .ldcI4 v.toInt32 else .ldcI8 v)
  instr (.conv target .unchecked)

/-- An integral constant at the type it is wanted at; types without a number are loaded as
32-bit integers. -/
def integral (c : Constant) (v : Int64) (ty : Ty) (span : Span) : Emit Unit :=
  match ty.primitive?.getD .i32 with
  | .i64 | .u64 => instr (.ldcI8 v)
  | .nint => addressSized v .i
  | .nuint => addressSized v .u
  | .f32 => instr (.ldcR4 (single (.ofInt v.toInt)))
  | .f64 => instr (.ldcR8 (double (.ofInt v.toInt)))
  | _ =>
    match c.immediate? with
    | some v => int v
    | none => fail (.immediateTooWide c ty) span

def constant (c : Constant) (ty : Ty) (span : Span) : Emit Unit :=
  match c with
  | .null => if ty.isPointer then nullPointer else instr .ldnull
  | .float32 bits => instr (.ldcR4 bits)
  | .float64 bits => instr (.ldcR8 bits)
  | .bool _ | .char _ | .int _ | .uint _ => integral c (c.integral?.getD 0) ty span

end TypedStack.Emit
