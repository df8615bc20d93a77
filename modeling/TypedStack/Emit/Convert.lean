import TypedStack.Emit.Plan
import TypedStack.Numeric

/-! Conversions. -/
namespace TypedStack.Emit

def numeric (source target : Prim) (checked : Bool) (span : Span) : Emit Unit :=
  match Numeric.conversion source target checked with
  | some code => instrs code
  | none => fail (.numericOfNonNumeric source target) span

/-- A pointer converts as an address-sized unsigned integer. -/
def pointerPrim? (ty : Ty) : Option Prim := if ty.isPointer then some .nuint else ty.primitive?

def boxValue (ty : Ty) : Emit Unit := when (!ty.isVerifierReference) (instr (.box ty))

def convertPushed (i : Info) (operand : Info) (c : Conversion) : Emit Unit :=
  let source := operand.ty
  let target := i.ty
  match c.kind with
  | .identity =>
    -- a cast to a float that was written rounds what the stack holds more precisely
    if c.written && i.constant.isNone && operand.constant.isNone then
      match target.primitive? with
      | some .f32 => numeric .f32 .f32 false i.span
      | some .f64 => numeric .f64 .f64 false i.span
      | _ => pure ()
    else pure ()
  | .implicitNumeric | .explicitNumeric | .implicitEnumeration | .explicitEnumeration =>
    match source.primitive?, target.primitive? with
    | some p, some q => numeric p q c.checked i.span
    | _, _ => fail (.numericOfNonPrimitive source target) i.span
  | .implicitReference | .boxing => do
    boxValue source
    when (!target.isVerifierReference) (instr (.unboxAny target))
  | .explicitReference | .unboxing => do
    boxValue source
    instr (if target.isVerifierReference then .castclass target else .unboxAny target)
  | .pointerToPointer | .pointerToVoid => pure ()
  | .pointerToInteger | .integerToPointer =>
    match pointerPrim? source, pointerPrim? target with
    | some p, some q => numeric p q c.checked i.span
    | _, _ => fail (.pointerToNonIntegral source target) i.span
  | .nullToPointer | .methodGroup | .implicitUserDefined | .explicitUserDefined
  | .implicitNullable | .explicitNullable => fail (.notLowered c.kind target) i.span

def convertLoad (i : Info) (operand : Plan) (c : Conversion) (used : Bool) : Emit Unit :=
  match c.kind with
  | .methodGroup => fail (.methodGroup i.ty) i.span
  | .nullToPointer => do
    nullPointer
    popUnless used
  | _ =>
    if !used && !c.hasEffect then operand.value false
    else do
      operand.value true
      convertPushed i operand.expr.info c
      popUnless used

end TypedStack.Emit
