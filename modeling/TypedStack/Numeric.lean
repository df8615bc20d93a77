import TypedStack.Instr

/-! Conversions between primitive numbers. Integers narrower than 32 bits lie on the stack
already extended to 32 bits, so much of the table is empty. -/
namespace TypedStack.Numeric

def conv (target : ConvTarget) (checked unsigned : Bool) : Instr :=
  .conv target (if checked then (if unsigned then .checkedUnsigned else .checked) else .unchecked)

/-- The value keeps its bits; only the check is needed. -/
def checkOnly (target : ConvTarget) (checked unsigned : Bool) : List Instr :=
  if checked then [conv target true unsigned] else []

/-- The code that takes a number of type `source` on the stack to type `target`; none if one of
the two is no number. -/
def conversion (source target : Prim) (checked : Bool) : Option (List Instr) :=
  let unsigned := source.isUnsigned
  if source = .bool then none
  else match target with
  | .bool => none
  | .i8 => some <| match source with
    | .i8 => []
    | _ => [conv .i1 checked unsigned]
  | .u8 => some <| match source with
    | .u8 => []
    | _ => [conv .u1 checked unsigned]
  | .i16 => some <| match source with
    | .i8 | .u8 | .i16 => []
    | _ => [conv .i2 checked unsigned]
  | .char | .u16 => some <| match source with
    | .u8 | .u16 | .char => []
    | _ => [conv .u2 checked unsigned]
  | .i32 => some <| match source with
    | .i8 | .u8 | .i16 | .u16 | .i32 | .char => []
    | .u32 => checkOnly .i4 checked true
    | _ => [conv .i4 checked unsigned]
  | .u32 => some <| match source with
    | .u8 | .u16 | .u32 | .char => []
    | .i8 | .i16 | .i32 => checkOnly .u4 checked false
    | _ => [conv .u4 checked unsigned]
  | .nint => some <| match source with
    | .nint => []
    | .i8 | .i16 | .i32 => [conv .i false false]
    | .u8 | .u16 | .char => [conv .u false false]
    | .u32 => if checked then [conv .i true true] else [conv .u false false]
    | .nuint => checkOnly .i checked true
    | .u64 => [conv .i checked true]
    | _ => [conv .i checked false]
  | .nuint => some <| match source with
    | .nuint => []
    | .u8 | .u16 | .u32 | .char => [conv .u false false]
    | .nint => checkOnly .u checked false
    -- without a check a narrow signed source is extended by its sign
    | .i8 | .i16 | .i32 => if checked then [conv .u true false] else [conv .i false false]
    | .u64 => [conv .u checked true]
    | _ => [conv .u checked false]
  | .i64 => some <| match source with
    | .i64 => []
    | .i8 | .i16 | .i32 | .nint => [conv .i8 false false]
    | .u8 | .u16 | .u32 | .char => [conv .u8 false false]
    | .nuint => if checked then [conv .i8 true true] else [conv .u8 false false]
    | .u64 => checkOnly .i8 checked true
    | _ => [conv .i8 checked false]
  | .u64 => some <| match source with
    | .u64 => []
    | .u8 | .u16 | .u32 | .nuint | .char => [conv .u8 false false]
    | .i8 | .i16 | .i32 | .nint =>
      if checked then [conv .u8 true false] else [conv .i8 false false]
    | .i64 => checkOnly .u8 checked false
    | _ => [conv .u8 checked false]
  | .f32 => some (fromUnsigned source ++ [conv .r4 false false])
  | .f64 => some (fromUnsigned source ++ [conv .r8 false false])
where
  /-- Unsigned sources of 32 bits and more are first read as unsigned. -/
  fromUnsigned : Prim → List Instr
    | .u32 | .u64 | .nuint => [conv .rUn false false]
    | _ => []

end TypedStack.Numeric
