import TypedStack.Emit.Plan

/-! Blocks allocated on the stack. The address of the block stays on the stack while the block
is filled: entry by entry, in one go from constant data, or the constants in one go and then the
other entries. -/
namespace TypedStack

inductive FillStyle where
  | element
  | block
  | mixed
  deriving DecidableEq, Repr

def FillStyle.classify (entries constants : Nat) : FillStyle :=
  if entries ≤ 2 then .element
  else if entries = constants then .block
  else if max (entries / 3) 3 ≤ constants then .mixed
  else .element

inductive DataCopy where
  | repeated (byte : UInt8)
  /-- Bytes have no order to mind. -/
  | bytes
  | view (v : BlobView)
  /-- There is no way to copy entries wider than a byte. -/
  | unavailable

namespace Emit

def blittable? (elem : Ty) : Option Prim := elem.primitive?.filter Prim.isBlittable

def fillStyle (env : Env) (elem : Ty) (inits : List Expr) : FillStyle :=
  if env.blobInitializers && (blittable? elem).isSome then
    .classify inits.length (inits.countP Expr.isConstant)
  else .element

/-! ### The size of the block -/

/-- The size of a block of `count` elements, where it fits an immediate. -/
def foldedSize? (elem : Ty) (count : Expr) : Option Int32 := do
  let size ← elem.size?
  let n ← count.constant.bind Constant.immediate?
  let bytes := n.toUInt32.toNat * size
  if bytes < UInt32.size - 1 then some (UInt32.ofNat bytes).toInt32 else none

def elementSize (elem : Ty) : Emit Unit :=
  match elem.size? with
  | some size => int (Int32.ofNat size)
  | none => instr (.sizeof elem)

def blockSize (elem : Ty) (count : Plan) : Emit Unit :=
  match foldedSize? elem count.expr with
  | some size => do
    int size
    instr (.conv .u .unchecked)
  | none => do
    count.value true
    instr (.conv .u .unchecked)
    when (elem.size? != some 1) do
      elementSize elem
      instr .mulOvfUn

/-! ### Entry by entry -/

def elementOffset (elem : Ty) (index : Nat) : Emit Unit :=
  if index = 0 then pure ()
  else if elem.size? = some 1 then do
    int (Int32.ofNat index)
    instr .add
  else if index = 1 then do
    elementSize elem
    instr .add
  else do
    int (Int32.ofNat index)
    instr (.conv .i .unchecked)
    elementSize elem
    instr .mul
    instr .add

def fillElement (elem : Ty) (index : Nat) (p : Plan) : Emit Unit := do
  instr .dup
  elementOffset elem index
  p.value true
  instr (.stind (.store elem))

/-- Fill the entries from an index on, those that are constant only if asked to. -/
def fillElements (elem : Ty) (constants : Bool) (index : Nat) : List Plan → Emit Unit
  | [] => pure ()
  | p :: rest => do
    when (constants || !p.expr.isConstant) (fillElement elem index p)
    fillElements elem constants (index + 1) rest

/-! ### From constant data -/

/-- The bytes of one entry; one that is not constant is left zero. -/
def entryBytes (p : Prim) (e : Expr) : Except Fault (List UInt8) :=
  match e.constant with
  | none => .ok (List.replicate (p.size?.getD 0) 0)
  | some c =>
    match c.layout? p with
    | some bytes => .ok bytes
    | none => .error (.noLayout c p)

def blockBytes (p : Prim) : List Expr → Except Fault (List UInt8)
  | [] => .ok []
  | e :: rest => do
    let first ← entryBytes p e
    let others ← blockBytes p rest
    return first ++ others

def dataCopy (env : Env) (elem : Ty) (size : Nat) (data : List UInt8) : DataCopy :=
  match data with
  | b :: rest =>
    if rest.all (· == b) then .repeated b else wide
  | [] => wide
where
  wide : DataCopy :=
    if size = 1 then .bytes
    else match env.symbols.blobView? elem with
      | some v => .view v
      | none => .unavailable

def missingView (elem : Ty) (span : Span) : Diagnostic :=
  (((Diagnostic.plain .note ("initializing stackalloc of '" ++ elem.name ++
    "' element by element") span).withCode .missingBlobView).withRemark span
    ("no blob view helper for '" ++ elem.name ++ "' elements") false).withSuggestion
    "provide RuntimeHelpers.CreateSpan<T> to copy constant data in one block"

def copyRepeated (byte : UInt8) (length : Nat) : Emit Unit := do
  instr .dup
  int (Int32.ofNat byte.toNat)
  int (Int32.ofNat length)
  instr .initblk

def copyBytes (data : List UInt8) : Emit Unit := do
  let token ← intern ⟨data, 1⟩
  instr .dup
  instr (.blobAddress token)
  int (Int32.ofNat data.length)
  instr (.cpblk none)

def copyThroughView (v : BlobView) (size : Nat) (data : List UInt8) : Emit Unit := do
  let token ← intern ⟨data, size⟩
  instr .dup
  instr (.blobHandle token)
  instr (.call v.create)
  let temp ← allocate v.view false
  instr (.slot .store temp)
  instr (.slot .address temp)
  instr (.call v.pin)
  int (Int32.ofNat data.length)
  instr (.cpblk (some size))
  free temp

/-- Fill from data. What the data leaves out of a mixed block is then filled entry by entry. -/
def fillFromData (env : Env) (elem : Ty) (inits : List Plan) (size : Nat) (data : List UInt8)
    (style : FillStyle) (span : Span) : Emit Unit :=
  let others := when (style == .mixed) (fillElements elem false 0 inits)
  match dataCopy env elem size data with
  | .repeated byte => do
    copyRepeated byte data.length
    others
  | .bytes => do
    copyBytes data
    others
  | .view v => do
    copyThroughView v size data
    others
  | .unavailable => do
    report (missingView elem span)
    fillElements elem true 0 inits

def fill (env : Env) (elem : Ty) (inits : List Plan) (span : Span) : Emit Unit :=
  let exprs := inits.map Plan.expr
  match fillStyle env elem exprs with
  | .element => fillElements elem true 0 inits
  | style =>
    match blittable? elem with
    | none => fail (.blockOfNonBlittable elem) span
    | some p =>
      match blockBytes p exprs with
      | .error fault => fail fault span
      | .ok data => fillFromData env elem inits (p.size?.getD 1) data style span

/-- What the entries do happens also when nobody wants the block. -/
def discardEntries (inits : List Plan) : Emit Unit := do
  inits.forM fun p => p.value false
  instr .pop

/-- The allocation itself can fail, so it is made even when the block is not used. -/
def stackalloc (env : Env) (elem : Ty) (count : Plan) (inits : List Plan) (used : Bool)
    (span : Span) : Emit Unit := do
  blockSize elem count
  instr .localloc
  if used then fill env elem inits span else discardEntries inits

end Emit

end TypedStack
