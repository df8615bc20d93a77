/-! What the emitter may be told to do differently. -/
namespace TypedStack

structure Options where
  /-- Emit only what older verifiers accept. -/
  verifierCompat : Bool
  /-- Constant data may be copied into place as a block. -/
  blobInitializers : Bool
  deriving DecidableEq, Repr

namespace Options

def standard : Options := ⟨false, true⟩

def isStandard (o : Options) : Bool := o == standard

end Options

end TypedStack
