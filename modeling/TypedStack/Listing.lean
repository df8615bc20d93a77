import TypedStack.Stream

/-! Instructions as text, one a line. -/
namespace TypedStack

def ConvTarget.text : ConvTarget → String
  | i1 => "i1"
  | i2 => "i2"
  | i4 => "i4"
  | i8 => "i8"
  | u1 => "u1"
  | u2 => "u2"
  | u4 => "u4"
  | u8 => "u8"
  | i => "i"
  | u => "u"
  | r4 => "r4"
  | r8 => "r8"
  | rUn => "r.un"

def Width.text : Width → String
  | i1 => "i1"
  | u1 => "u1"
  | i2 => "i2"
  | u2 => "u2"
  | i4 => "i4"
  | u4 => "u4"
  | i8 => "i8"
  | i => "i"
  | r4 => "r4"
  | r8 => "r8"
  | reference => "ref"
  | whole ty => "obj " ++ ty.name

def Access.mnemonic (place : String) : Access → String
  | load => "ld" ++ place
  | address => "ld" ++ place ++ "a"
  | store => "st" ++ place

namespace Instr

def text : Instr → String
  | dup => "dup"
  | pop => "pop"
  | ldcI4 v => "ldc.i4 " ++ toString v.toInt
  | ldcI8 v => "ldc.i8 " ++ toString v.toInt
  | ldcR4 b => "ldc.r4 " ++ (Binary.Format.single.decode b.toNat).text .single
  | ldcR8 b => "ldc.r8 " ++ (Binary.Format.double.decode b.toNat).text .double
  | ldnull => "ldnull"
  | arg a n => a.mnemonic "arg" ++ " " ++ toString n
  | slot a s => a.mnemonic "loc" ++ " " ++ s.text
  | field a f => a.mnemonic "fld" ++ " " ++ f.text
  | staticField a f => a.mnemonic "sfld" ++ " " ++ f.text
  | blobAddress t => "ldsflda " ++ t.text
  | blobHandle t => "ldtoken " ++ t.text
  | ldelem ty => "ldelem " ++ ty.name
  | ldelema ty readonly => (if readonly then "readonly. " else "") ++ "ldelema " ++ ty.name
  | stelem ty => "stelem " ++ ty.name
  | ldind (.whole ty) => "ldobj " ++ ty.name
  | ldind w => "ldind." ++ w.text
  | stind (.whole ty) => "stobj " ++ ty.name
  | stind w => "stind." ++ w.text
  | initobj ty => "initobj " ++ ty.name
  | box ty => "box " ++ ty.name
  | unboxAny ty => "unbox.any " ++ ty.name
  | castclass ty => "castclass " ++ ty.name
  | conv t .unchecked => "conv." ++ t.text
  | conv t .checked => "conv.ovf." ++ t.text
  | conv t .checkedUnsigned => "conv.ovf." ++ t.text ++ ".un"
  | add => "add"
  | mul => "mul"
  | mulOvfUn => "mul.ovf.un"
  | constrained ty => "constrained. " ++ ty.name
  | call m => "call " ++ m.text
  | callvirt m => "callvirt " ++ m.text
  | newobj m => "newobj " ++ m.text
  | ldftn m => "ldftn " ++ m.text
  | ldvirtftn m => "ldvirtftn " ++ m.text
  | localloc => "localloc"
  | initblk => "initblk"
  | cpblk none => "cpblk"
  | cpblk (some n) => "unaligned. " ++ toString n ++ " cpblk"
  | sizeof ty => "sizeof " ++ ty.name
  | refanyval ty => "refanyval " ++ ty.name
  | throw => "throw"
  | br l => "br " ++ l.text
  | brtrue l => "brtrue " ++ l.text
  | brfalse l => "brfalse " ++ l.text
  | label l => l.text ++ ":"

end Instr

def Stream.listing (s : Stream) : String := "\n".intercalate (s.code.toList.map Instr.text)

end TypedStack
