import JvmCalls.Method.Signature
import JvmCalls.Settings.Document

/-! Signatures and code locations as documents. Unknown parts are null. -/
namespace JvmCalls

/-- All three parts are written, the unknown ones as null. -/
def MethodSignature.toDocument (s : MethodSignature) : Document :=
  .record [
    ("class", Document.ofOption .text s.owner),
    ("method", Document.ofOption .text s.name),
    ("descriptor", Document.ofOption .text s.descriptor)]

def CodeLocation.toDocument (l : CodeLocation) : Document :=
  .record [
    ("signature", l.signature.toDocument),
    ("offset", .int l.address.offset),
    ("line", Document.ofOption (fun n => .int n.toNat) l.line)]

end JvmCalls
