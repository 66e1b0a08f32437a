import CilForge.IntKind

/-!
# Methods of the platform

The platform methods that work on enums by reflection, and the tests that recognise a call to one
of them.
-/

namespace CilForge.Platform

def getTypeFromHandle : MethodRef :=
  ⟨.system "Type", "GetTypeFromHandle",
    { ret := .system "Type", params := [.valueType (.system "RuntimeTypeHandle")] }⟩

def enumGetValues : MethodRef :=
  ⟨.system "Enum", "GetValues", { ret := .system "Array", params := [.system "Type"] }⟩

def enumIsDefined : MethodRef :=
  ⟨.system "Enum", "IsDefined", { ret := .bool, params := [.system "Type", .object] }⟩

def enumGetUnderlyingType : MethodRef :=
  ⟨.system "Enum", "GetUnderlyingType", { ret := .system "Type", params := [.system "Type"] }⟩

def enumHasFlag : MethodRef :=
  ⟨.system "Enum", "HasFlag", { hasThis := true, ret := .bool, params := [.system "Enum"] }⟩

def objectToString : MethodRef :=
  ⟨.system "Object", "ToString", { hasThis := true, ret := .string }⟩

def objectEquals : MethodRef :=
  ⟨.system "Object", "Equals", { hasThis := true, ret := .bool, params := [.object] }⟩

def invalidOperation : MethodRef :=
  ⟨.system "InvalidOperationException", ".ctor", { hasThis := true }⟩

def convertToString (k : IntKind) : MethodRef :=
  ⟨.system "Convert", "ToString", { ret := .string, params := [k.sig] }⟩

def isGetTypeFromHandle (m : MethodRef) : Bool := m.isNamed (.system "Type") "GetTypeFromHandle" 1

def isEnumGetValues (m : MethodRef) : Bool :=
  m.isNamed (.system "Enum") "GetValues" 1 && !m.sig.hasThis

def isEnumIsDefined (m : MethodRef) : Bool :=
  m.isNamed (.system "Enum") "IsDefined" 2 && !m.sig.hasThis

def isEnumGetUnderlyingType (m : MethodRef) : Bool :=
  m.isNamed (.system "Enum") "GetUnderlyingType" 1

def isEnumHasFlag (m : MethodRef) : Bool :=
  m.isNamed (.system "Enum") "HasFlag" 1 && m.sig.hasThis

/-- The bases from which an enum has its virtual methods. -/
def isEnumBase (name : TypeName) : Bool :=
  name = .system "Object" || name = .system "ValueType" || name = .system "Enum"

def isVirtualToString (m : MethodRef) : Bool :=
  m.sig.hasThis && m.name = "ToString" && m.sig.params = [] && isEnumBase m.declaring

def isVirtualEquals (m : MethodRef) : Bool :=
  m.sig.hasThis && m.name = "Equals" && m.sig.params = [.object] && isEnumBase m.declaring

def isConvertToString (m : MethodRef) : Bool := m.isNamed (.system "Convert") "ToString" 1

end CilForge.Platform
