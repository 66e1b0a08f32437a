import CilForge.Instr

/-!
# Why an emulated run stops

Values are kept as their texts: a fault outlives the heap that its values point into.
-/

namespace CilForge

inductive MachineFault where
  /-- Not a fault that is ever seen: the text of a value is being made and has no end. -/
  | endless
  | instructionLimit
  | callDepthLimit
  | fellOffEnd
  | stackUnderflow
  | strayEndfinally
  | noInstruction (at' : Handle)
  | noLocal (index : Nat)
  | noArgument (index : Nat)
  | notAddress (value : String)
  | notArray (value : String)
  | noTypeOperand (instr : Instr)
  | noMethodOperand (instr : Instr)
  | noIndexOperand (instr : Instr)
  | noTarget (instr : Instr)
  | malformedInstr (instr : Instr)
  | unsupportedOpcode (opcode : Opcode)
  | expectedInt32 (value : String)
  | expectedInteger (value : String)
  | arithmetic (opcode : Opcode)
  | notBinary (opcode : Opcode)
  | mixedOperands (opcode : Opcode) (left right : String)
  | cannotShift (value : String)
  | cannotApply (opcode : Opcode) (value : String)
  | cannotConvert (value : String)
  | notConversion (opcode : Opcode)
  | cannotCompare (left right : String)
  | cannotOrder (left right : String)
  | notComparison (opcode : Opcode)
  | cannotUnbox (value : String) (sig : Sig)
  | negativeSize (count : Int)
  | indexRange (index : Int)
  | expectedType (value : String)
  | expectedBox (value : String)
  | nullReference
  | notEnum (sig : Sig)
  | arguments (what : String)
  | definedMismatch (sig : Sig) (enum : TypeName)
  | flagMismatch (left right : Sig)
  | noFormat (sig : Sig)
  | noFormatter (method : MethodRef)
  | noHostBinding (method : MethodRef)
  | noHostResult (method : MethodRef)
  | undefinedMethod (method : MethodRef) (module : String)
  | noBody (method : MethodRef)
  | noObject (method : MethodRef)
  | noValue (method : MethodRef)
  | unexpectedValue (method : MethodRef)
  | calleeThrew (method : MethodRef) (value : String)
  | returnedVoid
  | threw (value : String)
  | note (text : String)
deriving DecidableEq

namespace MachineFault

def text : MachineFault → String
  | endless => ""
  | instructionLimit => "instruction limit exceeded"
  | callDepthLimit => "call depth limit exceeded"
  | fellOffEnd => "execution fell off the end of the method"
  | stackUnderflow => "evaluation stack underflow"
  | strayEndfinally => "endfinally reached without a pending leave"
  | noInstruction h => s!"no instruction {h.text}"
  | noLocal index => s!"no local V_{index}"
  | noArgument index => s!"no argument {index}"
  | notAddress value => s!"{value} is not an address"
  | notArray value => s!"{value} is not an array"
  | noTypeOperand instr => s!"{instr.text} has no type operand"
  | noMethodOperand instr => s!"{instr.text} has no method operand"
  | noIndexOperand instr => s!"{instr.text} has no index operand"
  | noTarget instr => s!"{instr.text} has no target"
  | malformedInstr instr => s!"malformed {instr.text}"
  | unsupportedOpcode opcode => s!"{opcode.mnemonic} is not supported by the emulator"
  | expectedInt32 value => s!"expected int32, found {value}"
  | expectedInteger value => s!"expected integer, found {value}"
  | arithmetic opcode => s!"arithmetic fault in {opcode.mnemonic}"
  | notBinary opcode => s!"{opcode.mnemonic} is not binary"
  | mixedOperands opcode left right =>
    s!"{opcode.mnemonic} operands {left} and {right} have different types"
  | cannotShift value => s!"cannot shift {value}"
  | cannotApply opcode value => s!"cannot apply {opcode.mnemonic} to {value}"
  | cannotConvert value => s!"cannot convert {value}"
  | notConversion opcode => s!"{opcode.mnemonic} is not a conversion"
  | cannotCompare left right => s!"cannot compare {left} and {right}"
  | cannotOrder left right => s!"cannot order {left} and {right}"
  | notComparison opcode => s!"{opcode.mnemonic} is not a comparison"
  | cannotUnbox value sig => s!"cannot unbox {value} as {sig.text}"
  | negativeSize count => s!"negative array size {count}"
  | indexRange index => s!"index {index} out of range"
  | expectedType value => s!"expected System.Type, found {value}"
  | expectedBox value => s!"expected boxed value, found {value}"
  | nullReference => "null reference"
  | notEnum sig => s!"{sig.text} is not an enum"
  | arguments what => what
  | definedMismatch sig enum => s!"IsDefined argument type {sig.text} does not match {enum.text}"
  | flagMismatch left right => s!"HasFlag type mismatch: {left.text} and {right.text}"
  | noFormat sig => s!"no ToString model for {sig.text}"
  | noFormatter method => s!"no formatter model for {method.text}"
  | noHostBinding method => s!"no host binding for {method.text}"
  | noHostResult method => s!"recording host cannot produce a result for {method.text}"
  | undefinedMethod method module => s!"{method.text} is not defined in {module}"
  | noBody method => s!"{method.text} has no body"
  | noObject method => s!"{method.text} produced no object"
  | noValue method => s!"{method.text} returned no value"
  | unexpectedValue method => s!"{method.text} returned an unexpected value"
  | calleeThrew method value => s!"{method.text} threw {value}"
  | returnedVoid => "method returned void"
  | threw value => s!"method threw {value}"
  | note text => text

end MachineFault

end CilForge
