import CilForge.Machine.Fault
import CilForge.Region

/-!
# Faults

Everything that can go wrong, by cause. The wording of each cause is in one place, and a fault is
local if it concerns a single method only, so that the work on others can go on.
-/

namespace CilForge

/-- Input that is understood and not handled. -/
inductive Unsupported where
  | notEnum (name : TypeName)
  | genericEnum (name : TypeName)
  | noValueField (name : TypeName)
  | underlyingType (name : TypeName) (sig : Sig)
  | constantKind (name : TypeName) (field : String)
  | enumBase (sig : Sig)
  | notValueType (sig : Sig)
  | computedString
  | argumentSource (opcode : Opcode)
  | argumentType (enum underlying : Sig)
  | handlerFlags (flags : RegionFlags)
  | sharedRange
  | partialOverlap
  | strayEndfinally (at' : Handle)
  | endlessHandler (region : Nat)
  | loadedLeave (at' : Handle)
  | depthMismatch (at' : Handle) (known new : Nat)
  | depthUnderflow (at' : Handle)
  | note (text : String)
deriving DecidableEq

def Unsupported.text : Unsupported → String
  | notEnum name => s!"{name.text} is not an enum"
  | genericEnum name => s!"{name.text} is generic"
  | noValueField name => s!"{name.text} has no value__ field"
  | underlyingType name sig => s!"{name.text} has unsupported underlying type {sig.text}"
  | constantKind name field => s!"{name.text}::{field} has a non-integer constant"
  | enumBase sig => s!"Enum underlying type {sig.text} is not an integer"
  | notValueType sig => s!"{sig.text} is not a non-generic value type"
  | computedString => "IsDefined with a computed string argument"
  | argumentSource opcode => s!"IsDefined argument produced by {opcode.mnemonic}"
  | argumentType enum underlying =>
    s!"IsDefined argument is not a {enum.text} or {underlying.text}"
  | handlerFlags flags => s!"{flags.text} handler cannot be flattened"
  | sharedRange => "Regions share a protected range"
  | partialOverlap => "Regions partially overlap"
  | strayEndfinally h => s!"{h.text} is outside any handler"
  | endlessHandler region => s!"Finally handler {region} has no endfinally"
  | loadedLeave h => s!"{h.text} leaves with a non-empty stack"
  | depthMismatch h known new => s!"Inconsistent stack depth at {h.text}: {known} and {new}"
  | depthUnderflow h => s!"Stack underflow at {h.text}"
  | note text => text

/-- A rule of the data model that would be broken. -/
inductive Violation where
  | unknownInstr (at' : Handle)
  | tooManyLocals
  | noSuccessor (at' : Handle)
  | noRegionSuccessor (at' : Handle)
  | operandKind (at' : Handle) (instr : Instr)
  | danglingTarget (target at' : Handle)
  | undeclaredLocal (index : Nat) (at' : Handle)
  | danglingBoundary (at' : Handle)
  | emptyRegion (at' : Handle)
  | danglingDepth (at' : Handle)
  | duplicateLabel (label : String)
  | cannotEmit (instr : Instr)
  | notBranch (opcode : Opcode)
  | undefinedLabel (label : String)
  | labelPastEnd (label : String)
  | noEnclosingType (index : Nat)
  | noType (index : Nat)
  | methodGone (type index : Nat)
  | helperGone (name : String)
  | unlinkedBoundary (at' : Handle)
  | noTarget (at' : Handle)
  | notBehind (last first : Handle)
  | noStateSlot (node : Nat)
  | note (text : String)
deriving DecidableEq

def Violation.text : Violation → String
  | unknownInstr h => s!"Instruction {h.text} is not part of this body"
  | tooManyLocals => "Too many locals in method body"
  | noSuccessor h => s!"Cannot remove {h.text} - branch references have no successor"
  | noRegionSuccessor h => s!"Cannot remove {h.text} - region start has no successor"
  | operandKind h instr => s!"Malformed operand at {h.text}: {instr.text}"
  | danglingTarget target h => s!"Dangling branch target {target.text} at {h.text}"
  | undeclaredLocal index h => s!"Undeclared local {index} at {h.text}"
  | danglingBoundary h => s!"Dangling region boundary {h.text}"
  | emptyRegion h => s!"Empty or inverted region at {h.text}"
  | danglingDepth h => s!"Dangling instruction {h.text} in depth scan"
  | duplicateLabel label => s!"Label '{label}' defined twice"
  | cannotEmit instr => s!"Cannot emit '{instr.text}' directly"
  | notBranch opcode => s!"'{opcode.mnemonic}' is not a branch"
  | undefinedLabel label => s!"Label '{label}' is never defined"
  | labelPastEnd label => s!"Branch to label '{label}' past the end"
  | noEnclosingType index => s!"Enclosing type {index} does not exist"
  | noType index => s!"Type {index} does not exist"
  | methodGone type index => s!"Method {type}:{index} vanished"
  | helperGone name => s!"Helper {name} vanished"
  | unlinkedBoundary h => s!"Region boundary {h.text} is not linked"
  | noTarget h => s!"{h.text} has no target"
  | notBehind last first => s!"{last.text} does not follow {first.text}"
  | noStateSlot node => s!"Region node {node} has no state slot"
  | note text => text

/-- Bytes that do not make sense. -/
inductive Damage where
  | range (offset len size : Nat)
  | note (text : String)
deriving DecidableEq

def Damage.text : Damage → String
  | range offset len size => s!"Range {offset}+{len} exceeds image of {size} bytes"
  | note text => text

inductive Fault where
  | unresolved (name : String)
  | unsupported (cause : Unsupported)
  | invariant (cause : Violation)
  | malformed (cause : Damage)
  | file
  | locked (path : String)
  | machine (cause : MachineFault)
  | other (text : String)
deriving DecidableEq

namespace Fault

def text : Fault → String
  | unresolved name => s!"Unresolved reference - {name}"
  | unsupported cause => s!"Unsupported - {cause.text}"
  | invariant cause => s!"Invariant violation - {cause.text}"
  | malformed cause => s!"Malformed - {cause.text}"
  | file => "FileError"
  | locked path => s!"File is locked by another process - {path}"
  | machine cause => s!"Emulation failed - {cause.text}"
  | other text => text

/-- Whether the fault concerns one method only. -/
def isLocal : Fault → Bool
  | unresolved _ | unsupported _ | invariant _ => true
  | _ => false

end Fault

end CilForge
